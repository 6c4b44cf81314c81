import HonorKernel.InodeLayer
import HonorKernel.Ownership

namespace InodeLayer
open DiskFormat CacheView Ownership
open Runs (upTo)

-- Where an inode keeps block numbers.
inductive Place where
  | direct (i : Fin inodeNumDirect)
  | indirect
  | entry (i : Fin inodeNumIndirect)
  deriving DecidableEq

-- The inode table lies below the one bitmap block and the data blocks above it.
structure Layout (sb : SuperBlock) : Prop where
  table : sb.inodeStart.toNat+(sb.numInodes.toNat-1)/inodePerBlock < sb.bitmapStart.toNat
  bitmap : sb.bitmapStart.toNat < sb.numBlocks.toNat
  single : sb.numBlocks.toNat ≤ bitPerBlock

def InTable (sb : SuperBlock) (no : Usize) : Prop := 0 < no.toNat ∧ no.toNat < sb.numInodes.toNat

def dataBlock (sb : SuperBlock) (b : Usize) : Prop := sb.bitmapStart.toNat < b.toNat ∧ b.toNat < sb.numBlocks.toNat

def used (sb : SuperBlock) (v : View) (b : Usize) : Prop := bitmapGet (v.blocks (bitmapBlock sb)) b.toNat = true

def reference (a : U32) : Option Usize := if a = 0#32 then none else some (a.setWidth 64)

def refsOf (v : View) (e : InodeEntry) : Place → Option Usize
  | .direct i => reference (e.addrs i)
  | .indirect => reference e.indirect
  | .entry i => if e.indirect = 0#32 then none else reference (getAddr (v.blocks (e.indirect.setWidth 64)) i.val)

-- The structure in memory is the inode once it is loaded, else the table's entry.
def entryOf (sb : SuperBlock) (fs : Fs) (no : Usize) : InodeEntry :=
  match fs.inodes no with
  | some inode => inode.entry
  | none => diskEntry sb fs.cache no

-- `live` tells which inode numbers are allocated.
def refs (sb : SuperBlock) (live : Usize → Bool) (fs : Fs) (slot : Usize × Place) : Option Usize :=
  if live slot.1 then refsOf fs.cache (entryOf sb fs slot.1) slot.2 else none

structure Owned (sb : SuperBlock) (live : Usize → Bool) (fs : Fs) : Prop where
  inTable : ∀ no, live no = true → InTable sb no
  loaded : ∀ p inode, fs.inodes p = some inode → live p = true ∧ inode.inodeNo = p ∧ inode.valid = true
  low : ∀ b : Usize, b.toNat ≤ sb.bitmapStart.toNat → used sb fs.cache b
  balanced : Balanced (dataBlock sb) (refs sb live fs) (used sb fs.cache)

section Addresses
variable {sb : SuperBlock} {no other b : Usize}

theorem bitmapBlock_toNat (sb : SuperBlock) : (bitmapBlock sb).toNat = sb.bitmapStart.toNat := by
  unfold bitmapBlock
  rw [BitVec.toNat_setWidth,Nat.mod_eq_of_lt (by omega)]

theorem toBlockNo_toNat (sb : SuperBlock) (no : Usize) :
    (toBlockNo sb no).toNat = (sb.inodeStart.toNat+no.toNat/inodePerBlock)%2^64 := by
  have start : sb.inodeStart.toNat%2^64 = sb.inodeStart.toNat := Nat.mod_eq_of_lt (by omega)
  have slots : no.toNat/inodePerBlock < 2^64 := Nat.lt_of_le_of_lt (Nat.div_le_self _ _) no.isLt
  unfold toBlockNo
  rw [BitVec.toNat_add,BitVec.toNat_setWidth,BitVec.toNat_ofNat,start,Nat.mod_eq_of_lt slots]

theorem Layout.tableBlock (layout : Layout sb) (inTable : InTable sb no) :
    (toBlockNo sb no).toNat = sb.inodeStart.toNat+no.toNat/inodePerBlock ∧
      (toBlockNo sb no).toNat < sb.bitmapStart.toNat := by
  have below : no.toNat/inodePerBlock ≤ (sb.numInodes.toNat-1)/inodePerBlock :=
    Nat.div_le_div_right (by have := inTable.2; omega)
  have table := layout.table
  have small : sb.bitmapStart.toNat < 2^32 := sb.bitmapStart.isLt
  have exact : (toBlockNo sb no).toNat = sb.inodeStart.toNat+no.toNat/inodePerBlock := by
    rw [toBlockNo_toNat,Nat.mod_eq_of_lt (by omega)]
  exact ⟨exact,by omega⟩

theorem Layout.sameBlock (layout : Layout sb) (left : InTable sb no) (right : InTable sb other)
    (same : toBlockNo sb no = toBlockNo sb other) (different : no ≠ other) :
    no.toNat%inodePerBlock ≠ other.toNat%inodePerBlock := by
  have one := (layout.tableBlock left).1
  have two := (layout.tableBlock right).1
  rw [same,two] at one
  intro slot
  have one : other.toNat/8 = no.toNat/8 := Nat.add_left_cancel one
  have slot : no.toNat%8 = other.toNat%8 := slot
  exact different (BitVec.eq_of_toNat_eq (by omega))

theorem Layout.apart (layout : Layout sb) (inTable : InTable sb no) (inData : dataBlock sb b) :
    b ≠ toBlockNo sb no ∧ b ≠ bitmapBlock sb ∧ toBlockNo sb no ≠ bitmapBlock sb := by
  have table := (layout.tableBlock inTable).2
  have bitmap := bitmapBlock_toNat sb
  refine ⟨?_,?_,?_⟩
  · intro same
    have above := inData.1
    rw [same] at above
    omega
  · intro same
    have above := inData.1
    rw [same] at above
    omega
  · intro same
    rw [same] at table
    omega

theorem reference_some {a : U32} (refers : reference a = some b) : a ≠ 0#32 ∧ a.setWidth 64 = b := by
  unfold reference at refers
  split at refers
  · cases refers
  · rename_i nonzero
    exact ⟨nonzero,Option.some.inj refers⟩

theorem reference_zero : reference 0#32 = none := rfl

theorem reference_of_ne {a : U32} (nonzero : a ≠ 0#32) : reference a = some (a.setWidth 64) := by
  unfold reference
  rw [if_neg nonzero]

end Addresses

-- What cache_alloc and cache_free do to the data blocks.
structure Takes (sb : SuperBlock) (v : View) (b : Usize) (v' : View) : Prop where
  inData : dataBlock sb b
  free : ¬ used sb v b
  zero : v'.blocks b = 0#4096
  others : ∀ c, c ≠ b → c ≠ bitmapBlock sb → v'.blocks c = v.blocks c
  marks : ∀ c, used sb v' c ↔ c = b ∨ used sb v c

structure Gives (sb : SuperBlock) (v : View) (b : Usize) (v' : View) : Prop where
  others : ∀ c, c ≠ bitmapBlock sb → v'.blocks c = v.blocks c
  marks : ∀ c, used sb v' c ↔ c ≠ b ∧ used sb v c

section Blocks
variable {sb : SuperBlock} {v v' : View} {b : Usize} {ctx : Ctx}

theorem cacheAlloc_takes (low : ∀ c : Usize, c.toNat ≤ sb.bitmapStart.toNat → used sb v c)
    (ran : cacheAlloc sb ctx v = .ok (b,v')) : Takes sb v b v' := by
  obtain ⟨i,rfl,below,fits,free,_,rfl⟩ := cacheAlloc_spec ran
  have number : (BitVec.ofNat 64 i).toNat = i := by
    have fits : i < 4096 := fits
    rw [BitVec.toNat_ofNat,Nat.mod_eq_of_lt (by omega)]
  have clear : ¬ used sb v (BitVec.ofNat 64 i) := by
    unfold used
    rw [number,free]
    decide
  have inData : dataBlock sb (BitVec.ofNat 64 i) := by
    refine ⟨?_,by omega⟩
    by_contra reserved
    exact clear (low _ (by omega))
  have apart : bitmapBlock sb ≠ BitVec.ofNat 64 i := by
    intro same
    have above := inData.1
    rw [← same,bitmapBlock_toNat] at above
    omega
  refine ⟨inData,clear,?_,?_,?_⟩
  · simp
  · intro c other notBitmap
    simp [other,notBitmap]
  · intro c
    unfold used
    simp only [View.put_blocks,Function.update_of_ne apart,Function.update_self]
    rw [bitmapGet_set _ _ _ fits]
    by_cases same : c = BitVec.ofNat 64 i
    · subst same
      simp [number]
    · have different : c.toNat ≠ i := by
        intro equal
        exact same (BitVec.eq_of_toNat_eq (equal.trans number.symm))
      simp [same,different]

theorem cacheFree_gives (ran : cacheFree sb ctx b v = .ok v') : Gives sb v b v' := by
  obtain ⟨fits,rfl⟩ := cacheFree_spec ran
  refine ⟨?_,?_⟩
  · intro c notBitmap
    simp [notBitmap]
  · intro c
    unfold used
    simp only [View.put_blocks,Function.update_self]
    rw [bitmapGet_clear _ _ _ fits]
    by_cases same : c = b
    · subst same
      simp
    · have different : c.toNat ≠ b.toNat := fun equal => same (BitVec.eq_of_toNat_eq equal)
      simp [same,different]

theorem dataBlock_narrow (layout : Layout sb) (inData : dataBlock sb b) :
    (b.setWidth 32).setWidth 64 = b ∧ b.setWidth 32 ≠ 0#32 := by
  have small : b.toNat < 4096 := Nat.lt_of_lt_of_le inData.2 layout.single
  have narrow : (b.setWidth 32).toNat = b.toNat := by
    rw [BitVec.toNat_setWidth,Nat.mod_eq_of_lt (by omega)]
  refine ⟨?_,?_⟩
  · apply BitVec.eq_of_toNat_eq
    rw [BitVec.toNat_setWidth,narrow,Nat.mod_eq_of_lt (by omega)]
  · intro zero
    have above := inData.1
    rw [← narrow,zero] at above
    simp at above

end Blocks

-- Everything but inode `p` looks the same to those who follow block numbers.
structure Beside (sb : SuperBlock) (live : Usize → Bool) (p : Usize) (fs fs' : Fs) : Prop where
  inodes : ∀ no, no ≠ p → fs'.inodes no = fs.inodes no
  disk : ∀ no, InTable sb no → no ≠ p → diskEntry sb fs'.cache no = diskEntry sb fs.cache no
  indirect : ∀ no, live no = true → no ≠ p → (entryOf sb fs no).indirect ≠ 0#32 →
    fs'.cache.blocks ((entryOf sb fs no).indirect.setWidth 64) = fs.cache.blocks ((entryOf sb fs no).indirect.setWidth 64)

section Frames
variable {sb : SuperBlock} {live : Usize → Bool} {p : Usize} {fs fs' : Fs}

theorem Beside.entryOf (beside : Beside sb live p fs fs') (no : Usize) (inTable : InTable sb no) (other : no ≠ p) :
    entryOf sb fs' no = entryOf sb fs no := by
  unfold InodeLayer.entryOf
  rw [beside.inodes no other,beside.disk no inTable other]

theorem Beside.refs (beside : Beside sb live p fs fs') (owned : Owned sb live fs) (no : Usize) (other : no ≠ p)
    (place : Place) :
    refs sb live fs' (no,place) = refs sb live fs (no,place) := by
  unfold InodeLayer.refs
  by_cases alive : live no = true
  · simp only [alive,if_true]
    rw [beside.entryOf no (owned.inTable no alive) other]
    cases place with
    | direct i => rfl
    | indirect => rfl
    | entry i =>
      simp only [refsOf]
      by_cases none : (InodeLayer.entryOf sb fs no).indirect = 0#32
      · rw [if_pos none,if_pos none]
      · rw [if_neg none,if_neg none,beside.indirect no alive other none]
  · simp only [alive]
    rfl

theorem Beside.refl (fs : Fs) : Beside sb live p fs fs := ⟨fun _ _ => rfl,fun _ _ _ => rfl,fun _ _ _ _ => rfl⟩

theorem Beside.trans {fs'' : Fs} (owned : Owned sb live fs) (first : Beside sb live p fs fs')
    (second : Beside sb live p fs' fs'') :
    Beside sb live p fs fs'' := by
  refine ⟨?_,?_,?_⟩
  · intro no other
    rw [second.inodes no other,first.inodes no other]
  · intro no inTable other
    rw [second.disk no inTable other,first.disk no inTable other]
  · intro no alive other nonzero
    have same := first.entryOf no (owned.inTable no alive) other
    have later := second.indirect no alive other (by rw [same]; exact nonzero)
    rw [same] at later
    rw [later,first.indirect no alive other nonzero]

theorem refs_own (fs : Fs) (alive : live p = true) (found : fs.inodes p = some inode) (place : Place) :
    refs sb live fs (p,place) = refsOf fs.cache inode.entry place := by
  unfold refs entryOf
  simp [alive,found]

theorem Owned.indirect_data (owned : Owned sb live fs) (alive : live no = true)
    (nonzero : (entryOf sb fs no).indirect ≠ 0#32) :
    refs sb live fs (no,.indirect) = some ((entryOf sb fs no).indirect.setWidth 64) ∧
      dataBlock sb ((entryOf sb fs no).indirect.setWidth 64) ∧
      used sb fs.cache ((entryOf sb fs no).indirect.setWidth 64) := by
  have refers : refs sb live fs (no,.indirect) = some ((entryOf sb fs no).indirect.setWidth 64) := by
    unfold refs
    simp only [alive,if_true,refsOf]
    exact reference_of_ne nonzero
  exact ⟨refers,owned.balanced.sound _ _ refers⟩

theorem Owned.own_indirect (owned : Owned sb live fs) (found : fs.inodes p = some inode)
    (nonzero : inode.entry.indirect ≠ 0#32) :
    refs sb live fs (p,.indirect) = some (inode.entry.indirect.setWidth 64) := by
  rw [refs_own fs (owned.loaded p inode found).1 found .indirect]
  exact reference_of_ne nonzero

theorem Owned.keep {inode inode' : Inode} (owned : Owned sb live fs) (beside : Beside sb live p fs fs')
    (found : fs.inodes p = some inode)
    (found' : fs'.inodes p = some inode') (number : inode'.inodeNo = p) (valid : inode'.valid = true)
    (addrs : inode'.entry.addrs = inode.entry.addrs) (indirect : inode'.entry.indirect = inode.entry.indirect)
    (block : inode.entry.indirect ≠ 0#32 → fs'.cache.blocks (inode.entry.indirect.setWidth 64) =
      fs.cache.blocks (inode.entry.indirect.setWidth 64))
    (bitmap : fs'.cache.blocks (bitmapBlock sb) = fs.cache.blocks (bitmapBlock sb)) :
    Owned sb live fs' ∧ ∀ slot, refs sb live fs' slot = refs sb live fs slot := by
  have alive := (owned.loaded p inode found).1
  have same : ∀ slot, refs sb live fs' slot = refs sb live fs slot := by
    intro (no,place)
    by_cases own : no = p
    · subst own
      rw [refs_own fs alive found place,refs_own fs' alive found' place]
      cases place with
      | direct i => simp only [refsOf,addrs]
      | indirect => simp only [refsOf,indirect]
      | entry i =>
        simp only [refsOf,indirect]
        by_cases zero : inode.entry.indirect = 0#32
        · rw [if_pos zero,if_pos zero]
        · rw [if_neg zero,if_neg zero,block zero]
    · exact beside.refs owned no own place
  have marks : ∀ c, used sb fs'.cache c ↔ used sb fs.cache c := by
    intro c
    unfold used
    rw [bitmap]
  refine ⟨⟨owned.inTable,?_,fun c reserved => (marks c).mpr (owned.low c reserved),
    owned.balanced.congr same fun c _ => marks c⟩,same⟩
  intro q other there
  by_cases own : q = p
  · subst own
    rw [found'] at there
    cases there
    exact ⟨alive,number,valid⟩
  · rw [beside.inodes q own] at there
    exact owned.loaded q other there

-- A change outside the inode table that spares the indirect blocks of the others.
theorem Owned.beside_store (owned : Owned sb live fs)
    (inodes : ∀ no, no ≠ p → fs'.inodes no = fs.inodes no)
    (changed : ∀ c, fs'.cache.blocks c ≠ fs.cache.blocks c → (∀ no, InTable sb no → c ≠ toBlockNo sb no) ∧
      ∀ no, no ≠ p → refs sb live fs (no,.indirect) ≠ some c) : Beside sb live p fs fs' := by
  refine ⟨inodes,?_,?_⟩
  · intro no inTable _
    unfold diskEntry
    by_contra different
    have moved : fs'.cache.blocks (toBlockNo sb no) ≠ fs.cache.blocks (toBlockNo sb no) :=
      fun same => different (by rw [same])
    exact (changed _ moved).1 no inTable rfl
  · intro no alive other nonzero
    by_contra moved
    exact (changed _ moved).2 no other (owned.indirect_data alive nonzero).1

theorem Owned.used_of_ref (owned : Owned sb live fs) (refers : refs sb live fs slot = some c) :
    dataBlock sb c ∧ used sb fs.cache c := owned.balanced.sound slot c refers

theorem Takes.keeps (takes : Takes sb fs.cache b v) (owned : Owned sb live fs)
    (refers : refs sb live fs slot = some c) :
    c ≠ b ∧ v.blocks c = fs.cache.blocks c := by
  obtain ⟨inData,taken⟩ := owned.used_of_ref refers
  have other : c ≠ b := fun same => takes.free (same ▸ taken)
  refine ⟨other,takes.others c other ?_⟩
  intro same
  have above := inData.1
  rw [same,bitmapBlock_toNat] at above
  omega

theorem Takes.low (takes : Takes sb fs.cache b v) (owned : Owned sb live fs) (c : Usize)
    (reserved : c.toNat ≤ sb.bitmapStart.toNat) : used sb v c :=
  (takes.marks c).mpr (.inr (owned.low c reserved))

theorem Takes.table (layout : Layout sb) (takes : Takes sb w b v) (inTable : InTable sb no) :
    v.blocks (toBlockNo sb no) = w.blocks (toBlockNo sb no) := by
  obtain ⟨apart,_,bitmap⟩ := layout.apart inTable takes.inData
  exact takes.others _ (Ne.symm apart) bitmap

theorem Takes.beside (layout : Layout sb) (takes : Takes sb fs.cache b v) (owned : Owned sb live fs)
    (inodes : ∀ no, no ≠ p → fs'.inodes no = fs.inodes no) (cache : fs'.cache.blocks = v.blocks) :
    Beside sb live p fs fs' := by
  refine owned.beside_store inodes ?_
  intro c moved
  rw [cache] at moved
  refine ⟨?_,?_⟩
  · intro no inTable same
    rw [same,takes.table layout inTable] at moved
    exact moved rfl
  · intro no _ refers
    exact moved (takes.keeps owned refers).2

end Frames

-- How the loops of inode_write and inode_read change an inode: block numbers are only
-- added, and file blocks keep their content.
structure Grows (sb : SuperBlock) (live : Usize → Bool) (fs fs' : Fs) : Prop where
  refs : ∀ slot c, refs sb live fs slot = some c → refs sb live fs' slot = some c
  data : ∀ no place c, place ≠ .indirect → InodeLayer.refs sb live fs (no,place) = some c →
    fs'.cache.blocks c = fs.cache.blocks c

def Inode.setBlocks (inode : Inode) (addrs : Fin inodeNumDirect → U32) (indirect : U32) : Inode :=
  ⟨inode.lock,inode.rc,inode.inodeNo,inode.valid,⟨inode.entry.type,inode.entry.major,inode.entry.minor,
    inode.entry.numLinks,inode.entry.numBytes,addrs,indirect⟩⟩

structure Maps (sb : SuperBlock) (live : Usize → Bool) (p : Usize) (inode : Inode) (fs fs' : Fs) : Prop where
  owned : Owned sb live fs'
  beside : Beside sb live p fs fs'
  grows : Grows sb live fs fs'
  found : ∃ addrs indirect, fs'.inodes p = some (inode.setBlocks addrs indirect)
  type : (diskEntry sb fs'.cache p).type = (diskEntry sb fs.cache p).type ∨ (diskEntry sb fs'.cache p).type = inode.entry.type

section Mapping
variable {sb : SuperBlock} {live : Usize → Bool} {p : Usize} {fs fs' : Fs} {inode : Inode}

theorem Grows.refl (fs : Fs) : Grows sb live fs fs := ⟨fun _ _ refers => refers,fun _ _ _ _ _ => rfl⟩

theorem Grows.trans {fs'' : Fs} (first : Grows sb live fs fs') (second : Grows sb live fs' fs'') :
    Grows sb live fs fs'' := by
  refine ⟨fun slot c refers => second.refs slot c (first.refs slot c refers),?_⟩
  intro no place c data refers
  rw [second.data no place c data (first.refs _ c refers),first.data no place c data refers]

theorem Maps.refl (owned : Owned sb live fs) (found : fs.inodes p = some inode) : Maps sb live p inode fs fs :=
  ⟨owned,.refl fs,.refl fs,⟨_,_,found⟩,.inl rfl⟩

theorem Maps.trans {fs'' : Fs} (owned : Owned sb live fs) (first : Maps sb live p inode fs fs')
    (second : ∀ inode', fs'.inodes p = some inode' →
    Maps sb live p inode' fs' fs'') : Maps sb live p inode fs fs'' := by
  obtain ⟨addrs,indirect,found⟩ := first.found
  have later := second _ found
  obtain ⟨addrs',indirect',found'⟩ := later.found
  refine ⟨later.owned,first.beside.trans owned later.beside,first.grows.trans later.grows,⟨addrs',indirect',found'⟩,?_⟩
  rcases later.type with same | same
  · rw [same]; exact first.type
  · exact .inr same

theorem inodeSync_write (env : Env) (owned : Owned sb live fs) (found : fs.inodes p = some inode) :
    inodeSync env ctx p true fs = .ok (fs.setCache (writeEntry env.sblock ctx fs.cache p inode.entry)) := by
  obtain ⟨_,number,valid⟩ := owned.loaded p inode found
  simp [inodeSync,Fs.inode,found,valid,number,bind,Except.bind]

theorem writeEntry_other (layout : Layout sb) (v : View) (left : InTable sb p) (right : InTable sb no) (other : no ≠ p)
    (e : InodeEntry) : diskEntry sb (writeEntry sb ctx v p e) no = diskEntry sb v no := by
  unfold diskEntry writeEntry
  simp only [View.put_blocks]
  by_cases same : toBlockNo sb no = toBlockNo sb p
  · rw [same,Function.update_self]
    exact getEntry_putEntry_other _ e (layout.sameBlock left right same.symm (Ne.symm other))
  · rw [Function.update_of_ne same]

theorem writeEntry_own (v : View) (e : InodeEntry) : diskEntry sb (writeEntry sb ctx v p e) p = e := by
  unfold diskEntry writeEntry
  simp only [View.put_blocks,Function.update_self]
  exact getEntry_putEntry _ p e

theorem sync_maps (layout : Layout sb) (ctx : Ctx) (owned : Owned sb live fs) (found : fs.inodes p = some inode) :
    Maps sb live p inode fs (fs.setCache (writeEntry sb ctx fs.cache p inode.entry)) := by
  obtain ⟨alive,number,valid⟩ := owned.loaded p inode found
  have inTable := owned.inTable p alive
  have elsewhere : ∀ c, c ≠ toBlockNo sb p → (writeEntry sb ctx fs.cache p inode.entry).blocks c = fs.cache.blocks c := by
    intro c other
    unfold writeEntry
    simp [other]
  have kept : ∀ slot c, refs sb live fs slot = some c →
      (writeEntry sb ctx fs.cache p inode.entry).blocks c = fs.cache.blocks c := fun slot c refers =>
    elsewhere c (layout.apart inTable (owned.used_of_ref refers).1).1
  have beside : Beside sb live p fs (fs.setCache (writeEntry sb ctx fs.cache p inode.entry)) := by
    refine ⟨fun _ _ => rfl,?_,?_⟩
    · intro no there other
      exact writeEntry_other layout fs.cache inTable there other inode.entry
    · intro no alive _ nonzero
      exact kept _ _ (owned.indirect_data alive nonzero).1
  have bitmap : (writeEntry sb ctx fs.cache p inode.entry).blocks (bitmapBlock sb) = fs.cache.blocks (bitmapBlock sb) := by
    refine elsewhere _ ?_
    intro equal
    have table := (layout.tableBlock inTable).2
    rw [← equal,bitmapBlock_toNat] at table
    omega
  obtain ⟨still,same⟩ := owned.keep beside found found number valid rfl rfl
    (fun nonzero => kept _ _ (owned.own_indirect found nonzero)) bitmap
  refine ⟨still,beside,⟨?_,?_⟩,⟨_,_,found⟩,.inr ?_⟩
  · intro slot c refers
    rw [same]
    exact refers
  · intro no place c _ refers
    exact kept _ c refers
  · change (diskEntry sb (writeEntry sb ctx fs.cache p inode.entry) p).type = _
    rw [writeEntry_own]

theorem Owned.claim {inode' : Inode} (owned : Owned sb live fs) (beside : Beside sb live p fs fs')
    (found : fs.inodes p = some inode) (found' : fs'.inodes p = some inode') (number : inode'.inodeNo = p)
    (valid : inode'.valid = true) (takes : Takes sb fs.cache b v) (marks : ∀ c, used sb fs'.cache c ↔ used sb v c)
    (place : Place) (empty : refsOf fs.cache inode.entry place = none)
    (here : refsOf fs'.cache inode'.entry place = some b)
    (others : ∀ other, other ≠ place → refsOf fs'.cache inode'.entry other = refsOf fs.cache inode.entry other) :
    Owned sb live fs' ∧ refs sb live fs' (p,place) = some b ∧
      ∀ slot c, refs sb live fs slot = some c → refs sb live fs' slot = some c := by
  have alive := (owned.loaded p inode found).1
  have same : ∀ slot, slot ≠ (p,place) → refs sb live fs' slot = refs sb live fs slot := by
    intro (no,other) different
    by_cases own : no = p
    · subst own
      rw [refs_own fs alive found other,refs_own fs' alive found' other]
      refine others other ?_
      intro equal
      exact different (by rw [equal])
    · exact beside.refs owned no own other
  have vacant : refs sb live fs (p,place) = none := by rw [refs_own fs alive found place]; exact empty
  have filled : refs sb live fs' (p,place) = some b := by rw [refs_own fs' alive found' place]; exact here
  refine ⟨⟨owned.inTable,?_,fun c reserved => (marks c).mpr (takes.low owned c reserved),
    owned.balanced.claim takes.inData takes.free vacant filled same fun c _ => (marks c).trans (takes.marks c)⟩,filled,?_⟩
  · intro q other there
    by_cases own : q = p
    · subst own
      rw [found'] at there
      cases there
      exact ⟨alive,number,valid⟩
    · rw [beside.inodes q own] at there
      exact owned.loaded q other there
  · intro slot c refers
    have different : slot ≠ (p,place) := by
      intro equal
      rw [equal,vacant] at refers
      cases refers
    rw [same slot different]
    exact refers

theorem Takes.claim_direct (layout : Layout sb) (owned : Owned sb live fs) (found : fs.inodes p = some inode)
    (takes : Takes sb fs.cache b v) (i : Fin inodeNumDirect) (empty : inode.entry.addrs i = 0#32) :
    Maps sb live p inode fs ((fs.setCache v).setEntry p inode (inode.entry.setAddr i (b.setWidth 32))) ∧
      refs sb live ((fs.setCache v).setEntry p inode (inode.entry.setAddr i (b.setWidth 32)))
      (p,.direct i) = some b := by
  obtain ⟨alive,number,valid⟩ := owned.loaded p inode found
  obtain ⟨wide,nonzero⟩ := dataBlock_narrow layout takes.inData
  have beside : Beside sb live p fs ((fs.setCache v).setEntry p inode (inode.entry.setAddr i (b.setWidth 32))) :=
    takes.beside layout owned (fun no other => Function.update_of_ne other _ _) rfl
  have found' : ((fs.setCache v).setEntry p inode (inode.entry.setAddr i (b.setWidth 32))).inodes p =
      some {inode with entry := inode.entry.setAddr i (b.setWidth 32)} := Function.update_self _ _ _
  have others : ∀ other, other ≠ .direct i →
      refsOf v (inode.entry.setAddr i (b.setWidth 32)) other = refsOf fs.cache inode.entry other := by
    intro other different
    cases other with
    | direct j =>
      have apart : j ≠ i := fun same => different (by rw [same])
      simp [refsOf,InodeEntry.setAddr,apart]
    | indirect => rfl
    | entry j =>
      by_cases zero : inode.entry.indirect = 0#32
      · simp [refsOf,InodeEntry.setAddr,zero]
      · have kept := (takes.keeps owned (owned.own_indirect found zero)).2
        simp [refsOf,InodeEntry.setAddr,zero,kept]
  obtain ⟨still,filled,refers⟩ := owned.claim beside found found' number valid takes (fun _ => Iff.rfl) (.direct i)
    (by simp [refsOf,empty,reference_zero]) (by simp [refsOf,InodeEntry.setAddr,reference_of_ne nonzero,wide]) others
  refine ⟨⟨still,beside,⟨refers,fun no place c _ there => (takes.keeps owned there).2⟩,⟨_,_,found'⟩,.inl ?_⟩,filled⟩
  change (getEntry (v.blocks _) p).type = _
  rw [takes.table layout (owned.inTable p alive)]
  rfl

theorem Takes.claim_indirect (layout : Layout sb) (owned : Owned sb live fs) (found : fs.inodes p = some inode)
    (takes : Takes sb fs.cache b v) (empty : inode.entry.indirect = 0#32) :
    Maps sb live p inode fs ((fs.setCache v).setEntry p inode (inode.entry.setIndirect (b.setWidth 32))) := by
  obtain ⟨alive,number,valid⟩ := owned.loaded p inode found
  obtain ⟨wide,nonzero⟩ := dataBlock_narrow layout takes.inData
  have beside : Beside sb live p fs ((fs.setCache v).setEntry p inode (inode.entry.setIndirect (b.setWidth 32))) :=
    takes.beside layout owned (fun no other => Function.update_of_ne other _ _) rfl
  have found' : ((fs.setCache v).setEntry p inode (inode.entry.setIndirect (b.setWidth 32))).inodes p =
      some {inode with entry := inode.entry.setIndirect (b.setWidth 32)} := Function.update_self _ _ _
  -- The new indirect block is zeroed: it refers to nothing yet.
  have others : ∀ other, other ≠ .indirect →
      refsOf v (inode.entry.setIndirect (b.setWidth 32)) other = refsOf fs.cache inode.entry other := by
    intro other different
    cases other with
    | direct j => rfl
    | indirect => exact absurd rfl different
    | entry j =>
      simp only [refsOf,InodeEntry.setIndirect,if_neg nonzero,if_pos empty,wide,takes.zero,getAddr_zero,reference_zero]
  obtain ⟨still,_,refers⟩ := owned.claim beside found found' number valid takes (fun _ => Iff.rfl) .indirect
    (by simp [refsOf,empty,reference_zero]) (by simp [refsOf,InodeEntry.setIndirect,reference_of_ne nonzero,wide]) others
  refine ⟨still,beside,⟨refers,fun no place c _ there => (takes.keeps owned there).2⟩,⟨_,_,found'⟩,.inl ?_⟩
  change (getEntry (v.blocks _) p).type = _
  rw [takes.table layout (owned.inTable p alive)]
  rfl

theorem Takes.claim_entry (layout : Layout sb) (owned : Owned sb live fs) (found : fs.inodes p = some inode)
    (takes : Takes sb fs.cache b v) (present : inode.entry.indirect ≠ 0#32) (i : Fin inodeNumIndirect)
    (empty : getAddr (fs.cache.blocks (inode.entry.indirect.setWidth 64)) i.val = 0#32) :
    Maps sb live p inode fs (fs.setCache (v.store (inode.entry.indirect.setWidth 64)
      (putAddr (v.blocks (inode.entry.indirect.setWidth 64)) i.val (b.setWidth 32)))) ∧
      refs sb live (fs.setCache (v.store (inode.entry.indirect.setWidth 64)
        (putAddr (v.blocks (inode.entry.indirect.setWidth 64)) i.val (b.setWidth 32)))) (p,.entry i) = some b := by
  obtain ⟨alive,number,valid⟩ := owned.loaded p inode found
  obtain ⟨wide,nonzero⟩ := dataBlock_narrow layout takes.inData
  have holder := owned.own_indirect found present
  have inData := (owned.used_of_ref holder).1
  obtain ⟨apart,kept⟩ := takes.keeps owned holder
  obtain ⟨notTable,notBitmap,_⟩ := layout.apart (owned.inTable p alive) inData
  generalize indirect : inode.entry.indirect.setWidth 64 = ib at *
  -- Only the indirect block differs from what cache_alloc left.
  have elsewhere : ∀ c, c ≠ ib → (v.store ib (putAddr (v.blocks ib) i.val (b.setWidth 32))).blocks c = v.blocks c := by
    intro c other
    simp [other]
  have beside : Beside sb live p fs (fs.setCache (v.store ib (putAddr (v.blocks ib) i.val (b.setWidth 32)))) := by
    refine owned.beside_store (fun _ _ => rfl) ?_
    intro c moved
    refine ⟨?_,?_⟩
    · intro no inTable same
      have other : c ≠ ib := fun equal => (layout.apart inTable inData).1 (equal.symm.trans same)
      refine moved ((elsewhere c other).trans ?_)
      rw [same]
      exact takes.table layout inTable
    · intro no other refers
      have different : c ≠ ib := by
        intro equal
        rw [equal] at refers
        exact other (congrArg Prod.fst (owned.balanced.unique _ _ _ refers holder))
      exact moved ((elsewhere c different).trans (takes.keeps owned refers).2)
  have others : ∀ other, other ≠ .entry i →
      refsOf (v.store ib (putAddr (v.blocks ib) i.val (b.setWidth 32))) inode.entry other =
        refsOf fs.cache inode.entry other := by
    intro other different
    cases other with
    | direct j => rfl
    | indirect => rfl
    | entry j =>
      have distinct : j.val ≠ i.val := fun same => different (by rw [Fin.ext same])
      simp only [refsOf,if_neg present,indirect,View.store_blocks,Function.update_self]
      rw [getAddr_putAddr _ _ _ _ i.isLt,if_neg distinct,kept]
  have marks : ∀ c, used sb (v.store ib (putAddr (v.blocks ib) i.val (b.setWidth 32))) c ↔ used sb v c := by
    intro c
    unfold used
    rw [elsewhere _ (Ne.symm notBitmap)]
  obtain ⟨still,filled,refers⟩ := owned.claim beside found found number valid takes marks (.entry i)
    (by simp [refsOf,present,indirect,empty,reference_zero])
    (by
      simp only [refsOf,if_neg present,indirect]
      change reference (getAddr ((v.store ib _).blocks ib) i.val) = _
      rw [View.store_blocks,Function.update_self,getAddr_putAddr _ _ _ _ i.isLt,if_pos rfl,reference_of_ne nonzero,wide])
    others
  refine ⟨⟨still,beside,⟨refers,?_⟩,⟨_,_,found⟩,.inl ?_⟩,filled⟩
  · intro no place c notIndirect there
    have different : c ≠ ib := by
      intro equal
      rw [equal] at there
      exact notIndirect (congrArg Prod.snd (owned.balanced.unique _ _ _ there holder))
    exact (elsewhere c different).trans (takes.keeps owned there).2
  · change (getEntry ((v.store ib _).blocks _) p).type = _
    rw [elsewhere _ (Ne.symm notTable),takes.table layout (owned.inTable p alive)]
    rfl

-- The place of file block `k`.
def Place.file (k : Fin inodeMaxBlocks) : Place :=
  if small : k.val < inodeNumDirect then .direct ⟨k.val,small⟩
  else .entry ⟨k.val-inodeNumDirect,by have := k.isLt; unfold inodeMaxBlocks at this; omega⟩

theorem Place.file_ne_indirect (k : Fin inodeMaxBlocks) : Place.file k ≠ .indirect := by
  unfold Place.file
  split <;> simp

theorem Fs.inode_ok : fs.inode p = .ok inode ↔ fs.inodes p = some inode := by
  unfold Fs.inode
  cases fs.inodes p with
  | none => simp
  | some other => simp

theorem sync_after (layout : Layout sb) (env : Env) (table : env.sblock = sb) (owned : Owned sb live fs)
    (maps : Maps sb live p inode fs fs') (ran : inodeSync env ctx p true fs' = .ok fs'') :
    Maps sb live p inode fs fs'' ∧
      fs''.inodes = fs'.inodes ∧ ∀ slot c, refs sb live fs' slot = some c → refs sb live fs'' slot = some c := by
  obtain ⟨addrs,indirect,found⟩ := maps.found
  rw [inodeSync_write env maps.owned found,table] at ran
  cases ran
  have synced := sync_maps layout ctx maps.owned found
  refine ⟨maps.trans owned ?_,rfl,synced.grows.refs⟩
  intro inode' there
  rw [found] at there
  cases there
  exact synced

end Mapping

section InodeMap
variable {env : Env} {live : Usize → Bool} {p : Usize} {fs fs' : Fs} {inode : Inode} {ctx : Ctx}

theorem mapDirect_maps (layout : Layout env.sblock) (owned : Owned env.sblock live fs)
    (found : fs.inodes p = some inode) (ran : mapDirect env ctx p i fs = .ok (b,modified,fs')) :
    Maps env.sblock live p inode fs fs' ∧
      (b ≠ 0#64 → refs env.sblock live fs' (p,.direct i) = some b) := by
  have alive := (owned.loaded p inode found).1
  simp only [mapDirect,Fs.inode_ok.mpr found] at ran
  change (if inode.entry.addrs i ≠ 0#32 then _ else _) = _ at ran
  split at ran
  · rename_i present
    cases ran
    refine ⟨.refl owned found,fun _ => ?_⟩
    rw [refs_own fs alive found]
    exact reference_of_ne present
  · rename_i absent
    have absent : inode.entry.addrs i = 0#32 := by simpa using absent
    split at ran
    · cases ran
      exact ⟨.refl owned found,fun nonzero => absurd rfl nonzero⟩
    · obtain ⟨⟨c,v⟩,taken,ran⟩ := Runs.bind_ok.mp ran
      obtain ⟨fs'',synced,ran⟩ := Runs.bind_ok.mp ran
      cases ran
      have takes := cacheAlloc_takes owned.low taken
      obtain ⟨maps,filled⟩ := takes.claim_direct layout owned found i absent
      obtain ⟨maps,_,kept⟩ := sync_after layout env rfl owned maps synced
      refine ⟨maps,fun _ => ?_⟩
      rw [kept _ _ filled]
      simp [InodeEntry.setAddr,(dataBlock_narrow layout takes.inData).1]

theorem needIndirect_maps (layout : Layout env.sblock) (owned : Owned env.sblock live fs)
    (found : fs.inodes p = some inode) (ran : needIndirect env ctx p fs = .ok (b,fs')) :
    Maps env.sblock live p inode fs fs' ∧
      ∃ inode', fs'.inodes p = some inode' ∧ inode'.entry.indirect ≠ 0#32 ∧ b = inode'.entry.indirect.setWidth 64 := by
  simp only [needIndirect,Fs.inode_ok.mpr found] at ran
  change (if inode.entry.indirect = 0#32 then _ else _) = _ at ran
  split at ran
  · rename_i absent
    obtain ⟨⟨c,v⟩,taken,ran⟩ := Runs.bind_ok.mp ran
    cases ran
    have takes := cacheAlloc_takes owned.low taken
    refine ⟨takes.claim_indirect layout owned found absent,_,Function.update_self _ _ _,?_,rfl⟩
    exact (dataBlock_narrow layout takes.inData).2
  · rename_i present
    cases ran
    exact ⟨.refl owned found,inode,found,present,rfl⟩

theorem mapEntry_maps (layout : Layout env.sblock) (owned : Owned env.sblock live fs) (found : fs.inodes p = some inode)
    (present : inode.entry.indirect ≠ 0#32)
    (ran : mapEntry env ctx p (inode.entry.indirect.setWidth 64) i fs = .ok (b,modified,fs')) :
    Maps env.sblock live p inode fs fs' ∧ ∃ small : i < inodeNumIndirect,
      (b ≠ 0#64 → refs env.sblock live fs' (p,.entry ⟨i,small⟩) = some b) := by
  have alive := (owned.loaded p inode found).1
  unfold mapEntry at ran
  split at ran
  · cases ran
  · rename_i small
    have small : i < inodeNumIndirect := by omega
    split at ran
    · rename_i mapped
      cases ran
      refine ⟨.refl owned found,small,fun _ => ?_⟩
      rw [refs_own fs alive found]
      simp only [refsOf,if_neg present]
      exact reference_of_ne mapped
    · rename_i absent
      have absent : getAddr (fs.cache.blocks (inode.entry.indirect.setWidth 64)) i = 0#32 := by simpa using absent
      split at ran
      · cases ran
        exact ⟨.refl owned found,small,fun nonzero => absurd rfl nonzero⟩
      · obtain ⟨⟨c,v⟩,taken,ran⟩ := Runs.bind_ok.mp ran
        obtain ⟨fs'',synced,ran⟩ := Runs.bind_ok.mp ran
        cases ran
        have takes := cacheAlloc_takes owned.low taken
        obtain ⟨maps,filled⟩ := takes.claim_entry layout owned found present ⟨i,small⟩ absent
        obtain ⟨maps,inodes,kept⟩ := sync_after layout env rfl owned maps synced
        refine ⟨maps,small,fun _ => ?_⟩
        have filled := kept _ _ filled
        have found' : fs'.inodes p = some inode := by rw [inodes]; exact found
        rw [filled]
        rw [refs_own fs' alive found'] at filled
        simp only [refsOf,if_neg present] at filled
        rw [(reference_some filled).2]

-- inode_map keeps the blocks in order, and the number it returns is that of file
-- block `k` from then on.
theorem inodeMap_maps (layout : Layout env.sblock) (owned : Owned env.sblock live fs) (found : fs.inodes p = some inode)
    (ran : inodeMap env ctx p k fs = .ok (b,modified,fs')) : Maps env.sblock live p inode fs fs' ∧
      ∃ small : k < inodeMaxBlocks, (b ≠ 0#64 → refs env.sblock live fs' (p,.file ⟨k,small⟩) = some b) := by
  have total : inodeMaxBlocks = inodeNumDirect+inodeNumIndirect := rfl
  unfold inodeMap at ran
  split at ran
  · rename_i direct
    obtain ⟨maps,mapped⟩ := mapDirect_maps layout owned found ran
    refine ⟨maps,by omega,?_⟩
    simpa [Place.file,direct] using mapped
  · rename_i beyond
    obtain ⟨⟨ib,middle⟩,needed,ran⟩ := Runs.bind_ok.mp ran
    obtain ⟨maps,inode',found',present,rfl⟩ := needIndirect_maps layout owned found needed
    obtain ⟨later,small,mapped⟩ := mapEntry_maps layout maps.owned found' present ran
    refine ⟨maps.trans owned ?_,by omega,?_⟩
    · intro other there
      rw [found'] at there
      cases there
      exact later
    · simpa [Place.file,beyond] using mapped

theorem inodeMap_mapped (found : fs.inodes p = some inode) (k : Fin inodeMaxBlocks)
    (refers : refsOf fs.cache inode.entry (.file k) = some b) : inodeMap env ctx p k.val fs = .ok (b,false,fs) := by
  unfold inodeMap
  unfold Place.file at refers
  split
  · rename_i direct
    simp only [direct,dite_true,refsOf] at refers
    obtain ⟨nonzero,same⟩ := reference_some refers
    simp [mapDirect,Fs.inode_ok.mpr found,bind,Except.bind,nonzero,same]
  · rename_i beyond
    simp only [beyond,dite_false,refsOf] at refers
    split at refers
    · cases refers
    · rename_i present
      obtain ⟨nonzero,same⟩ := reference_some refers
      have small : ¬ inodeNumIndirect ≤ k.val-inodeNumDirect := by
        have bound := k.isLt
        unfold inodeMaxBlocks at bound
        omega
      simp [needIndirect,Fs.inode_ok.mpr found,bind,Except.bind,present,mapEntry,small,nonzero,same]

end InodeMap

end InodeLayer
