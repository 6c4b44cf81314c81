import HonorKernel.Mkfs
import HonorKernel.FileContents

-- The blocks that iappend finds for a file are those that inode_map finds. The state of the
-- kernel has the inode that is appended to in memory; everything else it has on the disk.
namespace Mkfs
open DiskFormat InodeLayer CacheView Semaphores Ownership

abbrev sb : SuperBlock := mkfsSuperBlock

-- The kernel reads from and writes to the disk that mkfs lays out.
def kernel : Env := ⟨sb,fun _ => none,0#128⟩

-- Every inode number of the table.
def table (no : Usize) : Bool := decide (0 < no.toNat ∧ no.toNat < nInodes)

section Numbers

theorem bitmapStart_toNat : sb.bitmapStart.toNat = 91 := rfl
theorem inodeStart_toNat : sb.inodeStart.toNat = 65 := rfl
theorem numBlocks_toNat : sb.numBlocks.toNat = 1000 := rfl
theorem nmeta_eq : nmeta = 92 := rfl
theorem fsSize_eq : fsSize = 1000 := rfl

theorem layout : Layout sb := ⟨by decide,by decide,by decide⟩

theorem inTable_iff {no : Usize} : InTable sb no ↔ 0 < no.toNat ∧ no.toNat < 200 := Iff.rfl

theorem table_iff {no : Usize} : table no = true ↔ InTable sb no := by
  unfold table
  rw [decide_eq_true_iff]
  rfl

theorem dataBlock_iff {b : Usize} : dataBlock sb b ↔ nmeta ≤ b.toNat ∧ b.toNat < fsSize := by
  unfold dataBlock
  rw [bitmapStart_toNat,numBlocks_toNat,nmeta_eq,fsSize_eq]
  omega

theorem tableBlock_bounds {no : Usize} (inTable : InTable sb no) :
    sb.inodeStart.toNat ≤ (toBlockNo sb no).toNat ∧ (toBlockNo sb no).toNat < sb.bitmapStart.toNat := by
  obtain ⟨place,below⟩ := layout.tableBlock inTable
  refine ⟨?_,below⟩
  rw [place]
  exact Nat.le_add_right _ _

-- A block number that mkfs hands out is neither the bitmap's nor one of the table.
theorem data_apart {b no : Usize} (inTable : InTable sb no) (data : nmeta ≤ b.toNat) :
    b ≠ bitmapBlock sb ∧ b ≠ toBlockNo sb no := by
  have bounds := tableBlock_bounds inTable
  have bitmap := bitmapBlock_toNat sb
  rw [bitmapStart_toNat] at bounds bitmap
  rw [nmeta_eq] at data
  refine ⟨?_,?_⟩
  · rintro rfl
    omega
  · rintro rfl
    omega

theorem wide_toNat (a : U32) : (a.setWidth 64).toNat = a.toNat := by
  rw [BitVec.toNat_setWidth,Nat.mod_eq_of_lt (by omega)]

end Numbers

def loaded (p : Usize) (e : InodeEntry) : Inode := ⟨initSem 1,1,p,true,e⟩

-- Inode `p` is in memory with the size it is to have in the end; what is on the disk is
-- the image but for the entry of `p` and for the bitmap, which has the blocks below
-- freeblock.
structure Mirrors (p : Usize) (size : U32) (din : InodeEntry) (d : State) (fs : Fs) : Prop where
  opened : fs.inodes p = some (loaded p (din.setNumBytes size))
  alone : ∀ no, no ≠ p → fs.inodes no = none
  blocks : ∀ b, b ≠ bitmapBlock sb → b ≠ toBlockNo sb p → fs.cache.blocks b = d.sectors b
  table : ∃ e, fs.cache.blocks (toBlockNo sb p) = putEntry (d.sectors (toBlockNo sb p)) p e
  marks : ∀ j, bitmapGet (fs.cache.blocks (bitmapBlock sb)) j = decide (j < d.freeblock.toNat)
  fresh : ∀ b, d.freeblock.toNat ≤ b.toNat → d.sectors b = 0#4096
  above : nmeta ≤ d.freeblock.toNat
  below : d.freeblock.toNat ≤ fsSize

def Synced (p : Usize) (size : U32) (din : InodeEntry) (d : State) (fs : Fs) : Prop :=
  fs.cache.blocks (toBlockNo sb p) = putEntry (d.sectors (toBlockNo sb p)) p (din.setNumBytes size)

section Steps
variable {p : Usize} {size : U32} {din : InodeEntry} {d : State} {fs : Fs} {ctx : Ctx}

theorem bump_toNat (room : d.freeblock.toNat < fsSize) : d.bump.freeblock.toNat = d.freeblock.toNat+1 := by
  have small : fsSize = 1000 := rfl
  change (d.freeblock+1#32).toNat = _
  rw [BitVec.toNat_add]
  exact Nat.mod_eq_of_lt (by change d.freeblock.toNat+1 < 2^32; omega)

theorem findFree_first {bitmap : BlockData} {k n : Nat} (marks : ∀ j, bitmapGet bitmap j = decide (j < k))
    (inside : k < n) (fits : n ≤ bitPerBlock) : findFree bitmap n 0 = .ok k := by
  obtain ⟨i,found⟩ := findFree_exists bitmap n 0 (by omega) ⟨k,by omega,by omega,by rw [marks]; simp⟩
  obtain ⟨_,_,_,clear,earlier⟩ := findFree_spec _ _ _ found
  have same : i = k := by
    rw [marks,decide_eq_false_iff_not] at clear
    by_contra other
    have below := earlier k (Nat.zero_le k) (by omega)
    rw [marks,decide_eq_true_iff] at below
    omega
  rw [← same]
  exact found

theorem Mirrors.take (mirrors : Mirrors p size din d fs) (inTable : InTable sb p) (room : d.freeblock.toNat < fsSize)
    (ctx : Ctx) :
    ∃ v, cacheAlloc sb ctx fs.cache = .ok (d.freeblock.setWidth 64,v) ∧ Mirrors p size din d.bump (fs.setCache v) ∧
      v.blocks (toBlockNo sb p) = fs.cache.blocks (toBlockNo sb p) := by
  have number : BitVec.ofNat 64 d.freeblock.toNat = d.freeblock.setWidth 64 := by
    apply BitVec.eq_of_toNat_eq
    rw [wide_toNat,BitVec.toNat_ofNat,Nat.mod_eq_of_lt (by omega)]
  have first : findFree (fs.cache.blocks (bitmapBlock sb)) sb.numBlocks.toNat 0 = .ok d.freeblock.toNat :=
    findFree_first mirrors.marks room (by decide)
  have inBlock : d.freeblock.toNat < bitPerBlock := Nat.lt_of_lt_of_le room (by decide)
  have above : nmeta ≤ (d.freeblock.setWidth 64 : Usize).toNat := by rw [wide_toNat]; exact mirrors.above
  obtain ⟨notBitmap,notTable⟩ := data_apart inTable above
  have apart := (layout.tableBlock inTable).2
  have tableBitmap : toBlockNo sb p ≠ bitmapBlock sb := by
    intro same
    rw [same,bitmapBlock_toNat] at apart
    omega
  have taken : cacheAlloc sb ctx fs.cache = .ok (d.freeblock.setWidth 64,(fs.cache.put ctx (bitmapBlock sb)
      (bitmapSet (fs.cache.blocks (bitmapBlock sb)) d.freeblock.toNat)).put ctx (d.freeblock.setWidth 64) 0#4096) := by
    simp only [cacheAlloc,first,bind,Except.bind,number]
  refine ⟨_,taken,⟨mirrors.opened,mirrors.alone,?_,?_,?_,?_,?_,?_⟩,?_⟩
  · intro b other outside
    simp only [Fs.setCache,View.put_blocks]
    by_cases taken : b = d.freeblock.setWidth 64
    · rw [taken,Function.update_self]
      exact (mirrors.fresh _ (by rw [wide_toNat])).symm
    · rw [Function.update_of_ne taken,Function.update_of_ne other]
      exact mirrors.blocks b other outside
  · obtain ⟨e,there⟩ := mirrors.table
    refine ⟨e,?_⟩
    simp only [Fs.setCache,View.put_blocks]
    rw [Function.update_of_ne (Ne.symm notTable),Function.update_of_ne tableBitmap]
    exact there
  · intro j
    simp only [Fs.setCache,View.put_blocks]
    rw [Function.update_of_ne (Ne.symm notBitmap),Function.update_self,bitmapGet_set _ _ _ inBlock,mirrors.marks,bump_toNat room]
    by_cases here : j = d.freeblock.toNat
    · simp [here]
    · rw [if_neg here,decide_eq_decide]
      omega
  · intro b beyond
    rw [bump_toNat room] at beyond
    exact mirrors.fresh b (by omega)
  · rw [bump_toNat room]
    have above := mirrors.above
    omega
  · rw [bump_toNat room]
    omega
  · simp only [View.put_blocks]
    rw [Function.update_of_ne (Ne.symm notTable),Function.update_of_ne tableBitmap]

theorem inodeSync_loaded (ctx : Ctx) {e : InodeEntry} (there : fs.inodes p = some (loaded p e)) :
    inodeSync kernel ctx p true fs = .ok (fs.setCache (writeEntry sb ctx fs.cache p e)) := by
  simp [inodeSync,Fs.inode_ok.mpr there,bind,Except.bind,loaded,kernel]

theorem Mirrors.sync (mirrors : Mirrors p size din d fs) (inTable : InTable sb p) (ctx : Ctx) :
    Mirrors p size din d (fs.setCache (writeEntry sb ctx fs.cache p (din.setNumBytes size))) ∧
      Synced p size din d (fs.setCache (writeEntry sb ctx fs.cache p (din.setNumBytes size))) := by
  obtain ⟨e,there⟩ := mirrors.table
  have own : (writeEntry sb ctx fs.cache p (din.setNumBytes size)).blocks (toBlockNo sb p) =
      putEntry (d.sectors (toBlockNo sb p)) p (din.setNumBytes size) := by
    unfold writeEntry
    rw [View.put_blocks,Function.update_self,there,putEntry_twice]
  have elsewhere : ∀ b, b ≠ toBlockNo sb p → (writeEntry sb ctx fs.cache p (din.setNumBytes size)).blocks b = fs.cache.blocks b := by
    intro b other
    unfold writeEntry
    rw [View.put_blocks,Function.update_of_ne other]
  have apart := (layout.tableBlock inTable).2
  have tableBitmap : bitmapBlock sb ≠ toBlockNo sb p := by
    intro same
    rw [← same,bitmapBlock_toNat] at apart
    omega
  refine ⟨⟨mirrors.opened,mirrors.alone,?_,⟨_,own⟩,?_,mirrors.fresh,mirrors.above,mirrors.below⟩,own⟩
  · intro b other outside
    exact (elsewhere b outside).trans (mirrors.blocks b other outside)
  · intro j
    change bitmapGet ((writeEntry sb ctx fs.cache p (din.setNumBytes size)).blocks (bitmapBlock sb)) j = _
    rw [elsewhere _ tableBitmap]
    exact mirrors.marks j

end Steps

-- How many blocks are taken for file block `fbn`.
def missing (fbn : Nat) (din : InodeEntry) (d : State) : Nat :=
  if direct : fbn < inodeNumDirect then if din.addrs ⟨fbn,direct⟩ = 0#32 then 1 else 0
  else if din.indirect = 0#32 then 2
  else if getAddr (d.sectors (din.indirect.setWidth 64)) (fbn-inodeNumDirect) = 0#32 then 1 else 0

-- What finding block `x` for file block `fbn` does to the image.
structure Extends (fbn : Nat) (din : InodeEntry) (d : State) (din' : InodeEntry) (x : U32) (d' : State) : Prop where
  head : din'.type = din.type ∧ din'.numLinks = din.numLinks
  freeinode : d'.freeinode = d.freeinode
  spent : d'.freeblock.toNat = d.freeblock.toNat+missing fbn din d
  quiet : ∀ b, din'.indirect = 0#32 ∨ b ≠ din'.indirect.setWidth 64 → d'.sectors b = d.sectors b
  nonzero : x ≠ 0#32
  new : ∀ n, d.freeblock.toNat ≤ n → n < d'.freeblock.toNat → n = x.toNat ∨ n = din'.indirect.toNat

section Blocks
variable {p : Usize} {size : U32} {din : InodeEntry} {d : State} {fs : Fs} {fbn : Nat}

theorem freeblock_nonzero (mirrors : Mirrors p size din d fs) : d.freeblock ≠ 0#32 := by
  have above := mirrors.above
  rintro zero
  rw [zero,nmeta_eq] at above
  exact absurd above (by decide)

theorem Mirrors.setEntry (mirrors : Mirrors p size din d fs) (din' : InodeEntry) (inode : Inode)
    (same : inode = loaded p inode.entry) :
    Mirrors p size din' d (fs.setEntry p inode (din'.setNumBytes size)) := by
  refine ⟨?_,?_,mirrors.blocks,mirrors.table,mirrors.marks,mirrors.fresh,mirrors.above,mirrors.below⟩
  · rw [same]
    exact Function.update_self ..
  · intro no other
    exact (Function.update_of_ne other ..).trans (mirrors.alone no other)

theorem Mirrors.direct (op : Nat) (mirrors : Mirrors p size din d fs) (synced : Synced p size din d fs)
    (inTable : InTable sb p) (direct : fbn < inodeNumDirect) (room : d.freeblock.toNat+missing fbn din d ≤ fsSize) :
    ∃ din' x d' modified fs',
      blockFor fbn din d = .ok (din',x,d') ∧ inodeMap kernel (some op) p fbn fs = .ok (x.setWidth 64,modified,fs') ∧
      Mirrors p size din' d' fs' ∧ Synced p size din' d' fs' ∧ Extends fbn din d din' x d' := by
  have opened := Fs.inode_ok.mpr mirrors.opened
  unfold missing at room
  rw [dif_pos direct] at room
  by_cases absent : din.addrs ⟨fbn,direct⟩ = 0#32
  · rw [if_pos absent] at room
    obtain ⟨v,taken,after,_⟩ := mirrors.take inTable (by omega) (some op)
    have narrow : ((d.freeblock.setWidth 64 : Usize).setWidth 32 : U32) = d.freeblock := by simp
    have changed := after.setEntry (din.setAddr ⟨fbn,direct⟩ d.freeblock) (loaded p (din.setNumBytes size)) rfl
    obtain ⟨mirrors',synced'⟩ := changed.sync inTable (some op)
    have stored := inodeSync_loaded (some op) changed.opened
    refine ⟨din.setAddr ⟨fbn,direct⟩ d.freeblock,d.freeblock,d.bump,true,_,?_,?_,mirrors',synced',⟨⟨rfl,rfl⟩,rfl,?_,fun _ _ => rfl,
      freeblock_nonzero mirrors,?_⟩⟩
    · unfold blockFor
      rw [dif_pos direct,if_pos absent]
    · have absent' : (loaded p (din.setNumBytes size)).entry.addrs ⟨fbn,direct⟩ = 0#32 := absent
      have taken : cacheAlloc kernel.sblock (some op) fs.cache = .ok (d.freeblock.setWidth 64,v) := taken
      unfold inodeMap
      rw [dif_pos direct]
      unfold mapDirect
      simp only [opened,bind,Except.bind,absent',taken,narrow,ne_eq,not_true_eq_false,if_false,reduceCtorEq]
      have same : (loaded p (din.setNumBytes size)).entry.setAddr ⟨fbn,direct⟩ d.freeblock =
          (din.setAddr ⟨fbn,direct⟩ d.freeblock).setNumBytes size := rfl
      rw [same,stored]
      simp [InodeEntry.setAddr,InodeEntry.setNumBytes]
    · unfold missing
      rw [dif_pos direct,if_pos absent]
      exact bump_toNat (by omega)
    · intro n low high
      rw [bump_toNat (by omega)] at high
      exact .inl (by omega)
  · refine ⟨din,din.addrs ⟨fbn,direct⟩,d,false,fs,?_,?_,mirrors,synced,⟨⟨rfl,rfl⟩,rfl,?_,fun _ _ => rfl,absent,?_⟩⟩
    · unfold blockFor
      rw [dif_pos direct,if_neg absent]
    · have present : (loaded p (din.setNumBytes size)).entry.addrs ⟨fbn,direct⟩ ≠ 0#32 := absent
      unfold inodeMap
      rw [dif_pos direct]
      unfold mapDirect
      simp only [opened,bind,Except.bind,if_pos present]
      rfl
    · unfold missing
      rw [dif_pos direct,if_neg absent,Nat.add_zero]
    · intro n low high
      omega

theorem Mirrors.indirect (op : Nat) (mirrors : Mirrors p size din d fs) (inTable : InTable sb p)
    (room : din.indirect = 0#32 → d.freeblock.toNat < fsSize)
    (holder : din.indirect ≠ 0#32 → nmeta ≤ din.indirect.toNat ∧ din.indirect.toNat < d.freeblock.toNat) : ∃ fs',
      needIndirect kernel (some op) p fs = .ok ((indirectFor din d).1.indirect.setWidth 64,fs') ∧
      Mirrors p size (indirectFor din d).1 (indirectFor din d).2 fs' ∧ nmeta ≤ (indirectFor din d).1.indirect.toNat ∧
      (indirectFor din d).1.indirect.toNat < (indirectFor din d).2.freeblock.toNat ∧
      (din.indirect ≠ 0#32 → fs' = fs) := by
  have opened := Fs.inode_ok.mpr mirrors.opened
  unfold needIndirect indirectFor
  simp only [opened,bind,Except.bind]
  by_cases absent : din.indirect = 0#32
  · have absent' : (loaded p (din.setNumBytes size)).entry.indirect = 0#32 := absent
    obtain ⟨v,taken,after,_⟩ := mirrors.take inTable (room absent) (some op)
    have taken : cacheAlloc kernel.sblock (some op) fs.cache = .ok (d.freeblock.setWidth 64,v) := taken
    have narrow : ((d.freeblock.setWidth 64 : Usize).setWidth 32 : U32) = d.freeblock := by simp
    have changed := after.setEntry (din.setIndirect d.freeblock) (loaded p (din.setNumBytes size)) rfl
    simp only [if_pos absent,if_pos absent',taken,narrow]
    refine ⟨_,rfl,changed,mirrors.above,?_,fun present => absurd absent present⟩
    rw [bump_toNat (room absent)]
    exact Nat.lt_succ_self _
  · have present : (loaded p (din.setNumBytes size)).entry.indirect ≠ 0#32 := absent
    simp only [if_neg absent,if_neg present]
    exact ⟨fs,rfl,mirrors,(holder absent).1,(holder absent).2,fun _ => rfl⟩

theorem Mirrors.entry {i : Nat} (op : Nat) (mirrors : Mirrors p size din d fs) (inTable : InTable sb p)
    (small : i < inodeNumIndirect) (holder : nmeta ≤ din.indirect.toNat ∧ din.indirect.toNat < d.freeblock.toNat)
    (room : getAddr (d.sectors (din.indirect.setWidth 64)) i = 0#32 → d.freeblock.toNat < fsSize)
    (synced : getAddr (d.sectors (din.indirect.setWidth 64)) i ≠ 0#32 → Synced p size din d fs) : ∃ x d' modified fs',
      entryFor i din d = .ok (din,x,d') ∧
      mapEntry kernel (some op) p (din.indirect.setWidth 64) i fs = .ok (x.setWidth 64,modified,fs') ∧
      Mirrors p size din d' fs' ∧ Synced p size din d' fs' ∧ d'.freeinode = d.freeinode ∧
      d'.freeblock.toNat = d.freeblock.toNat+(if getAddr (d.sectors (din.indirect.setWidth 64)) i = 0#32 then 1 else 0) ∧
      (∀ b, b ≠ din.indirect.setWidth 64 → d'.sectors b = d.sectors b) ∧ x ≠ 0#32 ∧
      ∀ n, d.freeblock.toNat ≤ n → n < d'.freeblock.toNat → n = x.toNat := by
  have below := mirrors.below
  have number : (din.indirect.setWidth 64 : Usize).toNat = din.indirect.toNat := wide_toNat _
  unfold entryFor
  generalize din.indirect.setWidth 64 = ib at *
  obtain ⟨notBitmap,notTable⟩ := data_apart inTable (b := ib) (by omega)
  have same : fs.cache.blocks ib = d.sectors ib := mirrors.blocks _ notBitmap notTable
  have read : d.rsect ib = .ok (d.sectors ib) := by
    unfold State.rsect
    rw [if_pos (by omega)]
  unfold mapEntry
  rw [if_neg (by omega),same,read]
  simp only [bind,Except.bind]
  by_cases absent : getAddr (d.sectors ib) i = 0#32
  · have free := room absent
    obtain ⟨v,taken,after,tableBlock⟩ := mirrors.take inTable free (some op)
    have taken : cacheAlloc kernel.sblock (some op) fs.cache = .ok (d.freeblock.setWidth 64,v) := taken
    have narrow : ((d.freeblock.setWidth 64 : Usize).setWidth 32 : U32) = d.freeblock := by simp
    have there : v.blocks ib = d.sectors ib := after.blocks _ notBitmap notTable
    -- The pointer goes into the same block on both sides.
    have stored : Mirrors p size din (d.bump.wsect ib (putAddr (d.sectors ib) i d.freeblock))
        (fs.setCache (v.store ib (putAddr (v.blocks ib) i d.freeblock))) := by
      refine ⟨after.opened,after.alone,?_,?_,?_,?_,after.above,after.below⟩
      · intro b other outside
        simp only [Fs.setCache,View.store_blocks,State.wsect,there]
        by_cases here : b = ib
        · rw [here,Function.update_self,Function.update_self]
        · rw [Function.update_of_ne here,Function.update_of_ne here]
          exact after.blocks b other outside
      · obtain ⟨e,entry⟩ := after.table
        refine ⟨e,?_⟩
        simp only [Fs.setCache,View.store_blocks,State.wsect]
        rw [Function.update_of_ne (Ne.symm notTable),Function.update_of_ne (Ne.symm notTable)]
        exact entry
      · intro j
        simp only [Fs.setCache,View.store_blocks]
        rw [Function.update_of_ne (Ne.symm notBitmap)]
        exact after.marks j
      · intro b beyond
        have other : b ≠ ib := by
          intro here
          have more : d.bump.freeblock.toNat ≤ b.toNat := beyond
          rw [here,bump_toNat free] at more
          omega
        simp only [State.wsect]
        rw [Function.update_of_ne other]
        exact after.fresh b beyond
    obtain ⟨mirrors',synced'⟩ := stored.sync inTable (some op)
    have ran := inodeSync_loaded (some op) stored.opened
    simp only [taken,narrow,absent,ne_eq,not_true_eq_false,if_false,reduceCtorEq]
    rw [ran]
    refine ⟨d.freeblock,_,true,_,rfl,?_,mirrors',synced',rfl,?_,?_,freeblock_nonzero mirrors,?_⟩
    · have kept : (writeEntry sb (some op) (v.store ib (putAddr (v.blocks ib) i d.freeblock)) p (din.setNumBytes size)).blocks ib =
          putAddr (v.blocks ib) i d.freeblock := by
        unfold writeEntry
        rw [View.put_blocks,Function.update_of_ne notTable,View.store_blocks,Function.update_self]
      simp only [Fs.setCache,kept]
      rw [getAddr_putAddr _ _ _ _ small,if_pos rfl]
    · rw [if_pos trivial]
      exact bump_toNat free
    · intro b other
      exact Function.update_of_ne other ..
    · intro n low high
      have high : n < d.bump.freeblock.toNat := high
      rw [bump_toNat free] at high
      omega
  · simp only [ne_eq,absent,not_false_eq_true,if_true]
    refine ⟨_,d,false,fs,rfl,rfl,mirrors,synced absent,rfl,rfl,fun _ _ => rfl,absent,?_⟩
    intro n low high
    omega

theorem Mirrors.holder (mirrors : Mirrors p size din d fs) (owned : Owned sb Mkfs.table fs)
    (present : din.indirect ≠ 0#32) :
    nmeta ≤ din.indirect.toNat ∧ din.indirect.toNat < d.freeblock.toNat := by
  obtain ⟨inData,taken⟩ := owned.used_of_ref (owned.own_indirect mirrors.opened present)
  have above := (dataBlock_iff.mp inData).1
  unfold used at taken
  rw [mirrors.marks,decide_eq_true_iff] at taken
  have number : ((loaded p (din.setNumBytes size)).entry.indirect.setWidth 64 : Usize).toNat = din.indirect.toNat := wide_toNat _
  rw [number] at above taken
  exact ⟨above,taken⟩

theorem Mirrors.blockFor (op : Nat) (mirrors : Mirrors p size din d fs) (synced : Synced p size din d fs)
    (inTable : InTable sb p) (owned : Owned sb Mkfs.table fs) (small : fbn < inodeMaxBlocks)
    (room : d.freeblock.toNat+missing fbn din d ≤ fsSize) : ∃ din' x d' modified fs',
      Mkfs.blockFor fbn din d = .ok (din',x,d') ∧
      inodeMap kernel (some op) p fbn fs = .ok (x.setWidth 64,modified,fs') ∧
      Mirrors p size din' d' fs' ∧ Synced p size din' d' fs' ∧ Extends fbn din d din' x d' := by
  by_cases direct : fbn < inodeNumDirect
  · exact mirrors.direct op synced inTable direct room
  · have index : fbn-inodeNumDirect < inodeNumIndirect := by
      unfold inodeMaxBlocks at small
      omega
    unfold missing at room
    rw [dif_neg direct] at room
    by_cases absent : din.indirect = 0#32
    · rw [if_pos absent] at room
      obtain ⟨middle,needed,between,above,below,_⟩ := mirrors.indirect op inTable (fun _ => by omega) (mirrors.holder owned)
      have taken : indirectFor din d = (din.setIndirect d.freeblock,d.bump) := by
        unfold indirectFor
        rw [if_pos absent]
      simp only [taken] at needed between above below
      have bumped := bump_toNat (d := d) (by omega)
      -- The new indirect block has no entries yet.
      have empty : getAddr (d.bump.sectors ((din.setIndirect d.freeblock).indirect.setWidth 64)) (fbn-inodeNumDirect) = 0#32 := by
        have zero : d.sectors ((din.setIndirect d.freeblock).indirect.setWidth 64) = 0#4096 := mirrors.fresh _
            (by rw [wide_toNat]; exact Nat.le_refl _)
        change getAddr (d.sectors _) _ = _
        rw [zero,getAddr_zero]
      obtain ⟨x,d',modified,fs',found,mapped,mirrors',synced',counter,spent,quiet,nonzero,new⟩ :=
        between.entry op inTable index ⟨above,below⟩ (fun _ => by omega) (fun present => absurd empty present)
      rw [if_pos empty,bumped] at spent
      refine ⟨_,x,d',modified,fs',?_,?_,mirrors',synced',⟨⟨rfl,rfl⟩,counter,?_,?_,nonzero,?_⟩⟩
      · unfold Mkfs.blockFor
        rw [dif_neg direct,taken]
        exact found
      · unfold inodeMap
        rw [dif_neg direct,needed]
        exact mapped
      · unfold missing
        rw [dif_neg direct,if_pos absent,spent]
      · intro b other
        exact quiet b (other.resolve_left (freeblock_nonzero mirrors))
      · intro n low high
        by_cases first : n = d.freeblock.toNat
        · exact .inr first
        · exact .inl (new n (by omega) high)
    · rw [if_neg absent] at room
      obtain ⟨middle,needed,between,above,below,still⟩ := mirrors.indirect op inTable
          (fun none => absurd none absent) (mirrors.holder owned)
      have kept : indirectFor din d = (din,d) := by
        unfold indirectFor
        rw [if_neg absent]
      simp only [kept] at needed between above below
      cases still absent
      obtain ⟨x,d',modified,fs',found,mapped,mirrors',synced',counter,spent,quiet,nonzero,new⟩ :=
        between.entry op inTable index ⟨above,below⟩ (fun none => by rw [if_pos none] at room; omega) (fun _ => synced)
      refine ⟨_,x,d',modified,fs',?_,?_,mirrors',synced',⟨⟨rfl,rfl⟩,counter,?_,?_,nonzero,?_⟩⟩
      · unfold Mkfs.blockFor
        rw [dif_neg direct,kept]
        exact found
      · unfold inodeMap
        rw [dif_neg direct,needed]
        exact mapped
      · unfold missing
        rw [dif_neg direct,if_neg absent]
        exact spent
      · intro b other
        exact quiet b (other.resolve_left absent)
      · intro n low high
        exact .inl (new n low high)

end Blocks

end Mkfs
