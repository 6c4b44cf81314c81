import HonorKernel.MkfsBlocks
import Mathlib.Data.List.GetD

-- iappend is inode_write at the end of the file: the same bytes in the same blocks.
namespace Mkfs
open DiskFormat InodeLayer CacheView Semaphores Ownership

-- What the file of inode `no` holds, and that no block of it is missing.
structure Bytes (fs : Fs) (no : Usize) (text : List Byte) : Prop where
  bytes : ∀ y, fileByte fs.cache (entryOf sb fs no) y = text.getD y 0#8
  mapped : ∀ k, k*blockSize < text.length → fileBlock fs.cache (entryOf sb fs no) k ≠ none

-- An inode in use has one link, whatever its type.
def Headed (e : InodeEntry) (type : U16) : Prop := e.type = type ∧ e.numLinks = if type = inodeInvalid then 0#16 else 1#16

-- No block is taken beyond the end.
def Tight (fs : Fs) (no : Usize) (length : Nat) : Prop := ∀ k, length ≤ k*blockSize → fileBlock fs.cache (entryOf sb fs no) k = none

section Contents
variable {fs fs' : Fs} {no p x : Usize} {text : List Byte}

theorem fileBlock_refs (inTable : InTable sb no) (k : Nat) : fileBlock fs.cache (entryOf sb fs no) k =
    if small : k < inodeMaxBlocks then refs sb table fs (no,.file ⟨k,small⟩) else none := by
  unfold fileBlock refs
  simp only [table_iff.mpr inTable,if_true]

theorem byteAt_zero (k : Nat) : byteAt 0#4096 k = 0#8 := BitSlice.get_zero 4096 8 (8*k)

theorem Bytes.grown (bytes : Bytes fs no text) (old : ∀ k b, fileBlock fs.cache (entryOf sb fs no) k = some b →
      fileBlock fs'.cache (entryOf sb fs' no) k = some b ∧ fs'.cache.blocks b = fs.cache.blocks b)
    (new : ∀ k b, fileBlock fs.cache (entryOf sb fs no) k = none → fileBlock fs'.cache (entryOf sb fs' no) k = some b →
      fs'.cache.blocks b = 0#4096) : Bytes fs' no text := by
  refine ⟨?_,?_⟩
  · intro y
    rw [← bytes.bytes y]
    unfold fileByte
    cases before : fileBlock fs.cache (entryOf sb fs no) (y/blockSize) with
    | some b =>
      obtain ⟨after,data⟩ := old _ b before
      rw [after]
      simp only [data]
    | none =>
      cases after : fileBlock fs'.cache (entryOf sb fs' no) (y/blockSize) with
      | none => rfl
      | some b =>
        simp only [new _ b before after]
        exact byteAt_zero _
  · intro k below
    obtain ⟨b,before⟩ := Option.ne_none_iff_exists'.mp (bytes.mapped k below)
    rw [(old k b before).1]
    exact Option.some_ne_none b

theorem Bytes.of_refs (bytes : Bytes fs no text) (inTable : InTable sb no)
    (same : ∀ place, refs sb table fs' (no,place) = refs sb table fs (no,place))
    (data : ∀ k b, refs sb table fs (no,.file k) = some b → fs'.cache.blocks b = fs.cache.blocks b) :
    Bytes fs' no text := by
  refine bytes.grown ?_ ?_
  · intro k b before
    rw [fileBlock_refs inTable] at before ⊢
    split at before
    · rename_i small
      rw [dif_pos small,same]
      exact ⟨before,data _ b before⟩
    · cases before
  · intro k b before after
    rw [fileBlock_refs inTable] at before after
    split at after
    · rename_i small
      rw [dif_pos small] at before
      rw [same,before] at after
      cases after
    · cases after

theorem Tight.of_refs {n : Nat} (tight : Tight fs no n) (inTable : InTable sb no)
    (same : ∀ k, n ≤ k.val*blockSize → refs sb table fs' (no,.file k) = refs sb table fs (no,.file k)) :
    Tight fs' no n := by
  intro k beyond
  have before := tight k beyond
  rw [fileBlock_refs inTable] at before ⊢
  split at before
  · rename_i small
    rw [dif_pos small,same ⟨k,small⟩ beyond]
    exact before
  · rename_i large
    rw [dif_neg large]

theorem Bytes.stored (bytes : Bytes fs p text) (owned : Owned sb table fs) {inode : Inode}
    (found : fs.inodes p = some inode) (small : text.length/blockSize < inodeMaxBlocks)
    (refers : refs sb table fs (p,.file ⟨text.length/blockSize,small⟩) = some x) (ctx : Ctx) (chunk : List Byte)
    (inside : text.length%blockSize+chunk.length ≤ blockSize) :
    Bytes (fs.setCache (fs.cache.put ctx x (setBytes (fs.cache.blocks x) (text.length%blockSize) chunk))) p (text++chunk) := by
  obtain ⟨_,same⟩ := storeData layout owned found ⟨_,small⟩ refers ctx (setBytes (fs.cache.blocks x) (text.length%blockSize) chunk)
  have inTable := owned.inTable p (owned.loaded p inode found).1
  have bits : 8*(text.length%blockSize+chunk.length) ≤ 4096 := by unfold blockSize at inside ⊢; omega
  have blocks : ∀ k, fileBlock (fs.setCache (fs.cache.put ctx x (setBytes (fs.cache.blocks x) (text.length%blockSize) chunk))).cache
      (entryOf sb (fs.setCache (fs.cache.put ctx x (setBytes (fs.cache.blocks x) (text.length%blockSize) chunk))) p) k =
        fileBlock fs.cache (entryOf sb fs p) k := by
    intro k
    rw [fileBlock_refs inTable,fileBlock_refs inTable]
    split
    · exact same _
    · rfl
  have here : fileBlock fs.cache (entryOf sb fs p) (text.length/blockSize) = some x := by
    rw [fileBlock_refs inTable,dif_pos small]
    exact refers
  refine ⟨?_,?_⟩
  · intro y
    have old := bytes.bytes y
    unfold fileByte at old ⊢
    rw [blocks]
    by_cases block : y/blockSize = text.length/blockSize
    · rw [block,here] at old ⊢
      simp only [Fs.setCache,View.put_blocks,Function.update_self] at old ⊢
      rw [byteAt_setBytes _ _ _ bits,old]
      by_cases hit : text.length%blockSize ≤ y%blockSize ∧ y%blockSize < text.length%blockSize+chunk.length
      · have index := chunk_index block hit.1
        rw [if_pos hit,index,List.getD_append_right _ _ _ _ (by unfold blockSize at *; omega)]
      · rw [if_neg hit]
        by_cases early : y < text.length
        · rw [List.getD_append _ _ _ _ early]
        · rw [List.getD_eq_default _ _ (by omega),List.getD_eq_default _ _ (by rw [List.length_append]; unfold blockSize at *; omega)]
    · -- In another block nothing changes, and the new bytes are not there.
      have apart : ∀ b, fileBlock fs.cache (entryOf sb fs p) (y/blockSize) = some b → b ≠ x := by
        rintro b there rfl
        rw [fileBlock_refs inTable] at there
        split at there
        · have slots := congrArg Prod.snd (owned.balanced.unique _ _ _ there refers)
          exact block (congrArg Fin.val (Place.file_injective slots))
        · cases there
      have elsewhere : (text++chunk).getD y 0#8 = text.getD y 0#8 := by
        by_cases early : y < text.length
        · rw [List.getD_append _ _ _ _ early]
        · rw [List.getD_eq_default text _ (by omega),List.getD_eq_default _ _
            (by rw [List.length_append]; unfold blockSize at *; omega)]
      rw [elsewhere,← old]
      cases there : fileBlock fs.cache (entryOf sb fs p) (y/blockSize) with
      | none => rfl
      | some b =>
        simp only [Fs.setCache,View.put_blocks]
        rw [Function.update_of_ne (apart b there)]
  · intro k below
    rw [blocks]
    by_cases early : k*blockSize < text.length
    · exact bytes.mapped k early
    · have last : k = text.length/blockSize := by
        rw [List.length_append] at below
        unfold blockSize at *
        omega
      rw [last,here]
      exact Option.some_ne_none x

end Contents

-- The files as they are meant: a type and the bytes for every inode number.
abbrev Files := Usize → U16 × List Byte

def Files.append (files : Files) (no : Usize) (bytes : List Byte) : Files := Function.update files no ((files no).1,(files no).2++bytes)

-- Between two rounds of iappend.
structure Appending (files : Files) (p : Usize) (size : U32) (din : InodeEntry) (d : State) (fs : Fs) : Prop where
  mirrors : Mirrors p size din d fs
  synced : Synced p size din d fs
  owned : Owned sb table fs
  known : p.toNat < d.freeinode.toNat
  contents : ∀ no, InTable sb no → Bytes fs no (files no).2
  tight : ∀ no, InTable sb no → Tight fs no (files no).2.length
  heads : ∀ no, InTable sb no → Headed (entryOf sb fs no) (files no).1
  sizes : ∀ no, InTable sb no → no ≠ p → (diskEntry sb fs.cache no).numBytes.toNat = (files no).2.length
  unused : ∀ no, InTable sb no → d.freeinode.toNat ≤ no.toNat → diskEntry sb fs.cache no = InodeEntry.zero
  reserved : ∀ b, b.toNat < sb.inodeStart.toNat → d.sectors b = blank.sectors b

section Rounds
variable {files : Files} {p : Usize} {size : U32} {din : InodeEntry} {d : State} {fs : Fs}

theorem Mirrors.entryOf (mirrors : Mirrors p size din d fs) : InodeLayer.entryOf sb fs p = din.setNumBytes size := by
  unfold InodeLayer.entryOf
  rw [mirrors.opened]
  rfl

theorem Mirrors.used_iff (mirrors : Mirrors p size din d fs) (b : Usize) :
    used sb fs.cache b ↔ b.toNat < d.freeblock.toNat := by
  unfold used
  rw [mirrors.marks,decide_eq_true_iff]

theorem Mirrors.store (mirrors : Mirrors p size din d fs) (synced : Synced p size din d fs) (inTable : InTable sb p)
    {b : Usize} (above : nmeta ≤ b.toNat) (taken : b.toNat < d.freeblock.toNat) (ctx : Ctx) (data : BlockData) :
    Mirrors p size din (d.wsect b data) (fs.setCache (fs.cache.put ctx b data)) ∧
      Synced p size din (d.wsect b data) (fs.setCache (fs.cache.put ctx b data)) := by
  obtain ⟨notBitmap,notTable⟩ := data_apart inTable above
  have own : ∀ e, fs.cache.blocks (toBlockNo sb p) = putEntry (d.sectors (toBlockNo sb p)) p e →
      (fs.setCache (fs.cache.put ctx b data)).cache.blocks (toBlockNo sb p) = putEntry
          ((d.wsect b data).sectors (toBlockNo sb p)) p e := by
    intro e there
    simp only [Fs.setCache,View.put_blocks,State.wsect]
    rw [Function.update_of_ne (Ne.symm notTable),Function.update_of_ne (Ne.symm notTable)]
    exact there
  obtain ⟨e,there⟩ := mirrors.table
  refine ⟨⟨mirrors.opened,mirrors.alone,?_,⟨e,own e there⟩,?_,?_,mirrors.above,mirrors.below⟩,own _ synced⟩
  · intro c other outside
    simp only [Fs.setCache,View.put_blocks,State.wsect]
    by_cases here : c = b
    · rw [here,Function.update_self,Function.update_self]
    · rw [Function.update_of_ne here,Function.update_of_ne here]
      exact mirrors.blocks c other outside
  · intro j
    simp only [Fs.setCache,View.put_blocks]
    rw [Function.update_of_ne (Ne.symm notBitmap)]
    exact mirrors.marks j
  · intro c beyond
    have beyond : d.freeblock.toNat ≤ c.toNat := beyond
    simp only [State.wsect]
    rw [Function.update_of_ne (by rintro rfl; omega)]
    exact mirrors.fresh c beyond

-- Both sides have found the same block for file block `fbn`.
structure Finds (p : Usize) (size : U32) (fbn : Nat) (small : fbn < inodeMaxBlocks) (din : InodeEntry) (d : State) (fs : Fs) (din' : InodeEntry) (x : U32)
    (d' : State) (fs' : Fs) : Prop where
  mirrors : Mirrors p size din' d' fs'
  synced : Synced p size din' d' fs'
  step : Extends fbn din d din' x d'
  maps : Maps sb table p (loaded p (din.setNumBytes size)) fs fs'
  refers : refs sb table fs' (p,.file ⟨fbn,small⟩) = some (x.setWidth 64)

theorem Appending.finds (op : Nat) (appending : Appending files p size din d fs) (inTable : InTable sb p) {fbn : Nat}
    (small : fbn < inodeMaxBlocks) (room : d.freeblock.toNat+missing fbn din d ≤ fsSize) :
    ∃ din' x d' modified fs', blockFor fbn din d = .ok (din',x,d') ∧
      inodeMap kernel (some op) p fbn fs = .ok (x.setWidth 64,modified,fs') ∧ (x.setWidth 64 : Usize) ≠ 0#64 ∧
      Finds p size fbn small din d fs din' x d' fs' := by
  have mirrors := appending.mirrors
  obtain ⟨din',x,d',modified,fs',found,mapped,mirrors',synced',step⟩ :=
    mirrors.blockFor op appending.synced inTable appending.owned small room
  have nonzero : (x.setWidth 64 : Usize) ≠ 0#64 := by
    intro zero
    have value := congrArg BitVec.toNat zero
    rw [wide_toNat] at value
    exact step.nonzero (BitVec.eq_of_toNat_eq value)
  obtain ⟨maps,_,refers⟩ := @inodeMap_maps kernel _ _ _ _ _ _ _ _ _ layout appending.owned mirrors.opened mapped
  exact ⟨din',x,d',modified,fs',found,mapped,nonzero,mirrors',synced',step,maps,refers nonzero⟩

section Found
variable {fbn : Nat} {small : fbn < inodeMaxBlocks} {din' : InodeEntry} {x : U32} {d' : State} {fs' : Fs}
  (finds : Finds p size fbn small din d fs din' x d' fs')
include finds

theorem Finds.inData : dataBlock sb (x.setWidth 64) := (finds.maps.owned.used_of_ref finds.refers).1

theorem Finds.taken : (x.setWidth 64 : Usize).toNat < d'.freeblock.toNat :=
  (finds.mirrors.used_iff _).mp (finds.maps.owned.used_of_ref finds.refers).2

theorem Finds.quiet {slot : Usize × Place} {b : Usize} (there : refs sb table fs' slot = some b)
    (data : slot.2 ≠ .indirect) : d'.sectors b = d.sectors b := by
  refine finds.step.quiet b ?_
  by_cases absent : din'.indirect = 0#32
  · exact .inl absent
  · refine .inr ?_
    rintro rfl
    have holder := finds.maps.owned.own_indirect finds.mirrors.opened absent
    exact data (congrArg Prod.snd (finds.maps.owned.balanced.unique _ _ _ there holder))

section Before
variable (appending : Appending files p size din d fs)
include appending

theorem Finds.zeroed (inTable : InTable sb p) {slot : Usize × Place} {b : Usize}
    (empty : refs sb table fs slot = none) (filled : refs sb table fs' slot = some b) (data : slot.2 ≠ .indirect) :
    fs'.cache.blocks b = 0#4096 := by
  have inData := (finds.maps.owned.used_of_ref filled).1
  have apart := data_apart inTable (dataBlock_iff.mp inData).1
  rw [finds.mirrors.blocks b apart.1 apart.2,finds.quiet filled data]
  refine appending.mirrors.fresh b ?_
  by_contra early
  have taken := (appending.mirrors.used_iff b).mpr (by omega)
  have old := appending.owned.balanced.earlier finds.maps.owned.balanced finds.maps.grows.refs filled taken
  rw [empty] at old
  cases old

theorem Finds.still (no : Usize) (k : Fin inodeMaxBlocks) (other : (no,k) ≠ (p,⟨fbn,small⟩)) :
    refs sb table fs' (no,.file k) = refs sb table fs (no,.file k) := by
  have mirrors := appending.mirrors
  have balanced := finds.maps.owned.balanced
  refine Option.ext ?_
  intro b
  refine ⟨?_,finds.maps.grows.refs _ b⟩
  intro filled
  have taken := (finds.maps.owned.used_of_ref filled).2
  rw [finds.mirrors.used_iff] at taken
  by_cases old : b.toNat < d.freeblock.toNat
  · exact appending.owned.balanced.earlier balanced finds.maps.grows.refs filled ((mirrors.used_iff b).mpr old)
  · exfalso
    have above := (dataBlock_iff.mp (finds.maps.owned.used_of_ref filled).1).1
    rcases finds.step.new b.toNat (by omega) taken with found | held
    · have same : b = x.setWidth 64 := BitVec.eq_of_toNat_eq (by rw [found,wide_toNat])
      rw [same] at filled
      have slots := balanced.unique _ _ _ filled finds.refers
      have own : no = p := congrArg Prod.fst slots
      have block := Place.file_injective (congrArg Prod.snd slots)
      exact other (by rw [own,block])
    · have present : din'.indirect ≠ 0#32 := by
        intro absent
        rw [absent] at held
        have size := nmeta_eq
        simp at held
        omega
      have holder := finds.maps.owned.own_indirect finds.mirrors.opened present
      have same : b = din'.indirect.setWidth 64 := BitVec.eq_of_toNat_eq (by rw [held,wide_toNat])
      rw [same] at filled
      exact Place.file_ne_indirect k (congrArg Prod.snd (balanced.unique _ _ _ filled holder))

theorem Finds.contents (inTable : InTable sb p) {no : Usize} (inTable' : InTable sb no) :
    Bytes fs' no (files no).2 := by
  refine (appending.contents no inTable').grown ?_ ?_
  · intro k b before
    rw [fileBlock_refs inTable'] at before ⊢
    split at before
    · rename_i below
      rw [dif_pos below]
      exact ⟨finds.maps.grows.refs _ b before,finds.maps.grows.data _ _ b (Place.file_ne_indirect _) before⟩
    · cases before
  · intro k b before after
    rw [fileBlock_refs inTable'] at before after
    split at after
    · rename_i below
      rw [dif_pos below] at before
      exact finds.zeroed appending inTable before after (Place.file_ne_indirect _)
    · cases after

end Before

end Found

theorem Appending.round (op : Nat) (chunk : List Byte) (appending : Appending files p size din d fs)
    (inTable : InTable sb p) (small : (files p).2.length/blockSize < inodeMaxBlocks) (more : 0 < chunk.length)
    (inside : (files p).2.length%blockSize+chunk.length ≤ blockSize)
    (room : d.freeblock.toNat+missing ((files p).2.length/blockSize) din d ≤ fsSize) : ∃ din' x d' modified fs',
      blockFor ((files p).2.length/blockSize) din d = .ok (din',x,d') ∧
      inodeMap kernel (some op) p ((files p).2.length/blockSize) fs = .ok (x.setWidth 64,modified,fs') ∧
      (x.setWidth 64 : Usize) ≠ 0#64 ∧
      d'.rsect (x.setWidth 64) = .ok (fs'.cache.blocks (x.setWidth 64)) ∧ d'.freeinode = d.freeinode ∧
      d'.freeblock.toNat = d.freeblock.toNat+missing ((files p).2.length/blockSize) din d ∧
      Appending (files.append p chunk) p size din'
        (d'.wsect (x.setWidth 64) (setBytes (fs'.cache.blocks (x.setWidth 64)) ((files p).2.length%blockSize) chunk))
        (fs'.setCache (fs'.cache.put (some op) (x.setWidth 64)
          (setBytes (fs'.cache.blocks (x.setWidth 64)) ((files p).2.length%blockSize) chunk))) := by
  have mirrors := appending.mirrors
  have owned := appending.owned
  obtain ⟨din',x,d',modified,fs',found,mapped,nonzero,finds⟩ := appending.finds op inTable small room
  have maps := finds.maps
  have mirrors' := finds.mirrors
  have step := finds.step
  obtain ⟨above,below⟩ := dataBlock_iff.mp finds.inData
  obtain ⟨notBitmap,notTable⟩ := data_apart inTable above
  have there : fs'.cache.blocks (x.setWidth 64) = d'.sectors (x.setWidth 64) := mirrors'.blocks _ notBitmap notTable
  generalize image : setBytes (fs'.cache.blocks (x.setWidth 64)) ((files p).2.length%blockSize) chunk = data
  obtain ⟨works,same⟩ := storeData layout maps.owned mirrors'.opened ⟨_,small⟩ finds.refers (some op) data
  obtain ⟨mirrors'',synced''⟩ := mirrors'.store finds.synced inTable above finds.taken (some op) data
  have beside := maps.beside.trans owned works.beside
  refine ⟨din',x,d',modified,fs',found,mapped,nonzero,?_,step.freeinode,step.spent,?_⟩
  · unfold State.rsect
    rw [if_pos below,there]
  · rw [image]
    have known : p.toNat < d'.freeinode.toNat := step.freeinode ▸ appending.known
    refine ⟨mirrors'',synced'',works.owned,known,?_,?_,?_,?_,?_,?_⟩
    · intro no inTable'
      by_cases own : no = p
      · subst own
        have stored := (finds.contents appending inTable inTable).stored maps.owned mirrors'.opened small finds.refers (some op) chunk inside
        rw [image] at stored
        simp only [Files.append,Function.update_self]
        exact stored
      · simp only [Files.append,Function.update_of_ne own]
        refine (finds.contents appending inTable inTable').of_refs inTable' (fun place => same _) ?_
        intro k b refers'
        refine Function.update_of_ne ?_ ..
        rintro rfl
        exact own (congrArg Prod.fst (maps.owned.balanced.unique _ _ _ refers' finds.refers))
    · intro no inTable'
      have longer : (files no).2.length ≤ (files.append p chunk no).2.length := by
        unfold Files.append
        by_cases own : no = p
        · subst own
          rw [Function.update_self,List.length_append]
          exact Nat.le_add_right ..
        · rw [Function.update_of_ne own]
      have tight : Tight fs no (files.append p chunk no).2.length :=
        fun k beyond => appending.tight no inTable' k (Nat.le_trans longer beyond)
      refine tight.of_refs inTable' ?_
      intro k beyond
      rw [same]
      refine finds.still appending no k ?_
      intro slots
      cases slots
      simp only [Files.append,Function.update_self,List.length_append] at beyond
      unfold blockSize at beyond
      omega
    · intro no inTable'
      by_cases own : no = p
      · subst own
        have head := appending.heads no inTable
        rw [mirrors.entryOf] at head
        rw [mirrors''.entryOf]
        simp only [Files.append,Function.update_self]
        exact ⟨step.head.1.trans head.1,step.head.2.trans head.2⟩
      · simp only [Files.append,Function.update_of_ne own]
        rw [beside.entryOf no inTable' own]
        exact appending.heads no inTable'
    · intro no inTable' other
      simp only [Files.append,Function.update_of_ne other]
      rw [beside.disk no inTable' other]
      exact appending.sizes no inTable' other
    · intro no inTable' beyond
      have beyond : d'.freeinode.toNat ≤ no.toNat := beyond
      rw [step.freeinode] at beyond
      have other : no ≠ p := by
        rintro rfl
        have known := appending.known
        omega
      rw [beside.disk no inTable' other]
      exact appending.unused no inTable' beyond
    · intro b low
      have start := inodeStart_toNat
      have lower := nmeta_eq
      simp only [State.wsect]
      rw [Function.update_of_ne (by rintro rfl; omega),← appending.reserved b low]
      refine step.quiet b ?_
      by_cases absent : din'.indirect = 0#32
      · exact .inl absent
      · refine .inr ?_
        rintro rfl
        have holder := (mirrors'.holder maps.owned absent).1
        rw [wide_toNat] at low
        omega

end Rounds

-- The blocks of a file of this size, with the indirect block.
def blocksOf (size : Nat) : Nat := (size+(blockSize-1))/blockSize+if inodeNumDirect*blockSize < size then 1 else 0

section Loop
variable {files : Files} {p : Usize} {size : U32} {din : InodeEntry} {d : State} {fs : Fs}

theorem append_nil (files : Files) (p : Usize) : files.append p [] = files := by
  unfold Files.append
  rw [List.append_nil]
  exact Function.update_eq_self p files

theorem append_append (files : Files) (p : Usize) (one two : List Byte) :
    (files.append p one).append p two = files.append p (one++two) := by
  unfold Files.append
  rw [Function.update_self,Function.update_idem,List.append_assoc]

theorem append_length (files : Files) (p : Usize) (bytes : List Byte) :
    (files.append p bytes p).2.length = (files p).2.length+bytes.length := by
  unfold Files.append
  rw [Function.update_self,List.length_append]

theorem blocksOf_mono {one two : Nat} (le : one ≤ two) : blocksOf one ≤ blocksOf two := by
  unfold blocksOf blockSize inodeNumDirect
  split <;> split <;> omega

theorem mapped_indirect {v : View} {e : InodeEntry} {k : Nat} (mapped : fileBlock v e k ≠ none)
    (beyond : inodeNumDirect ≤ k) : e.indirect ≠ 0#32 := by
  intro absent
  apply mapped
  unfold fileBlock
  split
  · have notDirect : ¬ k < inodeNumDirect := by omega
    simp only [Place.file,notDirect,dite_false,refsOf,if_pos absent]
  · rfl

theorem Appending.mapped (appending : Appending files p size din d fs) (inTable : InTable sb p) {k : Nat}
    (below : k*blockSize < (files p).2.length) :
    fileBlock fs.cache (din.setNumBytes size) k ≠ none := by
  have mapped := (appending.contents p inTable).mapped k below
  rw [appending.mirrors.entryOf] at mapped
  exact mapped

theorem Appending.missing_zero (appending : Appending files p size din d fs) (inTable : InTable sb p) {k : Nat}
    (mapped : fileBlock fs.cache (din.setNumBytes size) k ≠ none) : missing k din d = 0 := by
  unfold missing
  unfold fileBlock at mapped
  split at mapped
  · rename_i small
    by_cases direct : k < inodeNumDirect
    · rw [dif_pos direct]
      simp only [Place.file,direct,dite_true,refsOf] at mapped
      refine if_neg ?_
      intro absent
      apply mapped
      change reference (din.addrs ⟨k,direct⟩) = none
      rw [absent]
      rfl
    · rw [dif_neg direct]
      simp only [Place.file,direct,dite_false,refsOf] at mapped
      split at mapped
      · exact absurd rfl mapped
      · rename_i present
        have present : din.indirect ≠ 0#32 := present
        obtain ⟨notBitmap,notTable⟩ := data_apart inTable (b := din.indirect.setWidth 64) (by
          rw [wide_toNat]
          exact (appending.mirrors.holder appending.owned present).1)
        rw [if_neg present]
        refine if_neg ?_
        intro absent
        apply mapped
        change reference (getAddr (fs.cache.blocks (din.indirect.setWidth 64)) (k-inodeNumDirect)) = none
        rw [appending.mirrors.blocks _ notBitmap notTable,absent]
        rfl
  · exact absurd rfl mapped

theorem missing_le (k : Nat) (din : InodeEntry) (d : State) :
    missing k din d ≤ 2 ∧ (k < inodeNumDirect ∨ din.indirect ≠ 0#32 → missing k din d ≤ 1) := by
  unfold missing
  split
  · split <;> simp
  · rename_i beyond
    split
    · rename_i absent
      simp [beyond,absent]
    · split <;> simp

theorem Appending.taken (appending : Appending files p size din d fs) (inTable : InTable sb p) {n : Nat}
    (more : 0 < n) :
    missing ((files p).2.length/blockSize) din d+blocksOf (files p).2.length ≤ blocksOf ((files p).2.length+n) := by
  have mapped := fun k below => appending.mapped inTable (k := k) below
  have zero := appending.missing_zero inTable (k := (files p).2.length/blockSize)
  obtain ⟨two,one⟩ := missing_le ((files p).2.length/blockSize) din d
  generalize (files p).2.length = length at *
  by_cases started : length%blockSize = 0
  · by_cases reached : length/blockSize < inodeNumDirect ∨ din.indirect ≠ 0#32
    · have one := one reached
      unfold blocksOf blockSize inodeNumDirect at *
      split <;> split <;> omega
    · -- The first block behind the direct ones takes the indirect block with it.
      obtain ⟨beyond,absent⟩ := not_or.mp reached
      have first : length/blockSize = inodeNumDirect := by
        by_contra later
        refine absent (mapped_indirect (e := din.setNumBytes size) (mapped inodeNumDirect ?_) (Nat.le_refl _))
        unfold blockSize inodeNumDirect at beyond later ⊢
        omega
      unfold blocksOf blockSize inodeNumDirect at *
      split <;> split <;> omega
  · have zero := zero (mapped _ (by unfold blockSize at started ⊢; omega))
    have mono := blocksOf_mono (Nat.le_add_right length n)
    omega

theorem Appending.loop (op : Nat) (bytes : List Byte) (fuel : Nat) (appending : Appending files p size din d fs)
    (inTable : InTable sb p) (fits : (files p).2.length+bytes.length ≤ inodeMaxBytes) (enough : bytes.length ≤ fuel)
    (room : d.freeblock.toNat+blocksOf ((files p).2.length+bytes.length) ≤ fsSize+blocksOf (files p).2.length) :
    ∃ din' d' fs',
      iappendLoop fuel din (files p).2.length bytes d = .ok (din',(files p).2.length+bytes.length,d') ∧
      writeLoop kernel (some op) p fuel (files p).2.length bytes fs = .ok fs' ∧ d'.freeinode = d.freeinode ∧
      d'.freeblock.toNat+blocksOf (files p).2.length ≤ d.freeblock.toNat+blocksOf ((files p).2.length+bytes.length) ∧
      Appending (files.append p bytes) p size din' d' fs' := by
  induction fuel generalizing files din d fs bytes with
  | zero =>
    have none : bytes = [] := List.length_eq_zero_iff.mp (by omega)
    subst none
    exact ⟨din,d,fs,rfl,rfl,rfl,Nat.le_refl _,by rw [append_nil]; exact appending⟩
  | succ fuel ih =>
    unfold iappendLoop writeLoop
    by_cases none : bytes = []
    · subst none
      rw [if_pos rfl,if_pos rfl]
      exact ⟨din,d,fs,rfl,rfl,rfl,Nat.le_refl _,by rw [append_nil]; exact appending⟩
    · rw [if_neg none,if_neg none]
      have positive := List.length_pos_iff.mpr none
      have total : inodeMaxBytes = 71680 := rfl
      have blocks : inodeMaxBlocks = 140 := rfl
      have small : (files p).2.length/blockSize < inodeMaxBlocks := by unfold blockSize; omega
      generalize count : min (blockSize-(files p).2.length%blockSize) bytes.length = n
      have bounds : 0 < n ∧ n ≤ bytes.length ∧ (files p).2.length%blockSize+n ≤ blockSize := by
        unfold blockSize at *
        omega
      have length : (bytes.take n).length = n := by rw [List.length_take]; omega
      have rest : (bytes.drop n).length = bytes.length-n := List.length_drop
      have taken := appending.taken inTable bounds.1
      have mono := blocksOf_mono (show (files p).2.length+n ≤ (files p).2.length+bytes.length by omega)
      obtain ⟨din',x,d',modified,fs',found,mapped,nonzero,read,counter,spent,after⟩ :=
        appending.round op (bytes.take n) inTable small (by rw [length]; exact bounds.1) (by rw [length]; exact bounds.2.2) (by omega)
      have grown : (files.append p (bytes.take n) p).2.length = (files p).2.length+n := by rw [append_length,length]
      have step : min bytes.length (((files p).2.length/blockSize+1)*blockSize-(files p).2.length) = n := by
        unfold blockSize at *
        omega
      have start : (files p).2.length-(files p).2.length/blockSize*blockSize = (files p).2.length%blockSize := by
        unfold blockSize
        omega
      obtain ⟨din'',d'',fs'',looped,written,counter',spent',last⟩ := ih (bytes.drop n) after
          (by rw [grown,rest]; omega) (by rw [rest]; omega) (by
        rw [grown,rest]
        change d'.freeblock.toNat+_ ≤ _
        have whole : (files p).2.length+n+(bytes.length-n) = (files p).2.length+bytes.length := by omega
        rw [whole]
        omega)
      rw [grown,rest] at looped
      rw [grown] at written
      rw [grown,rest] at spent'
      have whole : (files p).2.length+n+(bytes.length-n) = (files p).2.length+bytes.length := by omega
      rw [whole] at looped spent'
      rw [append_append,List.take_append_drop] at last
      refine ⟨din'',d'',fs'',?_,?_,counter'.trans counter,?_,last⟩
      · rw [if_neg (by omega),found]
        simp only [bind,Except.bind,step,start,read]
        exact looped
      · rw [mapped]
        simp only [bind,Except.bind,if_neg nonzero]
        exact written
      · have spent' : d''.freeblock.toNat+_ ≤ d'.freeblock.toNat+_ := spent'
        omega

end Loop

end Mkfs
