import HonorKernel.InodeConsistency
import HonorKernel.Overlay
import Mathlib.Data.Finset.Card
import Mathlib.Data.Finset.Range
import Mathlib.Tactic.Tauto

-- inode_read and inode_write against the abstract file: a size and a byte at every
-- position below it.
namespace InodeLayer
open DiskFormat CacheView Overlay

def fileBlock (v : View) (e : InodeEntry) (k : Nat) : Option Usize :=
  if small : k < inodeMaxBlocks then refsOf v e (.file ⟨k,small⟩) else none

def fileByte (v : View) (e : InodeEntry) (x : Nat) : Byte :=
  match fileBlock v e (x/blockSize) with
  | some b => byteAt (v.blocks b) (x%blockSize)
  | none => 0#8

-- No file block below the size is missing.
structure Whole (v : View) (e : InodeEntry) : Prop where
  size : e.numBytes.toNat ≤ inodeMaxBytes
  mapped : ∀ k, k*blockSize < e.numBytes.toNat → fileBlock v e k ≠ none

def content (v : View) (e : InodeEntry) (x : Nat) : Option Byte := if x < e.numBytes.toNat then some (fileByte v e x) else none

section Reading
variable {env : Env} {live : Usize → Bool} {p : Usize} {fs : Fs} {inode : Inode}

theorem fileBlock_iff {sb : SuperBlock} (owned : Owned sb live fs) (found : fs.inodes p = some inode) (k : Nat)
    (b : Usize) :
    fileBlock fs.cache inode.entry k = some b ↔ ∃ small :
    k < inodeMaxBlocks, refs sb live fs (p,.file ⟨k,small⟩) = some b := by
  have alive := (owned.loaded p inode found).1
  unfold fileBlock
  by_cases small : k < inodeMaxBlocks
  · simp [small,refs_own fs alive found]
  · simp [small]

theorem fileBlock_mapped (found : fs.inodes p = some inode) (there : fileBlock fs.cache inode.entry k = some b) :
    inodeMap env ctx p k fs = .ok (b,false,fs) := by
  unfold fileBlock at there
  split at there
  · rename_i small
    exact inodeMap_mapped found ⟨k,small⟩ there
  · cases there

-- The block that inode_map returns to a reader: for a block that is missing it is block 0.
def readBlock (v : View) (e : InodeEntry) (k : Nat) : Usize := (fileBlock v e k).getD 0#64

def readByte (v : View) (e : InodeEntry) (x : Nat) : Byte := byteAt (v.blocks (readBlock v e (x/blockSize))) (x%blockSize)

-- A reader gets along without an indirect block of its own.
structure Readable (e : InodeEntry) : Prop where
  size : e.numBytes.toNat ≤ inodeMaxBytes
  indirect : e.numBytes.toNat ≤ inodeNumDirect*blockSize ∨ e.indirect ≠ 0#32

theorem inodeMap_reader (found : fs.inodes p = some inode) (small : k < inodeMaxBlocks)
    (reached : k < inodeNumDirect ∨ inode.entry.indirect ≠ 0#32) :
    inodeMap env none p k fs = .ok (readBlock fs.cache inode.entry k,false,fs) := by
  unfold readBlock
  cases there : fileBlock fs.cache inode.entry k with
  | some b => exact fileBlock_mapped found there
  | none =>
    simp only [fileBlock,small,dite_true,Place.file] at there
    unfold inodeMap
    split
    · rename_i direct
      simp only [direct,dite_true,refsOf] at there
      have absent : inode.entry.addrs ⟨k,direct⟩ = 0#32 := by
        by_contra present
        rw [reference_of_ne present] at there
        cases there
      simp [mapDirect,Fs.inode_ok.mpr found,bind,Except.bind,absent]
    · rename_i beyond
      have present := reached.resolve_left beyond
      simp only [beyond,dite_false,refsOf,if_neg present] at there
      have absent : getAddr (fs.cache.blocks (inode.entry.indirect.setWidth 64)) (k-inodeNumDirect) = 0#32 := by
        by_contra mapped
        rw [reference_of_ne mapped] at there
        cases there
      have index : ¬ inodeNumIndirect ≤ k-inodeNumDirect := by
        unfold inodeMaxBlocks at small
        omega
      simp [needIndirect,Fs.inode_ok.mpr found,bind,Except.bind,present,mapEntry,index,absent]

theorem getBytes_read (v : View) (e : InodeEntry) (inside : offset%blockSize+n ≤ blockSize) :
    getBytes (v.blocks (readBlock v e (offset/blockSize))) (offset%blockSize) n =
      (List.range n).map fun j => readByte v e (offset+j) := by
  unfold getBytes
  refine List.map_congr_left ?_
  intro j member
  have small := List.mem_range.mp member
  have block : (offset+j)/blockSize = offset/blockSize := by unfold blockSize at inside ⊢; omega
  have within : (offset+j)%blockSize = offset%blockSize+j := by unfold blockSize at inside ⊢; omega
  unfold readByte
  rw [block,within]

theorem readLoop_reads (found : fs.inodes p = some inode) (readable : Readable inode.entry) (fuel offset left : Nat)
    (dest : List Byte) (enough : left ≤ fuel) (inside : offset+left ≤ inode.entry.numBytes.toNat) :
    readLoop env p fuel offset left false dest fs =
      .ok (dest++(List.range left).map fun j => readByte fs.cache inode.entry (offset+j),false,fs) := by
  induction fuel generalizing offset left dest with
  | zero =>
    have none : left = 0 := by omega
    subst none
    simp [readLoop]
  | succ fuel ih =>
    unfold readLoop
    by_cases done : left = 0
    · subst done
      simp
    · rw [if_neg done]
      have bound := readable.size
      have total : inodeMaxBytes = 71680 := rfl
      have blocks : inodeMaxBlocks = 140 := rfl
      have reached : offset/blockSize < inodeNumDirect ∨ inode.entry.indirect ≠ 0#32 := by
        rcases readable.indirect with short | present
        · unfold inodeNumDirect blockSize at *
          exact .inl (by omega)
        · exact .inr present
      rw [inodeMap_reader found (by unfold blockSize; omega) reached]
      simp only [bind,Except.bind]
      generalize chunk : (if left < blockSize-offset%blockSize then left else blockSize-offset%blockSize) = sz
      have bounds : 0 < sz ∧ sz ≤ left ∧ offset%blockSize+sz ≤ blockSize := by
        rw [← chunk]
        unfold blockSize
        split <;> omega
      rw [getBytes_read fs.cache inode.entry bounds.2.2,ih (offset+sz) (left-sz) _ (by omega) (by omega)]
      have parts : left = sz+(left-sz) := by omega
      rw [List.append_assoc]
      congr 3
      conv => rhs; rw [parts]
      rw [List.range_add,List.map_append,List.map_map]
      congr 1
      refine List.map_congr_left ?_
      intro j _
      simp [Nat.add_assoc]

theorem readCount_toNat (numBytes : U32) (offset count : Usize) (inside : offset.toNat ≤ numBytes.toNat)
    (small : offset.toNat+count.toNat < 2^64) :
    (readCount (numBytes.setWidth 64) offset count).toNat = min count.toNat (numBytes.toNat-offset.toNat) := by
  have wide : (numBytes.setWidth 64).toNat = numBytes.toNat := by
    rw [BitVec.toNat_setWidth,Nat.mod_eq_of_lt (by omega)]
  have sum : (count+offset).toNat = count.toNat+offset.toNat := by
    rw [BitVec.toNat_add,Nat.mod_eq_of_lt (by omega)]
  unfold readCount
  split
  · rename_i past
    have past : numBytes.toNat < count.toNat+offset.toNat := by
      rw [BitVec.lt_def,wide,sum] at past
      exact past
    have difference : (numBytes.setWidth 64-offset).toNat = numBytes.toNat-offset.toNat := by
      rw [BitVec.toNat_sub_of_le (by rw [BitVec.le_def,wide]; exact inside),wide]
    rw [difference]
    omega
  · rename_i within
    have within : ¬ numBytes.toNat < count.toNat+offset.toNat := by
      rw [BitVec.lt_def,wide,sum] at within
      exact within
    omega

theorem inodeRead_reads (found : fs.inodes p = some inode) (file : inode.entry.type ≠ inodeDevice)
    (readable : Readable inode.entry) (offset count : Usize) (inside : offset.toNat ≤ inode.entry.numBytes.toNat)
    (small : offset.toNat+count.toNat < 2^64) :
    inodeRead env p offset count fs = .ok (BitVec.ofNat 64 (min count.toNat (inode.entry.numBytes.toNat-offset.toNat)),
      (List.range (min count.toNat (inode.entry.numBytes.toNat-offset.toNat))).map
        (fun j => readByte fs.cache inode.entry (offset.toNat+j)),fs) := by
  have counted := readCount_toNat inode.entry.numBytes offset count inside small
  have wide : (inode.entry.numBytes.setWidth 64).toNat = inode.entry.numBytes.toNat := by
    rw [BitVec.toNat_setWidth,Nat.mod_eq_of_lt (by omega)]
  have ends : (offset+readCount (inode.entry.numBytes.setWidth 64) offset count).toNat =
      offset.toNat+min count.toNat (inode.entry.numBytes.toNat-offset.toNat) := by
    rw [BitVec.toNat_add,counted,Nat.mod_eq_of_lt (by omega)]
  have asserted : offset ≤ inode.entry.numBytes.setWidth 64 ∧
      offset+readCount (inode.entry.numBytes.setWidth 64) offset count ≤ inode.entry.numBytes.setWidth 64 ∧
      offset ≤ offset+readCount (inode.entry.numBytes.setWidth 64) offset count := by
    simp only [BitVec.le_def,wide,ends]
    omega
  unfold inodeRead
  simp only [Fs.inode_ok.mpr found,bind,Except.bind]
  rw [if_neg file,if_pos asserted,counted,
    readLoop_reads found readable _ _ _ [] (Nat.le_refl _) (by omega)]
  simp only [List.nil_append,Bool.false_eq_true,if_false]
  rw [← counted,BitVec.ofNat_toNat,BitVec.setWidth_eq]

theorem Whole.readable {v : View} {e : InodeEntry} (whole : Whole v e) : Readable e := by
  refine ⟨whole.size,?_⟩
  by_cases short : e.numBytes.toNat ≤ inodeNumDirect*blockSize
  · exact .inl short
  · refine .inr ?_
    intro absent
    have mapped := whole.mapped inodeNumDirect (by omega)
    have small : inodeNumDirect < inodeMaxBlocks := by decide
    simp [fileBlock,small,Place.file,refsOf,absent] at mapped

theorem Whole.readByte {v : View} {e : InodeEntry} (whole : Whole v e) (below : x < e.numBytes.toNat) :
    InodeLayer.readByte v e x = fileByte v e x := by
  have mapped := whole.mapped (x/blockSize) (by unfold blockSize; omega)
  obtain ⟨b,there⟩ := Option.ne_none_iff_exists'.mp mapped
  simp only [InodeLayer.readByte,readBlock,fileByte,there,Option.getD_some]

theorem inodeRead_whole (found : fs.inodes p = some inode) (file : inode.entry.type ≠ inodeDevice)
    (whole : Whole fs.cache inode.entry) (offset count : Usize) (inside : offset.toNat ≤ inode.entry.numBytes.toNat)
    (small : offset.toNat+count.toNat < 2^64) :
    inodeRead env p offset count fs = .ok (BitVec.ofNat 64 (min count.toNat (inode.entry.numBytes.toNat-offset.toNat)),
      (List.range (min count.toNat (inode.entry.numBytes.toNat-offset.toNat))).map
        (fun j => fileByte fs.cache inode.entry (offset.toNat+j)),fs) := by
  rw [inodeRead_reads found file whole.readable offset count inside small]
  have same : ∀ j ∈ List.range (min count.toNat (inode.entry.numBytes.toNat-offset.toNat)),
      readByte fs.cache inode.entry (offset.toNat+j) = fileByte fs.cache inode.entry (offset.toNat+j) := by
    intro j member
    have below := List.mem_range.mp member
    exact whole.readByte (by omega)
  rw [List.map_congr_left same]

end Reading

-- What writing `src` at `offset` does to the file blocks: they stay where they are, and
-- only those of `p` in the range change.
structure Writes (sb : SuperBlock) (live : Usize → Bool) (p : Usize) (offset : Nat) (src : List Byte) (fs fs' : Fs) : Prop where
  grows : ∀ slot b, refs sb live fs slot = some b → refs sb live fs' slot = some b
  bytes : ∀ q k b, refs sb live fs (q,.file k) = some b → ∀ j, j < blockSize → byteAt (fs'.cache.blocks b) j =
    if q = p ∧ covers (offset,src) (k.val*blockSize+j) then src.getD (k.val*blockSize+j-offset) 0#8
    else byteAt (fs.cache.blocks b) j
  written : ∀ x, covers (offset,src) x → ∃ small : x/blockSize < inodeMaxBlocks, ∃ b,
    refs sb live fs' (p,.file ⟨x/blockSize,small⟩) = some b ∧
      byteAt (fs'.cache.blocks b) (x%blockSize) = src.getD (x-offset) 0#8

section Writing
variable {env : Env} {live : Usize → Bool} {p : Usize} {fs fs' fs'' : Fs} {inode : Inode} {ctx : Ctx}

theorem Writes.nil {sb : SuperBlock} (fs : Fs) (offset : Nat) : Writes sb live p offset [] fs fs := by
  have nothing : ∀ x, ¬ covers (offset,([] : List Byte)) x := by
    intro x inside
    have bounds : offset ≤ x ∧ x < offset+0 := inside
    omega
  refine ⟨fun _ _ refers => refers,?_,?_⟩
  · intro q k b _ j _
    rw [if_neg (fun both => nothing _ both.2)]
  · intro x inside
    exact absurd inside (nothing x)

theorem Place.file_injective {j k : Fin inodeMaxBlocks} (same : Place.file j = Place.file k) : j = k := by
  unfold Place.file at same
  apply Fin.ext
  split at same <;> split at same <;> simp at same <;> omega

-- A chunk that does not cross a block boundary lies in the block of its first byte.
theorem covers_block (inside : offset%blockSize+chunk.length ≤ blockSize) (x : Nat) :
    covers (offset,chunk) x ↔ x/blockSize = offset/blockSize ∧ offset%blockSize ≤ x%blockSize ∧
      x%blockSize < offset%blockSize+chunk.length := by
  unfold covers
  simp only
  unfold blockSize at *
  omega

theorem chunk_index (block : x/blockSize = offset/blockSize) (after : offset%blockSize ≤ x%blockSize) :
    x%blockSize-offset%blockSize = x-offset := by
  unfold blockSize at *
  omega

theorem writeChunk (layout : Layout env.sblock) (owned : Owned env.sblock live fs) (found : fs.inodes p = some inode)
    (mapped : inodeMap env ctx p (offset/blockSize) fs = .ok (b,modified,fs')) (nonzero : b ≠ 0#64) (chunk : List Byte)
    (inside : offset%blockSize+chunk.length ≤ blockSize) :
    Writes env.sblock live p offset chunk fs
      (fs'.setCache (fs'.cache.put ctx b (setBytes (fs'.cache.blocks b) (offset%blockSize) chunk))) := by
  obtain ⟨maps,small,refers⟩ := inodeMap_maps layout owned found mapped
  have refers := refers nonzero
  obtain ⟨addrs,indirect,found'⟩ := maps.found
  obtain ⟨_,same⟩ := storeData layout maps.owned found' ⟨_,small⟩ refers ctx
    (setBytes (fs'.cache.blocks b) (offset%blockSize) chunk)
  have bits : 8*(offset%blockSize+chunk.length) ≤ 4096 := by unfold blockSize at inside ⊢; omega
  refine ⟨?_,?_,?_⟩
  · intro slot c there
    rw [same]
    exact maps.grows.refs slot c there
  · intro q k c there j within
    have kept := maps.grows.data q _ c (Place.file_ne_indirect k) there
    have there' := maps.grows.refs _ c there
    have position : (k.val*blockSize+j)/blockSize = k.val ∧ (k.val*blockSize+j)%blockSize = j := by
      unfold blockSize at within ⊢
      omega
    simp only [Fs.setCache,View.put_blocks]
    by_cases here : c = b
    · -- Two places with one number are one place: this is the block written to.
      subst here
      have slots := maps.owned.balanced.unique _ _ _ there' refers
      have own : q = p := congrArg Prod.fst slots
      have block : k = ⟨offset/blockSize,small⟩ := Place.file_injective (congrArg Prod.snd slots)
      have number : k.val = offset/blockSize := congrArg Fin.val block
      have spread := covers_block inside (k.val*blockSize+j)
      rw [position.1,position.2] at spread
      rw [Function.update_self,byteAt_setBytes _ _ _ bits,kept]
      by_cases hit : offset%blockSize ≤ j ∧ j < offset%blockSize+chunk.length
      · have index := chunk_index (x := k.val*blockSize+j) (position.1.trans number) (by rw [position.2]; exact hit.1)
        rw [position.2] at index
        rw [if_pos hit,if_pos ⟨own,spread.mpr ⟨number,hit⟩⟩,index]
      · rw [if_neg hit,if_neg (fun both => hit (spread.mp both.2).2)]
    · have outside : ¬ (q = p ∧ covers (offset,chunk) (k.val*blockSize+j)) := by
        rintro ⟨own,covered⟩
        have block := ((covers_block inside _).mp covered).1
        rw [position.1] at block
        have slot : k = ⟨offset/blockSize,small⟩ := Fin.ext block
        rw [own,slot,refers] at there'
        exact here (Option.some.inj there').symm
      rw [Function.update_of_ne here,if_neg outside,kept]
  · intro x covered
    obtain ⟨block,after,before⟩ := (covers_block inside x).mp covered
    refine ⟨by rw [block]; exact small,b,?_,?_⟩
    · rw [same]
      simp only [block]
      exact refers
    · simp only [Fs.setCache,View.put_blocks]
      rw [Function.update_self,byteAt_setBytes _ _ _ bits,if_pos ⟨after,before⟩,chunk_index block after]

theorem Writes.append {sb : SuperBlock} {one two : List Byte} (first : Writes sb live p offset one fs fs')
    (second : Writes sb live p (offset+one.length) two fs' fs'') : Writes sb live p offset (one++two) fs fs'' := by
  have split : ∀ x, covers (offset,one++two) x ↔ covers (offset,one) x ∨ covers (offset+one.length,two) x := by
    intro x
    unfold covers
    simp only [List.length_append]
    omega
  have early : ∀ x, covers (offset,one) x → (one++two).getD (x-offset) 0#8 = one.getD (x-offset) 0#8 := by
    intro x covered
    have bounds : offset ≤ x ∧ x < offset+one.length := covered
    rw [List.getD_eq_getElem?_getD,List.getD_eq_getElem?_getD,List.getElem?_append_left (by omega)]
  have late : ∀ x, covers (offset+one.length,two) x →
      (one++two).getD (x-offset) 0#8 = two.getD (x-(offset+one.length)) 0#8 := by
    intro x covered
    have bounds : offset+one.length ≤ x ∧ x < offset+one.length+two.length := covered
    rw [List.getD_eq_getElem?_getD,List.getD_eq_getElem?_getD,List.getElem?_append_right (by omega),Nat.sub_sub]
  have apart : ∀ x, covers (offset,one) x → ¬ covers (offset+one.length,two) x := by
    intro x left right
    have left : offset ≤ x ∧ x < offset+one.length := left
    have right : offset+one.length ≤ x ∧ x < offset+one.length+two.length := right
    omega
  refine ⟨fun slot b refers => second.grows slot b (first.grows slot b refers),?_,?_⟩
  · intro q k b refers j within
    rw [second.bytes q k b (first.grows _ b refers) j within,first.bytes q k b refers j within]
    by_cases own : q = p
    · by_cases left : covers (offset,one) (k.val*blockSize+j)
      · rw [if_neg (fun both => apart _ left both.2),if_pos ⟨own,left⟩,if_pos ⟨own,(split _).mpr (.inl left)⟩,early _ left]
      · by_cases right : covers (offset+one.length,two) (k.val*blockSize+j)
        · rw [if_pos ⟨own,right⟩,if_pos ⟨own,(split _).mpr (.inr right)⟩,late _ right]
        · rw [if_neg (fun both => right both.2),if_neg (fun both => left both.2),
            if_neg (fun both => ((split _).mp both.2).elim left right)]
    · simp [own]
  · intro x covered
    rcases (split x).mp covered with left | right
    · obtain ⟨small,b,refers,byte⟩ := first.written x left
      refine ⟨small,b,second.grows _ b refers,?_⟩
      have position : x/blockSize*blockSize+x%blockSize = x := by unfold blockSize; omega
      rw [second.bytes p ⟨_,small⟩ b refers _ (Nat.mod_lt _ (by decide)),position,if_neg (fun both => apart x left both.2),
        byte,early x left]
    · obtain ⟨small,b,refers,byte⟩ := second.written x right
      exact ⟨small,b,refers,byte.trans (late x right).symm⟩

theorem writeLoop_writes (layout : Layout env.sblock) (fuel : Nat) (owned : Owned env.sblock live fs)
    (found : fs.inodes p = some inode) (enough : src.length ≤ fuel)
    (ran : writeLoop env ctx p fuel offset src fs = .ok fs') : Writes env.sblock live p offset src fs fs' := by
  induction fuel generalizing offset src fs inode with
  | zero =>
    have none : src = [] := List.length_eq_zero_iff.mp (by omega)
    subst none
    cases ran
    exact .nil _ offset
  | succ fuel ih =>
    simp only [writeLoop] at ran
    split at ran
    · rename_i none
      subst none
      cases ran
      exact .nil _ offset
    · rename_i more
      obtain ⟨⟨b,flag,middle⟩,mapped,rest⟩ := Runs.bind_ok.mp ran
      simp only at rest
      split at rest
      · cases rest
      · rename_i nonzero
        have positive : 0 < src.length := List.length_pos_iff.mpr more
        have length : (src.take (min (blockSize-offset%blockSize) src.length)).length =
            min (blockSize-offset%blockSize) src.length := by
          rw [List.length_take]
          omega
        have advance : 0 < min (blockSize-offset%blockSize) src.length := by unfold blockSize; omega
        have round := writeChunk layout owned found mapped nonzero
          (src.take (min (blockSize-offset%blockSize) src.length)) (by rw [length]; unfold blockSize; omega)
        obtain ⟨maps,small,refers⟩ := inodeMap_maps layout owned found mapped
        obtain ⟨addrs,indirect,found'⟩ := maps.found
        have stored := (storeData layout maps.owned found' ⟨_,small⟩ (refers nonzero) ctx
          (setBytes (middle.cache.blocks b) (offset%blockSize) (src.take (min (blockSize-offset%blockSize) src.length)))).1
        have tail := ih stored.owned found' (by rw [List.length_drop]; omega) rest
        have whole := round.append (by rw [length]; exact tail)
        rw [List.take_append_drop] at whole
        exact whole

theorem writeLoop_found (layout : Layout env.sblock) (fuel : Nat) (owned : Owned env.sblock live fs)
    (found : fs.inodes p = some inode) (ran : writeLoop env ctx p fuel offset src fs = .ok fs') :
    ∃ addrs indirect, fs'.inodes p = some (inode.setBlocks addrs indirect) := by
  induction fuel generalizing offset src fs inode with
  | zero => cases ran; exact ⟨_,_,found⟩
  | succ fuel ih =>
    simp only [writeLoop] at ran
    split at ran
    · cases ran; exact ⟨_,_,found⟩
    · obtain ⟨⟨b,flag,middle⟩,mapped,rest⟩ := Runs.bind_ok.mp ran
      simp only at rest
      split at rest
      · cases rest
      · rename_i nonzero
        obtain ⟨maps,small,refers⟩ := inodeMap_maps layout owned found mapped
        obtain ⟨addrs,indirect,found'⟩ := maps.found
        have stored := (storeData layout maps.owned found' ⟨_,small⟩ (refers nonzero) ctx
          (setBytes (middle.cache.blocks b) (offset%blockSize) (src.take (min (blockSize-offset%blockSize) src.length)))).1
        obtain ⟨addrs',indirect',last⟩ := ih stored.owned found' rest
        exact ⟨addrs',indirect',last⟩

theorem growTo_grows (layout : Layout env.sblock) (owned : Owned env.sblock live fs) (found : fs.inodes p = some inode)
    (small : last.toNat < 2^32) (ran : growTo env ctx p inode last fs = .ok fs') : Grows env.sblock live fs fs' ∧
      ∃ numBytes, fs'.inodes p = some {inode with entry := inode.entry.setNumBytes numBytes} ∧
        numBytes.toNat = max inode.entry.numBytes.toNat last.toNat := by
  have wide : (inode.entry.numBytes.setWidth 64).toNat = inode.entry.numBytes.toNat := by
    rw [BitVec.toNat_setWidth,Nat.mod_eq_of_lt (by omega)]
  unfold growTo at ran
  split at ran
  · rename_i past
    rw [BitVec.lt_def,wide] at past
    have beside : Beside env.sblock live p fs (fs.setEntry p inode (inode.entry.setNumBytes (last.setWidth 32))) :=
      ⟨fun no other => Function.update_of_ne other _ _,fun _ _ _ => rfl,fun _ _ _ _ => rfl⟩
    have found' : (fs.setEntry p inode (inode.entry.setNumBytes (last.setWidth 32))).inodes p =
        some {inode with entry := inode.entry.setNumBytes (last.setWidth 32)} := Function.update_self _ _ _
    obtain ⟨_,number,valid⟩ := owned.loaded p inode found
    obtain ⟨grown,same⟩ := owned.keep beside found found' number valid rfl rfl (fun _ => rfl) rfl
    rw [inodeSync_write env grown found'] at ran
    cases ran
    have synced := sync_maps layout ctx grown found'
    refine ⟨⟨?_,?_⟩,_,found',?_⟩
    · intro slot c refers
      exact synced.grows.refs slot c (by rw [same]; exact refers)
    · intro no place c data refers
      exact synced.grows.data no place c data (by rw [same]; exact refers)
    · rw [BitVec.toNat_setWidth,Nat.mod_eq_of_lt small]
      omega
  · rename_i within
    rw [BitVec.lt_def,wide] at within
    cases ran
    refine ⟨.refl fs,inode.entry.numBytes,found,?_⟩
    omega

theorem write_bounds (numBytes : U32) (offset : Usize) (src : List Byte)
    (fits : offset.toNat+src.length ≤ inodeMaxBytes) :
    (offset+BitVec.ofNat 64 src.length).toNat = offset.toNat+src.length ∧
      (offset ≤ numBytes.setWidth 64 ↔ offset.toNat ≤ numBytes.toNat) := by
  have small : inodeMaxBytes = 71680 := rfl
  refine ⟨?_,?_⟩
  · rw [BitVec.toNat_add,BitVec.toNat_ofNat,Nat.mod_eq_of_lt (a := src.length) (by omega),Nat.mod_eq_of_lt (by omega)]
  · rw [BitVec.le_def,BitVec.toNat_setWidth,Nat.mod_eq_of_lt (by omega)]

theorem Grows.writes {sb : SuperBlock} (grows : Grows sb live fs fs') (writes : Writes sb live p offset src fs' fs'') :
    Writes sb live p offset src fs fs'' := by
  refine ⟨fun slot b refers => writes.grows slot b (grows.refs slot b refers),?_,writes.written⟩
  intro q k b refers j within
  rw [writes.bytes q k b (grows.refs _ b refers) j within,grows.data q _ b (Place.file_ne_indirect k) refers]

theorem Writes.fileByte {sb : SuperBlock} {inode' : Inode} (writes : Writes sb live p offset src fs fs')
    (owned : Owned sb live fs) (owned' : Owned sb live fs') (found : fs.inodes q = some inode)
    (found' : fs'.inodes q = some inode') (mapped : fileBlock fs.cache inode.entry (x/blockSize) = some b) :
    fileBlock fs'.cache inode'.entry (x/blockSize) = some b ∧ InodeLayer.fileByte fs'.cache inode'.entry x =
      if q = p ∧ covers (offset,src) x then src.getD (x-offset) 0#8 else InodeLayer.fileByte fs.cache inode.entry x := by
  obtain ⟨small,refers⟩ := (fileBlock_iff owned found _ b).mp mapped
  have mapped' := (fileBlock_iff owned' found' _ b).mpr ⟨small,writes.grows _ b refers⟩
  have position : x/blockSize*blockSize+x%blockSize = x := by unfold blockSize; omega
  have byte := writes.bytes q ⟨_,small⟩ b refers (x%blockSize) (Nat.mod_lt _ (by decide))
  simp only [position] at byte
  refine ⟨mapped',?_⟩
  unfold InodeLayer.fileByte
  rw [mapped',mapped]
  exact byte

theorem inodeWrite_content (layout : Layout env.sblock) (owned : Owned env.sblock live fs)
    (found : fs.inodes p = some inode) (file : inode.entry.type ≠ inodeDevice)
    (fits : offset.toNat+src.length ≤ inodeMaxBytes) (ran : inodeWrite env ctx p src offset fs = .ok (n,fs')) :
    n = BitVec.ofNat 64 src.length ∧ offset.toNat ≤ inode.entry.numBytes.toNat ∧ Owned env.sblock live fs' ∧
      Writes env.sblock live p offset.toNat src fs fs' ∧ (∀ q, q ≠ p → fs'.inodes q = fs.inodes q) ∧
      ∃ inode', fs'.inodes p = some inode' ∧ inode'.entry.type = inode.entry.type ∧
        inode'.entry.numBytes.toNat = max inode.entry.numBytes.toNat (offset.toNat+src.length) := by
  have works := inodeWrite_works layout owned ran
  obtain ⟨ends,starts⟩ := write_bounds inode.entry.numBytes offset src fits
  have small : inodeMaxBytes = 71680 := rfl
  obtain ⟨same,there,ran⟩ := Runs.bind_ok.mp ran
  rw [Fs.inode_ok.mpr found] at there
  cases there
  simp only at ran
  rw [if_neg file] at ran
  split at ran
  · rename_i asserted
    obtain ⟨middle,grown,ran⟩ := Runs.bind_ok.mp ran
    obtain ⟨last,looped,ran⟩ := Runs.bind_ok.mp ran
    cases ran
    obtain ⟨grows,numBytes,found₁,size⟩ := growTo_grows layout owned found (by omega) grown
    have owned₁ := (growTo_works layout owned found grown).owned
    have writes := writeLoop_writes layout _ owned₁ found₁ (Nat.le_refl _) looped
    obtain ⟨addrs,indirect,found₂⟩ := writeLoop_found layout _ owned₁ found₁ looped
    refine ⟨rfl,starts.mp asserted.1,works.owned,grows.writes writes,works.beside.inodes,_,found₂,rfl,?_⟩
    change numBytes.toNat = _
    rw [size,ends]
  · cases ran

-- The abstract file after a write: the bytes of the range are the new ones.
theorem write_paints {sb : SuperBlock} {inode' : Inode} (writes : Writes sb live p offset src fs fs')
    (owned : Owned sb live fs) (owned' : Owned sb live fs') (found : fs.inodes p = some inode)
    (found' : fs'.inodes p = some inode') (whole : Whole fs.cache inode.entry)
    (fits : offset+src.length ≤ inodeMaxBytes) (starts : offset ≤ inode.entry.numBytes.toNat)
    (size : inode'.entry.numBytes.toNat = max inode.entry.numBytes.toNat (offset+src.length)) :
    Whole fs'.cache inode'.entry ∧ content fs'.cache inode'.entry =
      fun x => if covers (offset,src) x then src[x-offset]? else content fs.cache inode.entry x := by
  have inRange : ∀ x, covers (offset,src) x → fileBlock fs'.cache inode'.entry (x/blockSize) ≠ none ∧
      some (fileByte fs'.cache inode'.entry x) = src[x-offset]? := by
    intro x covered
    obtain ⟨small,b,refers,byte⟩ := writes.written x covered
    have mapped := (fileBlock_iff owned' found' _ b).mpr ⟨small,refers⟩
    refine ⟨by rw [mapped]; simp,?_⟩
    have index : x-offset < src.length := by
      have bounds : offset ≤ x ∧ x < offset+src.length := covered
      omega
    unfold fileByte
    rw [mapped]
    simp only
    rw [byte,List.getD_eq_getElem?_getD,List.getElem?_eq_getElem index]
    rfl
  have old : ∀ x, x < inode.entry.numBytes.toNat → ¬ covers (offset,src) x →
      fileByte fs'.cache inode'.entry x = fileByte fs.cache inode.entry x := by
    intro x below outside
    have block : x/blockSize*blockSize < inode.entry.numBytes.toNat := by unfold blockSize; omega
    obtain ⟨b,mapped⟩ := Option.ne_none_iff_exists'.mp (whole.mapped _ block)
    rw [(writes.fileByte owned owned' found found' mapped).2,if_neg (fun both => outside both.2)]
  refine ⟨⟨?_,?_⟩,?_⟩
  · have before := whole.size
    omega
  · intro k below
    by_cases before : k*blockSize < inode.entry.numBytes.toNat
    · obtain ⟨b,mapped⟩ := Option.ne_none_iff_exists'.mp (whole.mapped k before)
      have position : k*blockSize/blockSize = k := Nat.mul_div_cancel k (by decide)
      have mapped' := (writes.fileByte (x := k*blockSize) owned owned' found found' (by rw [position]; exact mapped)).1
      rw [position] at mapped'
      rw [mapped']
      simp
    · have covered : covers (offset,src) (k*blockSize) := by
        unfold covers
        simp only
        omega
      have position : k*blockSize/blockSize = k := Nat.mul_div_cancel k (by decide)
      have mapped := (inRange _ covered).1
      rw [position] at mapped
      exact mapped
  · funext x
    unfold content
    by_cases covered : covers (offset,src) x
    · have below : x < inode'.entry.numBytes.toNat := by
        have bounds : offset ≤ x ∧ x < offset+src.length := covered
        omega
      rw [if_pos below,if_pos covered,(inRange x covered).2]
    · have same : x < inode'.entry.numBytes.toNat ↔ x < inode.entry.numBytes.toNat := by
        unfold covers at covered
        simp only at covered
        omega
      rw [if_neg covered]
      by_cases below : x < inode.entry.numBytes.toNat
      · rw [if_pos (same.mpr below),if_pos below,old x below covered]
      · rw [if_neg (fun inside => below (same.mp inside)),if_neg below]

theorem write_spares {sb : SuperBlock} (writes : Writes sb live p offset src fs fs') (owned : Owned sb live fs)
    (owned' : Owned sb live fs') (found : fs.inodes q = some inode) (found' : fs'.inodes q = some inode)
    (whole : Whole fs.cache inode.entry) (other : q ≠ p) :
    Whole fs'.cache inode.entry ∧ content fs'.cache inode.entry = content fs.cache inode.entry := by
  have kept : ∀ x, x < inode.entry.numBytes.toNat → fileBlock fs'.cache inode.entry (x/blockSize) ≠ none ∧
      fileByte fs'.cache inode.entry x = fileByte fs.cache inode.entry x := by
    intro x below
    have block : x/blockSize*blockSize < inode.entry.numBytes.toNat := by unfold blockSize; omega
    obtain ⟨b,mapped⟩ := Option.ne_none_iff_exists'.mp (whole.mapped _ block)
    obtain ⟨mapped',byte⟩ := writes.fileByte owned owned' found found' mapped
    refine ⟨by rw [mapped']; simp,?_⟩
    rw [byte,if_neg (fun both => other both.1)]
  refine ⟨⟨whole.size,?_⟩,?_⟩
  · intro k below
    have position : k*blockSize/blockSize = k := Nat.mul_div_cancel k (by decide)
    have mapped := (kept _ below).1
    rw [position] at mapped
    exact mapped
  · funext x
    unfold content
    by_cases below : x < inode.entry.numBytes.toNat
    · rw [if_pos below,if_pos below,(kept x below).2]
    · rw [if_neg below,if_neg below]

end Writing

-- Whether cache_alloc finds a block: how many bits are clear.
def freeBlocks (sb : SuperBlock) (v : View) : Nat :=
  ((Finset.range sb.numBlocks.toNat).filter fun i => bitmapGet (v.blocks (bitmapBlock sb)) i = false).card

-- An indirect block that is there already saves one.
def room (sb : SuperBlock) (v : View) (e : InodeEntry) : Nat := freeBlocks sb v+if e.indirect = 0#32 then 0 else 1

section Room
variable {env : Env} {live : Usize → Bool} {p : Usize} {fs fs' : Fs} {inode : Inode} {ctx : Ctx} {sb : SuperBlock}
  {v v' : View}

theorem cacheAlloc_room (low : ∀ c : Usize, c.toNat ≤ sb.bitmapStart.toNat → used sb v c)
    (ran : cacheAlloc sb ctx v = .ok (b,v')) : freeBlocks sb v' + 1 = freeBlocks sb v := by
  have takes := cacheAlloc_takes low ran
  obtain ⟨i,same,below,fits,free,_,_⟩ := cacheAlloc_spec ran
  have number : b.toNat = i := by
    have fits : i < 4096 := fits
    rw [same,BitVec.toNat_ofNat,Nat.mod_eq_of_lt (by omega)]
  have bits : ∀ j, j < sb.numBlocks.toNat → (bitmapGet (v'.blocks (bitmapBlock sb)) j = false ↔
      j ≠ i ∧ bitmapGet (v.blocks (bitmapBlock sb)) j = false) := by
    intro j inside
    have wide : (BitVec.ofNat 64 j).toNat = j := by
      rw [BitVec.toNat_ofNat,Nat.mod_eq_of_lt (by omega)]
    have marks := takes.marks (BitVec.ofNat 64 j)
    unfold used at marks
    rw [wide] at marks
    have here : BitVec.ofNat 64 j = b ↔ j = i := by
      constructor
      · intro equal
        rw [← wide,equal,number]
      · intro equal
        exact BitVec.eq_of_toNat_eq (by rw [wide,number,equal])
    rw [here] at marks
    rw [← Bool.not_eq_true,marks,not_or,Bool.not_eq_true]
  have erased : (Finset.range sb.numBlocks.toNat).filter (fun j => bitmapGet (v'.blocks (bitmapBlock sb)) j = false) =
      ((Finset.range sb.numBlocks.toNat).filter fun j => bitmapGet (v.blocks (bitmapBlock sb)) j = false).erase i := by
    ext j
    simp only [Finset.mem_filter,Finset.mem_range,Finset.mem_erase]
    by_cases inside : j < sb.numBlocks.toNat
    · rw [bits j inside]
      tauto
    · simp [inside]
  have member : i ∈ (Finset.range sb.numBlocks.toNat).filter fun j => bitmapGet (v.blocks (bitmapBlock sb)) j = false := by
    simp [below,free]
  unfold freeBlocks
  rw [erased]
  exact Finset.card_erase_add_one member

theorem cacheAlloc_exists (layout : Layout sb) (some : 0 < freeBlocks sb v) (ctx : Ctx) :
    ∃ r, cacheAlloc sb ctx v = .ok r := by
  obtain ⟨i,member⟩ := Finset.card_pos.mp some
  simp only [Finset.mem_filter,Finset.mem_range] at member
  have single := layout.single
  obtain ⟨k,found⟩ := findFree_exists (v.blocks (bitmapBlock sb)) sb.numBlocks.toNat 0 (by omega)
    ⟨i,by omega,by omega,member.2⟩
  unfold cacheAlloc
  rw [found]
  exact ⟨_,rfl⟩

theorem freeBlocks_congr (same : v'.blocks (bitmapBlock sb) = v.blocks (bitmapBlock sb)) :
    freeBlocks sb v' = freeBlocks sb v := by
  unfold freeBlocks
  rw [same]

theorem put_room (other : b ≠ bitmapBlock sb) (ctx : Ctx) (d : BlockData) (e : InodeEntry) :
    room sb (v.put ctx b d) e = room sb v e := by
  have same : freeBlocks sb (v.put ctx b d) = freeBlocks sb v := freeBlocks_congr (by simp [Ne.symm other])
  unfold room
  rw [same]

theorem sync_room (layout : Layout sb) (inTable : InTable sb p) (e : InodeEntry) :
    freeBlocks sb (writeEntry sb ctx v p e) = freeBlocks sb v := by
  refine freeBlocks_congr ?_
  have other : bitmapBlock sb ≠ toBlockNo sb p := by
    intro equal
    have table := (layout.tableBlock inTable).2
    rw [← equal,bitmapBlock_toNat] at table
    omega
  unfold writeEntry
  simp [other]

theorem dataBlock_ne_zero (inData : dataBlock sb b) : b ≠ 0#64 := by
  intro zero
  have above := inData.1
  rw [zero] at above
  simp at above

theorem room_free (enough : 2 ≤ room sb v e) : 0 < freeBlocks sb v := by
  unfold room at enough
  split at enough <;> omega

-- inode_map with a ctx returns as long as there is room, and takes one unit of it.
theorem mapDirect_room (layout : Layout env.sblock) (owned : Owned env.sblock live fs)
    (found : fs.inodes p = some inode) (i : Fin inodeNumDirect) (op : Nat)
    (enough : 2 ≤ room env.sblock fs.cache inode.entry) :
    ∃ b modified fs' inode', mapDirect env (some op) p i fs = .ok (b,modified,fs') ∧ b ≠ 0#64 ∧
    fs'.inodes p = some inode' ∧
      room env.sblock fs.cache inode.entry ≤ room env.sblock fs'.cache inode'.entry+1 := by
  have alive := (owned.loaded p inode found).1
  unfold mapDirect
  simp only [Fs.inode_ok.mpr found,bind,Except.bind]
  by_cases absent : inode.entry.addrs i = 0#32
  · obtain ⟨⟨b,v⟩,taken⟩ := cacheAlloc_exists layout (room_free enough) (some op)
    have takes := cacheAlloc_takes owned.low taken
    have fewer := cacheAlloc_room owned.low taken
    have maps := (takes.claim_direct layout owned found i absent).1
    have found' : ((fs.setCache v).setEntry p inode (inode.entry.setAddr i (b.setWidth 32))).inodes p =
        some {inode with entry := inode.entry.setAddr i (b.setWidth 32)} := Function.update_self _ _ _
    rw [if_neg (fun present => present absent),if_neg (by simp),taken]
    simp only
    rw [inodeSync_write env maps.owned found']
    refine ⟨_,_,_,_,rfl,?_,found',?_⟩
    · simp only [InodeEntry.setAddr,Function.update_self,(dataBlock_narrow layout takes.inData).1]
      exact dataBlock_ne_zero takes.inData
    · change room env.sblock fs.cache inode.entry ≤ room env.sblock (writeEntry _ _ v p _) _+1
      have same : (inode.entry.setAddr i (b.setWidth 32)).indirect = inode.entry.indirect := rfl
      unfold room
      rw [sync_room layout (owned.inTable p alive),same]
      omega
  · have refers : refs env.sblock live fs (p,.direct i) = some ((inode.entry.addrs i).setWidth 64) := by
      rw [refs_own fs alive found]
      exact reference_of_ne absent
    rw [if_pos absent]
    exact ⟨_,_,fs,inode,rfl,dataBlock_ne_zero (owned.used_of_ref refers).1,found,by omega⟩

theorem needIndirect_room (layout : Layout env.sblock) (owned : Owned env.sblock live fs)
    (found : fs.inodes p = some inode) (enough : 2 ≤ room env.sblock fs.cache inode.entry) (ctx : Ctx) :
    ∃ b fs', needIndirect env ctx p fs = .ok (b,fs') ∧ ∀ inode', fs'.inodes p = some inode' →
      room env.sblock fs.cache inode.entry = room env.sblock fs'.cache inode'.entry := by
  unfold needIndirect
  simp only [Fs.inode_ok.mpr found,bind,Except.bind]
  by_cases absent : inode.entry.indirect = 0#32
  · obtain ⟨⟨b,v⟩,taken⟩ := cacheAlloc_exists layout (room_free enough) ctx
    have takes := cacheAlloc_takes owned.low taken
    have fewer := cacheAlloc_room owned.low taken
    obtain ⟨_,nonzero⟩ := dataBlock_narrow layout takes.inData
    rw [if_pos absent,taken]
    refine ⟨_,_,rfl,?_⟩
    intro inode' there
    simp only [Fs.setEntry,Fs.setInode,Function.update_self,Option.some.injEq] at there
    subst there
    unfold room
    change _ = freeBlocks env.sblock v+(if b.setWidth 32 = 0#32 then 0 else 1)
    rw [if_pos absent,if_neg nonzero]
    omega
  · rw [if_neg absent]
    refine ⟨_,fs,rfl,?_⟩
    intro inode' there
    rw [found] at there
    cases there
    rfl

theorem mapEntry_room (layout : Layout env.sblock) (owned : Owned env.sblock live fs) (found : fs.inodes p = some inode)
    (present : inode.entry.indirect ≠ 0#32) (small : i < inodeNumIndirect) (op : Nat)
    (enough : 2 ≤ room env.sblock fs.cache inode.entry) :
    ∃ b modified fs' inode', mapEntry env (some op) p (inode.entry.indirect.setWidth 64) i fs = .ok (b,modified,fs') ∧
      b ≠ 0#64 ∧ fs'.inodes p = some inode' ∧
      room env.sblock fs.cache inode.entry ≤ room env.sblock fs'.cache inode'.entry+1 := by
  have alive := (owned.loaded p inode found).1
  have inTable := owned.inTable p alive
  have apart := layout.apart inTable (owned.used_of_ref (owned.own_indirect found present)).1
  unfold mapEntry
  rw [if_neg (by omega)]
  by_cases absent : getAddr (fs.cache.blocks (inode.entry.indirect.setWidth 64)) i = 0#32
  · obtain ⟨⟨b,v⟩,taken⟩ := cacheAlloc_exists layout (room_free enough) (some op)
    have takes := cacheAlloc_takes owned.low taken
    have fewer := cacheAlloc_room owned.low taken
    obtain ⟨maps,filled⟩ := takes.claim_entry layout owned found present ⟨i,small⟩ absent
    have synced := sync_maps layout (some op) maps.owned found
    have filled := synced.grows.refs _ _ filled
    rw [if_neg (fun mapped => mapped absent),if_neg (by simp),taken]
    simp only [bind,Except.bind]
    rw [inodeSync_write env maps.owned found]
    refine ⟨_,_,_,_,rfl,?_,found,?_⟩
    · simp only [refs,entryOf,alive,if_true,Fs.setCache,found,refsOf,if_neg present] at filled
      simp only [Fs.setCache]
      rw [(reference_some filled).2]
      exact dataBlock_ne_zero takes.inData
    · change room env.sblock fs.cache inode.entry ≤ room env.sblock (writeEntry _ _ (v.store _ _) p _) _+1
      unfold room
      rw [sync_room layout inTable]
      have bitmap : freeBlocks env.sblock (v.store (inode.entry.indirect.setWidth 64)
          (putAddr (v.blocks (inode.entry.indirect.setWidth 64)) i (b.setWidth 32))) = freeBlocks env.sblock v :=
        freeBlocks_congr (by simp [Ne.symm apart.2.1])
      rw [bitmap]
      omega
  · have refers : refs env.sblock live fs (p,.entry ⟨i,small⟩) =
        some ((getAddr (fs.cache.blocks (inode.entry.indirect.setWidth 64)) i).setWidth 64) := by
      rw [refs_own fs alive found]
      simp only [refsOf,if_neg present]
      exact reference_of_ne absent
    rw [if_pos absent]
    exact ⟨_,_,fs,inode,rfl,dataBlock_ne_zero (owned.used_of_ref refers).1,found,by omega⟩

theorem inodeMap_room (layout : Layout env.sblock) (owned : Owned env.sblock live fs) (found : fs.inodes p = some inode)
    (small : k < inodeMaxBlocks) (op : Nat) (enough : 2 ≤ room env.sblock fs.cache inode.entry) :
    ∃ b modified fs' inode', inodeMap env (some op) p k fs = .ok (b,modified,fs') ∧ b ≠ 0#64 ∧
    fs'.inodes p = some inode' ∧
      room env.sblock fs.cache inode.entry ≤ room env.sblock fs'.cache inode'.entry+1 := by
  unfold inodeMap
  split
  · exact mapDirect_room layout owned found _ op enough
  · obtain ⟨ib,middle,needed,same⟩ := needIndirect_room layout owned found enough (some op)
    obtain ⟨maps,inode',found',present,rfl⟩ := needIndirect_maps layout owned found needed
    have same := same inode' found'
    have index : k-inodeNumDirect < inodeNumIndirect := by
      unfold inodeMaxBlocks at small
      omega
    rw [needed]
    simp only [bind,Except.bind]
    rw [same] at enough ⊢
    exact mapEntry_room layout maps.owned found' present index op enough

-- The rounds inode_write makes.
def rounds (offset count : Nat) : Nat := if count = 0 then 0 else (offset%blockSize+count+(blockSize-1))/blockSize

theorem writeLoop_room (layout : Layout env.sblock) (fuel : Nat) (owned : Owned env.sblock live fs)
    (found : fs.inodes p = some inode) (op : Nat) (fits : offset+src.length ≤ inodeMaxBytes)
    (enough : rounds offset src.length+1 ≤ room env.sblock fs.cache inode.entry) :
    ∃ fs', writeLoop env (some op) p fuel offset src fs = .ok fs' := by
  induction fuel generalizing offset src fs inode with
  | zero => exact ⟨fs,rfl⟩
  | succ fuel ih =>
    unfold writeLoop
    by_cases more : src = []
    · rw [if_pos more]
      exact ⟨fs,rfl⟩
    · have positive : 0 < src.length := List.length_pos_iff.mpr more
      have total : inodeMaxBytes = 71680 := rfl
      have blocks : inodeMaxBlocks = 140 := rfl
      unfold rounds blockSize at enough
      rw [if_neg (by omega)] at enough
      obtain ⟨b,modified,middle,inode',mapped,nonzero,found',spent⟩ :=
        inodeMap_room (k := offset/blockSize) layout owned found (by unfold blockSize; omega) op (by omega)
      obtain ⟨maps,small,refers⟩ := inodeMap_maps layout owned found mapped
      have stored := storeData layout maps.owned found' ⟨_,small⟩ (refers nonzero) (some op)
        (setBytes (middle.cache.blocks b) (offset%blockSize) (src.take (min (blockSize-offset%blockSize) src.length)))
      have inTable := maps.owned.inTable p (maps.owned.loaded p inode' found').1
      have apart := layout.apart inTable (maps.owned.used_of_ref (refers nonzero)).1
      rw [if_neg more,mapped]
      simp only [bind,Except.bind]
      rw [if_neg nonzero]
      refine ih stored.1.owned found' ?_ ?_
      · rw [List.length_drop]
        omega
      · change _ ≤ room env.sblock (middle.cache.put (some op) b _) inode'.entry
        rw [put_room apart.2.1,List.length_drop]
        unfold rounds blockSize
        split <;> omega

theorem rounds_le (offset count : Nat) : rounds offset count ≤ count/blockSize+2 := by
  unfold rounds blockSize
  split <;> omega

theorem inodeWrite_returns (layout : Layout env.sblock) (owned : Owned env.sblock live fs)
    (found : fs.inodes p = some inode) (file : inode.entry.type ≠ inodeDevice) (op : Nat) (src : List Byte)
    (offset : Usize) (starts : offset.toNat ≤ inode.entry.numBytes.toNat)
    (fits : offset.toNat+src.length ≤ inodeMaxBytes)
    (enough : src.length/blockSize+3 ≤ freeBlocks env.sblock fs.cache) :
    ∃ fs', inodeWrite env (some op) p src offset fs = .ok (BitVec.ofNat 64 src.length,fs') := by
  obtain ⟨ends,inside⟩ := write_bounds inode.entry.numBytes offset src fits
  have asserted : offset ≤ inode.entry.numBytes.setWidth 64 ∧ (offset+BitVec.ofNat 64 src.length).toNat ≤ inodeMaxBytes ∧
      offset ≤ offset+BitVec.ofNat 64 src.length := by
    refine ⟨inside.mpr starts,by rw [ends]; exact fits,?_⟩
    rw [BitVec.le_def,ends]
    omega
  have grown : ∃ middle, growTo env (some op) p inode (offset+BitVec.ofNat 64 src.length) fs = .ok middle ∧
      freeBlocks env.sblock middle.cache = freeBlocks env.sblock fs.cache := by
    unfold growTo
    split
    · have longer : Works env.sblock live p fs (fs.setEntry p inode (inode.entry.setNumBytes
          ((offset+BitVec.ofNat 64 src.length).setWidth 32))) := setInode_works owned found _ rfl rfl rfl rfl rfl rfl
      rw [inodeSync_write env longer.owned (Function.update_self _ _ _)]
      refine ⟨_,rfl,?_⟩
      exact sync_room layout (owned.inTable p (owned.loaded p inode found).1) _
    · exact ⟨fs,rfl,rfl⟩
  obtain ⟨middle,grown,same⟩ := grown
  have works := growTo_works layout owned found grown
  obtain ⟨inode',found',_⟩ := works.found inode found
  have rounded := rounds_le offset.toNat src.length
  obtain ⟨last,looped⟩ := writeLoop_room layout src.length works.owned found' op fits (by
    unfold room
    rw [same]
    omega)
  refine ⟨last,?_⟩
  unfold inodeWrite
  simp only [Fs.inode_ok.mpr found,bind,Except.bind]
  rw [if_neg file,if_pos asserted,grown]
  simp only
  rw [looped]

end Room

end InodeLayer
