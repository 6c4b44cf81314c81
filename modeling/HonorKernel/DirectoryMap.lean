import HonorKernel.DirectoryScan
import HonorKernel.SlotMap

-- A directory as a finite map from names to inode numbers.
namespace InodeLayer
open DiskFormat CacheView SlotMap
open Overlay (covers)

-- The name that an entry gets: 14 bytes, filled up with NULs.
def padded (name : List Byte) : List Byte := strncpy name fileNameMaxLength

section names

theorem charAt_first (s : List Byte) (i : Nat) : charAt ((s.drop i).takeWhile (· ≠ 0#8)) 0 = charAt s i := by
  have here : charAt s i = charAt (s.drop i) 0 := by simp [charAt,List.getD_eq_getElem?_getD]
  rw [here]
  cases s.drop i with
  | nil => rfl
  | cons c rest =>
    by_cases zero : c = 0#8
    · simp [charAt,zero]
    · simp [charAt,zero]

theorem charAt_later (s : List Byte) (i j : Nat) : charAt ((s.drop i).takeWhile (· ≠ 0#8)) (j+1) =
    if charAt s i = 0#8 then 0#8 else charAt ((s.drop (i+1)).takeWhile (· ≠ 0#8)) j := by
  have here : charAt s i = charAt (s.drop i) 0 := by simp [charAt,List.getD_eq_getElem?_getD]
  have next : s.drop (i+1) = (s.drop i).drop 1 := by rw [List.drop_drop]
  rw [here,next]
  cases s.drop i with
  | nil => rfl
  | cons c rest =>
    by_cases zero : c = 0#8
    · simp [charAt,zero]
    · simp [charAt,zero]

theorem sameName_from (s1 s2 : List Byte) (n i : Nat) : sameName s1 s2 n i = true ↔
    ∀ j < n, charAt ((s1.drop i).takeWhile (· ≠ 0#8)) j = charAt ((s2.drop i).takeWhile (· ≠ 0#8)) j := by
  induction n generalizing i with
  | zero => simp [sameName]
  | succ n ih =>
    unfold sameName
    by_cases differ : charAt s1 i ≠ charAt s2 i
    · rw [if_pos differ]
      constructor
      · intro impossible
        cases impossible
      · intro same
        have first := same 0 (by omega)
        rw [charAt_first,charAt_first] at first
        exact absurd first differ
    · rw [if_neg differ]
      have same : charAt s1 i = charAt s2 i := not_not.mp differ
      by_cases ended : charAt s1 i = 0#8 ∨ charAt s2 i = 0#8
      · have zero : charAt s1 i = 0#8 := ended.elim id fun zero => same.trans zero
        rw [if_pos ended]
        refine ⟨fun _ j _ => ?_,fun _ => rfl⟩
        cases j with
        | zero => rw [charAt_first,charAt_first,same]
        | succ j => rw [charAt_later,charAt_later,← same,if_pos zero,if_pos zero]
      · rw [if_neg ended,ih]
        rw [not_or] at ended
        constructor
        · intro rest j below
          cases j with
          | zero => rw [charAt_first,charAt_first,same]
          | succ j =>
            rw [charAt_later,charAt_later,if_neg ended.1,if_neg ended.2]
            exact rest j (by omega)
        · intro all j below
          have later := all (j+1) (by omega)
          rwa [charAt_later,charAt_later,if_neg ended.1,if_neg ended.2] at later

theorem sameName_padded (s1 s2 : List Byte) : sameName s1 s2 fileNameMaxLength 0 = true ↔ padded s1 = padded s2 := by
  rw [sameName_from]
  simp only [List.drop_zero,padded,strncpy]
  constructor
  · intro same
    refine List.map_congr_left ?_
    intro j member
    exact same j (List.mem_range.mp member)
  · intro same j below
    exact List.map_inj_left.mp same j (List.mem_range.mpr below)

theorem charAt_before (s : List Byte) (i a : Nat) (inside : ∀ l, a ≤ l → l < a+i → charAt s l ≠ 0#8) :
    charAt ((s.drop a).takeWhile (· ≠ 0#8)) i = charAt s (a+i) := by
  induction i generalizing a with
  | zero => exact charAt_first s a
  | succ i ih =>
    rw [charAt_later,if_neg (inside a (by omega) (by omega)),ih (a+1) fun l low high => inside l (by omega) (by omega)]
    congr 1
    omega

theorem padded_padded (name : List Byte) : padded (padded name) = padded name := by
  rw [← sameName_padded]
  have along : ∀ n i, i+n = fileNameMaxLength → (∀ l < i, charAt name l ≠ 0#8) → sameName (padded name) name n i = true := by
    intro n
    induction n with
    | zero =>
      intro i last inside
      rfl
    | succ n ih =>
      intro i last inside
      have here : charAt (padded name) i = charAt name i := by
        have stored : charAt (padded name) i = charAt (name.takeWhile (· ≠ 0#8)) i := by
          have small : i < fileNameMaxLength := by omega
          simp [padded,strncpy,charAt,small]
        have plain := charAt_before name i 0 fun l _ below => inside l (by omega)
        rw [List.drop_zero,Nat.zero_add] at plain
        rw [stored,plain]
      unfold sameName
      rw [if_neg (not_not.mpr here),here]
      split
      · rfl
      · rename_i more
        refine ih (i+1) (by omega) ?_
        intro l below
        by_cases new : l = i
        · subst new
          exact fun zero => more (.inl zero)
        · exact inside l (by omega)
  exact along fileNameMaxLength 0 (by omega) (fun l below => by omega)

end names

-- The entries of the directory, and what they bind.
def slot (v : View) (e : InodeEntry) (i : Nat) : DirEntry := readSlot v e (dirEntrySize*i) 0#128

def binding (dir : DirEntry) : Option (List Byte × Usize) :=
  if dir.inodeNo = 0#16 then none else some (padded dir.name,dir.inodeNo.setWidth 64)

def slotsOf (v : View) (e : InodeEntry) : Slots (List Byte) Usize := ⟨e.numBytes.toNat/dirEntrySize,fun i => binding (slot v e i)⟩

section entries
variable {env : Env} {ctx : Ctx} {live : Usize → Bool} {p : Usize} {fs fs' : Fs} {inode inode' : Inode} {v : View}
  {e : InodeEntry} {i : Nat}

theorem binding_named (dir : DirEntry) (name : List Byte) :
    named name dir = true ↔ ∃ no, binding dir = some (padded name,no) := by
  unfold named binding
  rw [Bool.and_eq_true,sameName_padded,bne_iff_ne]
  by_cases free : dir.inodeNo = 0#16
  · simp [free]
  · simp [free]

theorem binding_unused (dir : DirEntry) : unused dir = true ↔ binding dir = none := by
  unfold unused binding
  rw [beq_iff_eq]
  by_cases free : dir.inodeNo = 0#16
  · simp [free]
  · simp [free]

theorem readSlot_slot (inside : i < e.numBytes.toNat/dirEntrySize) (dir : DirEntry) :
    readSlot v e (dirEntrySize*i) dir = slot v e i := by
  have full : min dirEntrySize (e.numBytes.toNat-dirEntrySize*i) = 16 := by
    unfold dirEntrySize at inside ⊢
    omega
  unfold slot readSlot
  rw [full]
  refine byteAt_ext ?_
  intro j small
  rw [byteAt_setBytes _ _ _ (by simp),byteAt_setBytes _ _ _ (by simp)]
  have covered : 0 ≤ j ∧ j < 0+((List.range 16).map fun j => readByte v e (dirEntrySize*i+j)).length := by
    rw [List.length_map,List.length_range]
    omega
  rw [if_pos covered,if_pos covered]

theorem slot_shrunk {n : U32} (inside : i < n.toNat/dirEntrySize) (before : i < e.numBytes.toNat/dirEntrySize) :
    slot v (e.setNumBytes n) i = slot v e i := by
  have full : min dirEntrySize ((e.setNumBytes n).numBytes.toNat-dirEntrySize*i) = dirEntrySize := by
    change min dirEntrySize (n.toNat-dirEntrySize*i) = dirEntrySize
    unfold dirEntrySize at inside ⊢
    omega
  have full' : min dirEntrySize (e.numBytes.toNat-dirEntrySize*i) = dirEntrySize := by
    unfold dirEntrySize at before ⊢
    omega
  unfold slot readSlot
  rw [full,full']
  rfl

theorem walk_slots (stop : DirEntry → Bool) (aligned : e.numBytes.toNat%dirEntrySize = 0) (fuel i : Nat)
    (dir : DirEntry) (enough : e.numBytes.toNat/dirEntrySize ≤ fuel+i) (start : i ≤ e.numBytes.toNat/dirEntrySize) :
    (∃ j, i ≤ j ∧ j < e.numBytes.toNat/dirEntrySize ∧ stop (slot v e j) = true ∧
      walk v e stop fuel (dirEntrySize*i) dir = (dirEntrySize*j,true,slot v e j)) ∨
    (∀ j, i ≤ j → j < e.numBytes.toNat/dirEntrySize → stop (slot v e j) = false) ∧
      ∃ last, walk v e stop fuel (dirEntrySize*i) dir = (e.numBytes.toNat,false,last) := by
  unfold dirEntrySize at aligned enough start ⊢
  induction fuel generalizing i dir with
  | zero =>
    have ended : 16*i = e.numBytes.toNat := by omega
    refine .inr ⟨fun j low high => by omega,dir,?_⟩
    unfold walk
    rw [ended]
  | succ fuel ih =>
    unfold walk
    by_cases more : 16*i < e.numBytes.toNat
    · have inside : i < e.numBytes.toNat/16 := by omega
      have entry : readSlot v e (16*i) dir = slot v e i := readSlot_slot inside dir
      rw [if_pos more,entry]
      by_cases here : stop (slot v e i) = true
      · rw [if_pos here]
        exact .inl ⟨i,by omega,inside,here,rfl⟩
      · rw [if_neg here]
        have step : 16*i+dirEntrySize = 16*(i+1) := by
          unfold dirEntrySize
          omega
        rw [step]
        rcases ih (i+1) (slot v e i) (by omega) (by omega) with ⟨j,low,high,stopped,found⟩ | ⟨none,last,ended⟩
        · exact .inl ⟨j,by omega,high,stopped,found⟩
        · refine .inr ⟨fun j low high => ?_,last,ended⟩
          by_cases first : j = i
          · rw [first]
            simpa using here
          · exact none j (by omega) high
    · have ended : 16*i = e.numBytes.toNat := by omega
      rw [if_neg more,ended]
      exact .inr ⟨fun j low high => by omega,dir,rfl⟩

-- A directory in memory whose blocks are all there and whose entries are whole.
structure DirectoryFile (env : Env) (live : Usize → Bool) (p : Usize) (fs : Fs) (inode : Inode) : Prop where
  owned : Owned env.sblock live fs
  found : fs.inodes p = some inode
  directory : inode.entry.type = inodeDirectory
  whole : Whole fs.cache inode.entry
  aligned : inode.entry.numBytes.toNat%dirEntrySize = 0

theorem slot_content (whole : Whole v e) (inside : i < e.numBytes.toNat/dirEntrySize) (small : j < dirEntrySize) :
    content v e (dirEntrySize*i+j) = some (byteAt (slot v e i) j) := by
  have below : dirEntrySize*i+j < e.numBytes.toNat := by
    unfold dirEntrySize at inside small ⊢
    omega
  have full : min dirEntrySize (e.numBytes.toNat-dirEntrySize*i) = dirEntrySize := by
    unfold dirEntrySize at inside ⊢
    omega
  rw [content,if_pos below,← whole.readByte below]
  unfold slot readSlot
  rw [full,byteAt_setBytes _ _ _ (by simp [dirEntrySize]),List.length_map,List.length_range,if_pos
      ⟨Nat.zero_le j,by omega⟩,Nat.sub_zero]
  simp [small]

theorem slot_eq {dir : DirEntry} (whole : Whole v e) (inside : i < e.numBytes.toNat/dirEntrySize)
    (bytes : ∀ j < dirEntrySize, content v e (dirEntrySize*i+j) = some (byteAt dir j)) : slot v e i = dir := by
  refine byteAt_ext ?_
  intro j small
  have small : j < dirEntrySize := by
    unfold dirEntrySize
    omega
  exact Option.some.inj ((slot_content whole inside small).symm.trans (bytes j small))

theorem slot_offset (dir : DirectoryFile env live p fs inode) (start : i ≤ inode.entry.numBytes.toNat/dirEntrySize) :
    (BitVec.ofNat 64 (dirEntrySize*i)).toNat = dirEntrySize*i := by
  have small := dir.whole.size
  have bound : inodeMaxBytes = 71680 := rfl
  rw [BitVec.toNat_ofNat,Nat.mod_eq_of_lt]
  unfold dirEntrySize at start ⊢
  omega

theorem inodeWrite_fits (found : fs.inodes p = some inode) (file : inode.entry.type ≠ inodeDevice)
    (small : offset.toNat ≤ inodeMaxBytes) (short : src.length ≤ inodeMaxBytes)
    (ran : inodeWrite env ctx p src offset fs = .ok r) : offset.toNat+src.length ≤ inodeMaxBytes := by
  have bound : inodeMaxBytes = 71680 := rfl
  obtain ⟨same,there,ran⟩ := Runs.bind_ok.mp ran
  cases (Fs.inode_ok.mp there).symm.trans found
  simp only [if_neg file] at ran
  split at ran
  · rename_i asserted
    have fits := asserted.2.1
    rwa [BitVec.toNat_add,BitVec.toNat_ofNat,Nat.mod_eq_of_lt (a := src.length) (by omega),Nat.mod_eq_of_lt (by omega)] at fits
  · cases ran

theorem DirectoryFile.write (layout : Layout env.sblock) (dir : DirectoryFile env live p fs inode) (new : DirEntry)
    (start : i ≤ inode.entry.numBytes.toNat/dirEntrySize)
    (ran : inodeWrite env ctx p new.bytes (BitVec.ofNat 64 (dirEntrySize*i)) fs = .ok (n,fs')) :
    ∃ inode', DirectoryFile env live p fs' inode' ∧
      inode'.entry.numBytes.toNat/dirEntrySize = max (inode.entry.numBytes.toNat/dirEntrySize) (i+1) ∧
      slot fs'.cache inode'.entry i = new ∧
      ∀ j < inode.entry.numBytes.toNat/dirEntrySize, j ≠ i →
      slot fs'.cache inode'.entry j = slot fs.cache inode.entry j := by
  have offset := slot_offset dir start
  have size := dir.whole.size
  have aligned := dir.aligned
  have length := DirEntry.bytes_length new
  have bound : inodeMaxBytes = 71680 := rfl
  have fits := inodeWrite_fits dir.found (directory_file dir.directory) (by rw [offset]; unfold dirEntrySize at start ⊢; omega)
    (by rw [length]; decide) ran
  obtain ⟨_,starts,owned',writes,_,inode',found',type,grown⟩ := inodeWrite_content layout dir.owned dir.found
      (directory_file dir.directory) fits ran
  rw [offset] at fits starts writes grown
  obtain ⟨whole',contents⟩ := write_paints writes dir.owned owned' dir.found found' dir.whole fits starts grown
  rw [length] at grown
  unfold dirEntrySize at start aligned starts grown length
  have count : inode'.entry.numBytes.toNat/16 = max (inode.entry.numBytes.toNat/16) (i+1) := by omega
  refine ⟨inode',⟨owned',found',type.trans dir.directory,whole',?_⟩,count,?_,?_⟩
  · unfold dirEntrySize
    omega
  · refine slot_eq whole' (show i < _/16 by omega) ?_
    intro j small
    have covered : covers (dirEntrySize*i,new.bytes) (dirEntrySize*i+j) := by
      unfold covers
      unfold dirEntrySize at small ⊢
      simp only [length]
      omega
    rw [contents]
    simp only [if_pos covered,Nat.add_sub_cancel_left]
    simp [DirEntry.bytes,getBytes,small]
  · intro j below other
    refine slot_eq whole' (show j < _/16 by unfold dirEntrySize at below; omega) ?_
    intro l small
    have outside : ¬covers (dirEntrySize*i,new.bytes) (dirEntrySize*j+l) := by
      unfold covers
      unfold dirEntrySize at small ⊢
      simp only [length]
      omega
    rw [contents]
    simp only [if_neg outside]
    exact slot_content dir.whole below small

theorem writeLoop_chunk (env : Env) (found : fs.inodes p = some inode)
    (mapped : fileBlock fs.cache inode.entry (offset/blockSize) = some b) (nonzero : b ≠ 0#64) (src : List Byte)
    (inside : offset%blockSize+src.length ≤ blockSize) (ctx : Ctx) (fuel : Nat) :
    ∃ fs', writeLoop env ctx p fuel offset src fs = .ok fs' := by
  cases fuel with
  | zero => exact ⟨fs,rfl⟩
  | succ fuel =>
    unfold writeLoop
    split
    · exact ⟨fs,rfl⟩
    · have all : min (blockSize-offset%blockSize) src.length = src.length := by omega
      simp only [fileBlock_mapped found mapped,bind,Except.bind,if_neg nonzero,all,List.drop_length]
      cases fuel <;> exact ⟨_,rfl⟩

theorem DirectoryFile.write_returns (dir : DirectoryFile env live p fs inode) (ctx : Ctx) (new : DirEntry)
    (inside : i < inode.entry.numBytes.toNat/dirEntrySize) :
    ∃ r, inodeWrite env ctx p new.bytes (BitVec.ofNat 64 (dirEntrySize*i)) fs = .ok r := by
  have offset := slot_offset dir (Nat.le_of_lt inside)
  have size := dir.whole.size
  have length := DirEntry.bytes_length new
  have bound : inodeMaxBytes = 71680 := rfl
  have block : blockSize = 512 := rfl
  have before : dirEntrySize*i+dirEntrySize ≤ inode.entry.numBytes.toNat := by
    unfold dirEntrySize at inside ⊢
    omega
  obtain ⟨ends,starts⟩ := write_bounds inode.entry.numBytes (BitVec.ofNat 64 (dirEntrySize*i)) new.bytes (by rw [offset,length]; omega)
  rw [offset] at ends starts
  have wide : (inode.entry.numBytes.setWidth 64).toNat = inode.entry.numBytes.toNat := by
    rw [BitVec.toNat_setWidth,Nat.mod_eq_of_lt (by omega)]
  have asserted : BitVec.ofNat 64 (dirEntrySize*i) ≤ inode.entry.numBytes.setWidth 64 ∧
      (BitVec.ofNat 64 (dirEntrySize*i)+BitVec.ofNat 64 new.bytes.length).toNat ≤ inodeMaxBytes ∧
      BitVec.ofNat 64 (dirEntrySize*i) ≤ BitVec.ofNat 64 (dirEntrySize*i)+BitVec.ofNat 64 new.bytes.length := by
    refine ⟨starts.mpr (by omega),by rw [ends,length]; omega,?_⟩
    rw [BitVec.le_def,ends,offset]
    omega
  have grown : growTo env ctx p inode (BitVec.ofNat 64 (dirEntrySize*i)+BitVec.ofNat 64 new.bytes.length) fs = .ok fs := by
    refine if_neg ?_
    rw [BitVec.lt_def,ends,wide,length]
    omega
  obtain ⟨b,mapped⟩ := Option.ne_none_iff_exists'.mp (dir.whole.mapped (dirEntrySize*i/blockSize) (by
    unfold blockSize dirEntrySize at *
    omega))
  have nonzero : b ≠ 0#64 := by
    obtain ⟨small,refers⟩ := (fileBlock_iff dir.owned dir.found _ b).mp mapped
    exact dataBlock_ne_zero (dir.owned.used_of_ref refers).1
  obtain ⟨last,looped⟩ := writeLoop_chunk env dir.found mapped nonzero new.bytes (by
    unfold blockSize
    rw [length]
    unfold dirEntrySize
    omega) ctx new.bytes.length
  refine ⟨(BitVec.ofNat 64 new.bytes.length,last),?_⟩
  unfold inodeWrite
  simp only [Fs.inode_ok.mpr dir.found,bind,Except.bind]
  rw [if_neg (directory_file dir.directory),if_pos asserted,grown,offset]
  simp only [looped]

variable {m : List Byte → Option Usize}

-- What inode_lookup has to return for a name: the number and the index of its entry.
def Answers (env : Env) (p : Usize) (fs : Fs) (e : InodeEntry) (name : List Byte) : Option Usize → Prop
  | some no => ∃ i < e.numBytes.toNat/dirEntrySize, binding (slot fs.cache e i) = some (padded name,no) ∧
      inodeLookup env p name fs = .ok (no,some (BitVec.ofNat 64 (dirEntrySize*i)),fs)
  | none => inodeLookup env p name fs = .ok (0#64,none,fs)

theorem DirectoryFile.lookup (dir : DirectoryFile env live p fs inode)
    (rep : Represents (slotsOf fs.cache inode.entry) m) (name : List Byte) :
    Answers env p fs inode.entry name (m (padded name)) := by
  have looked : inodeLookup env p name fs = _ := inodeLookup_walks dir.found dir.directory dir.whole.readable name
  have bound := Nat.div_le_self inode.entry.numBytes.toNat dirEntrySize
  rcases walk_slots (v := fs.cache) (named name) dir.aligned inode.entry.numBytes.toNat 0 env.stack bound (Nat.zero_le _)
    with ⟨i,_,inside,stopped,walked⟩ | ⟨none,last,walked⟩
  · obtain ⟨no,bound⟩ := (binding_named _ name).mp stopped
    rw [(rep.bound (padded name) no).mpr ⟨i,inside,bound⟩]
    refine ⟨i,inside,bound,?_⟩
    rw [looked,walkAll]
    rw [Nat.mul_zero] at walked
    rw [walked]
    unfold binding at bound
    split at bound
    · cases bound
    · rw [← (Prod.mk.inj (Option.some.inj bound)).2]
      rfl
  · have absent : m (padded name) = .none := by
      by_contra present
      obtain ⟨no,there⟩ := Option.ne_none_iff_exists'.mp present
      obtain ⟨i,inside,bound⟩ := (rep.bound (padded name) no).mp there
      have stopped := (binding_named _ name).mpr ⟨no,bound⟩
      rw [none i (Nat.zero_le i) inside] at stopped
      cases stopped
    rw [absent]
    change inodeLookup env p name fs = _
    rw [looked,walkAll]
    rw [Nat.mul_zero] at walked
    rw [walked]
    rfl

theorem newEntry_binding (env : Env) (v : View) (e : InodeEntry) (name : List Byte) {no : Usize}
    (nonzero : 0 < no.toNat) (small : no.toNat < 65536) :
    binding (newEntry env v e name no) = some (padded name,no) := by
  have number : (newEntry env v e name no).inodeNo = no.setWidth 16 := BitSlice.get_put 0 _ _ (by decide)
  have narrow : (no.setWidth 16).toNat = no.toNat := by
    rw [BitVec.toNat_setWidth,Nat.mod_eq_of_lt small]
  have used : no.setWidth 16 ≠ 0#16 := by
    intro zero
    have value := congrArg BitVec.toNat zero
    rw [narrow] at value
    simp at value
    omega
  have wide : (no.setWidth 16).setWidth 64 = no := by
    apply BitVec.eq_of_toNat_eq
    rw [BitVec.toNat_setWidth,narrow,Nat.mod_eq_of_lt no.isLt]
  have stored : (newEntry env v e name no).name = padded name := by
    have length : (padded name).length = fileNameMaxLength := by simp [padded,strncpy]
    refine List.ext_getElem (by rw [length]; exact getBytes_length _ _ _) ?_
    intro j left right
    have below : j < fileNameMaxLength := by omega
    have byte : byteAt (newEntry env v e name no) (2+j) = (padded name).getD j 0#8 := by
      have outside := BitSlice.get_put_apart 0 (no.setWidth 16)
          ((walkAll env v e unused).2.2.setName (padded name)) 8 (8*(2+j)) (.inl (by omega))
      refine outside.trans ?_
      have inside : 2 ≤ 2+j ∧ 2+j < 2+(padded name).length := by omega
      have written := byteAt_setBytes (walkAll env v e unused).2.2 2 (padded name) (by rw [length]; decide) (2+j)
      rw [if_pos inside,Nat.add_sub_cancel_left] at written
      exact written
    simp only [DirEntry.name,getBytes,List.getElem_map,List.getElem_range,byte]
    simp [right]
  rw [binding,number,if_neg used,stored,padded_padded,wide]

theorem newSlot_free (env : Env) (dir : DirectoryFile env live p fs inode) :
    ∃ i, newSlot env fs.cache inode.entry = dirEntrySize*i ∧
    i ≤ inode.entry.numBytes.toNat/dirEntrySize ∧ (i < inode.entry.numBytes.toNat/dirEntrySize →
    binding (slot fs.cache inode.entry i) = none) := by
  have bound := Nat.div_le_self inode.entry.numBytes.toNat dirEntrySize
  unfold newSlot walkAll
  rcases walk_slots (v := fs.cache) unused dir.aligned inode.entry.numBytes.toNat 0 env.stack bound (Nat.zero_le _)
    with ⟨i,_,inside,stopped,walked⟩ | ⟨_,last,walked⟩
  · rw [Nat.mul_zero] at walked
    rw [walked]
    exact ⟨i,rfl,by omega,fun _ => (binding_unused _).mp stopped⟩
  · rw [Nat.mul_zero] at walked
    rw [walked]
    refine ⟨inode.entry.numBytes.toNat/dirEntrySize,?_,Nat.le_refl _,fun inside => absurd inside (Nat.lt_irrefl _)⟩
    have aligned := dir.aligned
    unfold dirEntrySize at aligned ⊢
    simp only
    omega

theorem Answers.walked (answers : Answers env p fs inode.entry name o) (dir : DirectoryFile env live p fs inode) :
    (walkAll env fs.cache inode.entry (named name)).2.1 = o.isSome := by
  have looked : inodeLookup env p name fs = _ := inodeLookup_walks dir.found dir.directory dir.whole.readable name
  cases o with
  | none =>
    rw [show inodeLookup env p name fs = _ from answers] at looked
    split at looked
    · simp only [Except.ok.injEq,Prod.mk.injEq] at looked
      cases looked.2.1
    · rename_i missing
      simpa using missing
  | some no =>
    obtain ⟨i,_,_,answer⟩ := answers
    rw [answer] at looked
    split at looked
    · rename_i there
      simpa using there
    · cases looked

theorem DirectoryFile.insert (layout : Layout env.sblock) (dir : DirectoryFile env live p fs inode)
    (rep : Represents (slotsOf fs.cache inode.entry) m) {no : Usize} (nonzero : 0 < no.toNat) (small : no.toNat < 65536)
    (ran : inodeInsert env ctx p name no fs = .ok (r,fs')) :
    (m (padded name)).isSome = true ∧ r = BitVec.allOnes 64 ∧ fs' = fs ∨
      m (padded name) = none ∧ r ≠ BitVec.allOnes 64 ∧ ∃ inode', DirectoryFile env live p fs' inode' ∧
        Represents (slotsOf fs'.cache inode'.entry) (Function.update m (padded name) (some no)) := by
  have walked := (dir.lookup rep name).walked dir
  rcases inodeInsert_cases dir.found dir.directory dir.whole.readable ran with ⟨there,rfl,rfl⟩ | ⟨missing,rfl,n,written⟩
  · rw [walked] at there
    exact .inl ⟨there,rfl,rfl⟩
  · have absent : m (padded name) = none := by
      rw [walked] at missing
      exact Option.isSome_eq_false_iff.mp missing |> Option.isNone_iff_eq_none.mp
    obtain ⟨i,place,start,free⟩ := newSlot_free env dir
    have offset := slot_offset dir start
    rw [place] at written ⊢
    refine .inr ⟨absent,?_,?_⟩
    · intro full
      have value := congrArg BitVec.toNat full
      have size := dir.whole.size
      have bound : inodeMaxBytes = 71680 := rfl
      rw [offset,BitVec.toNat_allOnes] at value
      unfold dirEntrySize at value start
      omega
    · obtain ⟨inode',dir',count,here,others⟩ := dir.write layout _ start written
      refine ⟨inode',dir',rep.fill absent free start count ?_ ?_⟩
      · exact (congrArg binding here).trans (newEntry_binding env fs.cache inode.entry name nonzero small)
      · intro j below other
        exact congrArg binding (others j below other)

theorem DirectoryFile.shrink (dir : DirectoryFile env live p fs inode)
    (some : 0 < inode.entry.numBytes.toNat/dirEntrySize) :
    ∃ inode', DirectoryFile env live p
        (fs.setEntry p inode (inode.entry.setNumBytes (inode.entry.numBytes-BitVec.ofNat 32 dirEntrySize))) inode' ∧
      inode'.entry.numBytes.toNat/dirEntrySize+1 = inode.entry.numBytes.toNat/dirEntrySize ∧
      ∀ j < inode'.entry.numBytes.toNat/dirEntrySize, slot fs.cache inode'.entry j = slot fs.cache inode.entry j := by
  have aligned := dir.aligned
  have size := dir.whole.size
  generalize smaller : inode.entry.numBytes-BitVec.ofNat 32 dirEntrySize = n
  have value : n.toNat+dirEntrySize = inode.entry.numBytes.toNat := by
    rw [← smaller,BitVec.toNat_sub,BitVec.toNat_ofNat]
    unfold dirEntrySize at *
    omega
  have count : n.toNat/dirEntrySize+1 = inode.entry.numBytes.toNat/dirEntrySize := by
    unfold dirEntrySize at *
    omega
  obtain ⟨owned,_⟩ := setInode_owned dir.owned dir.found {inode with entry := inode.entry.setNumBytes n} rfl rfl rfl rfl
  refine ⟨{inode with entry := inode.entry.setNumBytes n},⟨owned,Function.update_self ..,dir.directory,⟨?_,?_⟩,?_⟩,count,?_⟩
  · change n.toNat ≤ inodeMaxBytes
    omega
  · intro k below
    have below : k*blockSize < n.toNat := below
    exact dir.whole.mapped k (by omega)
  · change n.toNat%dirEntrySize = 0
    unfold dirEntrySize at *
    omega
  · intro j below
    have below : j < n.toNat/dirEntrySize := below
    exact slot_shrunk below (by omega)

theorem DirectoryFile.remove (layout : Layout env.sblock) (dir : DirectoryFile env live p fs inode)
    (rep : Represents (slotsOf fs.cache inode.entry) m) (ctx : Ctx)
    (inside : i < inode.entry.numBytes.toNat/dirEntrySize)
    (there : binding (slot fs.cache inode.entry i) = some (k,no)) :
    ∃ fs' inode', inodeRemove env ctx p (BitVec.ofNat 64 (dirEntrySize*i)) fs = .ok fs' ∧
    DirectoryFile env live p fs' inode' ∧
      Represents (slotsOf fs'.cache inode'.entry) (Function.update m k none) := by
  have offset := slot_offset dir (Nat.le_of_lt inside)
  have aligned := dir.aligned
  have size := dir.whole.size
  have bound : inodeMaxBytes = 71680 := rfl
  have unit : dirEntrySize = 16 := rfl
  generalize counted : inode.entry.numBytes.toNat/dirEntrySize-1 = last
  have behind : last < inode.entry.numBytes.toNat/dirEntrySize := by omega
  have wide : (inode.entry.numBytes.setWidth 64).toNat = inode.entry.numBytes.toNat := by
    rw [BitVec.toNat_setWidth,Nat.mod_eq_of_lt (by omega)]
  have final : inode.entry.numBytes.setWidth 64-BitVec.ofNat 64 dirEntrySize = BitVec.ofNat 64 (dirEntrySize*last) := by
    apply BitVec.eq_of_toNat_eq
    rw [slot_offset dir (Nat.le_of_lt behind),BitVec.toNat_sub,wide,BitVec.toNat_ofNat]
    unfold dirEntrySize at *
    omega
  obtain ⟨_,_,read,entry⟩ := inodeRead_slot env dir.found dir.directory dir.whole.readable (BitVec.ofNat 64 (dirEntrySize*i))
    (by rw [offset]; unfold dirEntrySize at inside ⊢; omega) env.stack
  rw [offset,readSlot_slot inside] at entry
  obtain ⟨_,_,read',entry'⟩ := inodeRead_slot env dir.found dir.directory dir.whole.readable (BitVec.ofNat 64 (dirEntrySize*last))
    (by rw [slot_offset dir (Nat.le_of_lt behind)]; unfold dirEntrySize at behind ⊢; omega) (slot fs.cache inode.entry i)
  rw [slot_offset dir (Nat.le_of_lt behind),readSlot_slot behind] at entry'
  obtain ⟨⟨n,middle⟩,written⟩ := dir.write_returns ctx (slot fs.cache inode.entry last) inside
  obtain ⟨inode₁,dir₁,count,here,others⟩ := dir.write layout _ (Nat.le_of_lt inside) written
  have used : ¬(slot fs.cache inode.entry i).inodeNo = 0#16 := by
    intro free
    rw [binding,if_pos free] at there
    cases there
  have ran : inodeRemove env ctx p (BitVec.ofNat 64 (dirEntrySize*i)) fs =
      .ok (middle.setEntry p inode₁ (inode₁.entry.setNumBytes (inode₁.entry.numBytes-BitVec.ofNat 32 dirEntrySize))) := by
    have asserted : inode.entry.type = inodeDirectory ∧ BitVec.ofNat 64 (dirEntrySize*i) < inode.entry.numBytes.setWidth 64 := by
      refine ⟨dir.directory,?_⟩
      rw [BitVec.lt_def,offset,wide]
      unfold dirEntrySize at inside ⊢
      omega
    unfold inodeRemove
    simp only [Fs.inode_ok.mpr dir.found,bind,Except.bind]
    rw [if_pos asserted,final,read]
    simp only [entry]
    rw [if_neg used,read']
    simp only [entry',written,Fs.inode_ok.mpr dir₁.found]
  obtain ⟨inode',dir',count',kept⟩ := dir₁.shrink (by omega)
  refine ⟨_,inode',ran,dir',rep.remove inside there ?_ (fun below => ?_) fun j below other => ?_⟩
  · change inode'.entry.numBytes.toNat/dirEntrySize+1 = inode.entry.numBytes.toNat/dirEntrySize
    omega
  · change binding (slot middle.cache inode'.entry i) = binding (slot fs.cache inode.entry (inode'.entry.numBytes.toNat/dirEntrySize))
    have same : inode'.entry.numBytes.toNat/dirEntrySize = last := by omega
    rw [kept i below,here,same]
  · change binding (slot middle.cache inode'.entry j) = binding (slot fs.cache inode.entry j)
    have below : j < inode'.entry.numBytes.toNat/dirEntrySize := below
    rw [kept j below,others j (by omega) other]

theorem DirectoryFile.insert_returns (layout : Layout env.sblock) (dir : DirectoryFile env live p fs inode)
    (rep : Represents (slotsOf fs.cache inode.entry) m) (op : Nat) (name : List Byte) (no : Usize)
    (fine : (m (padded name)).isSome = true ∨
      inode.entry.numBytes.toNat+dirEntrySize ≤ inodeMaxBytes ∧ 3 ≤ freeBlocks env.sblock fs.cache) :
    ∃ r, inodeInsert env (some op) p name no fs = .ok r := by
  have walked := (dir.lookup rep name).walked dir
  rw [inodeInsert_walks dir.found dir.directory dir.whole.readable,walked]
  rcases fine with present | ⟨fits,enough⟩
  · rw [if_pos present]
    exact ⟨_,rfl⟩
  · split
    · exact ⟨_,rfl⟩
    · obtain ⟨i,place,start,_⟩ := newSlot_free env dir
      have offset := slot_offset dir start
      have length := DirEntry.bytes_length (newEntry env fs.cache inode.entry name no)
      have aligned := dir.aligned
      rw [place]
      obtain ⟨fs',written⟩ := inodeWrite_returns layout dir.owned dir.found (directory_file dir.directory) op
        (newEntry env fs.cache inode.entry name no).bytes (BitVec.ofNat 64 (dirEntrySize*i))
        (by rw [offset]; unfold dirEntrySize at *; omega) (by rw [offset,length]; unfold dirEntrySize at *; omega)
        (by rw [length]; exact enough)
      rw [written]
      exact ⟨_,rfl⟩

end entries

-- A call on a directory; inode_remove gets the index that a lookup of the name has just
-- returned, and is not made if the lookup fails.
inductive NameCall where
  | insert (ctx : Ctx) (name : List Byte) (inodeNo : Usize)
  | lookup (name : List Byte)
  | remove (ctx : Ctx) (name : List Byte)

def NameCall.run (env : Env) (p : Usize) (fs : Fs) : NameCall → Except Fault Fs
  | .insert ctx name inodeNo => (·.2) <$> inodeInsert env ctx p name inodeNo fs
  | .lookup name => (·.2.2) <$> inodeLookup env p name fs
  | .remove ctx name => do
    let (_,index,fs) ← inodeLookup env p name fs
    match index with
    | some index => inodeRemove env ctx p index fs
    | none => .ok fs

def NameCall.valid : NameCall → Prop
  | .insert _ _ inodeNo => 0 < inodeNo.toNat ∧ inodeNo.toNat < 65536
  | _ => True

-- The map after the call: an insert binds a name that is not bound yet.
def NameCall.apply (m : List Byte → Option Usize) : NameCall → List Byte → Option Usize
  | .insert _ name inodeNo => if (m (padded name)).isSome then m else Function.update m (padded name) (some inodeNo)
  | .lookup _ => m
  | .remove _ name => Function.update m (padded name) none

section histories
variable {env : Env} {live : Usize → Bool} {p : Usize} {fs fs' start : Fs} {m : List Byte → Option Usize}

def Keeps (env : Env) (live : Usize → Bool) (p : Usize) (m : List Byte → Option Usize) (fs : Fs) : Prop :=
  ∃ inode, DirectoryFile env live p fs inode ∧ Represents (slotsOf fs.cache inode.entry) m

theorem call_keeps (layout : Layout env.sblock) {c : NameCall} (valid : c.valid) (keeps : Keeps env live p m fs)
    (ran : c.run env p fs = .ok fs') : Keeps env live p (c.apply m) fs' := by
  obtain ⟨inode,dir,rep⟩ := keeps
  cases c with
  | insert ctx name no =>
    obtain ⟨⟨r,_⟩,inserted,rfl⟩ := Runs.map_ok ran
    simp only [NameCall.apply]
    rcases dir.insert layout rep valid.1 valid.2 inserted with ⟨present,_,rfl⟩ | ⟨absent,_,after⟩
    · rw [if_pos present]
      exact ⟨inode,dir,rep⟩
    · rw [absent]
      exact after
  | lookup name =>
    obtain ⟨⟨no,index,_⟩,looked,rfl⟩ := Runs.map_ok ran
    have answers := dir.lookup rep name
    simp only [NameCall.apply]
    cases bound : m (padded name) with
    | none =>
      rw [bound] at answers
      cases (show inodeLookup env p name fs = _ from answers).symm.trans looked
      exact ⟨inode,dir,rep⟩
    | some q =>
      rw [bound] at answers
      obtain ⟨i,_,_,answer⟩ := answers
      cases answer.symm.trans looked
      exact ⟨inode,dir,rep⟩
  | remove ctx name =>
    have answers := dir.lookup rep name
    obtain ⟨⟨no,index,middle⟩,looked,ran⟩ := Runs.bind_ok.mp ran
    simp only [NameCall.apply]
    cases bound : m (padded name) with
    | none =>
      rw [bound] at answers
      cases (show inodeLookup env p name fs = _ from answers).symm.trans looked
      cases ran
      rw [← bound,Function.update_eq_self]
      exact ⟨inode,dir,rep⟩
    | some q =>
      rw [bound] at answers
      obtain ⟨i,inside,there,answer⟩ := answers
      cases answer.symm.trans looked
      obtain ⟨after,inode',removed,dir',rep'⟩ := dir.remove layout rep ctx inside there
      cases removed.symm.trans ran
      exact ⟨inode',dir',rep'⟩

theorem calls_keep (layout : Layout env.sblock) {calls : List NameCall} (valid : ∀ c ∈ calls, c.valid)
    (keeps : Keeps env live p m start) (ran : calls.foldlM (NameCall.run env p) start = .ok fs) :
    Keeps env live p (calls.foldl NameCall.apply m) fs := by
  induction calls generalizing start m with
  | nil =>
    cases ran
    exact keeps
  | cons c rest ih =>
    obtain ⟨middle,first,ran⟩ := Runs.bind_ok.mp ran
    exact ih (fun c' member => valid c' (List.mem_cons_of_mem _ member))
        (call_keeps layout (valid c List.mem_cons_self) keeps first) ran

-- What every call does after any history, in terms of the map of that history.
structure MapLaws (env : Env) (live : Usize → Bool) (p : Usize) (fs : Fs) (inode : Inode) (m : List Byte → Option Usize) : Prop where
  represents : Represents (slotsOf fs.cache inode.entry) m
  lookup : ∀ name, Answers env p fs inode.entry name (m (padded name))
  insert : ∀ ctx name no r fs', 0 < no.toNat → no.toNat < 65536 → inodeInsert env ctx p name no fs = .ok (r,fs') →
    (r = BitVec.allOnes 64 ↔ (m (padded name)).isSome = true) ∧ (r = BitVec.allOnes 64 → fs' = fs)
  inserts : ∀ op name no, (m (padded name)).isSome = true ∨
    inode.entry.numBytes.toNat+dirEntrySize ≤ inodeMaxBytes ∧ 3 ≤ freeBlocks env.sblock fs.cache →
      ∃ r, inodeInsert env (some op) p name no fs = .ok r
  remove : ∀ ctx name no index, inodeLookup env p name fs = .ok (no,some index,fs) →
    ∃ fs', inodeRemove env ctx p index fs = .ok fs' ∧ Keeps env live p (Function.update m (padded name) none) fs'

theorem directory_is_map (layout : Layout env.sblock) (keeps : Keeps env live p m start) (calls : List NameCall)
    (valid : ∀ c ∈ calls, c.valid) (ran : calls.foldlM (NameCall.run env p) start = .ok fs) :
    ∃ inode, fs.inodes p = some inode ∧ MapLaws env live p fs inode (calls.foldl NameCall.apply m) := by
  obtain ⟨inode,dir,rep⟩ := calls_keep layout valid keeps ran
  refine ⟨inode,dir.found,rep,dir.lookup rep,?_,fun op name no fine => dir.insert_returns layout rep op name no fine,?_⟩
  · intro ctx name no r fs' nonzero small inserted
    rcases dir.insert layout rep nonzero small inserted with ⟨present,rfl,rfl⟩ | ⟨absent,other,_⟩
    · simp [present]
    · refine ⟨⟨fun full => absurd full other,fun present => ?_⟩,fun full => absurd full other⟩
      rw [absent] at present
      cases present
  · intro ctx name no index looked
    have answers := dir.lookup rep name
    cases bound : calls.foldl NameCall.apply m (padded name) with
    | none =>
      rw [bound] at answers
      cases (show inodeLookup env p name fs = _ from answers).symm.trans looked
    | some q =>
      rw [bound] at answers
      obtain ⟨i,inside,there,answer⟩ := answers
      cases answer.symm.trans looked
      obtain ⟨after,inode',removed,dir',rep'⟩ := dir.remove layout rep ctx inside there
      exact ⟨after,removed,inode',dir',rep'⟩

end histories

-- "a" and "b" are entered into an empty directory, then "a" is removed.
def nameCalls : List NameCall := [.insert (some 1) [97#8] 2#64,.insert (some 1) [98#8] 3#64,.remove (some 1) [97#8]]

theorem directory_is_map_root :
    ∃ start fs inode, Keeps blankEnv (allocated mkfsSuperBlock start) 1#64 (fun _ => none) start ∧
    nameCalls.foldlM (NameCall.run blankEnv 1#64) start = .ok fs ∧
    MapLaws blankEnv (allocated mkfsSuperBlock start) 1#64 fs inode (nameCalls.foldl NameCall.apply fun _ => none) ∧
    nameCalls.foldl NameCall.apply (fun _ => none) (padded [98#8]) = some 3#64 := by
  obtain ⟨start,ran,facts⟩ := Runs.some_such
    (x := Runs.execGuarded (next blankEnv) (Permitted mkfsSuperBlock) blankDisk [.alloc (some 0) inodeDirectory,.get 1#64])
    (p := fun start => ((start.inodes 1#64).any fun inode => inode.entry.type = inodeDirectory ∧ inode.entry.numBytes = 0#32) &&
      (nameCalls.foldlM (NameCall.run blankEnv 1#64) start).toOption.isSome) (by decide +kernel)
  obtain ⟨root,made⟩ := Bool.and_eq_true_iff.mp facts
  obtain ⟨fs,made⟩ := Option.isSome_iff_exists.mp made
  obtain ⟨inode,loaded,facts⟩ := Runs.some_such root
  obtain ⟨directory,size⟩ := of_decide_eq_true facts
  have consistent := run_consistent blank_layout blank_image.consistent (Runs.exec_guarded .start ran)
  have none : inode.entry.numBytes.toNat = 0 := congrArg BitVec.toNat size
  have whole : Whole start.cache inode.entry := ⟨by omega,fun k below => by omega⟩
  have keeps : Keeps blankEnv (allocated mkfsSuperBlock start) 1#64 (fun _ => .none) start :=
    ⟨inode,⟨consistent.owned,loaded,directory,whole,by rw [none]; rfl⟩,Represents.empty (by rw [slotsOf,none]; rfl)⟩
  have made := Runs.toOption_some made
  obtain ⟨inode',_,laws⟩ := directory_is_map blank_layout keeps nameCalls (by simp [nameCalls,NameCall.valid]) made
  exact ⟨start,fs,inode',keeps,made,laws,by decide +kernel⟩

end InodeLayer
