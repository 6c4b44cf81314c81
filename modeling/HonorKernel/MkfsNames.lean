import HonorKernel.MkfsMount
import HonorKernel.PathNames

-- The files of the image by their names.
namespace Mkfs
open DiskFormat InodeLayer CacheView Semaphores Ownership

section Entries

theorem get_setBytes (d : BitVec n) (w pos k : Nat) (bytes : List Byte) (before : pos+w ≤ 8*k) :
    BitSlice.get w pos (setBytes d k bytes) = BitSlice.get w pos d := by
  induction bytes generalizing d k with
  | nil => rfl
  | cons b rest ih =>
    rw [setBytes,ih _ _ (by omega)]
    exact BitSlice.get_put_apart _ _ _ _ _ (.inr before)

theorem setName_name (d : DirEntry) (name : List Byte) (length : name.length = fileNameMaxLength) :
    (d.setName name).name = name := by
  refine List.ext_getElem (by rw [length]; exact getBytes_length _ _ _) ?_
  intro j left right
  have inside : 2 ≤ 2+j ∧ 2+j < 2+name.length := by omega
  have written := byteAt_setBytes d 2 name (by rw [length]; decide) (2+j)
  rw [if_pos inside,Nat.add_sub_cancel_left] at written
  simp only [DirEntry.name,getBytes,List.getElem_map,List.getElem_range,DirEntry.setName,written]
  simp [right]

theorem padded_length (name : List Byte) : (padded name).length = fileNameMaxLength := by simp [padded,strncpy]

theorem dirent_name (no : Usize) (name : List Byte) : (dirent no name).name = padded name := setName_name _ _ (padded_length name)

theorem dirent_inodeNo (no : Usize) (name : List Byte) : (dirent no name).inodeNo = no.setWidth 16 :=
  (get_setBytes _ 16 0 2 _ (by decide)).trans (BitSlice.get_put 0 _ _ (by decide))

theorem number_narrow {no : Usize} (small : no.toNat < nInodes) : (no.setWidth 16 : U16).toNat = no.toNat := by
  have few : nInodes = 200 := rfl
  rw [BitVec.toNat_setWidth,Nat.mod_eq_of_lt (by omega)]

theorem number_wide {no : Usize} (small : no.toNat < nInodes) : ((no.setWidth 16 : U16).setWidth 64 : Usize) = no := by
  apply BitVec.eq_of_toNat_eq
  rw [BitVec.toNat_setWidth,number_narrow small,Nat.mod_eq_of_lt no.isLt]

theorem named_dirent {no : Usize} (inTable : InTable sb no) (one two : List Byte) :
    named two (dirent no one) = decide (padded one = padded two) := by
  have used : (dirent no one).inodeNo ≠ 0#16 := by
    intro zero
    have number := congrArg BitVec.toNat zero
    rw [dirent_inodeNo,number_narrow inTable.2] at number
    have positive := inTable.1
    simp at number
    omega
  rw [Bool.eq_iff_iff,decide_eq_true_iff]
  unfold named
  rw [Bool.and_eq_true,sameName_padded,dirent_name,padded_padded,bne_iff_ne]
  exact and_iff_left used

theorem named_zero (name : List Byte) : named name 0#128 = false := by
  have free : DirEntry.inodeNo 0#128 = 0#16 := BitSlice.get_zero 128 16 0
  unfold named
  rw [free]
  simp

theorem entries_byte (entries : List DirEntry) (i : Nat) {j : Nat} (small : j < dirEntrySize) :
    (entries.flatMap DirEntry.bytes).getD (dirEntrySize*i+j) 0#8 = byteAt (entries.getD i 0#128) j := by
  unfold dirEntrySize at small ⊢
  induction entries generalizing i with
  | nil =>
    have zero : byteAt 0#128 j = 0#8 := BitSlice.get_zero 128 8 (8*j)
    simp [zero]
  | cons e rest ih =>
    rw [List.flatMap_cons]
    have length : e.bytes.length = 16 := DirEntry.bytes_length e
    cases i with
    | zero =>
      rw [Nat.mul_zero,Nat.zero_add,List.getD_append _ _ _ _ (by omega),List.getD_cons_zero]
      have byte : (getBytes e 0 dirEntrySize).getD j 0#8 = byteAt e (0+j) := getBytes_getD e small
      rw [Nat.zero_add] at byte
      exact byte
    | succ i =>
      have after : 16*(i+1)+j-e.bytes.length = 16*i+j := by omega
      rw [List.getD_append_right _ _ _ _ (by omega),after,List.getD_cons_succ]
      exact ih i

end Entries

-- inode_lookup in the root, which has the entries "." and ".." of its own; of two files
-- with one name the first is found.
def numberOf (hosts : List HostFile) (name : List Byte) : Option Usize :=
  if padded dot = padded name ∨ padded dotdot = padded name then some rootInodeNo
  else (hosts.findIdx? fun f => decide (padded f.name = padded name)).map inodeOf

section Lookup
variable {hosts : List HostFile} {d : State} {v : View} {e : InodeEntry}

-- What the walk stops at, where `l` is the whole entries of the directory.
theorem walk_find (stop : DirEntry → Bool) (l : List DirEntry) (aligned : e.numBytes.toNat%dirEntrySize = 0)
    (slots : ∀ i < e.numBytes.toNat/dirEntrySize, slot v e i = l.getD i 0#128)
    (short : l.length ≤ e.numBytes.toNat/dirEntrySize) (free : stop 0#128 = false) (fuel i : Nat) (dir : DirEntry)
    (enough : e.numBytes.toNat/dirEntrySize ≤ fuel+i) (start : i ≤ e.numBytes.toNat/dirEntrySize) :
    (if (walk v e stop fuel (dirEntrySize*i) dir).2.1 then some (walk v e stop fuel (dirEntrySize*i) dir).2.2 else none) =
      (l.drop i).find? stop := by
  unfold dirEntrySize at *
  induction fuel generalizing i dir with
  | zero =>
    rw [List.drop_of_length_le (by omega)]
    rfl
  | succ fuel ih =>
    by_cases more : 16*i < e.numBytes.toNat
    · have inside : i < e.numBytes.toNat/16 := by omega
      have entry : readSlot v e (16*i) dir = l.getD i 0#128 := (readSlot_slot inside dir).trans (slots i inside)
      have step : 16*i+dirEntrySize = 16*(i+1) := rfl
      have rest := ih (i+1) (l.getD i 0#128) (by omega) (by omega)
      unfold walk
      rw [if_pos more,entry,step]
      by_cases listed : i < l.length
      · have here : l.getD i 0#128 = l[i] := by simp [listed]
        rw [List.drop_eq_getElem_cons listed,List.find?_cons]
        rw [here] at rest ⊢
        by_cases stops : stop l[i] = true
        · simp only [stops,if_true]
        · have going : stop l[i] = false := by simpa using stops
          simp only [going,if_false,Bool.false_eq_true]
          exact rest
      · have blank : l.getD i 0#128 = 0#128 := by simp [listed]
        rw [List.drop_of_length_le (by omega)] at rest ⊢
        rw [blank] at rest ⊢
        simp only [free,if_false,Bool.false_eq_true]
        exact rest
    · unfold walk
      rw [if_neg more,List.drop_of_length_le (by omega)]
      rfl

theorem find_files (hosts : List HostFile) (name : List Byte) (k : Nat) (few : k+hosts.length+2 ≤ nInodes) :
    ((hosts.zipIdx k).map fun f => dirent (inodeOf f.2) f.1.name).find? (named name) =
      (hosts.findIdx? fun f => decide (padded f.name = padded name)).map fun i => dirent (inodeOf (i+k))
      (hosts.getD i ⟨[],[],by simp,by simp⟩).name := by
  have count : nInodes = 200 := rfl
  induction hosts generalizing k with
  | nil => rfl
  | cons f rest ih =>
    rw [List.length_cons] at few
    have inTable : InTable sb (inodeOf k) := by
      rw [inTable_iff,inodeOf_toNat (by omega)]
      omega
    rw [List.zipIdx_cons,List.map_cons,List.find?_cons,List.findIdx?_cons,named_dirent inTable]
    by_cases same : padded f.name = padded name
    · simp [same]
    · simp only [decide_eq_false same,Bool.false_eq_true,if_false]
      rw [ih (k+1) (by omega),Option.map_map]
      congr 1
      funext i
      have position : i+(k+1) = i+1+k := by omega
      simp [position]

theorem find_root (name : List Byte) (few : hosts.length+2 ≤ nInodes) :
    ((rootEntries hosts).find? (named name)).map (fun dir => (dir.inodeNo.setWidth 64 : Usize)) = numberOf hosts name := by
  have count : nInodes = 200 := rfl
  have root : ∀ name, ((dirent rootInodeNo name).inodeNo.setWidth 64 : Usize) = rootInodeNo := by
    intro name
    rw [dirent_inodeNo]
    rfl
  unfold rootEntries numberOf
  rw [List.find?_cons,List.find?_cons,named_dirent root_inTable,named_dirent root_inTable]
  by_cases one : padded dot = padded name
  · simp [one,root]
  · by_cases two : padded dotdot = padded name
    · simp [one,two,root]
    · simp only [one,two,decide_false,or_self,if_false,fileEntries]
      rw [find_files hosts name 0 (by omega),Option.map_map]
      cases found : hosts.findIdx? fun f => decide (padded f.name = padded name) with
      | none => rfl
      | some i =>
        have inside : i < hosts.length := (List.findIdx?_eq_some_iff_getElem.mp found).1
        simp only [Option.map_some,Function.comp,Nat.add_zero]
        rw [dirent_inodeNo,number_wide]
        rw [inodeOf_toNat (by omega)]
        omega

end Lookup

-- Calls that only look at files.
def Looks : Call → Prop
  | .get _ | .share _ | .read _ _ _ | .lookup _ _ => True
  | _ => False

instance (c : Call) : Decidable (Looks c) :=
  match c with
  | .get _ | .share _ | .read _ _ _ | .lookup _ _ => inferInstanceAs (Decidable True)
  | .alloc _ _ | .put _ _ | .clear _ _ | .write _ _ _ _ | .insert _ _ _ _ | .remove _ _ _ => inferInstanceAs (Decidable False)

-- Where looking at files leads: an inode in memory is free and is what the table has.
structure Untouched (d : State) (fs : Fs) : Prop where
  cache : fs.cache = d.view
  inodes : ∀ p inode, fs.inodes p = some inode → InTable sb p ∧ inode.lock = initSem 1 ∧ inode.valid = true ∧ 0 < inode.rc ∧
    inode.entry = diskEntry sb d.view p
  root : ∃ inode, fs.inodes rootInodeNo = some inode

section Image
variable {hosts : List HostFile} {d : State} {fs fs' : Fs} {env : Env} {no p : Usize} {inode : Inode}

theorem pictured_types (no : Usize) : (pictured hosts no).1 = inodeDirectory ↔ no = rootInodeNo := by
  unfold pictured
  split
  · rename_i root
    exact ⟨fun _ => root,fun _ => rfl⟩
  · rename_i other
    refine ⟨fun directory => ?_,fun root => absurd root other⟩
    split at directory
    · split at directory
      · exact absurd (show inodeRegular = inodeDirectory from directory) (by decide)
      · exact absurd (show inodeInvalid = inodeDirectory from directory) (by decide)
    · exact absurd (show inodeInvalid = inodeDirectory from directory) (by decide)

theorem pictured_file_type (no : Usize) : (pictured hosts no).1 ≠ inodeDevice := by
  unfold pictured
  split
  · exact (by decide : inodeDirectory ≠ inodeDevice)
  · split
    · split
      · exact (by decide : inodeRegular ≠ inodeDevice)
      · exact (by decide : inodeInvalid ≠ inodeDevice)
    · exact (by decide : inodeInvalid ≠ inodeDevice)

theorem pictured_size (fits : Fits hosts) (no : Usize) : (pictured hosts no).2.length ≤ inodeMaxBytes := by
  have inodes := fits.inodes
  have count : nInodes = 200 := rfl
  have total : inodeMaxBytes = 71680 := rfl
  have none : ([] : List Byte).length ≤ inodeMaxBytes := Nat.zero_le _
  unfold pictured
  split
  · change (rootText hosts).length ≤ _
    rw [rootText_length]
    unfold dirEntrySize
    omega
  · split
    · split
      · rename_i f there
        exact fits.sizes f (List.mem_of_getElem? there)
      · exact none
    · exact none

theorem Finished.rootSize (finished : Finished (pictured hosts) d) :
    (diskEntry sb d.view rootInodeNo).numBytes.toNat = roundedSize (dirEntrySize*(hosts.length+2)) := by
  rw [finished.root,pictured_root]
  exact congrArg roundedSize (rootText_length hosts)

theorem Finished.readable (finished : Finished (pictured hosts) d) (fits : Fits hosts) (inTable : InTable sb no) :
    Readable (diskEntry sb d.view no) := by
  have inodes := fits.inodes
  have count : nInodes = 200 := rfl
  have total : inodeMaxBytes = 71680 := rfl
  by_cases root : no = rootInodeNo
  · subst root
    have size := finished.rootSize
    unfold roundedSize dirEntrySize blockSize at size
    refine ⟨by omega,.inl ?_⟩
    unfold inodeNumDirect blockSize
    omega
  · have size := finished.sizes no inTable root
    refine ⟨by rw [size]; exact pictured_size fits no,?_⟩
    by_cases short : (diskEntry sb d.view no).numBytes.toNat ≤ inodeNumDirect*blockSize
    · exact .inl short
    · refine .inr (mapped_indirect ((finished.contents no inTable).mapped inodeNumDirect ?_) (Nat.le_refl _))
      rw [← size]
      omega

-- A reader is given block 0 for a block that is missing; it is all zero.
theorem Finished.readByte (finished : Finished (pictured hosts) d) (inTable : InTable sb no) (y : Nat) :
    InodeLayer.readByte d.view (diskEntry sb d.view no) y = (pictured hosts no).2.getD y 0#8 := by
  have byte := (finished.contents no inTable).bytes y
  have first : d.view.blocks 0#64 = 0#4096 := by
    have start := inodeStart_toNat
    exact (finished.reserved 0#64 (by rw [start]; decide)).trans (blank_sectors (by decide))
  change fileByte d.view (diskEntry sb d.view no) y = _ at byte
  rw [← byte]
  unfold InodeLayer.readByte readBlock fileByte
  cases fileBlock d.view (diskEntry sb d.view no) (y/blockSize) with
  | some b => rfl
  | none =>
    change byteAt (d.view.blocks 0#64) _ = _
    rw [first]
    exact byteAt_zero _

theorem Finished.slot (finished : Finished (pictured hosts) d) {i : Nat}
    (inside : i < (diskEntry sb d.view rootInodeNo).numBytes.toNat/dirEntrySize) :
    slot d.view (diskEntry sb d.view rootInodeNo) i = (rootEntries hosts).getD i 0#128 := by
  have full : min dirEntrySize ((diskEntry sb d.view rootInodeNo).numBytes.toNat-dirEntrySize*i) = dirEntrySize := by
    unfold dirEntrySize at inside ⊢
    omega
  refine byteAt_ext ?_
  intro j small
  have small : j < dirEntrySize := by
    unfold dirEntrySize
    omega
  unfold InodeLayer.slot readSlot
  rw [full,byteAt_setBytes _ _ _ (by simp [dirEntrySize]),List.length_map,List.length_range,if_pos
      ⟨Nat.zero_le j,by omega⟩,Nat.sub_zero,
    ← entries_byte _ _ small]
  have byte := finished.readByte root_inTable (dirEntrySize*i+j)
  rw [pictured_root] at byte
  simp [small,byte,rootText]

theorem Untouched.entry (untouched : Untouched d fs) (no : Usize) : entryOf sb fs no = diskEntry sb d.view no := by
  unfold entryOf
  split
  · rename_i inode found
    exact (untouched.inodes no inode found).2.2.2.2
  · rw [untouched.cache]

theorem Untouched.file (untouched : Untouched d fs) (finished : Finished (pictured hosts) d)
    (found : fs.inodes p = some inode) :
    inode.entry.type ≠ inodeDevice := by
  obtain ⟨inTable,_,_,_,entry⟩ := untouched.inodes p inode found
  rw [entry,(finished.heads p inTable).1]
  exact pictured_file_type p

theorem Untouched.directory (untouched : Untouched d fs) (finished : Finished (pictured hosts) d)
    (inTable : InTable sb no) :
    (entryOf sb fs no).type = inodeDirectory ↔ no = rootInodeNo := by
  rw [untouched.entry,(finished.heads no inTable).1]
  exact pictured_types no

theorem Untouched.find (untouched : Untouched d fs) (env : Env) (finished : Finished (pictured hosts) d)
    (name : List Byte) :
    (if (walkAll env fs.cache (diskEntry sb d.view rootInodeNo) (named name)).2.1 then
      some (walkAll env fs.cache (diskEntry sb d.view rootInodeNo) (named name)).2.2 else none) =
          (rootEntries hosts).find? (named name) := by
  have size := finished.rootSize
  have entries := rootEntries_length hosts
  have bound := Nat.div_le_self (diskEntry sb d.view rootInodeNo).numBytes.toNat dirEntrySize
  have aligned : (diskEntry sb d.view rootInodeNo).numBytes.toNat%dirEntrySize = 0 := by
    rw [size]
    unfold roundedSize dirEntrySize blockSize
    omega
  have short : (rootEntries hosts).length ≤ (diskEntry sb d.view rootInodeNo).numBytes.toNat/dirEntrySize := by
    rw [size,entries]
    unfold roundedSize dirEntrySize blockSize
    omega
  have walked := walk_find (v := d.view) (e := diskEntry sb d.view rootInodeNo) (named name)
      (rootEntries hosts) aligned (fun i inside => finished.slot inside)
    short (named_zero name) (diskEntry sb d.view rootInodeNo).numBytes.toNat 0 env.stack bound (Nat.zero_le _)
  rw [Nat.mul_zero,List.drop_zero] at walked
  rw [untouched.cache]
  exact walked

theorem Untouched.child (untouched : Untouched d fs) (finished : Finished (pictured hosts) d) (fits : Fits hosts)
    (super : env.sblock = sb) (name : List Byte) :
    SysFile.child env fs rootInodeNo name = numberOf hosts name := by
  have found := untouched.find env finished name
  rw [← find_root name fits.inodes,← found]
  unfold SysFile.child
  rw [super,untouched.entry]
  simp only
  split <;> rfl

theorem Untouched.lookup (untouched : Untouched d fs) (finished : Finished (pictured hosts) d) (fits : Fits hosts)
    (name : List Byte) :
    ∃ index, inodeLookup env rootInodeNo name fs = .ok ((numberOf hosts name).getD 0#64,index,fs) := by
  obtain ⟨root,there⟩ := untouched.root
  obtain ⟨_,_,_,_,entry⟩ := untouched.inodes _ root there
  have directory : root.entry.type = inodeDirectory := by
    rw [entry,(finished.heads _ root_inTable).1,pictured_root]
  have found := untouched.find env finished name
  have walked : inodeLookup env rootInodeNo name fs = _ := inodeLookup_walks there directory
      (by rw [entry]; exact finished.readable fits root_inTable) name
  rw [entry] at walked
  rw [← find_root name fits.inodes,← found]
  split
  · rename_i here
    rw [if_pos here] at walked
    exact ⟨_,walked⟩
  · rename_i missing
    rw [if_neg missing] at walked
    exact ⟨_,walked⟩

theorem Untouched.read (untouched : Untouched d fs) (env : Env) (finished : Finished (pictured hosts) d)
    (fits : Fits hosts) (found : fs.inodes p = some inode) (file : p ≠ rootInodeNo) (offset count : Usize)
    (inside : offset.toNat ≤ (pictured hosts p).2.length) (small : offset.toNat+count.toNat < 2^64) :
    inodeRead env p offset count fs = .ok (BitVec.ofNat 64 (min count.toNat ((pictured hosts p).2.length-offset.toNat)),
      ((pictured hosts p).2.drop offset.toNat).take count.toNat,fs) := by
  obtain ⟨inTable,_,_,_,entry⟩ := untouched.inodes p inode found
  have size : inode.entry.numBytes.toNat = (pictured hosts p).2.length := by
    rw [entry]
    exact finished.sizes p inTable file
  rw [inodeRead_reads found (untouched.file finished found) (by rw [entry]; exact finished.readable fits inTable) offset count
    (by rw [size]; exact inside) small,size]
  congr 3
  refine List.ext_getElem (by simp) ?_
  intro j left right
  rw [List.length_map,List.length_range] at left
  rw [List.getElem_map,List.getElem_range,List.getElem_take,List.getElem_drop,untouched.cache,entry,finished.readByte inTable]
  simp [show offset.toNat+j < (pictured hosts p).2.length by omega]

theorem Untouched.reads (untouched : Untouched d fs) (finished : Finished (pictured hosts) d) (fits : Fits hosts)
    {offset count n : Usize} {bytes : List Byte} (ran : inodeRead env p offset count fs = .ok (n,bytes,fs')) :
    fs' = fs := by
  obtain ⟨inode,found,after⟩ := Runs.bind_ok.mp ran
  have found := Fs.inode_ok.mp found
  obtain ⟨inTable,_,_,_,entry⟩ := untouched.inodes p inode found
  have file := untouched.file finished found
  have readable : Readable inode.entry := by rw [entry]; exact finished.readable fits inTable
  have wide : (inode.entry.numBytes.setWidth 64 : Usize).toNat = inode.entry.numBytes.toNat := wide_toNat _
  simp only [if_neg file] at after
  split at after
  · rename_i asserted
    obtain ⟨within,ends,starts⟩ := asserted
    generalize counted : readCount (inode.entry.numBytes.setWidth 64) offset count = c at *
    rw [BitVec.le_def,wide] at within ends
    rw [BitVec.le_def,BitVec.toNat_add] at starts
    rw [BitVec.toNat_add] at ends
    have small := inode.entry.numBytes.isLt
    have fits : offset.toNat+c.toNat ≤ inode.entry.numBytes.toNat := by omega
    rw [readLoop_reads found readable c.toNat offset.toNat c.toNat [] (Nat.le_refl _) fits] at after
    cases after
    rfl
  · cases after

theorem Untouched.looks (untouched : Untouched d fs) (finished : Finished (pictured hosts) d) (fits : Fits hosts)
    {name : List Byte} {n : Usize} {index : Option Usize} (ran : inodeLookup env p name fs = .ok (n,index,fs')) :
    fs' = fs := by
  obtain ⟨inode,found,directory⟩ := inodeLookup_directory ran
  obtain ⟨inTable,_,_,_,entry⟩ := untouched.inodes p inode found
  rw [inodeLookup_walks found directory (by rw [entry]; exact finished.readable fits inTable)] at ran
  split at ran
  · cases ran
    rfl
  · cases ran
    rfl

theorem inodes_set (fs : Fs) (p : Usize) (inode : Inode) : (fs.setInode p inode).inodes p = some inode := by
  unfold Fs.setInode
  simp only [Function.update_self]

theorem Untouched.set (untouched : Untouched d fs) (inTable : InTable sb p) (free : inode.lock = initSem 1)
    (valid : inode.valid = true) (referred : 0 < inode.rc) (entry : inode.entry = diskEntry sb d.view p) :
    Untouched d (fs.setInode p inode) := by
  refine ⟨untouched.cache,?_,?_⟩
  · intro q there found
    by_cases own : q = p
    · subst own
      cases (inodes_set fs q inode).symm.trans found
      exact ⟨inTable,free,valid,referred,entry⟩
    · exact untouched.inodes q there ((Function.update_of_ne own _ _).symm.trans found)
  · by_cases own : rootInodeNo = p
    · subst own
      exact ⟨inode,inodes_set fs _ inode⟩
    · obtain ⟨root,there⟩ := untouched.root
      exact ⟨root,(Function.update_of_ne own _ _).trans there⟩

theorem Untouched.step (untouched : Untouched d fs) (finished : Finished (pictured hosts) d) (fits : Fits hosts)
    (super : env.sblock = sb) (c : Call) (looks : Looks c) (ran : call env fs c = .ok fs') : Untouched d fs' := by
  cases c with
  | get no =>
    obtain ⟨⟨q,_⟩,got,rfl⟩ := Runs.map_ok ran
    rcases inodeGet_cases got with ⟨_,_,same⟩ | ⟨inTable,_,⟨inode,found,same⟩ | ⟨_,same⟩⟩
    · simp only [same]
      exact untouched
    · obtain ⟨inTable,free,valid,referred,entry⟩ := untouched.inodes no inode found
      simp only [same]
      exact untouched.set inTable free valid (by change 0 < inode.rc+1; omega) entry
    · rw [super] at inTable same
      simp only [same]
      refine untouched.set inTable rfl rfl Int.one_pos ?_
      simp only [untouched.cache]
  | share p =>
    obtain ⟨inode,found,after⟩ := Runs.bind_ok.mp ran
    obtain ⟨inTable,free,valid,referred,entry⟩ := untouched.inodes p inode (Fs.inode_ok.mp found)
    cases after
    exact untouched.set inTable free valid (by change 0 < inode.rc+1; omega) entry
  | read p offset count =>
    obtain ⟨⟨n,bytes,_⟩,read,rfl⟩ := Runs.map_ok ran
    rw [untouched.reads finished fits read]
    exact untouched
  | lookup p name =>
    obtain ⟨⟨n,index,_⟩,looked,rfl⟩ := Runs.map_ok ran
    rw [untouched.looks finished fits looked]
    exact untouched
  | alloc ctx type | put ctx p | clear ctx p | write ctx p src offset | insert ctx p name no | remove ctx p index => cases looks

theorem mounted_untouched (d : State) : Untouched d ((idle d.view).load sb rootInodeNo) := by
  refine ⟨rfl,?_,⟨_,inodes_set ..⟩⟩
  intro p inode found
  by_cases own : p = rootInodeNo
  · subst own
    cases (inodes_set (idle d.view) rootInodeNo _).symm.trans found
    exact ⟨root_inTable,rfl,rfl,Int.one_pos,rfl⟩
  · cases (Function.update_of_ne own _ _).symm.trans found

theorem Untouched.run {start : Fs} (untouched : Untouched d start) (finished : Finished (pictured hosts) d)
    (fits : Fits hosts) (super : env.sblock = sb) (path : Runs.Guarded (next env) (fun _ c => Looks c) start fs) :
    Untouched d fs :=
  path.invariant (Untouched d) untouched fun _ c _ untouched looks ran => untouched.step finished fits super c looks
      (Runs.toOption_some ran)

end Image

-- The inode that a path leads to: there is no directory but the root.
def located (hosts : List HostFile) (no : Usize) (names : List (List Byte)) : Option Usize :=
  names.foldlM (fun no name => if no = rootInodeNo then numberOf hosts name else none) no

section Paths
variable {hosts : List HostFile} {d : State} {fs : Fs} {env : Env} {no q : Usize} {name : List Byte}

theorem numberOf_inTable (fits : Fits hosts) (found : numberOf hosts name = some q) :
    InTable sb q ∧ (pictured hosts q).1 ≠ inodeInvalid := by
  have inodes := fits.inodes
  have count : nInodes = 200 := rfl
  unfold numberOf at found
  split at found
  · cases found
    refine ⟨root_inTable,?_⟩
    rw [pictured_root]
    exact (by decide : inodeDirectory ≠ inodeInvalid)
  · obtain ⟨i,there,rfl⟩ := Option.map_eq_some_iff.mp found
    have inside : i < hosts.length := (List.findIdx?_eq_some_iff_getElem.mp there).1
    rw [inTable_iff,inodeOf_toNat (by omega),pictured_file inside (by omega)]
    exact ⟨by omega,(by decide : inodeRegular ≠ inodeInvalid)⟩

theorem Untouched.enter (untouched : Untouched d fs) (finished : Finished (pictured hosts) d) (fits : Fits hosts)
    (super : env.sblock = sb) (inTable : InTable sb no) (name : List Byte) :
    SysFile.enter env fs no name = if no = rootInodeNo then numberOf hosts name else none := by
  have directory : SysFile.isDirectory env fs no ↔ no = rootInodeNo := by
    unfold SysFile.isDirectory
    rw [super]
    exact untouched.directory finished inTable
  unfold SysFile.enter
  by_cases root : no = rootInodeNo
  · rw [if_pos (directory.mpr root),if_pos root,root]
    exact untouched.child finished fits super name
  · rw [if_neg fun entered => root (directory.mp entered),if_neg root]

theorem Untouched.walk (untouched : Untouched d fs) (finished : Finished (pictured hosts) d) (fits : Fits hosts)
    (super : env.sblock = sb) (inTable : InTable sb no) (names : List (List Byte)) :
    names.foldlM (SysFile.enter env fs) no = located hosts no names := by
  unfold located
  induction names generalizing no with
  | nil => rfl
  | cons name rest ih =>
    rw [List.foldlM_cons,List.foldlM_cons,untouched.enter finished fits super inTable]
    by_cases root : no = rootInodeNo
    · rw [if_pos root]
      cases found : numberOf hosts name with
      | none => rfl
      | some q => exact ih (numberOf_inTable fits found).1
    · rw [if_neg root]
      rfl

theorem Untouched.resolve (untouched : Untouched d fs) (finished : Finished (pictured hosts) d) (fits : Fits hosts)
    (super : env.sblock = sb) (names : List (List Byte)) :
    SysFile.resolve env fs rootInodeNo names false = (located hosts rootInodeNo names).map fun q => (q,[]) :=
  congrArg (Option.map fun q => (q,[])) (untouched.walk finished fits super root_inTable names)

theorem Untouched.tree (untouched : Untouched d fs) (finished : Finished (pictured hosts) d) (fits : Fits hosts)
    (super : env.sblock = sb) :
    SysFile.Tree env fs rootInodeNo := by
  have referred : 0 < SysFile.rcOf fs rootInodeNo := by
    obtain ⟨root,there⟩ := untouched.root
    unfold SysFile.rcOf
    rw [there]
    exact (untouched.inodes _ root there).2.2.2.1
  have root : SysFile.Reachable env fs rootInodeNo := ⟨by rw [super]; exact root_inTable,.inr (.inl referred)⟩
  refine ⟨?_,?_,?_,root,⟨root.inTable,referred⟩,?_,?_⟩
  · intro p inode found
    exact (untouched.inodes p inode found).2.1
  · intro p inode found
    exact (untouched.inodes p inode found).2.2.1
  · intro p
    unfold SysFile.rcOf
    split
    · rename_i inode found
      exact Int.le_of_lt (untouched.inodes p inode found).2.2.2.1
    · exact Int.le_refl 0
  · intro no inTable _
    rw [super] at inTable ⊢
    rw [untouched.entry]
    exact finished.readable fits inTable
  · intro no name q inTable directory found
    rw [super] at inTable
    unfold SysFile.isDirectory at directory
    rw [super] at directory
    have root := (untouched.directory finished inTable).mp directory
    subst root
    rw [untouched.child finished fits super] at found
    obtain ⟨inTable,valid⟩ := numberOf_inTable fits found
    refine ⟨by rw [super]; exact inTable,.inl ?_⟩
    rw [super,untouched.entry,(finished.heads q inTable).2,if_neg valid]
    decide

theorem Untouched.namei (untouched : Untouched d fs) (finished : Finished (pictured hosts) d) (fits : Fits hosts)
    (super : env.sblock = sb) (ctx : Ctx) (path : List Byte) :
    ∃ fs', SysFile.namei env ctx rootInodeNo path fs = .ok (located hosts rootInodeNo (SysFile.components path),fs') := by
  have tree := untouched.tree finished fits super
  have start : SysFile.startOf rootInodeNo path = rootInodeNo := by
    unfold SysFile.startOf
    split <;> rfl
  obtain ⟨reachable,middle,begun,sees⟩ := SysFile.namexStart_sees tree path
  obtain ⟨fs',walked⟩ := SysFile.namexLoop_resolves ctx tree (SysFile.components path) false reachable sees
  refine ⟨fs',?_⟩
  unfold SysFile.namei SysFile.namex
  simp only [begun,SysFile.elements_components,walked,bind,Except.bind]
  rw [start,untouched.resolve finished fits super]
  cases located hosts rootInodeNo (SysFile.components path) <;> rfl

end Paths

end Mkfs
