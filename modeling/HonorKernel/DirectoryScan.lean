import HonorKernel.FileContents

-- The walk over a directory's entries as a function of its bytes.
namespace InodeLayer
open DiskFormat CacheView

-- The entry at byte `i` read into `dir`; at the end of the file it may be cut short.
def readSlot (v : View) (e : InodeEntry) (i : Nat) (dir : DirEntry) : DirEntry :=
  setBytes dir 0 ((List.range (min dirEntrySize (e.numBytes.toNat-i))).map fun j => readByte v e (i+j))

def walk (v : View) (e : InodeEntry) (stop : DirEntry → Bool) : Nat → Nat → DirEntry → Nat × Bool × DirEntry
  | 0,i,dir => (i,false,dir)
  | fuel+1,i,dir =>
    if i < e.numBytes.toNat then
      if stop (readSlot v e i dir) then (i,true,readSlot v e i dir)
      else walk v e stop fuel (i+dirEntrySize) (readSlot v e i dir)
    else (i,false,dir)

def walkAll (env : Env) (v : View) (e : InodeEntry) (stop : DirEntry → Bool) : Nat × Bool × DirEntry :=
  walk v e stop e.numBytes.toNat 0 env.stack

-- What inode_lookup and inode_insert stop at.
def named (name : List Byte) (dir : DirEntry) : Bool := sameName dir.name name fileNameMaxLength 0 && dir.inodeNo != 0#16
def unused (dir : DirEntry) : Bool := dir.inodeNo == 0#16

section Walking
variable {env : Env} {p : Usize} {fs fs' : Fs} {inode : Inode} {ctx : Ctx}

theorem directory_file (directory : inode.entry.type = inodeDirectory) : inode.entry.type ≠ inodeDevice := by
  rw [directory]
  decide

theorem inodeRead_slot (env : Env) (found : fs.inodes p = some inode) (directory : inode.entry.type = inodeDirectory)
    (readable : Readable inode.entry) (i : Usize) (inside : i.toNat ≤ inode.entry.numBytes.toNat) (dir : DirEntry) :
    ∃ n bytes,
    inodeRead env p i (BitVec.ofNat 64 dirEntrySize) fs = .ok (n,bytes,fs) ∧
    setBytes dir 0 bytes = readSlot fs.cache inode.entry i.toNat dir := by
  have count : (BitVec.ofNat 64 dirEntrySize).toNat = dirEntrySize := rfl
  have size : dirEntrySize = 16 := rfl
  refine ⟨_,_,inodeRead_reads found (directory_file directory) readable i (BitVec.ofNat 64 dirEntrySize) inside (by omega),?_⟩
  rw [count]
  rfl

theorem scanDir_walks (found : fs.inodes p = some inode) (directory : inode.entry.type = inodeDirectory)
    (readable : Readable inode.entry) (stop : DirEntry → Bool) (fuel i : Nat) (dir : DirEntry) :
    scanDir env p stop fuel i dir fs = .ok ((walk fs.cache inode.entry stop fuel i dir).1,
        (walk fs.cache inode.entry stop fuel i dir).2.1,
      (walk fs.cache inode.entry stop fuel i dir).2.2,fs) := by
  induction fuel generalizing i dir with
  | zero => rfl
  | succ fuel ih =>
    unfold scanDir walk
    simp only [Fs.inode_ok.mpr found,bind,Except.bind]
    by_cases more : i < inode.entry.numBytes.toNat
    · have position : (BitVec.ofNat 64 i).toNat = i := by
        rw [BitVec.toNat_ofNat,Nat.mod_eq_of_lt (by omega)]
      obtain ⟨n,bytes,read,entry⟩ := inodeRead_slot env found directory readable (BitVec.ofNat 64 i) (by omega) dir
      rw [position] at entry
      rw [if_pos more,if_pos more,read]
      simp only [entry]
      split
      · rfl
      · exact ih _ _
    · rw [if_neg more,if_neg more]

theorem scan_walks (env : Env) (found : fs.inodes p = some inode) (directory : inode.entry.type = inodeDirectory)
    (readable : Readable inode.entry) (stop : DirEntry → Bool) :
    scan env p stop fs = .ok ((walkAll env fs.cache inode.entry stop).1,(walkAll env fs.cache inode.entry stop).2.1,
      (walkAll env fs.cache inode.entry stop).2.2,fs) := by
  unfold scan
  simp only [Fs.inode_ok.mpr found,bind,Except.bind]
  rw [if_pos directory]
  exact scanDir_walks found directory readable stop _ _ _

theorem walk_stopped (v : View) (e : InodeEntry) (stop : DirEntry → Bool) (fuel i : Nat) (dir : DirEntry)
    (found : (walk v e stop fuel i dir).2.1 = true) : stop (walk v e stop fuel i dir).2.2 = true := by
  induction fuel generalizing i dir with
  | zero => cases found
  | succ fuel ih =>
    unfold walk at found ⊢
    split at found
    · rename_i more
      rw [if_pos more]
      split at found
      · rename_i here
        rw [if_pos here]
        exact here
      · rename_i going
        rw [if_neg going]
        exact ih _ _ found
    · cases found

theorem walkAll_stopped (v : View) (e : InodeEntry) (stop : DirEntry → Bool)
    (found : (walkAll env v e stop).2.1 = true) : stop (walkAll env v e stop).2.2 = true :=
  walk_stopped v e stop _ _ _ found

theorem walk_bound (v : View) (e : InodeEntry) (stop : DirEntry → Bool) (fuel i : Nat) (dir : DirEntry)
    (start : i < e.numBytes.toNat+dirEntrySize) : (walk v e stop fuel i dir).1 < e.numBytes.toNat+dirEntrySize := by
  induction fuel generalizing i dir with
  | zero => exact start
  | succ fuel ih =>
    unfold walk
    split
    · split
      · exact start
      · exact ih _ _ (by omega)
    · exact start

theorem inodeLookup_walks (found : fs.inodes p = some inode) (directory : inode.entry.type = inodeDirectory)
    (readable : Readable inode.entry) (name : List Byte) :
    inodeLookup env p name fs = .ok (if (walkAll env fs.cache inode.entry (named name)).2.1 then
      ((walkAll env fs.cache inode.entry (named name)).2.2.inodeNo.setWidth 64,
        some (BitVec.ofNat 64 (walkAll env fs.cache inode.entry (named name)).1),fs) else (0#64,none,fs)) := by
  have scanned := scan_walks env found directory readable (named name)
  unfold inodeLookup
  change (scan env p (named name) fs >>= _) = _
  rw [scanned]
  rfl

theorem named_nonzero (named : named name dir = true) : dir.inodeNo.setWidth 64 ≠ 0#64 := by
  obtain ⟨_,used⟩ := Bool.and_eq_true_iff.mp named
  have used : dir.inodeNo ≠ 0#16 := by simpa using used
  intro zero
  apply used
  have value := congrArg BitVec.toNat zero
  rw [BitVec.toNat_setWidth,BitVec.toNat_ofNat] at value
  apply BitVec.eq_of_toNat_eq
  have bound := dir.inodeNo.isLt
  rw [BitVec.toNat_ofNat]
  omega

-- The entry inode_insert writes, and where.
def newSlot (env : Env) (v : View) (e : InodeEntry) : Nat := (walkAll env v e unused).1
def newEntry (env : Env) (v : View) (e : InodeEntry) (name : List Byte) (inodeNo : Usize) : DirEntry :=
  ((walkAll env v e unused).2.2.setName (strncpy name fileNameMaxLength)).setInodeNo (inodeNo.setWidth 16)

theorem newSlot_toNat (env : Env) (v : View) (e : InodeEntry) :
    (BitVec.ofNat 64 (newSlot env v e)).toNat = newSlot env v e := by
  have size : dirEntrySize = 16 := rfl
  have bound : newSlot env v e < e.numBytes.toNat+dirEntrySize := walk_bound v e _ _ _ _ (by omega)
  rw [BitVec.toNat_ofNat,Nat.mod_eq_of_lt (by omega)]

theorem scan_directory (ran : scan env p stop fs = .ok r) :
    ∃ inode, fs.inodes p = some inode ∧ inode.entry.type = inodeDirectory := by
  obtain ⟨inode,there,ran⟩ := Runs.bind_ok.mp ran
  split at ran
  · rename_i directory
    exact ⟨inode,Fs.inode_ok.mp there,directory⟩
  · cases ran

theorem inodeLookup_directory (ran : inodeLookup env p name fs = .ok r) :
    ∃ inode, fs.inodes p = some inode ∧ inode.entry.type = inodeDirectory := by
  obtain ⟨_,scanned,_⟩ := Runs.bind_ok.mp ran
  exact scan_directory scanned

theorem inodeInsert_directory (ran : inodeInsert env ctx p name inodeNo fs = .ok r) :
    ∃ inode, fs.inodes p = some inode ∧ inode.entry.type = inodeDirectory := by
  obtain ⟨_,looked,_⟩ := Runs.bind_ok.mp ran
  exact inodeLookup_directory looked

theorem inodeInsert_walks (found : fs.inodes p = some inode) (directory : inode.entry.type = inodeDirectory)
    (readable : Readable inode.entry) (name : List Byte) (inodeNo : Usize) : inodeInsert env ctx p name inodeNo fs =
      if (walkAll env fs.cache inode.entry (named name)).2.1 then .ok (BitVec.allOnes 64,fs)
      else (fun r => (BitVec.ofNat 64 (newSlot env fs.cache inode.entry),r.2)) <$> inodeWrite env ctx p
        (newEntry env fs.cache inode.entry name inodeNo).bytes (BitVec.ofNat 64 (newSlot env fs.cache inode.entry)) fs := by
  have scanned := scan_walks env found directory readable unused
  unfold inodeInsert
  rw [inodeLookup_walks found directory readable]
  by_cases exists_ : (walkAll env fs.cache inode.entry (named name)).2.1 = true
  · have nonzero := named_nonzero (walkAll_stopped _ _ _ exists_)
    simp only [if_pos exists_,bind,Except.bind,nonzero,ne_eq,not_false_eq_true,if_true]
  · simp only [if_neg exists_,bind,Except.bind,ne_eq,not_true_eq_false,if_false]
    change (scan env p unused fs >>= _) = _
    rw [scanned]
    change (inodeWrite env ctx p (newEntry env fs.cache inode.entry name inodeNo).bytes
      (BitVec.ofNat 64 (newSlot env fs.cache inode.entry)) fs >>= _) = _
    cases inodeWrite env ctx p (newEntry env fs.cache inode.entry name inodeNo).bytes
      (BitVec.ofNat 64 (newSlot env fs.cache inode.entry)) fs <;> rfl

theorem inodeInsert_cases (found : fs.inodes p = some inode) (directory : inode.entry.type = inodeDirectory)
    (readable : Readable inode.entry) (ran : inodeInsert env ctx p name inodeNo fs = .ok (r,fs')) :
    (walkAll env fs.cache inode.entry (named name)).2.1 = true ∧ r = BitVec.allOnes 64 ∧ fs' = fs ∨
      (walkAll env fs.cache inode.entry (named name)).2.1 = false ∧
      r = BitVec.ofNat 64 (newSlot env fs.cache inode.entry) ∧
        ∃ n, inodeWrite env ctx p (newEntry env fs.cache inode.entry name inodeNo).bytes
          (BitVec.ofNat 64 (newSlot env fs.cache inode.entry)) fs = .ok (n,fs') := by
  rw [inodeInsert_walks found directory readable] at ran
  split at ran
  · rename_i there
    cases ran
    exact .inl ⟨there,rfl,rfl⟩
  · rename_i missing
    obtain ⟨⟨n,_⟩,written,same⟩ := Runs.map_ok ran
    cases same
    exact .inr ⟨by simpa using missing,rfl,n,written⟩

-- inode_remove of an entry in use writes some entry over it; the size then changes in
-- memory only.
theorem inodeRemove_walks (found : fs.inodes p = some inode) (readable : Readable inode.entry)
    (ran : inodeRemove env ctx p index fs = .ok fs') : inode.entry.type = inodeDirectory ∧
      ((readSlot fs.cache inode.entry index.toNat env.stack).inodeNo = 0#16 ∧ fs' = fs ∨
        (readSlot fs.cache inode.entry index.toNat env.stack).inodeNo ≠ 0#16 ∧ ∃ (dir : DirEntry) (n : Usize)
        (middle : Fs),
          inodeWrite env ctx p dir.bytes index fs = .ok (n,middle) ∧ fs'.cache = middle.cache) := by
  obtain ⟨same,there,ran⟩ := Runs.bind_ok.mp ran
  rw [Fs.inode_ok.mpr found] at there
  cases there
  simp only at ran
  split at ran
  · rename_i asserted
    obtain ⟨directory,inside⟩ := asserted
    have wide : (inode.entry.numBytes.setWidth 64).toNat = inode.entry.numBytes.toNat := by
      rw [BitVec.toNat_setWidth,Nat.mod_eq_of_lt (by omega)]
    rw [BitVec.lt_def,wide] at inside
    refine ⟨directory,?_⟩
    obtain ⟨n,bytes,read,entry⟩ := inodeRead_slot env found directory readable index (by omega) env.stack
    obtain ⟨_,first,ran⟩ := Runs.bind_ok.mp ran
    rw [read] at first
    cases first
    simp only [entry] at ran
    split at ran
    · rename_i empty
      cases ran
      exact .inl ⟨empty,rfl⟩
    · rename_i inUse
      obtain ⟨⟨m,last,middle⟩,second,ran⟩ := Runs.bind_ok.mp ran
      -- The read of the last entry asserts that there is one.
      have behind : (inode.entry.numBytes.setWidth 64-BitVec.ofNat 64 dirEntrySize).toNat ≤ inode.entry.numBytes.toNat := by
        obtain ⟨same,there,second⟩ := Runs.bind_ok.mp second
        rw [Fs.inode_ok.mpr found] at there
        cases there
        simp only [if_neg (directory_file directory)] at second
        split at second
        · rename_i asserted
          have below := asserted.1
          rw [BitVec.le_def,wide] at below
          exact below
        · cases second
      obtain ⟨_,_,read,_⟩ := inodeRead_slot env found directory readable _ behind env.stack
      rw [read] at second
      cases second
      obtain ⟨⟨k,after⟩,written,ran⟩ := Runs.bind_ok.mp ran
      obtain ⟨_,_,ran⟩ := Runs.bind_ok.mp ran
      cases ran
      exact .inr ⟨inUse,_,k,after,written,rfl⟩
  · cases ran

end Walking

end InodeLayer
