import HonorKernel.MkfsNames

-- What the kernel may rely on in an image that mkfs has written.
namespace Mkfs
open DiskFormat InodeLayer CacheView Semaphores Ownership

section Contents
variable {hosts : List HostFile} {d : State} {no : Usize}

theorem Finished.refs_bounds (finished : Finished (pictured hosts) d) {slot : Usize × Place} {b : Usize}
    (refers : InodeLayer.refs sb table (idle d.view) slot = some b) :
    nmeta ≤ b.toNat ∧ b.toNat < d.freeblock.toNat := by
  obtain ⟨inData,taken⟩ := finished.owned.used_of_ref refers
  have below : bitmapGet (d.sectors (bitmapBlock sb)) b.toNat = true := taken
  rw [finished.marks,decide_eq_true_iff] at below
  exact ⟨(dataBlock_iff.mp inData).1,below⟩

theorem Finished.refs_all (finished : Finished (pictured hosts) d) {b : Usize} (above : nmeta ≤ b.toNat)
    (below : b.toNat < d.freeblock.toNat) :
    ∃ slot, InodeLayer.refs sb table (idle d.view) slot = some b := by
  have last := finished.below
  refine finished.owned.balanced.complete b (dataBlock_iff.mpr ⟨above,by omega⟩) ?_
  change bitmapGet (d.sectors (bitmapBlock sb)) b.toNat = true
  rw [finished.marks,decide_eq_true_iff]
  exact below

-- The size of the root goes one block beyond the entries where they fill their last block.
theorem Finished.whole (finished : Finished (pictured hosts) d) (fits : Fits hosts) (inTable : InTable sb no) :
    Whole d.view (diskEntry sb d.view no) ↔ no ≠ rootInodeNo ∨ hosts.length%32 ≠ 30 := by
  have readable := finished.readable fits inTable
  have contents := finished.contents no inTable
  by_cases root : no = rootInodeNo
  · subst root
    have size := finished.rootSize
    unfold roundedSize dirEntrySize blockSize at size
    have length : (pictured hosts rootInodeNo).2.length = 16*(hosts.length+2) :=
        (congrArg (fun f => f.2.length) (pictured_root hosts)).trans (rootText_length hosts)
    rw [or_iff_right (not_not.mpr rfl)]
    constructor
    · intro whole filled
      have last := whole.mapped (16*(hosts.length+2)/512) (by unfold blockSize; omega)
      refine last (finished.tight rootInodeNo inTable _ ?_)
      rw [length]
      unfold blockSize
      omega
    · intro room
      refine ⟨readable.size,fun k below => contents.mapped k ?_⟩
      rw [length]
      unfold blockSize at below ⊢
      omega
  · rw [iff_true_right (.inl root)]
    refine ⟨readable.size,fun k below => contents.mapped k ?_⟩
    rw [← finished.sizes no inTable root]
    exact below

end Contents

section Files
variable {hosts : List HostFile} {d : State} {fs fs' : Fs} {env : Env}

-- Names that differ in their first 14 bytes and are not those of the root.
structure Distinct (hosts : List HostFile) : Prop where
  names : ∀ i j (one : i < hosts.length) (two : j < hosts.length), padded hosts[i].name = padded hosts[j].name → i = j
  plain : ∀ f ∈ hosts, padded f.name ≠ padded dot ∧ padded f.name ≠ padded dotdot

theorem numberOf_file (distinct : Distinct hosts) {i : Nat} (inside : i < hosts.length) :
    numberOf hosts hosts[i].name = some (inodeOf i) := by
  obtain ⟨one,two⟩ := distinct.plain hosts[i] (List.getElem_mem inside)
  unfold numberOf
  have other : ¬(padded dot = padded hosts[i].name ∨ padded dotdot = padded hosts[i].name) := by
    intro own
    rcases own with same | same
    · exact one same.symm
    · exact two same.symm
  rw [if_neg other,Option.map_eq_some_iff]
  refine ⟨i,List.findIdx?_eq_some_iff_getElem.mpr ⟨inside,by simp,?_⟩,rfl⟩
  intro j before same
  have same := distinct.names j i (by omega) inside (by simpa using same)
  omega

theorem Untouched.opens (untouched : Untouched d fs) (env : Env) (finished : Finished (pictured hosts) d)
    (fits : Fits hosts) (super : env.sblock = sb) {i : Nat} (inside : i < hosts.length) :
    ∃ fs' inode, inodeGet env (inodeOf i) fs = .ok (some (inodeOf i),fs') ∧
      fs'.inodes (inodeOf i) = some inode ∧ Untouched d fs' := by
  have inodes := fits.inodes
  have count : nInodes = 200 := rfl
  have inTable : InTable env.sblock (inodeOf i) := by
    rw [super,inTable_iff,inodeOf_toNat (by omega)]
    omega
  obtain ⟨fs',got,_⟩ := SysFile.inodeGet_sees (untouched.tree finished fits super).sees inTable
  obtain ⟨_,_,_,⟨inode,found,_⟩,_⟩ := inodeGet_found got
  refine ⟨fs',inode,got,found,untouched.step finished fits super (.get (inodeOf i)) trivial ?_⟩
  change (·.2) <$> inodeGet env (inodeOf i) fs = _
  rw [got]
  rfl

end Files

-- The steps of mkfs that take an inode or blocks, beside what the files are to be.
inductive Step where
  | ialloc (type : U16)
  | iappend (inum : Usize) (bytes : List Byte)

def advance (s : Files × State) : Step → Option (Files × State)
  | .ialloc type => (ialloc type s.2).toOption.map fun r => (s.1.create r.1 type,r.2)
  | .iappend inum bytes => (iappend inum bytes s.2).toOption.map fun d => (s.1.append inum bytes,d)

-- There are an inode, bytes and blocks left.
def Fitting (s : Files × State) : Step → Prop
  | .ialloc type => type ≠ inodeInvalid ∧ s.2.freeinode.toNat < nInodes
  | .iappend inum bytes => InTable sb inum ∧ inum.toNat < s.2.freeinode.toNat ∧ (s.1 inum).2.length+bytes.length ≤ inodeMaxBytes ∧
      s.2.freeblock.toNat+blocksOf ((s.1 inum).2.length+bytes.length) ≤ fsSize+blocksOf (s.1 inum).2.length

instance (s : Files × State) (step : Step) : Decidable (Fitting s step) :=
  match step with
  | .ialloc type => inferInstanceAs (Decidable (type ≠ inodeInvalid ∧ s.2.freeinode.toNat < nInodes))
  | .iappend inum bytes => inferInstanceAs (Decidable ((0 < inum.toNat ∧ inum.toNat < sb.numInodes.toNat) ∧ inum.toNat < s.2.freeinode.toNat ∧
      (s.1 inum).2.length+bytes.length ≤ inodeMaxBytes ∧
      s.2.freeblock.toNat+blocksOf ((s.1 inum).2.length+bytes.length) ≤ fsSize+blocksOf (s.1 inum).2.length))

-- The image with the bitmap that balloc writes in the end.
def State.marked (d : State) : View := ⟨Function.update d.sectors (bitmapBlock sb) (bitmapOf d.freeblock.toNat),[]⟩

section Steps
variable {files : Files} {d : State} {v v' : View} {s s' : Files × State}

theorem Drawn.blocks (drawn : Drawn files d v) : v.blocks = d.marked.blocks := by
  have disk : d.freeblock.toNat ≤ bitPerBlock := Nat.le_trans drawn.below (by decide)
  funext b
  unfold State.marked
  by_cases bitmap : b = bitmapBlock sb
  · subst bitmap
    simp only [Function.update_self]
    refine BitVec.eq_of_getLsbD_eq ?_
    intro j _
    rw [← bitmapGet_bit,← bitmapGet_bit,drawn.marks,bitmapOf_marks _ _ disk]
  · simp only [Function.update_of_ne bitmap]
    exact drawn.same b bitmap

theorem synced_recast (same : v'.blocks = v.blocks) : Recast (idle v) (idle v') := by
  have entry : ∀ no, entryOf sb (idle v') no = entryOf sb (idle v) no := by
    intro no
    change diskEntry sb v' no = diskEntry sb v no
    unfold diskEntry
    rw [same]
  refine ⟨fun no _ => by rw [entry],fun no _ => by rw [entry],fun b _ => congrFun same b,?_,?_⟩
  · intro b
    unfold used
    change bitmapGet (v'.blocks _) _ = true ↔ bitmapGet (v.blocks _) _ = true
    rw [same]
  · intro p inode there
    cases there

theorem Drawn.recast (drawn : Drawn files d v) (same : v'.blocks = v.blocks) : Drawn files d v' := by
  have recast := synced_recast same
  have entry : ∀ no, diskEntry sb v' no = diskEntry sb v no := by
    intro no
    unfold diskEntry
    rw [same]
  refine ⟨by rw [same]; exact drawn.same,by rw [same]; exact drawn.marks,drawn.fresh,drawn.above,drawn.below,recast.owned drawn.owned,
    fun no inTable => recast.bytes drawn.owned inTable (drawn.contents no inTable),
    fun no inTable => recast.tight drawn.owned inTable (drawn.tight no inTable),?_,?_,?_,drawn.reserved⟩
  · intro no inTable
    rw [entry]
    exact drawn.heads no inTable
  · intro no inTable
    rw [entry]
    exact drawn.sizes no inTable
  · intro no inTable beyond
    rw [entry]
    exact drawn.unused no inTable beyond

structure Drawing (s : Files × State) : Prop where
  drawn : Drawn s.1 s.2 s.2.marked
  counter : 0 < s.2.freeinode.toNat

theorem Drawing.step (drawing : Drawing s) (step : Step) (fitting : Fitting s step)
    (ran : advance s step = some s') : Drawing s' := by
  have counter := drawing.counter
  cases step with
  | ialloc type =>
    obtain ⟨r,allocated,rfl⟩ := Option.map_eq_some_iff.mp ran
    obtain ⟨d',v',created,number,_,drawn⟩ := drawing.drawn.ialloc ⟨counter,fitting.2⟩ type fitting.1
    cases (Runs.toOption_some allocated).symm.trans created
    exact ⟨drawn.recast drawn.blocks.symm,by change 0 < d'.freeinode.toNat; omega⟩
  | iappend inum bytes =>
    obtain ⟨inTable,known,small,room⟩ := fitting
    obtain ⟨d',appended,rfl⟩ := Option.map_eq_some_iff.mp ran
    obtain ⟨d'',v',written,number,_,drawn,_⟩ := drawing.drawn.iappend 0 bytes inTable known small room
    cases (Runs.toOption_some appended).symm.trans written
    exact ⟨drawn.recast drawn.blocks.symm,by change 0 < d'.freeinode.toNat; rw [number]; exact counter⟩

theorem drawing_run (path : Runs.Guarded advance Fitting (nothing,blank) s) : Drawing s :=
  path.invariant Drawing ⟨blank_drawn.recast blank_drawn.blocks.symm,by decide⟩ fun _ step _ drawing fitting ran =>
      drawing.step step fitting ran

end Steps

-- iappend on the image is inode_write at the end of the file: wherever mkfs stands, the
-- kernel would write the same blocks.
theorem iappend_writes {s : Files × State} {p : Usize} {bytes : List Byte}
    (path : Runs.Guarded advance Fitting (nothing,blank) s) (fitting : Fitting s (.iappend p bytes))
    (file : (s.1 p).1 ≠ inodeDevice) (more : bytes ≠ []) (op : Nat) : ∃ d' fs',
      iappend p bytes s.2 = .ok d' ∧
      inodeWrite kernel (some op) p bytes (BitVec.ofNat 64 (s.1 p).2.length)
      (opened s.2.marked p (diskEntry sb s.2.marked p)) =
        .ok (BitVec.ofNat 64 bytes.length,fs') ∧
      fs'.cache.blocks = d'.marked.blocks := by
  obtain ⟨inTable,known,small,room⟩ := fitting
  obtain ⟨d',v',appended,_,_,drawn,writes⟩ := (drawing_run path).drawn.iappend op bytes inTable known small room
  obtain ⟨fs',written,same⟩ := writes file more
  exact ⟨d',fs',appended,written,by rw [same]; exact drawn.blocks⟩

-- The byte 7 for the root, before it has any entry.
theorem iappend_writes_first : ∃ (s : Files × State) (d' : State) (fs' : Fs), iappend 1#64 [7#8] s.2 = .ok d' ∧
    inodeWrite kernel (some 0) 1#64 [7#8] 0#64 (opened s.2.marked 1#64 (diskEntry sb s.2.marked 1#64)) = .ok (1#64,fs') ∧
    fs'.cache.blocks = d'.marked.blocks := by
  obtain ⟨s,ran,facts⟩ := Runs.some_such (x := Runs.execGuarded advance Fitting (nothing,blank) [.ialloc inodeRegular])
    (p := fun s => decide (Fitting s (.iappend 1#64 [7#8]) ∧ (s.1 1#64).1 = inodeRegular ∧ (s.1 1#64).2 = [])) (by decide +kernel)
  obtain ⟨fitting,type,empty⟩ := of_decide_eq_true facts
  obtain ⟨d',fs',appended,written,same⟩ := iappend_writes (Runs.exec_guarded .start ran) fitting (by rw [type]; decide) (by decide) 0
  rw [empty] at written
  exact ⟨s,d',fs',appended,written,same⟩

-- "_a" with one byte.
def smallFile : HostFile := ⟨[95#8,97#8],[[7#8]],by decide,by decide⟩

theorem small_fits : Fits [smallFile] := ⟨by decide,by decide,by decide⟩

-- The image is consistent: its pointers stay between nmeta and freeblock and have a block
-- each, the bitmap has just the blocks below freeblock, and only the root may have a hole.
theorem mkfs_consistent {hosts : List HostFile} (fits : Fits hosts) :
    ∃ d, mkfs hosts = .ok d ∧ superBlockOf (d.sectors 1#64) = mkfsSuperBlock ∧
    (∀ j, bitmapGet (d.sectors (bitmapBlock mkfsSuperBlock)) j = decide (j < d.freeblock.toNat)) ∧
    (∀ slot b, refs mkfsSuperBlock table (idle d.view) slot = some b → nmeta ≤ b.toNat ∧ b.toNat < d.freeblock.toNat) ∧
    (∀ slot slot' b, refs mkfsSuperBlock table (idle d.view) slot = some b →
    refs mkfsSuperBlock table (idle d.view) slot' = some b → slot = slot') ∧
    (∀ b, nmeta ≤ b.toNat → b.toNat < d.freeblock.toNat → ∃ slot,
    refs mkfsSuperBlock table (idle d.view) slot = some b) ∧
    ∀ no, InTable mkfsSuperBlock no → (Whole d.view (diskEntry mkfsSuperBlock d.view no) ↔ no ≠ rootInodeNo ∨
    hosts.length%32 ≠ 30) := by
  obtain ⟨d,ran,_,finished⟩ := mkfs_finishes fits
  exact ⟨d,ran,finished.super,finished.marks,fun _ _ => finished.refs_bounds,finished.owned.balanced.unique,fun _ => finished.refs_all,
    fun _ => finished.whole fits⟩

theorem mkfs_consistent_small : ∃ d, mkfs [smallFile] = .ok d ∧
    ∀ no, InTable mkfsSuperBlock no → Whole d.view (diskEntry mkfsSuperBlock d.view no) := by
  obtain ⟨d,ran,_,_,_,_,_,whole⟩ := mkfs_consistent small_fits
  exact ⟨d,ran,fun no inTable => (whole no inTable).mpr (.inr (by decide))⟩

-- In the mounted image every name is looked up as the list of files says, and a file has
-- the bytes of the host, however often the kernel has looked at the image before.
theorem mounted_files {hosts : List HostFile} (fits : Fits hosts) (consoleRead : Usize → Option (List Byte))
    (stack : DirEntry) : ∃ d env start,
    mkfs hosts = .ok d ∧ initFilesystem consoleRead stack d.sectors = .ok (env,start) ∧
    ∀ fs, Runs.Guarded (next env) (fun _ c => Looks c) start fs →
      (∀ name, ∃ index, inodeLookup env rootInodeNo name fs = .ok ((numberOf hosts name).getD 0#64,index,fs)) ∧
      (Distinct hosts → ∀ i (inside : i < hosts.length), numberOf hosts hosts[i].name = some (inodeOf i)) ∧
      ∀ i (inside : i < hosts.length), ∃ opened, inodeGet env (inodeOf i) fs = .ok (some (inodeOf i),opened) ∧
        ∀ offset count : Usize, offset.toNat ≤ hosts[i].bytes.length → offset.toNat+count.toNat < 2^64 →
          inodeRead env (inodeOf i) offset count opened = .ok (BitVec.ofNat 64 (min count.toNat (hosts[i].bytes.length-offset.toNat)),
            (hosts[i].bytes.drop offset.toNat).take count.toNat,opened) := by
  obtain ⟨d,ran,_,finished⟩ := mkfs_finishes fits
  refine ⟨d,⟨sb,consoleRead,stack⟩,_,ran,finished.mounts consoleRead stack,fun fs path => ?_⟩
  have untouched := (mounted_untouched d).run finished fits rfl path
  refine ⟨untouched.lookup finished fits,fun distinct i inside => numberOf_file distinct inside,fun i inside => ?_⟩
  have inodes := fits.inodes
  have count : nInodes = 200 := rfl
  obtain ⟨opened,inode,got,found,after⟩ := untouched.opens ⟨sb,consoleRead,stack⟩ finished fits rfl inside
  refine ⟨opened,got,fun offset count within small => ?_⟩
  have file := pictured_file inside (show i+2 < 2^64 by omega)
  have read := after.read ⟨sb,consoleRead,stack⟩ finished fits found (inodeOf_ne_root (by omega)) offset count
  rw [file] at read
  exact read within small

theorem mounted_files_small : ∃ (d : State) (env : Env) (start opened : Fs) (index : Option Usize),
    mkfs [smallFile] = .ok d ∧
    inodeLookup env rootInodeNo [97#8] start = .ok (2#64,index,start) ∧
    inodeGet env 2#64 start = .ok (some 2#64,opened) ∧
    inodeRead env 2#64 0#64 8#64 opened = .ok (1#64,[7#8],opened) := by
  obtain ⟨d,env,start,ran,_,rest⟩ := mounted_files small_fits (fun _ => none) 0#128
  obtain ⟨names,_,files⟩ := rest start .start
  obtain ⟨index,found⟩ := names [97#8]
  obtain ⟨opened,got,read⟩ := files 0 (by decide)
  have number : numberOf [smallFile] [97#8] = some 2#64 := by decide
  rw [number] at found
  exact ⟨d,env,start,opened,index,ran,found,got,read 0#64 8#64 (by decide) (by decide)⟩

-- And every path leads where the list of files says.
theorem mounted_paths {hosts : List HostFile} (fits : Fits hosts) (consoleRead : Usize → Option (List Byte))
    (stack : DirEntry) : ∃ d env start,
    mkfs hosts = .ok d ∧ initFilesystem consoleRead stack d.sectors = .ok (env,start) ∧
    ∀ fs, Runs.Guarded (next env) (fun _ c => Looks c) start fs → ∀ ctx path, ∃ fs',
      SysFile.namei env ctx rootInodeNo path fs = .ok (located hosts rootInodeNo (SysFile.components path),fs') := by
  obtain ⟨d,ran,_,finished⟩ := mkfs_finishes fits
  refine ⟨d,⟨sb,consoleRead,stack⟩,_,ran,finished.mounts consoleRead stack,fun fs path => ?_⟩
  exact ((mounted_untouched d).run finished fits rfl path).namei finished fits rfl

-- "/./a"
theorem mounted_paths_small : ∃ (d : State) (env : Env) (start fs' : Fs), mkfs [smallFile] = .ok d ∧
    SysFile.namei env none rootInodeNo [47#8,46#8,47#8,97#8] start = .ok (some 2#64,fs') := by
  obtain ⟨d,env,start,ran,_,paths⟩ := mounted_paths small_fits (fun _ => none) 0#128
  obtain ⟨fs',found⟩ := paths start .start none [47#8,46#8,47#8,97#8]
  have place : located [smallFile] rootInodeNo (SysFile.components [47#8,46#8,47#8,97#8]) = some 2#64 := by decide +kernel
  rw [place] at found
  exact ⟨d,env,start,fs',ran,found⟩

end Mkfs
