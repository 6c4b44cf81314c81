import HonorKernel.DescriptorErrors
import HonorKernel.ExecveLoading
import HonorKernel.ForkBudget
import HonorKernel.ImagePages
import HonorKernel.InodeLocks

-- What execve leaves behind when it does not go through.
namespace Execve
open DiskFormat BitSlice CacheView InodeLayer SysFile
open PageTable (U64 Frame Page Trap Mem Space PgDir Section Holes Sound Takes Grown imageTables tablesFor
  stackPlaces copyPlaces rootsOf pageBase pageSize stackPages stackTop mapStack copyouts initSections initPgdir
  freePages freeSections freePgdir loadSegments slab)
open FileTable (Kernel Process trap trap_ok fileSections fileClose nFile Unchanged)

variable {n : Nat}

-- The address space for the segments of a file, before it has a stack.
def buildImage (c : Setting) (file : List Byte) (mem : Mem) : Except Trap (PgDir × Mem) := do
  let mem ← slab c.small mem
  let (dir,mem) ← initPgdir c.fp mem
  loadSegments c.zero (segments file) dir mem

-- The file system when the file has been read and let go.
def letGo (c : Setting) (op : Nat) (ip : Usize) (fs : Fs) : Except Trap Fs := do
  let fs ← trap (inodeLock ip fs)
  trap (unlockPut c.env (some op) ip fs)

-- The arrays of execve have 32 entries, and the queue has the pages.
def pagesFor (c : Setting) (file : List Byte) (argv envp : List CString) : Nat :=
  c.small+PageTable.imagePages (segments file) (stackTop (segments file)) (fillStack c.spare (stackTop (segments file)) argv envp).2.2

structure Fits (c : Setting) (file : List Byte) (argv envp : List CString) (mem : Mem) : Prop where
  args : argv.length < maxPointers
  envs : envp.length < maxPointers
  pages : pagesFor c file argv envp ≤ mem.free.length

-- What a path leads to is no device, has no holes, and stays when execve lets it go.
structure Named (fs : Fs) (ip : Usize) (inode : Inode) : Prop extends Plain fs ip inode where
  kept : inode.entry.numLinks ≠ 0#16 ∨ 1 < inode.rc

-- The inode behind a section stays, with `count` files to be closed.
structure Closable (k : Kernel n) (count : Nat) (f : Nat) : Prop where
  inside : f < nFile
  kept : (k.files f).type = .inode → ∃ inode, k.fs.inodes (k.files f).ip = some inode ∧
      (inode.entry.numLinks ≠ 0#16 ∨ (count : Int) < inode.rc)

section Memory
variable {D : Type*} {c : Setting} {holes : Holes} {mem : Mem}

end Memory

section Releasing
variable {env : Env} {f count : Nat} {k k' : Kernel n} {mem : Mem} {old : PgDir}

theorem Closable.next (closable : Closable k (count+1) f) (files : ∀ g, (k'.files g).type = (k.files g).type ∧
    (k'.files g).ip = (k.files g).ip ∨ (k'.files g).type = .none)
    (inodes : ∀ p inode, k.fs.inodes p = some inode → ∃ inode', k'.fs.inodes p = some inode' ∧
    inode'.entry = inode.entry ∧ inode.rc-1 ≤ inode'.rc) :
    Closable k' count f := by
  refine ⟨closable.inside,fun type => ?_⟩
  rcases files f with ⟨same,ip⟩ | none
  · obtain ⟨inode,found,kept⟩ := closable.kept (same.symm.trans type)
    obtain ⟨inode',found',entry,rc⟩ := inodes _ inode found
    refine ⟨inode',by rw [ip]; exact found',?_⟩
    rw [entry]
    rcases kept with linked | more
    · exact .inl linked
    · exact .inr (by omega)
  · rw [none] at type
    cases type

end Releasing

section Lookup
variable {c : Setting} {op : Nat} {fs fs' : Fs} {ip : Usize} {inode : Inode}

theorem inodeLock_free (free : Unlocked fs) (found : fs.inodes ip = some inode) (counted : 0 < inode.rc) :
    inodeLock ip fs = .ok (fs.setInode ip { inode with lock := ⟨0,[]⟩ }) := by
  have positive : ¬ inode.rc ≤ 0 := by omega
  unfold inodeLock
  simp only [Fs.inode_ok.mpr found,bind,Except.bind,if_neg positive,free ip inode found]
  rfl

theorem setInode_there (fs : Fs) (ip : Usize) (inode : Inode) : (fs.setInode ip inode).inodes ip = some inode := Function.update_self ..

theorem Plain.locked (plain : Plain fs ip inode) (c : Setting) (lock : Semaphores.Semaphore) :
    Reads (bytesOf fs inode) (inodeReader c ip) (fs.setInode ip { inode with lock := lock }) := by
  have still : Plain (fs.setInode ip { inode with lock := lock }) ip { inode with lock := lock } :=
    ⟨setInode_there ..,plain.file,plain.whole⟩
  exact still.reads c

end Lookup

section Call
variable {c : Setting} {m m' : System n} {pid : Fin n} {p : Process} {path : List Byte} {argv envp : List CString}
  {fs fs' : Fs} {ip : Usize} {inode : Inode}

-- The inode that namei returns: nothing is locked, and it has a reference for the caller.
theorem namei_returns (free : Unlocked m.space.fs.fs) (counted : ∀ q, 0 ≤ rcOf m.space.fs.fs q)
    (found : namei c.env (some m.space.fs.op) p.cwd path m.space.fs.fs = .ok (some ip,fs))
    (there : fs.inodes ip = some inode) :
    Unlocked fs ∧ 0 < inode.rc := by
  refine ⟨locks_nil.mp ((Runs.Avoids.iff.mp (namei_locks (locks_nil.mpr free))).2 _ found),?_⟩
  have count := (namei_counts found).rc ip
  have before := counted ip
  rw [rcOf_found there] at count
  have mine : taken (some ip) ip = 1 := by simp [taken,one]
  omega

theorem proc_found (here : m.space.fs.procs pid = some p) : m.space.fs.proc pid = .ok p := by
  unfold FileTable.Kernel.proc
  rw [here]

theorem execve_named (here : m.space.fs.procs pid = some p)
    (found : namei c.env (some m.space.fs.op) p.cwd path m.space.fs.fs = .ok (some ip,fs))
    (plain : Plain fs ip inode) (free : Unlocked fs) (counted : 0 < inode.rc) :
    execve c pid path argv envp m =
      if inode.entry.numBytes.toNat < ehdrSize then do
        let fs ← letGo c m.space.fs.op ip fs
        .ok (false,{ m with space := ⟨m.space.mem,m.space.dirs,m.space.fs.commit fs⟩ })
      else if (ehdrOf (bytesOf fs inode)).magic ≠ elfmag then .error .assertion
      else load c pid (ehdrOf (bytesOf fs inode)) ip argv envp (fs.setInode ip { inode with lock := ⟨0,[]⟩ }) m := by
  have locked := inodeLock_free free plain.found counted
  have unit : ehdrSize = 64 := rfl
  have length : (bytesOf fs inode).length = inode.entry.numBytes.toNat := bytesOf_length fs inode
  have header : inodeReader c ip 0#64 (BitVec.ofNat 64 ehdrSize) (fs.setInode ip { inode with lock := ⟨0,[]⟩ }) =
      .ok (BitVec.ofNat 64 (min ehdrSize (bytesOf fs inode).length),(bytesOf fs inode).take ehdrSize,
          fs.setInode ip { inode with lock := ⟨0,[]⟩ }) := by
    rw [plain.locked c ⟨0,[]⟩ 0#64 (BitVec.ofNat 64 ehdrSize) (by decide)]
    exact if_pos (Nat.zero_le _)
  unfold execve letGo
  simp only [proc_found here,found,locked,header,trap,bind,Except.bind]
  by_cases short : inode.entry.numBytes.toNat < ehdrSize
  · have few : BitVec.ofNat 64 (min ehdrSize (bytesOf fs inode).length) < BitVec.ofNat 64 ehdrSize := by
      rw [BitVec.lt_def,BitVec.toNat_ofNat,BitVec.toNat_ofNat]
      omega
    rw [if_pos few,if_pos short]
  · have enough : ¬ BitVec.ofNat 64 (min ehdrSize (bytesOf fs inode).length) < BitVec.ofNat 64 ehdrSize := by
      rw [BitVec.lt_def,BitVec.toNat_ofNat,BitVec.toNat_ofNat]
      omega
    rw [if_neg enough,if_neg short]
    rfl

theorem load_loadable {file : List Byte} (reads : Reads file (inodeReader c ip) fs) (size : file.length < 2^32)
    (loadable : Loadable file) :
    load c pid (ehdrOf file) ip argv envp fs m = (do
      let (dir,mem) ← buildImage c file m.space.mem
      let fs ← trap (unlockPut c.env (some m.space.fs.op) ip fs)
      let m ← enter c pid (ehdrOf file).entry (PageTable.maxEnd (segments file)) argv envp dir mem (m.space.fs.commit fs) m
      .ok (true,m)) := by
  have looped : ∀ dir mem, loadHeaders c.zero (inodeReader c ip) (ehdrOf file).phnum.toNat (ehdrOf file).phoff 0#64 dir mem fs =
      (loadSegments c.zero (segments file) dir mem).map fun r => (true,PageTable.maxEnd (segments file),r.1,r.2,fs) :=
    fun dir mem => loadHeaders_whole c.zero reads size _ 0#64 dir mem loadable.inside loadable.supported
  unfold load buildImage
  simp only [bind,Except.bind]
  cases slab c.small m.space.mem with
  | error fault => rfl
  | ok mem =>
    simp only
    cases initPgdir c.fp mem with
    | error fault => rfl
    | ok r =>
      simp only [looped]
      cases loadSegments c.zero (segments file) r.1 r.2 with
      | error fault => rfl
      | ok v =>
        simp only [Except.map,if_true]

theorem load_cases {file : List Byte} {done : Bool} (reads : Reads file (inodeReader c ip) fs)
    (size : file.length < 2^32) (ran : load c pid (ehdrOf file) ip argv envp fs m = .ok (done,m')) :
    done = false ∧ m'.blocks = m.blocks+1 ∨ done = true ∧
      ((ehdrOf file).phnum.toNat ≠ 0 → (ehdrOf file).phoff.toNat+phdrSize*(ehdrOf file).phnum.toNat ≤ file.length) ∧
      ∀ h ∈ phdrs file (ehdrOf file).phnum.toNat (ehdrOf file).phoff.toNat, h.Supported file := by
  obtain ⟨mem₀,_,rest⟩ := Runs.bind_ok.mp ran
  obtain ⟨⟨dir₁,mem₁⟩,_,rest⟩ := Runs.bind_ok.mp rest
  obtain ⟨⟨whole,maxEnd,dir₂,mem₂,fs₂⟩,looped,rest⟩ := Runs.bind_ok.mp rest
  obtain ⟨fs₃,_,rest⟩ := Runs.bind_ok.mp rest
  cases whole with
  | false =>
    obtain ⟨⟨_,mem₄,k⟩,_,rest⟩ := Runs.bind_ok.mp rest
    simp only [Except.ok.injEq,Prod.mk.injEq] at rest
    obtain ⟨rfl,rfl⟩ := rest
    exact .inl ⟨rfl,rfl⟩
  | true =>
    obtain ⟨m₁,_,rest⟩ := Runs.bind_ok.mp rest
    simp only [Except.ok.injEq,Prod.mk.injEq] at rest
    exact .inr ⟨rest.1.symm,loadHeaders_true c.zero reads size _ looped⟩

theorem execve_returns {done : Bool} (here : m.space.fs.procs pid = some p)
    (found : namei c.env (some m.space.fs.op) p.cwd path m.space.fs.fs = .ok (some ip,fs))
    (plain : Plain fs ip inode) (free : Unlocked fs) (counted : 0 < inode.rc)
    (ran : execve c pid path argv envp m = .ok (done,m')) :
    done = false ∧ inode.entry.numBytes.toNat < ehdrSize ∨ done = false ∧ m'.blocks = m.blocks+1 ∨
      done = true ∧ Loadable (bytesOf fs inode) ∧ ∃ dir mem fs',
      buildImage c (bytesOf fs inode) m.space.mem = .ok (dir,mem) ∧
        letGo c m.space.fs.op ip fs = .ok fs' ∧
        enter c pid (ehdrOf (bytesOf fs inode)).entry (PageTable.maxEnd (segments (bytesOf fs inode))) argv envp
          dir mem (m.space.fs.commit fs') m = .ok m' := by
  have reads := plain.locked c ⟨0,[]⟩
  have size := bytesOf_small fs inode
  rw [execve_named here found plain free counted] at ran
  split at ran
  · rename_i short
    obtain ⟨fs',_,rest⟩ := Runs.bind_ok.mp ran
    simp only [Except.ok.injEq,Prod.mk.injEq] at rest
    exact .inl ⟨rest.1.symm,short⟩
  · rename_i long
    split at ran
    · cases ran
    · rename_i magic
      rcases load_cases reads size ran with leaked | ⟨whole,inside,supported⟩
      · exact .inr (.inl leaked)
      · have loadable : Loadable (bytesOf fs inode) := by
          refine ⟨?_,Decidable.not_not.mp magic,inside,supported⟩
          rw [bytesOf_length]
          omega
        rw [load_loadable reads size loadable] at ran
        obtain ⟨⟨dir,mem⟩,built,rest⟩ := Runs.bind_ok.mp ran
        obtain ⟨fs',gone,rest⟩ := Runs.bind_ok.mp rest
        obtain ⟨m₁,entered,rest⟩ := Runs.bind_ok.mp rest
        simp only [Except.ok.injEq,Prod.mk.injEq] at rest
        obtain ⟨_,rfl⟩ := rest
        refine .inr (.inr ⟨whole,loadable,dir,mem,fs',built,?_,entered⟩)
        unfold letGo
        rw [inodeLock_free free plain.found counted]
        exact gone

end Call

-- A file with one program header, and its bytes behind that.
def elf (flags : Byte) (vaddr filesz memsz : U64) (data : List Byte) : List Byte :=
  elfmag++List.replicate 20 0#8++wordBytes vaddr++wordBytes 64#64++List.replicate 16 0#8++[1#8,0#8]++List.replicate 6 0#8++
    [1#8,0#8,0#8,0#8,flags,0#8,0#8,0#8]++wordBytes 120#64++wordBytes vaddr++wordBytes vaddr++wordBytes filesz++wordBytes memsz++wordBytes 0#64++data

-- A disk with one file, /a.
def dirBytes (no : Byte) (name : List Byte) : List Byte := [no,0#8]++name++List.replicate (14-name.length) 0#8
def rootBytes : List Byte := dirBytes 1#8 dot++dirBytes 1#8 dotdot++dirBytes 2#8 [97#8]
def storedAt (type : U16) (b : U32) (size : Nat) : InodeEntry := ⟨type,0#16,0#16,1#16,BitVec.ofNat 32 size,fun i => if i.val = 0 then b else 0#32,0#32⟩

def diskOf (file : List Byte) : Fs :=
  ⟨⟨fun b => if b = 92#64 then setBytes 0#4096 0 rootBytes else if b = 93#64 then setBytes 0#4096 0 file else 0#4096,[]⟩,
    fun p => if p = 1#64 then some ⟨Semaphores.initSem 1,1,1#64,true,storedAt inodeDirectory 92#32 48⟩
      else if p = 2#64 then some ⟨Semaphores.initSem 1,0,2#64,true,storedAt inodeRegular 93#32 file.length⟩ else none⟩

def systemOf (s : Space Unit) (file : List Byte) : System 1 :=
  ⟨⟨s.mem,s.dirs,diskOf file,fun _ => ⟨.none,0,false,false,0,0#64⟩,fun _ => some FileTable.firstProcess,0,[],[]⟩,
      fun _ => ⟨0#64,0#64,0#64,0#64⟩,0⟩

def plainSetting : Setting := ⟨blankEnv,PageTable.zeroPage,0,none,fun _ => 0#64⟩

theorem diskOf_inodes {file : List Byte} {p : Usize} {inode : Inode} (found : (diskOf file).inodes p = some inode) :
    inode.lock = ⟨1,[]⟩ ∧ 0 ≤ inode.rc := by
  simp only [diskOf] at found
  split at found
  · cases found
    exact ⟨rfl,Int.one_nonneg⟩
  · split at found
    · cases found
      exact ⟨rfl,Int.le_refl 0⟩
    · cases found

theorem diskOf_counted (file : List Byte) (p : Usize) : 0 ≤ rcOf (diskOf file) p := by
  unfold rcOf
  split
  · rename_i inode found
    exact (diskOf_inodes found).2
  · exact Int.le_refl 0

theorem storedAt_whole (v : View) (type : U16) {b : U32} {size : Nat} (block : b ≠ 0#32) (small : size ≤ blockSize) :
    Whole v (storedAt type b size) := by
  have unit : blockSize = 512 := rfl
  have bytes : (storedAt type b size).numBytes.toNat = size := by
    change (BitVec.ofNat 32 size).toNat = size
    rw [BitVec.toNat_ofNat]
    omega
  refine ⟨?_,fun k below => ?_⟩
  · rw [bytes]
    exact Nat.le_trans small (by decide)
  · have first : k = 0 := by
      rw [bytes] at below
      rcases k with _ | k
      · rfl
      · rw [Nat.succ_mul] at below
        omega
    subst first
    have mapped : fileBlock v (storedAt type b size) 0 = if b = 0#32 then none else some (b.setWidth 64) := rfl
    rw [mapped,if_neg block]
    exact fun absurd => by cases absurd

-- A process with an address space, before its first execve; `pages` is what was in memory.
def boots (pages : Frame → Page) : Space Unit := { PageTable.booted with mem := { PageTable.booted.mem with pages := pages } }
def began (pages : Frame → Page) : Space Unit := ((boots pages).next PageTable.noFiles PageTable.zeroPage (.start 0 none)).getD (boots pages)
theorem began_sound (pages : Frame → Page) : ∃ holes, Sound holes PageTable.zeroPage (began pages) := by
  have boot := PageTable.booted_boots
  have null : ∀ h : Frame, h = 0#36 → h ∉ (boots pages).mem.free := by
    rintro _ rfl
    exact boot.hole
  have sound : Sound ⟨(· = 0#36),(boots pages).mem.refs,rfl⟩ PageTable.zeroPage (boots pages) :=
    PageTable.Space.Booted.sound ⟨boot.nodup,boot.clean,boot.zero_used,boot.zero_real,boot.zero_count,boot.hole,
        boot.unused⟩ null boot.zero_real fun _ _ => rfl
  have starts : ((boots pages).next PageTable.noFiles PageTable.zeroPage (.start 0 none)).isSome = true := rfl
  obtain ⟨s,first⟩ := Option.isSome_iff_exists.mp starts
  have careful : PageTable.Careful (boots pages) (.start 0 none) := trivial
  refine ⟨⟨(· = 0#36),(boots pages).mem.refs,rfl⟩,?_⟩
  rw [began,first,Option.getD_some]
  exact sound.next careful (Runs.toOption_some first)

theorem systemOf_sound {holes : Holes} {s : Space Unit} (sound : Sound holes PageTable.zeroPage s) (file : List Byte) :
    Sound holes plainSetting.zero (systemOf s file).space := ⟨sound.sane,sound.tables,sound.layout⟩

def slashA : List Byte := [47#8,97#8]

-- What namei finds at /a.
def findsA (file : List Byte) (found : Option Usize × Fs) : Bool :=
  decide (found.1 = some 2#64) && (found.2.inodes 2#64).any fun inode =>
    decide (inode.entry = storedAt inodeRegular 93#32 file.length) && decide (bytesOf found.2 inode = file)

theorem slashA_named {file : List Byte} (small : file.length ≤ blockSize)
    (finds : ∃ found, namei blankEnv (some 0) rootInodeNo slashA (diskOf file) = .ok found ∧ findsA file found = true) :
    ∃ fs inode, namei blankEnv (some 0) rootInodeNo slashA (diskOf file) = .ok (some 2#64,fs) ∧ Named fs 2#64 inode ∧
    bytesOf fs inode = file := by
  obtain ⟨⟨found,fs⟩,looked,finds⟩ := finds
  simp only [findsA,Bool.and_eq_true,decide_eq_true_eq,Option.any_eq_true] at finds
  obtain ⟨rfl,inode,there,entry,bytes⟩ := finds
  refine ⟨fs,inode,looked,⟨⟨there,?_,?_⟩,?_⟩,bytes⟩
  · rw [entry]
    change inodeRegular ≠ inodeDevice
    decide
  · rw [entry]
    exact storedAt_whole _ _ (by decide) small
  · rw [entry]
    exact .inl (by decide : 1#16 ≠ 0#16)

theorem slashA_found {file : List Byte} (small : file.length ≤ blockSize)
    (finds : ∃ found, namei blankEnv (some 0) rootInodeNo slashA (diskOf file) = .ok found ∧ findsA file found = true) :
    ∃ fs inode, namei blankEnv (some 0) rootInodeNo slashA (diskOf file) = .ok (some 2#64,fs) ∧ Plain fs 2#64 inode ∧
    bytesOf fs inode = file := by
  obtain ⟨fs,inode,looked,named,bytes⟩ := slashA_named small finds
  exact ⟨fs,inode,looked,named.toPlain,bytes⟩

end Execve
