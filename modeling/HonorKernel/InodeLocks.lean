import HonorKernel.SectionBudget

-- The locks of the inodes in the system calls on paths, one call at a time: which of them
-- a call holds where, and when it waits for one that it holds itself.
namespace SysFile
open DiskFormat CacheView InodeLayer
open Runs (Avoids)

-- What the functions on blocks, entries and directories leave as it is.
def facts (fs : Fs) (p : Usize) : Option (Semaphores.Semaphore × Int × U16) :=
  (fs.inodes p).map fun inode => (inode.lock,inode.rc,inode.entry.type)

-- A function that neither waits for a lock nor changes one.
abbrev Quiet (fs : Fs) (post : α → Fs) (r : Except Fault α) : Prop := Avoids .blocked (fun a => facts (post a) = facts fs) r

section layer
variable {env : Env} {ctx : Ctx} {fs : Fs} {p : Usize} {inode inode' : Inode}

theorem inode_avoids (p : Usize) (fs : Fs) : Avoids .blocked (fun inode => fs.inodes p = some inode) (fs.inode p) := by
  unfold Fs.inode
  split
  · rename_i inode found
    exact found
  · simp [Avoids]

theorem facts_set (found : fs.inodes p = some inode) (lock : inode'.lock = inode.lock) (rc : inode'.rc = inode.rc)
    (type : inode'.entry.type = inode.entry.type) : facts (fs.setInode p inode') = facts fs := by
  funext q
  by_cases same : q = p
  · subst same
    simp only [facts,Fs.setInode,Function.update_self,found,Option.map_some,lock,rc,type]
  · simp only [facts,Fs.setInode,Function.update_of_ne same]

theorem facts_type (same : facts fs' p = facts fs p) (found : fs.inodes p = some inode) :
    ∃ inode', fs'.inodes p = some inode' ∧ inode'.lock = inode.lock ∧ inode'.rc = inode.rc ∧
    inode'.entry.type = inode.entry.type := by
  unfold facts at same
  rw [found,Option.map_some,Option.map_eq_some_iff] at same
  obtain ⟨inode',found',same⟩ := same
  simp only [Prod.mk.injEq] at same
  exact ⟨inode',found',same.1,same.2.1,same.2.2⟩

theorem cacheAlloc_avoids (sb : SuperBlock) (ctx : Ctx) (v : View) : Avoids .blocked (fun _ => True)
    (cacheAlloc sb ctx v) := by
  have found : ∀ (bitmap : BlockData) (count i : Nat), Avoids Fault.blocked (fun _ => True) (findFree bitmap count i) := by
    intro bitmap count
    induction count with
    | zero => intro i; simp [findFree,Avoids]
    | succ count ih =>
      intro i
      unfold findFree
      split
      · simp [Avoids]
      · split
        · exact ih (i+1)
        · trivial
  exact (found _ _ _).bind fun _ _ => trivial

theorem cacheFree_avoids (sb : SuperBlock) (ctx : Ctx) (b : Usize) (v : View) : Avoids .blocked (fun _ => True)
    (cacheFree sb ctx b v) := by
  unfold cacheFree
  split
  · trivial
  · simp [Avoids]

theorem inodeSync_quiet (env : Env) (ctx : Ctx) (p : Usize) (fs : Fs) : Quiet fs id (inodeSync env ctx p true fs) := by
  refine (inode_avoids p fs).bind fun inode found => ?_
  split
  · rfl
  · simp [Avoids]

theorem mapDirect_quiet (env : Env) (ctx : Ctx) (p : Usize) (i : Fin inodeNumDirect) (fs : Fs) :
    Quiet fs (·.2.2) (mapDirect env ctx p i fs) := by
  refine (inode_avoids p fs).bind fun inode found => ?_
  split
  · rfl
  · split
    · rfl
    · refine (cacheAlloc_avoids _ _ _).bind ?_
      rintro ⟨b,v⟩ _
      refine (inodeSync_quiet _ _ _ _).bind fun fs' synced => ?_
      exact synced.trans (facts_set (show (fs.setCache v).inodes p = some inode from found) rfl rfl rfl)

theorem needIndirect_quiet (env : Env) (ctx : Ctx) (p : Usize) (fs : Fs) :
    Quiet fs (·.2) (needIndirect env ctx p fs) := by
  refine (inode_avoids p fs).bind fun inode found => ?_
  split
  · refine (cacheAlloc_avoids _ _ _).bind ?_
    rintro ⟨b,v⟩ _
    exact facts_set (show (fs.setCache v).inodes p = some inode from found) rfl rfl rfl
  · rfl

theorem mapEntry_quiet (env : Env) (ctx : Ctx) (p indirect : Usize) (i : Nat) (fs : Fs) :
    Quiet fs (·.2.2) (mapEntry env ctx p indirect i fs) := by
  unfold mapEntry
  split
  · simp [Avoids]
  · split
    · rfl
    · split
      · rfl
      · refine (cacheAlloc_avoids _ _ _).bind ?_
        rintro ⟨b,v⟩ _
        exact (inodeSync_quiet _ _ _ _).bind fun fs' synced => synced

theorem inodeMap_quiet (env : Env) (ctx : Ctx) (p : Usize) (k : Nat) (fs : Fs) :
    Quiet fs (·.2.2) (inodeMap env ctx p k fs) := by
  unfold inodeMap
  split
  · exact mapDirect_quiet _ _ _ _ _
  · refine (needIndirect_quiet _ _ _ _).bind ?_
    rintro ⟨indirect,fs'⟩ needed
    exact (mapEntry_quiet _ _ _ _ _ _).mono fun _ mapped => mapped.trans needed

theorem readLoop_quiet (env : Env) (p : Usize) (fuel offset left : Nat) (modified : Bool) (dest : List Byte) (fs : Fs) :
    Quiet fs (·.2.2) (readLoop env p fuel offset left modified dest fs) := by
  induction fuel generalizing offset left modified dest fs with
  | zero => rfl
  | succ fuel ih =>
    unfold readLoop
    split
    · rfl
    · refine (inodeMap_quiet _ _ _ _ _).bind ?_
      rintro ⟨b,flag,fs'⟩ mapped
      exact (ih _ _ _ _ _).mono fun _ read => read.trans mapped

theorem inodeRead_quiet (offset count : Usize) (found : fs.inodes p = some inode)
    (file : inode.entry.type ≠ inodeDevice) :
    Quiet fs (·.2.2) (inodeRead env p offset count fs) := by
  refine (inode_avoids p fs).bind fun inode' found' => ?_
  cases found.symm.trans found'
  simp only [file,if_false]
  split
  · refine (readLoop_quiet _ _ _ _ _ _ _ _).bind ?_
    rintro ⟨bytes,modified,fs'⟩ read
    simp only
    split
    · simp [Avoids]
    · exact read
  · simp [Avoids]

theorem writeLoop_quiet (env : Env) (ctx : Ctx) (p : Usize) (fuel offset : Nat) (src : List Byte) (fs : Fs) :
    Quiet fs id (writeLoop env ctx p fuel offset src fs) := by
  induction fuel generalizing offset src fs with
  | zero => rfl
  | succ fuel ih =>
    unfold writeLoop
    split
    · rfl
    · refine (inodeMap_quiet _ _ _ _ _).bind ?_
      rintro ⟨b,flag,fs'⟩ mapped
      simp only
      split
      · simp [Avoids]
      · exact (ih _ _ _).mono fun _ written => written.trans mapped

theorem growTo_quiet (last : Usize) (found : fs.inodes p = some inode) :
    Quiet fs id (growTo env ctx p inode last fs) := by
  unfold growTo
  split
  · exact (inodeSync_quiet _ _ _ _).mono fun _ synced => synced.trans (facts_set found rfl rfl rfl)
  · rfl

theorem inodeWrite_quiet (src : List Byte) (offset : Usize) (found : fs.inodes p = some inode)
    (file : inode.entry.type ≠ inodeDevice) :
    Quiet fs (·.2) (inodeWrite env ctx p src offset fs) := by
  refine (inode_avoids p fs).bind fun inode' found' => ?_
  cases found.symm.trans found'
  simp only [file,if_false]
  split
  · refine (growTo_quiet _ found).bind fun fs₁ grown => ?_
    refine (writeLoop_quiet _ _ _ _ _ _ _).bind fun fs₂ written => ?_
    exact written.trans grown
  · simp [Avoids]

-- A directory stays one.
def Directory (fs : Fs) (p : Usize) : Prop := ∃ inode, fs.inodes p = some inode ∧ inode.entry.type = inodeDirectory

theorem Directory.facts {fs' : Fs} (directory : Directory fs p) (same : SysFile.facts fs' p = SysFile.facts fs p) :
    Directory fs' p := by
  obtain ⟨inode,found,type⟩ := directory
  obtain ⟨inode',found',_,_,same⟩ := facts_type same found
  exact ⟨inode',found',same.trans type⟩

theorem Directory.file (directory : Directory fs p) :
    ∃ inode, fs.inodes p = some inode ∧ inode.entry.type ≠ inodeDevice := by
  obtain ⟨inode,found,type⟩ := directory
  exact ⟨inode,found,by rw [type]; decide⟩

theorem scanDir_quiet (stop : DirEntry → Bool) (fuel i : Nat) (dir : DirEntry) (fs : Fs) (directory : Directory fs p) :
    Quiet fs (·.2.2.2) (scanDir env p stop fuel i dir fs) := by
  induction fuel generalizing i dir fs with
  | zero => rfl
  | succ fuel ih =>
    refine (inode_avoids p fs).bind fun inode _ => ?_
    split
    · obtain ⟨inode',found,file⟩ := directory.file
      refine (inodeRead_quiet _ _ found file).bind ?_
      rintro ⟨n,bytes,fs'⟩ read
      simp only at read ⊢
      split
      · exact read
      · exact (ih _ _ _ (directory.facts (congrFun read p))).mono fun _ scanned => scanned.trans read
    · rfl

theorem scan_quiet (stop : DirEntry → Bool) (env : Env) (p : Usize) (fs : Fs) :
    Avoids .blocked (fun r => facts r.2.2.2 = facts fs ∧ Directory fs p) (scan env p stop fs) := by
  refine (inode_avoids p fs).bind fun inode found => ?_
  split
  · rename_i directory
    exact (scanDir_quiet _ _ _ _ _ ⟨inode,found,directory⟩).mono fun _ scanned => ⟨scanned,inode,found,directory⟩
  · simp [Avoids]

theorem inodeLookup_quiet (env : Env) (p : Usize) (name : List Byte) (fs : Fs) :
    Avoids .blocked (fun r => facts r.2.2 = facts fs ∧ Directory fs p) (inodeLookup env p name fs) := by
  refine (scan_quiet _ _ _ _).bind ?_
  rintro ⟨i,found,dir,fs'⟩ scanned
  cases found with
  | true => exact scanned
  | false => exact scanned

theorem inodeAlloc_quiet (env : Env) (ctx : Ctx) (type : U16) (fs : Fs) :
    Quiet fs (·.2) (inodeAlloc env ctx type fs) := by
  have loop : ∀ (count : Nat) (no : Usize), Quiet fs (·.2) (allocLoop env.sblock ctx type fs count no) := by
    intro count
    induction count with
    | zero => intro no; simp [allocLoop,Avoids]
    | succ count ih =>
      intro no
      unfold allocLoop
      split
      · rfl
      · exact ih _
  unfold inodeAlloc
  split
  · simp [Avoids]
  · exact loop _ _

theorem clearIndirect_quiet (env : Env) (ctx : Ctx) (p : Usize) (fs : Fs) :
    Quiet fs id (clearIndirect env ctx p fs) := by
  refine (inode_avoids p fs).bind fun inode found => ?_
  split
  · rfl
  · refine (Runs.upTo_avoids (fun _ => True) _ _ trivial fun i v _ _ _ => ?_).bind fun v _ => ?_
    · unfold freeEntry
      split
      · trivial
      · exact cacheFree_avoids _ _ _ _
    · refine (cacheFree_avoids _ _ _ _).bind fun v' _ => ?_
      exact facts_set (show (fs.setCache v').inodes p = some inode from found) rfl rfl rfl

theorem clearAddr_quiet (env : Env) (ctx : Ctx) (p : Usize) (i : Nat) (fs : Fs) :
    Quiet fs id (clearAddr env ctx p i fs) := by
  refine (inode_avoids p fs).bind fun inode found => ?_
  split
  · split
    · rfl
    · refine (cacheFree_avoids _ _ _ _).bind fun v _ => ?_
      exact facts_set (show (fs.setCache v).inodes p = some inode from found) rfl rfl rfl
  · simp [Avoids]

theorem inodeClear_quiet (env : Env) (ctx : Ctx) (p : Usize) (fs : Fs) : Quiet fs id (inodeClear env ctx p fs) := by
  refine (clearIndirect_quiet _ _ _ _).bind fun fs₁ cleared => ?_
  refine (Runs.upTo_avoids (fun fs' => facts fs' = facts fs) _ _ cleared fun i fs' _ _ same => ?_).bind fun fs₂ same => ?_
  · exact (clearAddr_quiet _ _ _ _ _).mono fun _ step => step.trans same
  · refine (inode_avoids p fs₂).bind fun inode found => ?_
    have emptied : facts (fs₂.setEntry p inode (inode.entry.setNumBytes 0#32)) = facts fs₂ := facts_set found rfl rfl rfl
    exact (inodeSync_quiet _ _ _ _).mono fun _ synced => synced.trans (emptied.trans same)

end layer

-- The locks that a call holds; nobody else holds or wants one.
structure Locks (held : List Usize) (fs : Fs) : Prop where
  lock : ∀ p inode, fs.inodes p = some inode → inode.lock = if p ∈ held then ⟨0,[]⟩ else ⟨1,[]⟩
  present : ∀ p ∈ held, ∃ inode, fs.inodes p = some inode

section locks
variable {env : Env} {ctx : Ctx} {fs fs' : Fs} {p : Usize} {inode inode' : Inode} {held held' : List Usize}

theorem Locks.facts (locks : Locks held fs) (same : SysFile.facts fs' = SysFile.facts fs) : Locks held fs' := by
  refine ⟨fun p inode' found' => ?_,fun p listed => ?_⟩
  · obtain ⟨inode,found,lock,_⟩ := facts_type (congrFun same.symm p) found'
    rw [← lock]
    exact locks.lock p inode found
  · obtain ⟨inode,found⟩ := locks.present p listed
    obtain ⟨inode',found',_⟩ := facts_type (congrFun same p) found
    exact ⟨inode',found'⟩

theorem Locks.congr (locks : Locks held fs) (same : ∀ p, p ∈ held' ↔ p ∈ held) : Locks held' fs := by
  refine ⟨fun p inode found => ?_,fun p listed => locks.present p ((same p).mp listed)⟩
  simp only [same]
  exact locks.lock p inode found

-- An inode that is there keeps its place in the books with another lock, or with the same.
theorem Locks.set (locks : Locks held fs) (others : ∀ q, q ≠ p → (q ∈ held' ↔ q ∈ held))
    (lock : inode'.lock = if p ∈ held' then ⟨0,[]⟩ else ⟨1,[]⟩) : Locks held' (fs.setInode p inode') := by
  refine ⟨fun q inode₁ found => ?_,fun q listed => ?_⟩
  · by_cases mine : q = p
    · subst mine
      simp only [Fs.setInode,Function.update_self,Option.some.injEq] at found
      rw [← found]
      exact lock
    · simp only [Fs.setInode,Function.update_of_ne mine] at found
      simp only [others q mine]
      exact locks.lock q inode₁ found
  · by_cases mine : q = p
    · subst mine
      exact ⟨inode',Function.update_self _ _ _⟩
    · obtain ⟨inode₁,found⟩ := locks.present q ((others q mine).mp listed)
      exact ⟨inode₁,(Function.update_of_ne mine _ _).trans found⟩

-- Where the lock of one inode changes, and nothing else.
structure Relocked (p : Usize) (fs fs' : Fs) : Prop where
  others : ∀ q ≠ p, fs'.inodes q = fs.inodes q
  same : ∀ inode, fs.inodes p = some inode → ∃ inode', fs'.inodes p = some inode' ∧ inode'.rc = inode.rc ∧ inode'.entry = inode.entry

theorem Relocked.set (found : fs.inodes p = some inode) (rc : inode'.rc = inode.rc)
    (entry : inode'.entry = inode.entry) :
    Relocked p fs (fs.setInode p inode') := by
  refine ⟨fun q other => Function.update_of_ne other _ _,fun inode₁ found₁ => ⟨inode',Function.update_self _ _ _,?_⟩⟩
  cases found.symm.trans found₁
  exact ⟨rc,entry⟩

theorem inodeLock_locks (locks : Locks held fs) (out : p ∉ held) :
    Avoids .blocked (fun fs' => Locks (p::held) fs' ∧ Relocked p fs fs') (inodeLock p fs) := by
  refine (inode_avoids p fs).bind fun inode found => ?_
  split
  · simp [Avoids]
  · have lock := locks.lock p inode found
    rw [if_neg out] at lock
    rw [lock]
    refine ⟨locks.set (fun q other => by simp [other]) (by simp),Relocked.set found rfl rfl⟩

theorem inodeUnlock_locks (locks : Locks (p::held) fs) (out : p ∉ held) :
    Avoids .blocked (fun fs' => Locks held fs' ∧ Relocked p fs fs') (inodeUnlock p fs) := by
  refine (inode_avoids p fs).bind fun inode found => ?_
  split
  · simp [Avoids]
  · have lock := locks.lock p inode found
    rw [if_pos List.mem_cons_self] at lock
    rw [lock]
    refine ⟨locks.set (fun q other => by simp [other]) (by simp [out]),Relocked.set found rfl rfl⟩

theorem inodePut_locks (locks : Locks held fs) (out : p ∉ held) :
    Avoids .blocked (Locks held) (inodePut env ctx p fs) := by
  refine (inode_avoids p fs).bind fun inode found => ?_
  have lock := locks.lock p inode found
  have counted : Locks held (fs.setInode p {inode with rc := inode.rc-1}) := locks.set (fun _ _ => Iff.rfl) lock
  simp only
  split
  · have typed : Locks held ((fs.setInode p {inode with rc := inode.rc-1}).setEntry p {inode with rc := inode.rc-1}
        (inode.entry.setType inodeInvalid)) := counted.set (fun _ _ => Iff.rfl) lock
    refine (inodeClear_quiet _ _ _ _).bind fun fs' cleared => ?_
    have after := typed.facts cleared
    refine ⟨fun q inode' found' => ?_,fun q listed => ?_⟩
    · by_cases mine : q = p
      · subst mine
        simp at found'
      · simp only [Function.update_of_ne mine] at found'
        exact after.lock q inode' found'
    · obtain ⟨inode',found'⟩ := after.present q listed
      refine ⟨inode',?_⟩
      have mine : q ≠ p := by
        rintro rfl
        exact out listed
      simp only [Function.update_of_ne mine]
      exact found'
  · exact counted

-- What is in memory stays there with its type.
def KeepsTypes (fs fs' : Fs) : Prop :=
  ∀ q inode, fs.inodes q = some inode → ∃ inode', fs'.inodes q = some inode' ∧ inode'.entry.type = inode.entry.type

theorem KeepsTypes.directory (keeps : KeepsTypes fs fs') (directory : Directory fs p) : Directory fs' p := by
  obtain ⟨inode,found,type⟩ := directory
  obtain ⟨inode',found',same⟩ := keeps p inode found
  exact ⟨inode',found',same.trans type⟩

theorem inodeShare_locks (locks : Locks held fs) : Avoids .blocked (Locks held) (inodeShare p fs) := by
  refine (inode_avoids p fs).bind fun inode found => ?_
  exact locks.set (fun _ _ => Iff.rfl) (locks.lock p inode found)

theorem inodeLoad_locks (locks : Locks held fs) :
    Avoids .blocked (fun fs' => Locks held fs' ∧ ∀ q ≠ p, fs'.inodes q = fs.inodes q)
    (inodeSync env ctx p false fs) := by
  refine (inode_avoids p fs).bind fun inode found => ?_
  simp only [Bool.and_false,Bool.not_false,Bool.and_true,Bool.false_eq_true,if_false]
  split
  · exact ⟨locks.set (fun _ _ => Iff.rfl) (locks.lock p inode found),fun q other => Function.update_of_ne other _ _⟩
  · split
    · exact ⟨locks,fun _ _ => rfl⟩
    · simp [Avoids]

theorem inodeGet_locks (locks : Locks held fs) (no : Usize) :
    Avoids .blocked (fun r => Locks held r.2 ∧ KeepsTypes fs r.2 ∧ (r.1 = none ∨ r.1 = some no))
    (inodeGet env no fs) := by
  unfold inodeGet
  split
  · exact ⟨locks,fun q inode found => ⟨inode,found,rfl⟩,.inl rfl⟩
  · split
    · simp [Avoids]
    · split
      · rename_i inode found
        refine ⟨locks.set (fun _ _ => Iff.rfl) (locks.lock no inode found),(fun q inode₁ found₁ => ?_),.inr rfl⟩
        by_cases mine : q = no
        · subst mine
          cases found.symm.trans found₁
          exact ⟨_,Function.update_self _ _ _,rfl⟩
        · exact ⟨inode₁,(Function.update_of_ne mine _ _).trans found₁,rfl⟩
      · rename_i missing
        have out : no ∉ held := by
          intro listed
          obtain ⟨inode,found⟩ := locks.present no listed
          cases missing.symm.trans found
        have fresh : Locks held (fs.setInode no ⟨Semaphores.initSem 1,1,no,false,.zero⟩) :=
          locks.set (fun _ _ => Iff.rfl) (by rw [if_neg out]; rfl)
        have other : ∀ {q inode}, fs.inodes q = some inode → q ≠ no := by
          rintro q inode found rfl
          cases missing.symm.trans found
        refine (inodeLock_locks fresh out).bind ?_
        rintro fs₁ ⟨locked,first⟩
        refine (inodeLoad_locks locked).bind ?_
        rintro fs₂ ⟨loaded,second⟩
        refine (inodeUnlock_locks loaded out).bind ?_
        rintro fs₃ ⟨unlocked,third⟩
        refine ⟨unlocked,fun q inode found => ⟨inode,?_,rfl⟩,.inr rfl⟩
        have different := other found
        rw [third.others q different,second q different,first.others q different]
        exact (Function.update_of_ne different _ _).trans found

theorem namexLoop_locks (names : List (List Byte)) {ans : Usize} {parent : Bool} (locks : Locks [] fs) :
    Avoids .blocked (fun r => Locks [] r.2) (namexLoop env ctx parent names ans fs) := by
  have none : ans ∉ ([] : List Usize) := List.not_mem_nil
  induction names generalizing ans fs with
  | nil =>
    unfold namexLoop
    split
    · exact (inodePut_locks locks none).bind fun _ after => after
    · exact locks
  | cons name rest ih =>
    unfold namexLoop
    refine (inodeLock_locks locks none).bind ?_
    rintro fs₁ ⟨locked,_⟩
    refine (inode_avoids ans fs₁).bind fun inode _ => ?_
    split
    · refine (inodeUnlock_locks locked none).bind ?_
      rintro fs₂ ⟨unlocked,_⟩
      exact (inodePut_locks unlocked none).bind fun _ after => after
    · split
      · exact (inodeUnlock_locks locked none).bind fun _ after => after.1
      · refine (inodeLookup_quiet _ _ _ _).bind ?_
        rintro ⟨no,_,fs₂⟩ ⟨looked,_⟩
        refine (inodeGet_locks (locked.facts looked) no).bind ?_
        rintro ⟨next,fs₃⟩ ⟨taken,_⟩
        refine (inodeUnlock_locks taken none).bind ?_
        rintro fs₄ ⟨unlocked,_⟩
        refine (inodePut_locks unlocked none).bind fun fs₅ after => ?_
        cases next with
        | none => exact after
        | some next => exact ih after List.not_mem_nil

theorem namex_locks {cwd : Usize} {path : List Byte} {parent : Bool} (locks : Locks [] fs) :
    Avoids .blocked (fun r => Locks [] r.2) (namex env ctx cwd path parent fs) := by
  have started : Avoids .blocked (fun r => Locks [] r.2) (namexStart env cwd path fs) := by
    unfold namexStart
    split
    · exact (inodeGet_locks locks _).map fun _ taken => taken.1
    · exact (inodeShare_locks locks).map fun _ shared => shared
  exact started.bind fun _ after => namexLoop_locks _ after

theorem namei_locks {cwd : Usize} {path : List Byte} (locks : Locks [] fs) :
    Avoids .blocked (fun r => Locks [] r.2) (namei env ctx cwd path fs) :=
  (namex_locks locks).bind fun _ after => after

end locks

-- The system calls on paths, between begin_op and end_op. `granted` as in openInode.
inductive PathCall where
  | openat (path : List Byte) (creat granted : Bool)
  | mkdirat (path : List Byte)
  | mknodat (path : List Byte) (major minor : U16)
  | unlinkat (path : List Byte)
  | newfstatat (path : List Byte)
  | chdir (path : List Byte)

def PathCall.run (env : Env) (ctx : Ctx) (cwd : Usize) (fs : Fs) : PathCall → Except Fault Fs
  | .openat path creat granted => (·.2) <$> openInode env ctx cwd path creat granted fs
  | .mkdirat path => (·.2) <$> makeNode env ctx cwd path inodeDirectory 0#16 0#16 fs
  | .mknodat path major minor => (·.2) <$> makeNode env ctx cwd path inodeDevice major minor fs
  | .unlinkat path => (·.2) <$> SysFile.unlinkat env ctx cwd path fs
  | .newfstatat path => (·.2) <$> SysFile.newfstatat env ctx cwd path fs
  | .chdir path => (·.2) <$> changeDir env ctx cwd path fs

def Unlocked (fs : Fs) : Prop := ∀ p inode, fs.inodes p = some inode → inode.lock = ⟨1,[]⟩

section calls
variable {env : Env} {ctx : Ctx} {cwd : Usize} {fs : Fs}

theorem locks_nil : Locks [] fs ↔ Unlocked fs := by
  constructor
  · intro locks p inode found
    simpa using locks.lock p inode found
  · intro free
    exact ⟨fun p inode found => by simpa using free p inode found,fun p listed => absurd listed List.not_mem_nil⟩

-- The calls that make the disk of the next two examples.
def Call.builds : InodeLayer.Call → Bool
  | .alloc _ _ | .get _ | .insert _ _ _ _ => true
  | _ => false

end calls

end SysFile
