import HonorKernel.InodeReferences

-- What the descriptor calls of kernel/sysfile.c leave behind when they fail.
namespace FileTable
open DiskFormat CacheView InodeLayer SysFile

variable {n : Nat}

-- sys_openat with its first two tests: a path that user_strlen refuses is `none`, and only
-- AT_FDCWD is supported.
def atFdcwd : Int := -100

def openat (env : Env) (pid : Fin n) (dirfd : Int) (path : Option (List Byte)) (creat wronly rdwr : Bool) (k : Kernel n) :
    Except Fault (Bool × Kernel n) :=
  match path with
  | none => .ok (false,k)
  | some path => if dirfd ≠ atFdcwd then .ok (false,k) else sysOpenat env pid path creat wronly rdwr k

-- A pipe is freed when neither end is open any more.
def Kernel.live (k : Kernel n) (pipe : Nat) : Prop :=
  ∃ f, f < nFile ∧ 0 < (k.files f).ref ∧ (k.files f).type = .pipe ∧ (k.files f).pipe = pipe

structure Unchanged (k k' : Kernel n) : Prop where
  refs : ∀ f, (k'.files f).ref = (k.files f).ref
  slots : ∀ pid, (k'.procs pid).map Process.oftable = (k.procs pid).map Process.oftable
  counts : ∀ p, rcOf k'.fs p = rcOf k.fs p
  pipes : ∀ pipe, k'.live pipe ↔ k.live pipe

-- A File without references has no type, and no reference count is negative.
structure Settled (k : Kernel n) : Prop where
  untyped : ∀ f, (k.files f).ref = 0 → (k.files f).type = .none
  counted : ∀ p, 0 ≤ rcOf k.fs p

def Kernel.noFile (k : Kernel n) : Prop := fileAllocLoop k.files nFile 0 = none

-- The inode that sys_openat looks up or creates.
def opened (env : Env) (p : Process) (path : List Byte) (creat : Bool) (k : Kernel n) : Except Fault (Option Usize × Fs) :=
  if creat then create env (some k.op) p.cwd path inodeRegular 0#16 0#16 k.fs else findLocked env (some k.op) p.cwd path k.fs

section Errors
variable {env : Env} {k k' : Kernel n} {pid : Fin n} {p : Process} {f : Nat} {done : Bool}

theorem reached_settled {start : Kernel n} {calls : List (Call n)} (started : Started start)
    (ran : Runs.exec (nextReturned env) start calls = some k) :
    Settled k := by
  obtain ⟨gone,tallied,_⟩ := calls_tallied calls started.tallied ran
  refine ⟨fun f free => ?_,tallied.counted⟩
  by_contra typed
  have positive := tallied.typed f typed
  omega

theorem Unchanged.refl (k : Kernel n) : Unchanged k k := ⟨fun _ => rfl,fun _ => rfl,fun _ => rfl,fun _ => Iff.rfl⟩

theorem Unchanged.commit (same : ∀ p, rcOf fs p = rcOf k.fs p) : Unchanged k (k.commit fs) := ⟨fun _ => rfl,fun _ => rfl,same,fun _ => Iff.rfl⟩

theorem leaked (free : (k.files f).ref = 0) (kept : (k'.files f).ref = 1) : ¬ Unchanged k k' := by
  intro unchanged
  have refs := unchanged.refs f
  omega

theorem noFile_iff : k.noFile ↔ fileAlloc k = none := by
  rw [Kernel.noFile,fileAlloc,Option.map_eq_none_iff]

theorem fileClose_untyped {holders : Nat} (untyped : (k.files f).type = .none)
    (ran : fileClose env holders f k = .ok k') :
    k'.files = k.files := by
  unfold fileClose at ran
  split at ran
  · cases ran
  · simp only [if_pos untyped] at ran
    cases ran
    rfl

theorem fileClose_others {holders g : Nat} (other : g ≠ f) (ran : fileClose env holders f k = .ok k') :
    k'.files g = k.files g := by
  unfold fileClose at ran
  split at ran
  · cases ran
  · simp only at ran
    split at ran
    · cases ran
      rfl
    · split at ran
      · cases ran
        exact Function.update_of_ne other ..
      · split at ran
        · cases ran
          exact Function.update_of_ne other ..
        · obtain ⟨fs,_,ran⟩ := Runs.bind_ok.mp ran
          cases ran
          exact Function.update_of_ne other ..

theorem fileAlloc_parts (settled : Settled k) (found : fileAlloc k = some (f,k')) :
    (k.files f).ref = 0 ∧ (k'.files f).ref = 1 ∧ (k'.files f).type = .none ∧ (∀ g, g ≠ f → k'.files g = k.files g) ∧
    k'.procs = k.procs ∧ k'.fs = k.fs := by
  obtain ⟨free,rfl⟩ := fileAlloc_free found
  have new : (k.setFile f { k.files f with ref := 1 }).files f = { k.files f with ref := 1 } := Function.update_self ..
  refine ⟨free,by rw [new],?_,fun g other => Function.update_of_ne other ..,rfl,rfl⟩
  rw [new]
  exact settled.untyped f free

theorem Settled.alloc (settled : Settled k) (found : fileAlloc k = some (f,k')) : Settled k' := by
  obtain ⟨_,one,none,others,_,same⟩ := fileAlloc_parts settled found
  refine ⟨fun g free => ?_,same ▸ settled.counted⟩
  by_cases here : g = f
  · rw [here]
    exact none
  · rw [others g here] at free ⊢
    exact settled.untyped g free

theorem openat_unchanged {dirfd : Int} {path : List Byte} {creat wronly rdwr : Bool} (settled : Settled k)
    (here : k.procs pid = some p) (cwd : dirfd = atFdcwd)
    (ran : openat env pid dirfd (some path) creat wronly rdwr k = .ok (false,k')) :
    Unchanged k k' ↔ k.noFile ∨ (fdalloc p).isSome ∨ ∃ fs, opened env p path creat k = .ok (none,fs) := by
  simp only [openat,if_neg (fun other : dirfd ≠ atFdcwd => other cwd)] at ran
  obtain ⟨p',there,ran⟩ := Runs.bind_ok.mp ran
  cases (Kernel.proc_ok there).symm.trans here
  obtain ⟨⟨ip,fs⟩,found,ran⟩ := Runs.bind_ok.mp ran
  change opened env p path creat k = .ok (ip,fs) at found
  have got : Counts (taken ip) k.fs fs := by
    unfold opened at found
    split at found
    · exact create_counts settled.counted found
    · exact findLocked_counts found
  cases ip with
  | none =>
    cases ran
    refine iff_of_true (.commit fun q => ?_) (.inr (.inr ⟨fs,found⟩))
    rw [got.rc q]
    exact Int.add_zero _
  | some ip =>
    simp only at ran
    split at ran
    · rename_i full
      obtain ⟨fs',back,ran⟩ := Runs.bind_ok.mp ran
      cases ran
      refine iff_of_true (.commit fun q => ?_) (.inl (noFile_iff.mpr full))
      rw [(unlockPut_counts back).rc q,got.rc q]
      simp [taken]
    · rename_i f k₁ allocated
      obtain ⟨free,one,none,_,_,_⟩ := fileAlloc_parts settled allocated
      split at ran
      · rename_i noSlot
        obtain ⟨k₂,closed,ran⟩ := Runs.bind_ok.mp ran
        obtain ⟨fs',_,ran⟩ := Runs.bind_ok.mp ran
        cases ran
        have files := fileClose_untyped (k := { k₁ with fs := fs }) none closed
        refine iff_of_false (leaked free ?_) ?_
        · change (k₂.files f).ref = 1
          rw [files]
          exact one
        · rintro (full | slot | ⟨fs'',missing⟩)
          · rw [noFile_iff,allocated] at full
            cases full
          · rw [noSlot] at slot
            cases slot
          · rw [found] at missing
            cases missing
      · obtain ⟨fs',_,ran⟩ := Runs.bind_ok.mp ran
        cases ran

theorem sysClose_others {fd : Int} {g : Nat} (here : k.procs pid = some p)
    (elsewhere : ∀ i, slotOf fd = some i → p.oftable i ≠ some g) (ran : sysClose env pid fd k = .ok (done,k')) :
    k'.files g = k.files g := by
  obtain ⟨p',there,ran⟩ := Runs.bind_ok.mp ran
  cases (Kernel.proc_ok there).symm.trans here
  split at ran
  · cases ran
    rfl
  · rename_i i slot
    split at ran
    · cases ran
    · rename_i f found
      obtain ⟨k₁,closed,ran⟩ := Runs.bind_ok.mp ran
      cases ran
      have other : g ≠ f := fun same => elsewhere i slot (same ▸ found)
      exact (fileClose_others other closed).trans rfl

-- pipe_alloc gives both ends, or the one File there was is lost, or there was none.
theorem pipeAlloc_parts {pipe : Nat} (settled : Settled k) (made : pipeAlloc env pipe k = .ok (ends,k')) :
    (ends = none ∧ k.noFile ∧ k' = k) ∨
    (ends = none ∧ ¬ k.noFile ∧ ∃ f, (k.files f).ref = 0 ∧ (k'.files f).ref = 1) ∨
    ∃ f0 f1, ends = some (f0,f1) ∧ f1 ≠ f0 ∧ ¬ k.noFile ∧ (k.files f1).ref = 0 ∧ (k'.files f1).ref = 1 := by
  unfold pipeAlloc at made
  split at made
  · rename_i full
    cases made
    exact .inl ⟨rfl,noFile_iff.mpr full,rfl⟩
  · rename_i f0 k₁ first
    have available : ¬ k.noFile := by
      rw [noFile_iff,first]
      exact fun none => by cases none
    obtain ⟨free0,one0,none0,others0,_,_⟩ := fileAlloc_parts settled first
    split at made
    · obtain ⟨k₂,closed,made⟩ := Runs.bind_ok.mp made
      cases made
      have files := fileClose_untyped none0 closed
      exact .inr (.inl ⟨rfl,available,f0,free0,by rw [files,one0]⟩)
    · rename_i f1 k₂ second
      obtain ⟨free1,one1,_⟩ := fileAlloc_parts (settled.alloc first) second
      have apart : f1 ≠ f0 := by
        rintro rfl
        omega
      cases made
      refine .inr (.inr ⟨f0,f1,rfl,apart,available,?_,?_⟩)
      · rw [← others0 f1 apart]
        exact free1
      · simp only [Kernel.setFile,Function.update_self,Function.update_of_ne apart]
        exact one1

theorem sysPipe2_unchanged {pipe : Nat} (settled : Settled k) (ran : sysPipe2 env pid pipe k = .ok (false,k')) :
    Unchanged k k' ↔ k.noFile := by
  obtain ⟨⟨ends,k₁⟩,made,ran⟩ := Runs.bind_ok.mp ran
  rcases pipeAlloc_parts settled made with ⟨rfl,full,same⟩ | ⟨rfl,available,f,free,one⟩ | ⟨f0,f1,rfl,apart,available,free,one⟩
  · cases ran
    rw [same]
    exact iff_of_true (.refl k) full
  · cases ran
    exact iff_of_false (leaked free one) available
  · -- The second end stays open, whether or not the first one has been given a descriptor.
    refine iff_of_false ?_ available
    obtain ⟨p,_,ran⟩ := Runs.bind_ok.mp ran
    cases slot : fdalloc p with
    | none =>
      simp only [slot] at ran
      cases ran
      exact leaked free one
    | some fd0 =>
      simp only [slot] at ran
      split at ran
      · obtain ⟨⟨done,k₂⟩,closed,ran⟩ := Runs.bind_ok.mp ran
        cases ran
        have files := sysClose_others (g := f1) (Function.update_self ..) (by
          intro i same
          have here : i = fd0 := by
            have back : slotOf (fd0.val : Int) = some fd0 := by simp [slotOf]
            exact Option.some.inj (same.symm.trans back)
          change Function.update p.oftable fd0 (some f0) i ≠ some f1
          rw [here,Function.update_self]
          exact fun equal => apart (Option.some.inj equal).symm) closed
        refine leaked free ?_
        rw [files]
        exact one
      · cases ran

theorem sysClose_unchanged {fd : Int} (here : k.procs pid = some p) (unopened : fd2file p fd = none) :
    (∃ k', sysClose env pid fd k = .ok (false,k') ∧ Unchanged k k') ↔ fd < 0 ∨ nOpenFile ≤ fd := by
  have there : k.proc pid = .ok p := by
    unfold Kernel.proc
    rw [here]
  cases slot : slotOf fd with
  | none =>
    refine iff_of_true ⟨k,?_,.refl _⟩ ?_
    · simp only [sysClose,there,slot,bind,Except.bind]
    · unfold slotOf at slot
      split at slot
      · cases slot
      · omega
  | some i =>
    have empty : p.oftable i = none := by simpa [fd2file,slot] using unopened
    have stops : sysClose env pid fd k = .error .dangling := by
      simp only [sysClose,there,slot,empty,bind,Except.bind]
    refine iff_of_false ?_ ?_
    · rintro ⟨k',ran,_⟩
      cases stops.symm.trans ran
    · unfold slotOf at slot
      split at slot
      · omega
      · cases slot

-- Exactly when a failing call puts everything back.
theorem failed_calls (settled : Settled k) (here : k.procs pid = some p) :
    (∀ dirfd path creat wronly rdwr k', openat env pid dirfd path creat wronly rdwr k = .ok (false,k') →
      (Unchanged k k' ↔ dirfd ≠ atFdcwd ∨ k.noFile ∨ (fdalloc p).isSome ∨
        ∀ name, path = some name → ∃ fs, opened env p name creat k = .ok (none,fs))) ∧
    (∀ pipe k', sysPipe2 env pid pipe k = .ok (false,k') → (Unchanged k k' ↔ k.noFile)) ∧
    ∀ fd, fd2file p fd = none → ((∃ k', sysClose env pid fd k = .ok (false,k') ∧ Unchanged k k') ↔ fd < 0 ∨
    nOpenFile ≤ fd) := by
  refine ⟨fun dirfd path creat wronly rdwr k' ran => ?_,fun pipe k' ran => sysPipe2_unchanged settled ran,
    fun fd unopened => sysClose_unchanged here unopened⟩
  cases path with
  | none =>
    cases ran
    exact iff_of_true (.refl _) (.inr (.inr (.inr fun name absurd => by cases absurd)))
  | some path =>
    by_cases cwd : dirfd = atFdcwd
    · rw [openat_unchanged settled here cwd ran]
      simp [cwd]
    · have returned : openat env pid dirfd (some path) creat wronly rdwr k = .ok (false,k) := if_pos cwd
      rw [returned] at ran
      cases ran
      exact iff_of_true (.refl _) (.inl cwd)

end Errors

-- A process that has made a pipe, closed the write end and filled its table with the other.
def crowdedProcess : Process := { firstProcess with oftable := fun _ => some 0 }

def crowdedKernel : Kernel 2 :=
  { firstKernel with
    files := Function.update firstKernel.files 0 ⟨.pipe,128,true,false,7,0#64⟩
    procs := Function.update firstKernel.procs 0 (some crowdedProcess) }

theorem crowded_settled : Settled crowdedKernel := by
  refine ⟨fun f free => ?_,firstKernel_started.tallied.counted⟩
  by_cases zero : f = 0
  · rw [zero] at free
    cases free
  · change (Function.update firstKernel.files 0 _ f).type = .none
    rw [Function.update_of_ne zero]
    rfl

theorem pipe2_leaks : ¬ ∀ (env : Env) (k : Kernel 2) (pid : Fin 2) (p : Process), Settled k → k.procs pid = some p →
    (∀ dirfd path creat wronly rdwr k', openat env pid dirfd path creat wronly rdwr k = .ok (false,k') →
    Unchanged k k') ∧
    (∀ pipe k', sysPipe2 env pid pipe k = .ok (false,k') → Unchanged k k') ∧
    ∀ fd, fd2file p fd = none → ∃ k', sysClose env pid fd k = .ok (false,k') ∧ Unchanged k k' := by
  intro restores
  obtain ⟨⟨done,k'⟩,ran,facts⟩ := Runs.ok_such (x := sysPipe2 blankEnv 0 8 crowdedKernel)
    (p := fun result => !result.1 && decide ((result.2.files 1).ref = 1)) (by decide +kernel)
  simp only [Bool.and_eq_true,Bool.not_eq_true',decide_eq_true_eq] at facts
  obtain ⟨rfl,kept⟩ := facts
  have unchanged := (restores blankEnv crowdedKernel 0 crowdedProcess crowded_settled rfl).2.1 8 k' ran
  exact leaked (k := crowdedKernel) rfl kept unchanged

theorem failed_calls_crowded : ∃ k', sysClose blankEnv 0 200 crowdedKernel = .ok (false,k') ∧
    Unchanged crowdedKernel k' := by
  have here : crowdedKernel.procs 0 = some crowdedProcess := rfl
  exact ((failed_calls crowded_settled here).2.2 200 rfl).mpr (.inr (by decide))

end FileTable
