import HonorKernel.SemaphoreAlerts

-- kill() against the places that wait for a semaphore and stop the kernel when
-- _wait_sem returns false.
namespace KilledWaits
open DiskFormat Semaphores SemaphoreAlerts

inductive Site where
  | inodeLock
  | cacheAcquire
  | cacheBeginOp
  | virtioBlkRw
  deriving DecidableEq

-- inode_lock uses unalertable_wait_sem, the others wait_sem.
def Site.alertable : Site → Bool
  | .inodeLock => false
  | _ => true

structure Kernel where
  waits : SemaphoreAlerts.State
  killed : Nat → Bool

inductive Call where
  | wait (p : Nat) (site : Site)
  | resume (p : Nat)
  | kill (p : Nat)
  | post
  | get
  | getAll
  | postAll

def Kernel.withWaits (k : Kernel) (waits : SemaphoreAlerts.State) : Kernel := ⟨waits,k.killed⟩

-- kill sets the flag and alerts: a SLEEPING process is woken, a DEEPSLEEPING one is not.
-- Whoever gets false from _wait_sem runs into its PANIC() or ASSERT.
def run (k : Kernel) : Call → Except Fault Kernel
  | .wait p site => k.withWaits <$> SemaphoreAlerts.step k.waits (.wait p site.alertable (k.killed p))
  | .resume p => do
    let waits ← SemaphoreAlerts.step k.waits (.resume p)
    if waits.pc p = .outside (some false) then .error .assertion else .ok (k.withWaits waits)
  | .kill p => .ok ⟨if k.waits.pc p = .asleep true then k.waits.goto p .awake else k.waits,Function.update k.killed p true⟩
  | .post => k.withWaits <$> SemaphoreAlerts.step k.waits .post
  | .get => k.withWaits <$> SemaphoreAlerts.step k.waits .get
  | .getAll => k.withWaits <$> SemaphoreAlerts.step k.waits .getAll
  | .postAll => k.withWaits <$> SemaphoreAlerts.step k.waits .postAll

def next (k : Kernel) (c : Call) : Option Kernel := (run k c).toOption

def boot (val : Int) : Kernel := ⟨SemaphoreAlerts.boot val,fun _ => false⟩

-- Nobody who is marked killed goes to sleep, and nobody is killed in an alertable sleep.
def Careful (k : Kernel) : Call → Prop
  | .wait p _ => 0 < k.waits.sem.val ∨ k.killed p = false
  | .kill p => k.waits.pc p ≠ .asleep true
  | _ => True

instance (k : Kernel) : (c : Call) → Decidable (Careful k c)
  | .wait p _ => inferInstanceAs (Decidable (0 < k.waits.sem.val ∨ k.killed p = false))
  | .kill p => inferInstanceAs (Decidable (k.waits.pc p ≠ .asleep true))
  | .resume _ => isTrue trivial
  | .post => isTrue trivial
  | .get => isTrue trivial
  | .getAll => isTrue trivial
  | .postAll => isTrue trivial

-- Who is behind sched has been granted.
def Granted (k : Kernel) : Prop := ∀ p, k.waits.pc p = .awake → k.waits.up p = true

section Steps
variable {k k' : Kernel} {c : Call}

theorem run_inv (inv : Inv k.waits) (ran : run k c = .ok k') : Inv k'.waits := by
  cases c with
  | wait p site =>
    obtain ⟨waits,stepped,rfl⟩ := Runs.map_ok ran
    exact step_inv inv _ stepped
  | resume p =>
    obtain ⟨waits,stepped,ran⟩ := Runs.bind_ok.mp ran
    split at ran
    · cases ran
    · cases ran
      exact step_inv inv _ stepped
  | kill p =>
    cases ran
    simp only
    split
    · rename_i asleep
      exact inv.move p _ (by simp) fun _ => by rw [asleep]; rfl
    · exact inv
  | post =>
    obtain ⟨waits,stepped,rfl⟩ := Runs.map_ok ran
    exact step_inv inv _ stepped
  | get =>
    obtain ⟨waits,stepped,rfl⟩ := Runs.map_ok ran
    exact step_inv inv _ stepped
  | getAll =>
    obtain ⟨waits,stepped,rfl⟩ := Runs.map_ok ran
    exact step_inv inv _ stepped
  | postAll =>
    obtain ⟨waits,stepped,rfl⟩ := Runs.map_ok ran
    exact step_inv inv _ stepped

theorem grants_granted {s : SemaphoreAlerts.State} (woken : List Nat) (granted : ∀ p, s.pc p = .awake → s.up p = true) :
    ∀ p, (woken.foldl State.grant s).pc p = .awake → (woken.foldl State.grant s).up p = true := by
  intro p awake
  have each := (foldl_grant woken s).2.2.2 p
  refine each.2.1.mpr ?_
  by_cases member : p ∈ woken
  · exact .inl member
  · rw [each.2.2 member] at awake
    exact .inr (granted p awake)

theorem wait_granted {s s' : SemaphoreAlerts.State} (granted : ∀ p, s.pc p = .awake → s.up p = true)
    (careful : 0 < s.sem.val ∨ killed = false) (ran : SemaphoreAlerts.step s (.wait p alertable killed) = .ok s') :
    ∀ q, s'.pc q = .awake → s'.up q = true := by
  intro q awake
  simp only [SemaphoreAlerts.step,waitSem] at ran
  split at ran
  · cases ran
  · split at ran
    · rename_i sem entered
      cases ran
      by_cases same : q = p
      · subst same
        simp [State.goto] at awake
      · simp only [State.goto,State.withSem,Function.update_of_ne same] at awake ⊢
        exact granted q awake
    · rename_i sem entered
      split at entered
      · cases entered
      · rename_i unavailable
        have alive : killed = false := careful.resolve_left (by omega)
        cases ran
        by_cases same : q = p
        · subst same
          simp [alive] at awake
        · simp only [Function.update_of_ne same] at awake ⊢
          exact granted q awake

theorem run_granted (inv : Inv k.waits) (granted : Granted k) (careful : Careful k c) (ran : run k c = .ok k') :
    Granted k' := by
  cases c with
  | wait p site =>
    obtain ⟨waits,stepped,rfl⟩ := Runs.map_ok ran
    exact wait_granted granted careful stepped
  | resume p =>
    obtain ⟨waits,stepped,ran⟩ := Runs.bind_ok.mp ran
    split at ran
    · cases ran
    · cases ran
      simp only [SemaphoreAlerts.step] at stepped
      split at stepped
      · rename_i awake
        rw [if_pos (granted p awake)] at stepped
        cases stepped
        intro q there
        by_cases same : q = p
        · subst same
          simp [Kernel.withWaits,State.goto] at there
        · simp only [Kernel.withWaits,State.goto,Function.update_of_ne same] at there ⊢
          exact granted q there
      · cases stepped
  | kill p =>
    cases ran
    intro q awake
    simp only [if_neg (show ¬ k.waits.pc p = .asleep true from careful)] at awake ⊢
    exact granted q awake
  | post =>
    obtain ⟨waits,stepped,rfl⟩ := Runs.map_ok ran
    simp only [SemaphoreAlerts.step] at stepped
    obtain ⟨⟨who,sem⟩,_,stepped⟩ := Runs.bind_ok.mp stepped
    cases stepped
    cases who with
    | none => exact granted
    | some p => exact grants_granted (s := k.waits.withSem sem) [p] granted
  | get => cases ran; exact granted
  | getAll => cases ran; exact granted
  | postAll =>
    obtain ⟨waits,stepped,rfl⟩ := Runs.map_ok ran
    rw [postAll_returns inv] at stepped
    cases stepped
    exact grants_granted _ granted

theorem Granted.resumes (granted : Granted k) (p : Nat) : run k (.resume p) ≠ .error .assertion := by
  intro failed
  simp only [run,SemaphoreAlerts.step] at failed
  by_cases awake : k.waits.pc p = .awake
  · rw [if_pos awake,if_pos (granted p awake)] at failed
    simp [bind,Except.bind,State.goto] at failed
  · rw [if_neg awake] at failed
    cases failed

-- Behind sched without a grant: the wait fails as soon as the process runs.
theorem ungranted_fails (inv : Inv k.waits) (awake : k.waits.pc p = .awake) (waiting : k.waits.up p = false) :
    run k (.resume p) = .error .assertion := by
  have listed : p ∈ k.waits.sem.sleeplist := (inv.listed p).mpr ⟨by rw [awake]; rfl,waiting⟩
  simp only [run,SemaphoreAlerts.step]
  rw [if_pos awake,if_neg (by simp [waiting]),(inv.counted.leave listed).1]
  simp [bind,Except.bind,State.goto]

theorem careless_fails (inv : Inv k.waits) (careless : ¬ Careful k c) (ran : run k c = .ok k') :
    ∃ p, run k' (.resume p) = .error .assertion := by
  have inv' := run_inv inv ran
  cases c with
  | wait p site =>
    unfold Careful at careless
    rw [not_or] at careless
    have killed : k.killed p = true := by simpa using careless.2
    obtain ⟨waits,stepped,rfl⟩ := Runs.map_ok ran
    refine ⟨p,ungranted_fails inv' ?_ ?_⟩
    all_goals
      rw [killed] at stepped
      simp only [SemaphoreAlerts.step,waitSem] at stepped
      split at stepped
      · cases stepped
      · rw [if_neg (by omega)] at stepped
        cases stepped
        simp [Kernel.withWaits]
  | kill p =>
    have asleep : k.waits.pc p = .asleep true := by simpa [Careful] using careless
    cases ran
    simp only [if_pos asleep] at inv' ⊢
    refine ⟨p,ungranted_fails inv' ?_ ?_⟩
    · simp [State.goto]
    · exact inv.asleep p true asleep
  | resume p => exact absurd trivial careless
  | post => exact absurd trivial careless
  | get => exact absurd trivial careless
  | getAll => exact absurd trivial careless
  | postAll => exact absurd trivial careless

end Steps

-- The waits complete with the semaphore granted in every run of careful calls; a call
-- that is not careful leaves a process whose wait fails.
theorem killed_wait_granted {val : Int} (initial : 0 ≤ val) :
    (∀ k, Runs.Guarded next Careful (boot val) k → ∀ p, run k (.resume p) ≠ .error .assertion) ∧
    ∀ k c k', Runs.Reached next (boot val) k → ¬ Careful k c → run k c = .ok k' → ∃ p,
    run k' (.resume p) = .error .assertion := by
  refine ⟨?_,?_⟩
  · intro k path
    have safe : Inv k.waits ∧ Granted k := by
      refine path.invariant (fun k => Inv k.waits ∧ Granted k) ⟨boot_inv initial,fun p awake => by cases awake⟩ ?_
      intro k c k' ⟨inv,granted⟩ careful ran
      have ran := Runs.toOption_some ran
      exact ⟨run_inv inv ran,run_granted inv granted careful ran⟩
    exact safe.2.resumes
  · intro k c k' path careless ran
    have inv : Inv k.waits := by
      refine path.invariant (fun k => Inv k.waits) (boot_inv initial) ?_
      intro k c k' inv _ ran
      exact run_inv inv (Runs.toOption_some ran)
    exact careless_fails inv careless ran

-- A process waits behind another one and is killed before it has the lock; the post
-- comes first.
theorem killed_wait_granted_after_post : ∃ k, Runs.execGuarded next Careful (boot 1)
      [.wait 1 .cacheAcquire,.wait 2 .cacheAcquire,.post,.kill 2] = some k ∧ k.killed 2 = true ∧
    ∀ p, run k (.resume p) ≠ .error .assertion := by
  obtain ⟨k,ran,facts⟩ := Runs.some_such
    (x := Runs.execGuarded next Careful (boot 1) [.wait 1 .cacheAcquire,.wait 2 .cacheAcquire,.post,.kill 2])
    (p := fun k => k.killed 2) (by decide +kernel)
  exact ⟨k,ran,facts,(killed_wait_granted (by decide)).1 k (Runs.exec_guarded .start ran)⟩

-- Process 2 is marked killed before it calls inode_lock on a lock that process 1 holds:
-- sched(DEEPSLEEPING) returns at once and the assertion of unalertable_wait_sem fails.
theorem killed_before_inode_lock : ¬ ∀ (val : Int) (k : Kernel), 0 ≤ val → Runs.Reached next (boot val) k →
    ∀ p, run k (.resume p) ≠ .error .assertion := by
  intro granted
  obtain ⟨k,ran,facts⟩ := Runs.some_such
    (x := Runs.exec next (boot 1) [.wait 1 .inodeLock,.kill 2,.wait 2 .inodeLock])
    (p := fun k => Runs.stopsWith .assertion (run k (.resume 2))) (by decide +kernel)
  exact granted 1 k (by decide) (Runs.exec_reached .start ran) 2 (Runs.stopsWith_iff.mp facts)

end KilledWaits
