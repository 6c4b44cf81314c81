import HonorKernel.SemaphoreAlerts

-- common/sem.c with `int val`: 32 bits that wrap. The semaphore with an unbounded counter
-- is the same one as long as the counter fits.
namespace SemaphoreInts
open DiskFormat Semaphores SemaphoreAlerts

def intMin : Int := -2^31
def intMax : Int := 2^31-1

-- What an int holds after a `++` or a `--`.
def int (val : Int) : Int := val.bmod (2^32)

def waitSem (sem : Semaphore) (proc : Nat) : Bool × Semaphore :=
  if 0 ≤ int (sem.val-1) then (true,⟨int (sem.val-1),sem.sleeplist⟩)
  else (false,⟨int (sem.val-1),proc::sem.sleeplist⟩)

def postSem (sem : Semaphore) : Except Fault (Option Nat × Semaphore) :=
  if int (sem.val+1) ≤ 0 then
    match sem.sleeplist.getLast? with
    | none => .error .assertion
    | some proc => .ok (some proc,⟨int (sem.val+1),sem.sleeplist.dropLast⟩)
  else .ok (none,⟨int (sem.val+1),sem.sleeplist⟩)

def getSem (sem : Semaphore) : Bool × Semaphore :=
  if 0 < sem.val then (true,⟨int (sem.val-1),sem.sleeplist⟩) else (false,sem)

def leaveSem (sem : Semaphore) (proc : Nat) : Except Fault Semaphore :=
  if int (sem.val+1) ≤ 0 then .ok ⟨int (sem.val+1),sem.sleeplist.erase proc⟩ else .error .assertion

-- `int ret` counts the rounds.
def postAllLoop : Nat → Int → List Nat → Semaphore → Except Fault (Int × List Nat × Semaphore)
  | 0,_,_,_ => .error .blocked
  | fuel+1,ret,woken,sem => do
    let (who,sem) ← postSem sem
    match getSem sem with
    | (true,sem) => .ok (int (ret+1),woken++who.toList,sem)
    | (false,sem) => postAllLoop fuel (int (ret+1)) (woken++who.toList) sem

def step (s : State) : Action → Except Fault State
  | .wait p alertable killed =>
    if (s.pc p).inside then .error .blocked
    else
      match waitSem s.sem p with
      | (true,sem) => .ok ((s.withSem sem).goto p (.outside (some true)))
      | (false,sem) => .ok ⟨sem,Function.update s.pc p (if killed then .awake else .asleep alertable),
          Function.update s.up p false,Function.update s.since p s.clock,s.clock+1⟩
  | .resume p =>
    if s.pc p = .awake then
      if s.up p then .ok (s.goto p (.outside (some true)))
      else do
        let sem ← leaveSem s.sem p
        .ok ((s.withSem sem).goto p (.outside (some false)))
    else .error .blocked
  | .alert p => if s.pc p = .asleep true then .ok (s.goto p .awake) else .error .blocked
  | .post => do
    let (who,sem) ← postSem s.sem
    .ok (match who with | none => s.withSem sem | some p => (s.withSem sem).grant p)
  | .get => .ok (s.withSem (getSem s.sem).2)
  | .getAll => .ok (s.withSem (getAllSem s.sem).2)
  | .postAll => do
    let (_,woken,sem) ← postAllLoop ((-s.sem.val).toNat+1) (-1) [] s.sem
    .ok (woken.foldl State.grant (s.withSem sem))

def next (s : State) (a : Action) : Option State := (step s a).toOption

def InRange (s : State) : Prop := intMin ≤ s.sem.val ∧ s.sem.val ≤ intMax

-- The counter does not leave the int. With 2^31 sleepers post_all_sem could not return
-- their number.
def Fits (s : State) : Action → Prop
  | .wait _ _ _ => intMin < s.sem.val
  | .post => s.sem.val < intMax
  | .postAll => intMin < s.sem.val ∧ s.sem.val < intMax
  | _ => True

instance (s : State) (a : Action) : Decidable (Fits s a) := by
  unfold Fits
  cases a <;> infer_instance

section Arithmetic
variable {sem : Semaphore} {v : Int}

theorem int_fits (low : intMin ≤ v) (high : v ≤ intMax) : int v = v := by
  unfold intMin at low
  unfold intMax at high
  exact Int.bmod_eq_of_le_mul_two (by omega) (by omega)

theorem waitSem_fits (low : intMin < sem.val) (high : sem.val ≤ intMax) (proc : Nat) :
    waitSem sem proc = Semaphores.waitSem sem proc := by
  unfold waitSem Semaphores.waitSem
  rw [int_fits (by omega) (by omega)]

theorem postSem_fits (low : intMin ≤ sem.val) (high : sem.val < intMax) : postSem sem = Semaphores.postSem sem := by
  unfold postSem
  rw [int_fits (by omega) (by omega)]
  rfl

theorem getSem_fits (high : sem.val ≤ intMax) : getSem sem = Semaphores.getSem sem := by
  unfold getSem Semaphores.getSem
  by_cases free : 0 < sem.val
  · rw [if_pos free,if_pos free,int_fits (by unfold intMin; omega) (by omega)]
  · rw [if_neg free,if_neg free]

theorem leaveSem_fits (low : intMin ≤ sem.val) (negative : sem.val < 0) (proc : Nat) :
    leaveSem sem proc = Semaphores.leaveSem sem proc := by
  unfold leaveSem Semaphores.leaveSem
  rw [int_fits (by omega) (by unfold intMax; omega)]

-- While there are sleepers a round leaves the counter at 0 at most, so that only the
-- return value grows.
theorem postAllLoop_fits (fuel : Nat) (counted : Counted sem) (low : intMin ≤ sem.val) (high : sem.val < intMax)
    {ret : Int} (start : -1 ≤ ret) (room : ret+sem.sleeplist.length+1 ≤ intMax) (woken : List Nat) :
    postAllLoop fuel ret woken sem = Semaphores.postAllLoop fuel ret woken sem := by
  induction fuel generalizing sem ret woken with
  | zero => rfl
  | succ fuel ih =>
    unfold postAllLoop Semaphores.postAllLoop
    rw [postSem_fits low high,int_fits (by unfold intMin; omega) (by omega)]
    rcases counted.post with ⟨free,empty,returned⟩ | ⟨negative,rest,proc,listed,returned⟩
    · rw [returned]
      simp only [bind,Except.bind]
      rw [getSem_fits (by simp only; omega)]
      simp only [Semaphores.getSem]
      rw [if_pos (by omega)]
    · have counted' := counted.posted returned
      have length : sem.sleeplist.length = rest.length+1 := by rw [listed,List.length_append]; rfl
      rw [returned]
      simp only [bind,Except.bind]
      rw [getSem_fits (by simp only; omega)]
      simp only [Semaphores.getSem]
      rw [if_neg (by omega)]
      exact ih counted' (by simp only; omega) (by simp only; omega) (by omega) (by simp only; omega) _

end Arithmetic

section Steps
variable {s s' : State} {a : Action}

theorem step_fits (inv : Inv s) (range : InRange s) (fits : Fits s a) : step s a = SemaphoreAlerts.step s a := by
  obtain ⟨low,high⟩ := range
  cases a with
  | wait p alertable killed =>
    simp only [step]
    rw [waitSem_fits fits high]
    rfl
  | resume p =>
    simp only [step,SemaphoreAlerts.step]
    split
    · rename_i awake
      split
      · rfl
      · rename_i waiting
        have listed : p ∈ s.sem.sleeplist := (inv.listed p).mpr ⟨by rw [awake]; rfl,by simpa using waiting⟩
        have negative := inv.counted.iff.1.mpr (List.ne_nil_of_mem listed)
        rw [leaveSem_fits low negative]
    · rfl
  | alert p => rfl
  | post =>
    simp only [step]
    rw [postSem_fits low fits]
    rfl
  | get =>
    simp only [step,SemaphoreAlerts.step]
    rw [getSem_fits high]
  | getAll => rfl
  | postAll =>
    have counted := inv.counted
    unfold Counted at counted
    simp only [step,SemaphoreAlerts.step]
    rw [postAllLoop_fits _ inv.counted low fits.2 (Int.le_refl _)
      (by have := fits.1; unfold intMin at this; unfold intMax; omega)]

theorem step_range (inv : Inv s) (range : InRange s) (fits : Fits s a) (ran : SemaphoreAlerts.step s a = .ok s') :
    InRange s' := by
  obtain ⟨low,high⟩ := range
  cases a with
  | wait p alertable killed =>
    have fits : intMin < s.sem.val := fits
    have val : s'.sem.val = s.sem.val-1 := by
      simp only [SemaphoreAlerts.step,Semaphores.waitSem] at ran
      split at ran
      · cases ran
      · split at ran
        · rename_i sem waited
          split at waited <;> cases waited
          cases ran
          rfl
        · rename_i sem waited
          split at waited <;> cases waited
          cases ran
          rfl
    exact ⟨by omega,by omega⟩
  | resume p =>
    simp only [SemaphoreAlerts.step] at ran
    split at ran
    · rename_i awake
      split at ran
      · cases ran
        exact ⟨low,high⟩
      · rename_i waiting
        have listed : p ∈ s.sem.sleeplist := (inv.listed p).mpr ⟨by rw [awake]; rfl,by simpa using waiting⟩
        have negative := inv.counted.iff.1.mpr (List.ne_nil_of_mem listed)
        rw [(inv.counted.leave listed).1] at ran
        cases ran
        exact ⟨by simp only [State.goto,State.withSem]; omega,by simp only [State.goto,State.withSem]; unfold intMax; omega⟩
    · cases ran
  | alert p =>
    simp only [SemaphoreAlerts.step] at ran
    split at ran
    · cases ran
      exact ⟨low,high⟩
    · cases ran
  | post =>
    have fits : s.sem.val < intMax := fits
    simp only [SemaphoreAlerts.step] at ran
    rcases inv.counted.post with ⟨_,_,returned⟩ | ⟨_,rest,p,_,returned⟩
    · rw [returned] at ran
      cases ran
      exact ⟨by simp only [State.withSem]; omega,by simp only [State.withSem]; omega⟩
    · rw [returned] at ran
      cases ran
      exact ⟨by simp only [State.grant,State.withSem]; omega,by simp only [State.grant,State.withSem]; omega⟩
  | get =>
    cases ran
    unfold InRange State.withSem Semaphores.getSem
    split
    · exact ⟨by simp only; unfold intMin; omega,by simp only; omega⟩
    · exact ⟨low,high⟩
  | getAll =>
    cases ran
    unfold InRange State.withSem getAllSem
    split
    · exact ⟨(by decide : intMin ≤ 0),(by decide : 0 ≤ intMax)⟩
    · exact ⟨low,high⟩
  | postAll =>
    rw [postAll_returns inv] at ran
    cases ran
    unfold InRange
    rw [(foldl_grant _ _).1]
    exact ⟨by simp only [State.withSem,postAllSem]; omega,by simp only [State.withSem,postAllSem]; unfold intMax at high ⊢; omega⟩

theorem next_fits (inv : Inv s) (range : InRange s) (fits : Fits s a) : next s a = SemaphoreAlerts.next s a := by
  unfold next SemaphoreAlerts.next
  rw [step_fits inv range fits]

theorem next_sound (inv : Inv s) (range : InRange s) (fits : Fits s a) (ran : next s a = some s') :
    Inv s' ∧ InRange s' := by
  rw [next_fits inv range fits] at ran
  have ran := Runs.toOption_some ran
  exact ⟨step_inv inv a ran,step_range inv range fits ran⟩

theorem run_fits (actions : List Action) (inv : Inv s) (range : InRange s) (met : Runs.Meets next Fits s actions)
    (ran : Runs.exec next s actions = some s') : Runs.exec SemaphoreAlerts.next s actions = some s' ∧
      Runs.Meets SemaphoreAlerts.next (fun s _ => InRange s) s actions ∧ Inv s' ∧ InRange s' := by
  induction actions generalizing s with
  | nil => cases ran; exact ⟨rfl,trivial,inv,range⟩
  | cons a rest ih =>
    obtain ⟨middle,first,tail⟩ := Option.bind_eq_some_iff.mp ran
    obtain ⟨inv',range'⟩ := next_sound inv range met.1 first
    obtain ⟨ended,inside,last⟩ := ih inv' range' (met.2 middle first) tail
    rw [next_fits inv range met.1] at first
    refine ⟨?_,⟨range,fun s'' taken => ?_⟩,last⟩
    · simp only [Runs.exec,first,Option.bind_some]
      exact ended
    · cases first.symm.trans taken
      exact inside

theorem run_back (actions : List Action) (inv : Inv s) (range : InRange s)
    (met : Runs.Meets SemaphoreAlerts.next Fits s actions)
    (ran : Runs.exec SemaphoreAlerts.next s actions = some s') : Runs.exec next s actions = some s' := by
  induction actions generalizing s with
  | nil => exact ran
  | cons a rest ih =>
    obtain ⟨middle,first,tail⟩ := Option.bind_eq_some_iff.mp ran
    have same := next_fits inv range met.1
    obtain ⟨inv',range'⟩ := next_sound inv range met.1 (same.trans first)
    simp only [Runs.exec,same,first,Option.bind_some]
    exact ih inv' range' (met.2 middle first) tail

theorem boot_range {val : Int} (initial : 0 ≤ val) (small : val ≤ intMax) : InRange (boot val) :=
  ⟨by simp only [boot,initSem]; unfold intMin; omega,small⟩

end Steps

-- What the users of a semaphore rely on, in one state and for the steps from it.
structure Correct (s : State) : Prop where
  range : InRange s
  count : s.sem.val < 0 ↔ s.sem.sleeplist ≠ []
  length : s.sem.val < 0 → -s.sem.val = s.sem.sleeplist.length
  asserts : ∀ a, Fits s a → step s a ≠ .error .assertion
  posts : Fits s .post → ∃ s', step s .post = .ok s' ∧
    ((0 ≤ s.sem.val ∧ s'.sem = ⟨s.sem.val+1,s.sem.sleeplist⟩ ∧ s'.pc = s.pc ∧ s'.up = s.up) ∨
    ∃ p ∈ s.sem.sleeplist, (∀ q ∈ s.sem.sleeplist, q ≠ p → s.since p < s.since q) ∧ s'.sem.val ≤ 0 ∧
      s'.sem.sleeplist = s.sem.sleeplist.erase p ∧ s'.pc p = .awake ∧ s'.up = Function.update s.up p true ∧
      ∀ q, q ≠ p → s'.pc q = s.pc q)
  granted : ∀ p, s.pc p = .awake → s.up p = true → step s (.resume p) = .ok (s.goto p (.outside (some true)))
  postAll : Fits s .postAll → ∃ woken s',
    postAllLoop ((-s.sem.val).toNat+1) (-1) [] s.sem = .ok (max 0 (-s.sem.val),woken,⟨max 0 s.sem.val,[]⟩) ∧
    step s .postAll = .ok s' ∧ s'.sem = ⟨max 0 s.sem.val,[]⟩ ∧ woken.Perm s.sem.sleeplist ∧
    ∀ p, (p ∈ s.sem.sleeplist → s'.pc p = .awake ∧ s'.up p = true) ∧ (p ∉ s.sem.sleeplist → s'.pc p = s.pc p ∧ s'.up p = s.up p)

-- A wait that nobody granted leaves the semaphore as it would be without it.
def LeavesNoTrace (s : State) : Prop := ∀ p alertable killed s₁ actions s₂ s₃, Fits s (.wait p alertable killed) →
  step s (.wait p alertable killed) = .ok s₁ → p ∈ s₁.sem.sleeplist → Runs.Meets next Fits s₁ actions →
      Runs.exec next s₁ actions = some s₂ →
  Action.resume p ∉ actions → s₂.up p = false → step s₂ (.resume p) = .ok s₃ → s₃.pc p = .outside (some false) ∧
    ∃ t, Runs.exec next s (actions.filter fun a => a ≠ .alert p) = some t ∧ t.sem = s₃.sem

section Correctness
variable {s t : State} {p : Nat}

theorem correct (inv : Inv s) (range : InRange s) : Correct s := by
  have counted := inv.counted
  refine ⟨range,counted.iff.1,counted.iff.2,?_,?_,?_,?_⟩
  · intro a fits
    rw [step_fits inv range fits]
    exact inv.asserts a
  · intro fits
    rw [step_fits inv range fits]
    exact inv.posts
  · intro p awake granted
    simp only [step]
    rw [if_pos awake,if_pos granted]
  · intro fits
    have enough : s.sem.sleeplist.length < (-s.sem.val).toNat+1 := by
      unfold Counted at counted
      omega
    have value : (-1 : Int)+s.sem.sleeplist.length+1 = max 0 (-s.sem.val) := by
      unfold Counted at counted
      omega
    have room : (-1 : Int)+s.sem.sleeplist.length+1 ≤ intMax := by
      have low := fits.1
      unfold intMin at low
      unfold intMax
      unfold Counted at counted
      omega
    rw [step_fits inv range fits]
    refine ⟨s.sem.sleeplist.reverse,_,?_,postAll_returns inv,?_,List.reverse_perm _,?_⟩
    · rw [postAllLoop_fits _ counted range.1 fits.2 (Int.le_refl _) room,postAllLoop_returns _ counted enough,value]
      simp [postAllSem,Int.max_comm]
    · rw [(foldl_grant _ _).1]
      simp [State.withSem,postAllSem,Int.max_comm]
    · intro p
      have each := (foldl_grant s.sem.sleeplist.reverse (s.withSem (postAllSem s.sem).2)).2.2.2 p
      refine ⟨?_,?_⟩
      · intro member
        have woken : p ∈ s.sem.sleeplist.reverse := List.mem_reverse.mpr member
        exact ⟨foldl_awake _ _ woken ((inv.listed p).mp member).1,each.2.1.mpr (.inl woken)⟩
      · intro absent
        have left : p ∉ s.sem.sleeplist.reverse := fun member => absent (List.mem_reverse.mp member)
        refine ⟨each.2.2 left,?_⟩
        have same := each.2.1
        simp only [left,false_or] at same
        exact Bool.eq_iff_iff.mpr same

-- Without a sleeper the counter is one higher and not positive, so that it fits all the more.
theorem without_fits (pair : Without p s t) (range : InRange s) (a : Action) : Fits t a := by
  have negative := pair.negative
  have val := pair.val
  have low := range.1
  unfold Fits
  cases a with
  | wait q alertable killed => simp only; omega
  | post => simp only; unfold intMax; omega
  | postAll => exact ⟨by omega,by unfold intMax; omega⟩
  | resume q => trivial
  | alert q => trivial
  | get => trivial
  | getAll => trivial

theorem leavesNoTrace (inv : Inv s) (range : InRange s) : LeavesNoTrace s := by
  intro p alertable killed s₁ actions s₂ s₃ fits waited listed met ran notResume waiting resumed
  rw [step_fits inv range fits] at waited
  have inv₁ := step_inv inv _ waited
  have range₁ := step_range inv range fits waited
  obtain ⟨ran,inside,inv₂,range₂⟩ := run_fits actions inv₁ range₁ met ran
  have carries : ∀ (s t : State) (a : Action), Without p s t → InRange s → Fits t a := fun s t a pair range =>
      without_fits pair range a
  obtain ⟨t,without,within,pair⟩ := (inv.without waited listed).run carries actions ran inside notResume waiting
  rw [step_fits inv₂ range₂ (a := .resume p) trivial] at resumed
  obtain ⟨left,same⟩ := pair.left waiting resumed
  exact ⟨left,t,run_back _ inv range within without,same⟩

theorem semaphore_correct {val : Int} (initial : 0 ≤ val) (small : val ≤ intMax)
    (run : Runs.Guarded next Fits (boot val) s) :
    Correct s ∧ LeavesNoTrace s := by
  obtain ⟨inv,range⟩ : Inv s ∧ InRange s := by
    refine run.invariant (fun s => Inv s ∧ InRange s) ⟨boot_inv initial,boot_range initial small⟩ ?_
    rintro s a s' ⟨inv,range⟩ fits ran
    exact next_sound inv range fits ran
  exact ⟨correct inv range,leavesNoTrace inv range⟩

-- Three processes wait; the second is alerted and leaves, and a post grants the first.
theorem semaphore_correct_of_alert : ∃ s, Runs.execGuarded next Fits (boot 0)
      [.wait 1 true false,.wait 2 true false,.wait 3 false false,.alert 2,.resume 2,.post] = some s ∧
    s.sem = ⟨-1,[3]⟩ ∧ s.up 1 = true ∧ Correct s ∧ LeavesNoTrace s := by
  obtain ⟨s,ran,facts⟩ := Runs.some_such
    (x := Runs.execGuarded next Fits (boot 0) [.wait 1 true false,.wait 2 true false,.wait 3 false false,.alert 2,.resume 2,.post])
    (p := fun s => decide (s.sem = ⟨-1,[3]⟩ ∧ s.up 1 = true)) (by decide +kernel)
  obtain ⟨sem,up⟩ := of_decide_eq_true facts
  exact ⟨s,ran,sem,up,semaphore_correct (by decide) (by decide) (Runs.exec_guarded .start ran)⟩

-- A post on a semaphore that starts with INT_MAX: the counter wraps to INT_MIN, and nobody
-- sleeps.
theorem full_semaphore_asserts : ¬ ∀ (val : Int) (s : State), 0 ≤ val → val ≤ intMax → Runs.Reached next (boot val) s →
    ∀ a, step s a ≠ .error .assertion := by
  intro never
  exact never intMax (boot intMax) (by decide) (by decide) .start .post rfl

end Correctness

end SemaphoreInts
