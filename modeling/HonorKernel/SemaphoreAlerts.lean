import HonorKernel.Semaphores
import HonorKernel.Runs

-- common/sem.c with any number of processes, one section under sem->lock at a time.
namespace SemaphoreAlerts
open DiskFormat Semaphores

-- `outside` keeps what the last _wait_sem returned; `asleep` is in sched; `awake` is
-- behind sched, before the lock is taken again.
inductive Pc where
  | outside (last : Option Bool)
  | asleep (alertable : Bool)
  | awake
  deriving DecidableEq

def Pc.inside : Pc → Bool
  | .outside _ => false
  | _ => true

-- A process is in one _wait_sem at a time, so its WaitData is found by the process:
-- `up` is wait->up. `since` and `clock` only record who came first.
structure State where
  sem : Semaphore
  pc : Nat → Pc
  up : Nat → Bool
  since : Nat → Nat
  clock : Nat

def State.withSem (s : State) (sem : Semaphore) : State := ⟨sem,s.pc,s.up,s.since,s.clock⟩
def State.goto (s : State) (p : Nat) (pc : Pc) : State := ⟨s.sem,Function.update s.pc p pc,s.up,s.since,s.clock⟩

-- wait->up = true; activate_proc(wait->proc), which does nothing for a process that an
-- alert has woken.
def State.grant (s : State) (p : Nat) : State :=
  ⟨s.sem,Function.update s.pc p (match s.pc p with | .asleep _ => .awake | pc => pc),Function.update s.up p true,s.since,s.clock⟩

-- `killed`: sched returns at once for a process that is marked killed.
inductive Action where
  | wait (p : Nat) (alertable killed : Bool)
  | resume (p : Nat)
  | alert (p : Nat)
  | post
  | get
  | getAll
  | postAll
  deriving DecidableEq

-- `blocked`: the process is not at this point of its code.
def step (s : State) : Action → Except Fault State
  | .wait p alertable killed =>
    if (s.pc p).inside then .error .blocked
    else
      match waitSem s.sem p with
      | (true,sem) => .ok ((s.withSem sem).goto p (.outside (some true)))
      | (false,sem) => .ok ⟨sem,Function.update s.pc p (if killed then .awake else .asleep alertable),
          Function.update s.up p false,Function.update s.since p s.clock,s.clock+1⟩
  | .resume p =>
    if s.pc p = .awake then
      if s.up p then .ok (s.goto p (.outside (some true)))
      else do
        let sem ← leaveSem s.sem p
        .ok ((s.withSem sem).goto p (.outside (some false)))
    else .error .blocked
  | .alert p => if s.pc p = .asleep true then .ok (s.goto p .awake) else .error .blocked
  | .post => do
    let (who,sem) ← postSem s.sem
    .ok (match who with | none => s.withSem sem | some p => (s.withSem sem).grant p)
  | .get => .ok (s.withSem (getSem s.sem).2)
  | .getAll => .ok (s.withSem (getAllSem s.sem).2)
  | .postAll => do
    let (_,woken,sem) ← postAllLoop ((-s.sem.val).toNat+1) (-1) [] s.sem
    .ok (woken.foldl State.grant (s.withSem sem))

def next (s : State) (a : Action) : Option State := (step s a).toOption

def boot (val : Int) : State := ⟨initSem val,fun _ => .outside none,fun _ => false,fun _ => 0,0⟩

structure Inv (s : State) : Prop where
  counted : Counted s.sem
  listed : ∀ p, p ∈ s.sem.sleeplist ↔ (s.pc p).inside = true ∧ s.up p = false
  order : s.sem.sleeplist.Pairwise fun a b => s.since b < s.since a
  clock : ∀ p ∈ s.sem.sleeplist, s.since p < s.clock
  asleep : ∀ p alertable, s.pc p = .asleep alertable → s.up p = false

section Grants
variable {s : State}

theorem wake_inside (pc : Pc) : (match pc with | .asleep _ => Pc.awake | pc => pc).inside = pc.inside := by
  cases pc <;> rfl

theorem grant_pc (s : State) (p q : Nat) : ((s.grant p).pc q).inside = (s.pc q).inside := by
  unfold State.grant
  by_cases same : q = p
  · subst same
    simp only [Function.update_self]
    exact wake_inside _
  · simp only [Function.update_of_ne same]

theorem foldl_grant (woken : List Nat) (s : State) : (woken.foldl State.grant s).sem = s.sem ∧
    (woken.foldl State.grant s).since = s.since ∧ (woken.foldl State.grant s).clock = s.clock ∧
    ∀ q, ((woken.foldl State.grant s).pc q).inside = (s.pc q).inside ∧
      ((woken.foldl State.grant s).up q = true ↔ q ∈ woken ∨ s.up q = true) ∧
      (q ∉ woken → (woken.foldl State.grant s).pc q = s.pc q) := by
  induction woken generalizing s with
  | nil => simp
  | cons p woken ih =>
    obtain ⟨sem,since,clock,each⟩ := ih (s.grant p)
    refine ⟨sem,since,clock,?_⟩
    intro q
    obtain ⟨inside,up,others⟩ := each q
    refine ⟨inside.trans (grant_pc s p q),?_,?_⟩
    · simp only [List.foldl_cons]
      rw [up]
      by_cases same : q = p
      · subst same
        simp [State.grant]
      · simp [State.grant,same]
    · intro absent
      simp only [List.mem_cons,not_or] at absent
      simp only [List.foldl_cons]
      rw [others absent.2]
      exact Function.update_of_ne absent.1 _ _

theorem foldl_asleep (woken : List Nat) (s : State) (asleep : ∀ p alertable, s.pc p = .asleep alertable →
    s.up p = false) :
    ∀ p alertable, (woken.foldl State.grant s).pc p = .asleep alertable → (woken.foldl State.grant s).up p = false := by
  induction woken generalizing s with
  | nil => exact asleep
  | cons q woken ih =>
    refine ih (s.grant q) ?_
    intro p alertable there
    simp only [State.grant] at there ⊢
    by_cases here : p = q
    · subst here
      rw [Function.update_self] at there
      cases before : s.pc p <;> simp [before] at there
    · rw [Function.update_of_ne here] at there ⊢
      exact asleep p alertable there

theorem Inv.distinct (inv : Inv s) : s.sem.sleeplist.Nodup := by
  refine inv.order.imp ?_
  intro a b earlier same
  rw [same] at earlier
  omega

theorem Inv.oldest (inv : Inv s) (list : s.sem.sleeplist = rest++[p]) :
    p ∉ rest ∧ ∀ q ∈ rest, s.since p < s.since q := by
  have distinct := inv.distinct
  have order := inv.order
  rw [list] at distinct order
  refine ⟨?_,?_⟩
  · intro member
    exact (List.nodup_append.mp distinct).2.2 p member p List.mem_cons_self rfl
  · intro q member
    exact (List.pairwise_append.mp order).2.2 q member p List.mem_cons_self

theorem postAll_returns (inv : Inv s) :
    step s .postAll = .ok (s.sem.sleeplist.reverse.foldl State.grant (s.withSem (postAllSem s.sem).2)) := by
  have counted := inv.counted
  have enough : s.sem.sleeplist.length < (-s.sem.val).toNat+1 := by
    unfold Counted at counted
    omega
  unfold step
  simp only
  rw [postAllLoop_returns _ counted enough]
  rfl

end Grants

section Steps
variable {s s' : State}

theorem Inv.keep {sem : Semaphore} (inv : Inv s) (counted : Counted sem) (same : sem.sleeplist = s.sem.sleeplist) :
    Inv (s.withSem sem) := by
  refine ⟨counted,?_,?_,?_,inv.asleep⟩
  · intro p
    change p ∈ sem.sleeplist ↔ _
    rw [same]
    exact inv.listed p
  · change sem.sleeplist.Pairwise _
    rw [same]
    exact inv.order
  · change ∀ p ∈ sem.sleeplist, _
    rw [same]
    exact inv.clock

theorem Inv.move (inv : Inv s) (p : Nat) (pc : Pc) (awake : ∀ alertable, pc ≠ .asleep alertable)
    (same : s.up p = false → pc.inside = (s.pc p).inside) : Inv (s.goto p pc) := by
  refine ⟨inv.counted,?_,inv.order,inv.clock,?_⟩
  case refine_2 =>
    intro q alertable there
    change Function.update s.pc p pc q = _ at there
    by_cases here : q = p
    · rw [here,Function.update_self] at there
      exact absurd there (awake alertable)
    · rw [Function.update_of_ne here] at there
      exact inv.asleep q alertable there
  intro q
  change q ∈ s.sem.sleeplist ↔ (Function.update s.pc p pc q).inside = true ∧ s.up q = false
  rw [inv.listed q]
  by_cases here : q = p
  · subst here
    rw [Function.update_self]
    cases granted : s.up q with
    | true => simp
    | false => rw [same granted]
  · rw [Function.update_of_ne here]

theorem wait_inv (inv : Inv s) (ran : step s (.wait p alertable killed) = .ok s') : Inv s' := by
  simp only [step] at ran
  split at ran
  · cases ran
  · rename_i out
    have absent : p ∉ s.sem.sleeplist := fun member => out ((inv.listed p).mp member).1
    have counted := inv.counted.wait p
    split at ran
    · rename_i sem waited
      cases ran
      rw [waited] at counted
      have same : sem.sleeplist = s.sem.sleeplist := by
        unfold waitSem at waited
        split at waited
        · cases waited; rfl
        · cases waited
      exact (inv.keep counted same).move p _ (by simp) fun _ => (Bool.eq_false_iff.mpr out).symm
    · rename_i sem waited
      cases ran
      rw [waited] at counted
      have list : sem.sleeplist = p::s.sem.sleeplist := by
        unfold waitSem at waited
        split at waited
        · cases waited
        · cases waited; rfl
      have others : ∀ q, q ∈ s.sem.sleeplist → q ≠ p := by
        intro q member same
        rw [same] at member
        exact absent member
      refine ⟨counted,?_,?_,?_,?_⟩
      · intro q
        simp only [list,List.mem_cons]
        by_cases here : q = p
        · subst here
          simp only [true_or,Function.update_self,true_iff,and_true]
          cases killed <;> rfl
        · simp only [here,false_or,Function.update_of_ne here]
          exact inv.listed q
      · simp only [list]
        refine List.pairwise_cons.mpr ⟨?_,?_⟩
        · intro q member
          rw [Function.update_self,Function.update_of_ne (others q member)]
          exact inv.clock q member
        · refine inv.order.imp_of_mem ?_
          intro a b left right earlier
          rw [Function.update_of_ne (others a left),Function.update_of_ne (others b right)]
          exact earlier
      · intro q member
        simp only [list,List.mem_cons] at member
        simp only
        rcases member with rfl | member
        · rw [Function.update_self]
          omega
        · rw [Function.update_of_ne (others q member)]
          have := inv.clock q member
          omega
      · intro q deep there
        simp only at there ⊢
        by_cases here : q = p
        · subst here
          rw [Function.update_self]
        · rw [Function.update_of_ne here] at there ⊢
          exact inv.asleep q deep there

theorem leave_inv (inv : Inv s) (listed : p ∈ s.sem.sleeplist) (last : Option Bool) :
    Inv ((s.withSem ⟨s.sem.val+1,s.sem.sleeplist.erase p⟩).goto p (.outside last)) := by
  have sub : (s.sem.sleeplist.erase p).Sublist s.sem.sleeplist := List.erase_sublist
  refine ⟨(inv.counted.leave listed).2,?_,inv.order.sublist sub,fun q member => inv.clock q (sub.mem member),?_⟩
  case refine_2 =>
    intro q alertable there
    change Function.update s.pc p _ q = _ at there
    by_cases here : q = p
    · rw [here,Function.update_self] at there
      cases there
    · rw [Function.update_of_ne here] at there
      exact inv.asleep q alertable there
  intro q
  change q ∈ s.sem.sleeplist.erase p ↔ (Function.update s.pc p (.outside last) q).inside = true ∧ s.up q = false
  rw [inv.distinct.mem_erase_iff,inv.listed q]
  by_cases here : q = p
  · subst here
    simp [Pc.inside]
  · simp [here]

theorem grant_inv (inv : Inv s) (counted : Counted ⟨v,rest⟩) (list : s.sem.sleeplist = rest++[p]) :
    Inv ((s.withSem ⟨v,rest⟩).grant p) := by
  have sub : rest.Sublist s.sem.sleeplist := by rw [list]; exact List.sublist_append_left _ _
  refine ⟨counted,?_,inv.order.sublist sub,fun q member => inv.clock q (sub.mem member),
    foldl_asleep [p] (s.withSem ⟨v,rest⟩) inv.asleep⟩
  intro q
  rw [grant_pc]
  change q ∈ rest ↔ (s.pc q).inside = true ∧ Function.update s.up p true q = false
  by_cases here : q = p
  · subst here
    simp [(inv.oldest list).1]
  · have known := inv.listed q
    rw [list,List.mem_append,List.mem_singleton] at known
    rw [Function.update_of_ne here,← known]
    simp [here]

theorem postAll_inv (inv : Inv s) :
    Inv (s.sem.sleeplist.reverse.foldl State.grant (s.withSem (postAllSem s.sem).2)) := by
  obtain ⟨sem,since,clock,each⟩ := foldl_grant s.sem.sleeplist.reverse (s.withSem (postAllSem s.sem).2)
  have empty : (s.sem.sleeplist.reverse.foldl State.grant (s.withSem (postAllSem s.sem).2)).sem.sleeplist = [] := by rw [sem]; rfl
  refine ⟨?_,?_,?_,?_,foldl_asleep _ _ inv.asleep⟩
  · rw [sem]
    unfold Counted
    simp only [State.withSem,postAllSem,List.length_nil]
    omega
  · intro q
    obtain ⟨inside,up,_⟩ := each q
    rw [empty,inside]
    simp only [List.not_mem_nil,false_iff,not_and,Bool.not_eq_false]
    intro there
    rw [up,List.mem_reverse,inv.listed q]
    change _ ∨ s.up q = true
    cases s.up q with
    | true => exact .inr rfl
    | false => exact .inl ⟨there,rfl⟩
  · rw [empty]
    exact .nil
  · intro q member
    rw [empty] at member
    cases member

theorem step_inv (inv : Inv s) (a : Action) (ran : step s a = .ok s') : Inv s' := by
  cases a with
  | wait p alertable killed => exact wait_inv inv ran
  | resume p =>
    simp only [step] at ran
    split at ran
    · rename_i awake
      split at ran
      · rename_i granted
        cases ran
        exact inv.move p _ (by simp) fun waiting => absurd (granted.symm.trans waiting) (by decide)
      · rename_i waiting
        have listed : p ∈ s.sem.sleeplist := (inv.listed p).mpr ⟨by rw [awake]; rfl,by simpa using waiting⟩
        rw [(inv.counted.leave listed).1] at ran
        cases ran
        exact leave_inv inv listed _
    · cases ran
  | alert p =>
    simp only [step] at ran
    split at ran
    · rename_i asleep
      cases ran
      exact inv.move p _ (by simp) fun _ => by rw [asleep]; rfl
    · cases ran
  | post =>
    simp only [step] at ran
    obtain ⟨⟨who,sem⟩,posted,ran⟩ := Runs.bind_ok.mp ran
    cases ran
    have counted := inv.counted.posted posted
    rcases inv.counted.post with ⟨_,empty,returned⟩ | ⟨_,rest,p,list,returned⟩
    · rw [returned] at posted
      cases posted
      exact inv.keep counted empty.symm
    · rw [returned] at posted
      cases posted
      exact grant_inv inv counted list
  | get =>
    cases ran
    refine inv.keep inv.counted.get ?_
    unfold getSem
    split <;> rfl
  | getAll =>
    cases ran
    refine inv.keep inv.counted.getAll ?_
    unfold getAllSem
    split <;> rfl
  | postAll =>
    rw [postAll_returns inv] at ran
    cases ran
    exact postAll_inv inv

theorem boot_inv (positive : 0 ≤ val) : Inv (boot val) := by
  refine ⟨?_,?_,.nil,?_,fun _ _ _ => rfl⟩
  · unfold Counted
    simp only [boot,initSem,List.length_nil]
    omega
  · intro p
    simp [boot,initSem,Pc.inside]
  · intro p member
    cases member

end Steps

-- `s` and the same state without the wait of `p`.
structure Without (p : Nat) (s t : State) : Prop where
  inv : Inv s
  listed : p ∈ s.sem.sleeplist
  val : t.sem.val = s.sem.val+1
  list : t.sem.sleeplist = s.sem.sleeplist.erase p
  pcs : ∀ q, q ≠ p → t.pc q = s.pc q
  ups : ∀ q, q ≠ p → t.up q = s.up q

section Traces
variable {s s' t : State} {p : Nat}

theorem Without.negative (pair : Without p s t) : s.sem.val < 0 := by
  refine pair.inv.counted.iff.1.mpr ?_
  intro empty
  have listed := pair.listed
  rw [empty] at listed
  cases listed

theorem Without.counted (pair : Without p s t) : Counted t.sem := by
  have counted := (pair.inv.counted.leave pair.listed).2
  unfold Counted at counted ⊢
  rw [pair.list,pair.val]
  exact counted

theorem Without.goto (pair : Without p s t) (inv : Inv (s.goto q pc)) : Without p (s.goto q pc) (t.goto q pc) := by
  refine ⟨inv,pair.listed,pair.val,pair.list,?_,pair.ups⟩
  intro r other
  change Function.update t.pc q pc r = Function.update s.pc q pc r
  by_cases same : r = q
  · subst same
    rw [Function.update_self,Function.update_self]
  · rw [Function.update_of_ne same,Function.update_of_ne same]
    exact pair.pcs r other

theorem Without.wait (pair : Without p s t) (ran : step s (.wait q alertable killed) = .ok s') :
    ∃ t', step t (.wait q alertable killed) = .ok t' ∧ Without p s' t' := by
  have inv := wait_inv pair.inv ran
  have negative := pair.negative
  have inside := ((pair.inv.listed p).mp pair.listed).1
  have other : q ≠ p := by
    intro same
    subst same
    simp only [step,inside,if_true] at ran
    cases ran
  simp only [step,waitSem] at ran ⊢
  rw [pair.pcs q other]
  split at ran
  · cases ran
  · rename_i out
    rw [if_neg out]
    rw [if_neg (by omega)] at ran
    rw [if_neg (by rw [pair.val]; omega)]
    cases ran
    refine ⟨_,rfl,inv,List.mem_cons_of_mem _ pair.listed,?_,?_,?_,?_⟩
    · simp only [pair.val]
      omega
    · simp only [pair.list]
      rw [List.erase_cons_tail (by simpa using other)]
    · intro r apart
      simp only
      by_cases same : r = q
      · subst same
        rw [Function.update_self,Function.update_self]
      · rw [Function.update_of_ne same,Function.update_of_ne same]
        exact pair.pcs r apart
    · intro r apart
      simp only
      by_cases same : r = q
      · subst same
        rw [Function.update_self,Function.update_self]
      · rw [Function.update_of_ne same,Function.update_of_ne same]
        exact pair.ups r apart

theorem Without.resume (pair : Without p s t) (other : q ≠ p) (ran : step s (.resume q) = .ok s') :
    ∃ t', step t (.resume q) = .ok t' ∧ Without p s' t' := by
  have inv := step_inv pair.inv _ ran
  simp only [step] at ran ⊢
  rw [pair.pcs q other,pair.ups q other]
  split at ran
  · rename_i awake
    rw [if_pos awake]
    split at ran
    · rename_i granted
      cases ran
      rw [if_pos granted]
      exact ⟨_,rfl,pair.goto inv⟩
    · rename_i waiting
      have listed : q ∈ s.sem.sleeplist := (pair.inv.listed q).mpr ⟨by rw [awake]; rfl,by simpa using waiting⟩
      have listed' : q ∈ t.sem.sleeplist := by
        rw [pair.list]
        exact (List.mem_erase_of_ne other).mpr listed
      rw [(pair.inv.counted.leave listed).1] at ran
      cases ran
      rw [if_neg waiting,(pair.counted.leave listed').1]
      refine ⟨_,rfl,inv,?_,?_,?_,?_,pair.ups⟩
      · exact (List.mem_erase_of_ne (Ne.symm other)).mpr pair.listed
      · change t.sem.val+1 = s.sem.val+1+1
        rw [pair.val]
      · change t.sem.sleeplist.erase q = (s.sem.sleeplist.erase q).erase p
        rw [pair.list,List.erase_comm]
      · intro r apart
        change Function.update t.pc q _ r = Function.update s.pc q _ r
        by_cases same : r = q
        · subst same
          rw [Function.update_self,Function.update_self]
        · rw [Function.update_of_ne same,Function.update_of_ne same]
          exact pair.pcs r apart
  · cases ran

theorem Without.post (pair : Without p s t) (ran : step s .post = .ok s') (still : p ∈ s'.sem.sleeplist) :
    ∃ t', step t .post = .ok t' ∧ Without p s' t' := by
  have inv := step_inv pair.inv _ ran
  have negative := pair.negative
  rcases pair.inv.counted.post with ⟨free,_,_⟩ | ⟨_,rest,q,list,returned⟩
  · omega
  · simp only [step,returned] at ran
    cases ran
    have member : p ∈ rest := still
    have other : p ≠ q := by
      intro same
      rw [same] at member
      exact (pair.inv.oldest list).1 member
    have list' : t.sem.sleeplist = rest.erase p++[q] := by rw [pair.list,list,List.erase_append_left _ member]
    rcases pair.counted.post with ⟨_,empty,_⟩ | ⟨_,rest',q',again,returned'⟩
    · rw [empty] at list'
      simp at list'
    · rw [again] at list'
      obtain ⟨rfl,last⟩ := List.append_inj' list' rfl
      cases last
      simp only [step,returned']
      refine ⟨_,rfl,inv,still,?_,rfl,?_,?_⟩
      · change t.sem.val+1 = s.sem.val+1+1
        rw [pair.val]
      · intro r apart
        change Function.update t.pc q _ r = Function.update s.pc q _ r
        by_cases same : r = q
        · subst same
          simp only [Function.update_self,State.withSem]
          rw [pair.pcs r apart]
        · rw [Function.update_of_ne same,Function.update_of_ne same]
          exact pair.pcs r apart
      · intro r apart
        change Function.update t.up q true r = Function.update s.up q true r
        by_cases same : r = q
        · subst same
          rw [Function.update_self,Function.update_self]
        · rw [Function.update_of_ne same,Function.update_of_ne same]
          exact pair.ups r apart

-- Nothing is to be got from a semaphore with a sleeper, with or without `p`.
theorem Without.unchanged (pair : Without p s t) : getSem s.sem = (false,s.sem) ∧ getSem t.sem = (false,t.sem) ∧
    getAllSem s.sem = (0,s.sem) ∧ getAllSem t.sem = (0,t.sem) := by
  have negative := pair.negative
  have val := pair.val
  unfold getSem getAllSem
  simp only [if_neg (show ¬ 0 < s.sem.val by omega),if_neg (show ¬ 0 < t.sem.val by omega),and_self]

theorem Without.step (pair : Without p s t) (a : Action) (ran : step s a = .ok s') (notResume : a ≠ .resume p)
    (still : p ∈ s'.sem.sleeplist) :
    (a = .alert p ∧ Without p s' t) ∨ (a ≠ .alert p ∧ ∃ t', SemaphoreAlerts.step t a = .ok t' ∧ Without p s' t') := by
  have inv := step_inv pair.inv a ran
  cases a with
  | wait q alertable killed => exact .inr ⟨by simp,pair.wait ran⟩
  | resume q =>
    refine .inr ⟨by simp,pair.resume ?_ ran⟩
    intro same
    exact notResume (by rw [same])
  | alert q =>
    simp only [SemaphoreAlerts.step] at ran
    split at ran
    · rename_i asleep
      cases ran
      by_cases same : q = p
      · subst same
        refine .inl ⟨rfl,inv,pair.listed,pair.val,pair.list,?_,pair.ups⟩
        intro r other
        change t.pc r = Function.update s.pc q .awake r
        rw [Function.update_of_ne other]
        exact pair.pcs r other
      · refine .inr ⟨by simpa using same,t.goto q .awake,?_,pair.goto inv⟩
        simp only [SemaphoreAlerts.step]
        rw [pair.pcs q same,if_pos asleep]
    · cases ran
  | post => exact .inr ⟨by simp,pair.post ran still⟩
  | get =>
    cases ran
    obtain ⟨first,second,_⟩ := pair.unchanged
    refine .inr ⟨by simp,t,?_,?_⟩
    · simp only [SemaphoreAlerts.step,second]
      rfl
    · rw [first]
      exact pair
  | getAll =>
    cases ran
    obtain ⟨_,_,first,second⟩ := pair.unchanged
    refine .inr ⟨by simp,t,?_,?_⟩
    · simp only [SemaphoreAlerts.step,second]
      rfl
    · rw [first]
      exact pair
  | postAll =>
    rw [postAll_returns pair.inv] at ran
    cases ran
    rw [(foldl_grant _ _).1] at still
    cases still

-- A process stays inside until it resumes, and stays granted once it is.
theorem inside_stays (inv : Inv s) (a : Action) (ran : step s a = .ok s') (notResume : a ≠ .resume p)
    (inside : (s.pc p).inside = true) : (s'.pc p).inside = true ∧ (s.up p = true → s'.up p = true) := by
  cases a with
  | wait q alertable killed =>
    simp only [step] at ran
    split at ran
    · cases ran
    · rename_i out
      have other : p ≠ q := by
        intro same
        rw [← same] at out
        exact out inside
      split at ran
      · cases ran
        simp only [State.goto,State.withSem,Function.update_of_ne other]
        exact ⟨inside,id⟩
      · cases ran
        simp only [Function.update_of_ne other]
        exact ⟨inside,id⟩
  | resume q =>
    have other : p ≠ q := by
      intro same
      exact notResume (by rw [same])
    simp only [step] at ran
    split at ran
    · split at ran
      · cases ran
        simp only [State.goto,Function.update_of_ne other]
        exact ⟨inside,id⟩
      · obtain ⟨sem,_,ran⟩ := Runs.bind_ok.mp ran
        cases ran
        simp only [State.goto,State.withSem,Function.update_of_ne other]
        exact ⟨inside,id⟩
    · cases ran
  | alert q =>
    simp only [step] at ran
    split at ran
    · cases ran
      simp only [State.goto]
      by_cases same : p = q
      · subst same
        rw [Function.update_self]
        exact ⟨rfl,id⟩
      · rw [Function.update_of_ne same]
        exact ⟨inside,id⟩
    · cases ran
  | post =>
    simp only [step] at ran
    obtain ⟨⟨who,sem⟩,_,ran⟩ := Runs.bind_ok.mp ran
    cases ran
    cases who with
    | none => exact ⟨inside,id⟩
    | some q =>
      have each := (foldl_grant [q] (s.withSem sem)).2.2.2 p
      exact ⟨each.1.trans inside,fun granted => each.2.1.mpr (.inr granted)⟩
  | get => cases ran; exact ⟨inside,id⟩
  | getAll => cases ran; exact ⟨inside,id⟩
  | postAll =>
    rw [postAll_returns inv] at ran
    cases ran
    have each := (foldl_grant s.sem.sleeplist.reverse (s.withSem (postAllSem s.sem).2)).2.2.2 p
    exact ⟨each.1.trans inside,fun granted => each.2.1.mpr (.inr granted)⟩

theorem granted_to_end (actions : List Action) (inv : Inv s) (ran : Runs.exec next s actions = some s')
    (notResume : Action.resume p ∉ actions) (inside : (s.pc p).inside = true) (granted : s.up p = true) :
    s'.up p = true := by
  induction actions generalizing s with
  | nil => cases ran; exact granted
  | cons a rest ih =>
    obtain ⟨middle,first,tail⟩ := Option.bind_eq_some_iff.mp ran
    have first := Runs.toOption_some first
    simp only [List.mem_cons,not_or] at notResume
    obtain ⟨inside',granted'⟩ := inside_stays inv a first (Ne.symm notResume.1) inside
    exact ih (step_inv inv a first) tail notResume.2 inside' (granted' granted)

-- The induction is on the actions between the wait and the resume of `p`: while nobody
-- grants it, the same actions run without it.
theorem Without.run {guard guard' : State → Action → Prop} (carries : ∀ s t a, Without p s t → guard s a →
    guard' t a) (actions : List Action)
    (pair : Without p s t) (ran : Runs.exec next s actions = some s') (met : Runs.Meets next guard s actions)
    (notResume : Action.resume p ∉ actions) (waiting : s'.up p = false) :
    ∃ t', Runs.exec next t (actions.filter fun a => a ≠ .alert p) = some t' ∧
      Runs.Meets next guard' t (actions.filter fun a => a ≠ .alert p) ∧ Without p s' t' := by
  induction actions generalizing s t with
  | nil => cases ran; exact ⟨t,rfl,trivial,pair⟩
  | cons a rest ih =>
    obtain ⟨middle,first,tail⟩ := Option.bind_eq_some_iff.mp ran
    obtain ⟨here,others⟩ := met
    have met' := others middle first
    have first := Runs.toOption_some first
    simp only [List.mem_cons,not_or] at notResume
    have inv := step_inv pair.inv a first
    by_cases still : p ∈ middle.sem.sleeplist
    · rcases pair.step a first (Ne.symm notResume.1) still with ⟨same,later⟩ | ⟨other,t',stepped,later⟩
      · rw [List.filter_cons_of_neg (by simpa using same)]
        exact ih later tail met' notResume.2
      · rw [List.filter_cons_of_pos (by simpa using other)]
        obtain ⟨last,ended,fits,final⟩ := ih later tail met' notResume.2
        have next : next t a = some t' := by rw [SemaphoreAlerts.next,stepped]; rfl
        refine ⟨last,?_,⟨carries s t a pair here,fun t'' taken => ?_⟩,final⟩
        · simp only [Runs.exec,next]
          exact ended
        · cases next.symm.trans taken
          exact fits
    · -- Off the list although it has not resumed: it was granted, and stays so.
      exfalso
      have inside := (inside_stays pair.inv a first (Ne.symm notResume.1) ((pair.inv.listed p).mp pair.listed).1).1
      have granted : middle.up p = true := by
        by_contra unset
        exact still ((inv.listed p).mpr ⟨inside,by simpa using unset⟩)
      rw [granted_to_end rest inv tail notResume.2 inside granted] at waiting
      cases waiting

end Traces

section Correctness
variable {s s' : State} {p : Nat}

theorem Inv.asserts (inv : Inv s) (a : Action) : step s a ≠ .error .assertion := by
  intro failed
  cases a with
  | wait p alertable killed =>
    simp only [step] at failed
    split at failed
    · cases failed
    · split at failed <;> cases failed
  | resume p =>
    simp only [step] at failed
    split at failed
    · rename_i awake
      split at failed
      · cases failed
      · rename_i waiting
        have listed : p ∈ s.sem.sleeplist := (inv.listed p).mpr ⟨by rw [awake]; rfl,by simpa using waiting⟩
        rw [(inv.counted.leave listed).1] at failed
        cases failed
    · cases failed
  | alert p =>
    simp only [step] at failed
    split at failed <;> cases failed
  | post =>
    simp only [step] at failed
    rcases inv.counted.post with ⟨_,_,returned⟩ | ⟨_,_,_,_,returned⟩
    · rw [returned] at failed
      cases failed
    · rw [returned] at failed
      cases failed
  | get => cases failed
  | getAll => cases failed
  | postAll =>
    rw [postAll_returns inv] at failed
    cases failed

theorem Pc.wake_awake (pc : Pc) (inside : pc.inside = true) :
    (match pc with | .asleep _ => Pc.awake | pc => pc) = .awake := by
  cases pc with
  | outside last => cases inside
  | asleep alertable => rfl
  | awake => rfl

theorem foldl_awake (woken : List Nat) (s : State) (member : p ∈ woken) (inside : (s.pc p).inside = true) :
    (woken.foldl State.grant s).pc p = .awake := by
  induction woken generalizing s with
  | nil => cases member
  | cons q woken ih =>
    simp only [List.foldl_cons]
    by_cases later : p ∈ woken
    · exact ih (s.grant q) later ((grant_pc s q p).trans inside)
    · have here : p = q := (List.mem_cons.mp member).resolve_right later
      subst here
      rw [((foldl_grant woken (s.grant p)).2.2.2 p).2.2 later]
      simp only [State.grant,Function.update_self]
      exact Pc.wake_awake _ inside

theorem Inv.posts (inv : Inv s) : ∃ s', step s .post = .ok s' ∧
    ((0 ≤ s.sem.val ∧ s'.sem = ⟨s.sem.val+1,s.sem.sleeplist⟩ ∧ s'.pc = s.pc ∧ s'.up = s.up) ∨
    ∃ p ∈ s.sem.sleeplist, (∀ q ∈ s.sem.sleeplist, q ≠ p → s.since p < s.since q) ∧ s'.sem.val ≤ 0 ∧
      s'.sem.sleeplist = s.sem.sleeplist.erase p ∧ s'.pc p = .awake ∧ s'.up = Function.update s.up p true ∧
      ∀ q, q ≠ p → s'.pc q = s.pc q) := by
  rcases inv.counted.post with ⟨free,empty,returned⟩ | ⟨negative,rest,p,list,returned⟩
  · refine ⟨s.withSem ⟨s.sem.val+1,[]⟩,by simp only [step,returned]; rfl,.inl ⟨free,?_,rfl,rfl⟩⟩
    rw [empty]
    rfl
  · have listed : p ∈ s.sem.sleeplist := by rw [list]; simp
    obtain ⟨absent,oldest⟩ := inv.oldest list
    refine ⟨(s.withSem ⟨s.sem.val+1,rest⟩).grant p,by simp only [step,returned]; rfl,.inr ⟨p,listed,?_,?_,?_,?_,rfl,?_⟩⟩
    · intro q member other
      rw [list,List.mem_append,List.mem_singleton] at member
      exact oldest q (member.resolve_right other)
    · change s.sem.val+1 ≤ 0
      omega
    · change rest = s.sem.sleeplist.erase p
      rw [list,List.erase_append_right _ absent]
      simp
    · simp only [State.grant,Function.update_self]
      exact Pc.wake_awake _ ((inv.listed p).mp listed).1
    · intro q other
      simp only [State.grant,Function.update_of_ne other]
      rfl

-- The state before the wait of `p` is the one after it without the wait.
theorem Inv.without (inv : Inv s) (waited : step s (.wait p alertable killed) = .ok s')
    (listed : p ∈ s'.sem.sleeplist) : Without p s' s := by
  have inv' := wait_inv inv waited
  simp only [step] at waited
  split at waited
  · cases waited
  · rename_i out
    have absent : p ∉ s.sem.sleeplist := fun member => out ((inv.listed p).mp member).1
    unfold waitSem at waited
    split at waited
    · rename_i sem entered
      split at entered
      · cases entered
        cases waited
        exact absurd listed absent
      · cases entered
    · rename_i sem entered
      split at entered
      · cases entered
      · cases entered
        cases waited
        refine ⟨inv',listed,?_,?_,?_,?_⟩
        · simp
        · simp
        · intro q other
          simp only [Function.update_of_ne other]
        · intro q other
          simp only [Function.update_of_ne other]

theorem Without.left (pair : Without p s t) (waiting : s.up p = false)
    (ran : SemaphoreAlerts.step s (.resume p) = .ok s') :
    s'.pc p = .outside (some false) ∧ t.sem = s'.sem := by
  simp only [SemaphoreAlerts.step] at ran
  split at ran
  · rw [if_neg (by simp [waiting]),(pair.inv.counted.leave pair.listed).1] at ran
    cases ran
    refine ⟨by simp [State.goto],?_⟩
    change t.sem = ⟨s.sem.val+1,s.sem.sleeplist.erase p⟩
    rw [← pair.val,← pair.list]
  · cases ran

end Correctness

end SemaphoreAlerts
