import HonorKernel.Scheduler

-- Which process pick_next takes. timeload is an int that grows with every choice, and
-- nobody at 1000000 is chosen, so that it stops there.
namespace Scheduler
open DiskFormat

variable {n : Nat}

def maxLoad : Int := 1000000

-- A RUNNABLE process on the run queue.
def Ready (s : Sched n) (p : Nat) (x : Proc) : Prop := p ∈ s.rq ∧ s.procs p = some x ∧ x.state = .runnable

-- pick_next takes a RUNNABLE process with the least load, and the idle process only if
-- nobody is RUNNABLE.
def Picks (s : Sched n) (c : Fin n) : Prop :=
  ∃ p s', pickNext c s = .ok (p,s') ∧
    ((∃ q y, Ready s q y) → ∃ x, Ready s p x ∧ x.pid ≠ -1 ∧ ∀ q y, Ready s q y → x.timeload ≤ y.timeload) ∧
    (p = s.idle c → ∀ q y, ¬ Ready s q y)

def Light (s : Sched n) : Prop := (∃ q y, Ready s q y) → ∃ q y, Ready s q y ∧ y.timeload < maxLoad

section Choice
variable {s : Sched n} {c : Fin n}

theorem pickLoop_least (rq : List Nat) (known : ∀ p ∈ rq, ∃ x, s.procs p = some x) (selected : Option Nat)
    (minLoad : Int) :
    (pickLoop s rq selected minLoad = .ok selected ∧ ∀ q ∈ rq, ∀ y, s.procs q = some y → y.state = .runnable →
    minLoad ≤ y.timeload) ∨
    ∃ p x, pickLoop s rq selected minLoad = .ok (some p) ∧ p ∈ rq ∧ s.procs p = some x ∧ x.state = .runnable ∧
    x.timeload < minLoad ∧
      ∀ q ∈ rq, ∀ y, s.procs q = some y → y.state = .runnable → x.timeload ≤ y.timeload := by
  induction rq generalizing selected minLoad with
  | nil => exact .inl ⟨rfl,fun q member => absurd member List.not_mem_nil⟩
  | cons p rest ih =>
    obtain ⟨x,there⟩ := known p List.mem_cons_self
    have known' : ∀ q ∈ rest, ∃ x, s.procs q = some x := fun q listed => known q (List.mem_cons_of_mem _ listed)
    simp only [pickLoop,Sched.proc_ok.mpr there,bind,Except.bind]
    split
    · rename_i better
      rcases ih known' (some p) x.timeload with ⟨ran,least⟩ | ⟨r,z,ran,member,found,ready,less,least⟩
      · refine .inr ⟨p,x,ran,List.mem_cons_self,there,better.1,better.2,fun q member y found ready => ?_⟩
        rcases List.mem_cons.mp member with rfl | later
        · rw [there] at found
          cases found
          exact Int.le_refl _
        · exact least q later y found ready
      · refine .inr ⟨r,z,ran,List.mem_cons_of_mem _ member,found,ready,by omega,fun q member y found ready => ?_⟩
        rcases List.mem_cons.mp member with rfl | later
        · rw [there] at found
          cases found
          exact Int.le_of_lt less
        · exact least q later y found ready
    · rename_i worse
      have mine : ∀ y, s.procs p = some y → y.state = .runnable → minLoad ≤ y.timeload := by
        intro y found ready
        rw [there] at found
        cases found
        by_contra low
        exact worse ⟨ready,by omega⟩
      rcases ih known' selected minLoad with ⟨ran,least⟩ | ⟨r,z,ran,member,found,ready,less,least⟩
      · refine .inl ⟨ran,fun q member y found ready => ?_⟩
        rcases List.mem_cons.mp member with rfl | later
        · exact mine y found ready
        · exact least q later y found ready
      · refine .inr ⟨r,z,ran,List.mem_cons_of_mem _ member,found,ready,less,fun q member y found ready => ?_⟩
        rcases List.mem_cons.mp member with rfl | later
        · exact Int.le_of_lt (Int.lt_of_lt_of_le less (mine y found ready))
        · exact least q later y found ready

theorem picks_iff (known : ∀ p ∈ s.rq, ∃ x, s.procs p = some x ∧ x.pid ≠ -1) (idle : s.idle c ∉ s.rq) :
    Picks s c ↔ Light s := by
  rcases pickLoop_least s.rq (fun p member => (known p member).imp fun _ found => found.1) none maxLoad with
      ⟨ran,least⟩ | ⟨p,x,ran,member,found,ready,less,least⟩
  · have picked : pickNext c s = .ok (s.idle c,s) := by
      unfold pickNext
      rw [show pickLoop s s.rq none 1000000 = .ok none from ran]
      rfl
    constructor
    · rintro ⟨p,s',returned,_,last⟩ some
      rw [picked] at returned
      cases returned
      obtain ⟨q,y,ready⟩ := some
      exact absurd ready (last rfl q y)
    · intro light
      have nobody : ∀ q y, ¬ Ready s q y := by
        intro q y ready
        obtain ⟨r,z,⟨member,found,runnable⟩,low⟩ := light ⟨q,y,ready⟩
        exact absurd (least r member z found runnable) (by omega)
      refine ⟨s.idle c,s,picked,?_,fun _ => nobody⟩
      rintro ⟨q,y,ready⟩
      exact absurd ready (nobody q y)
  · have picked : pickNext c s = .ok (p,s.set p x.load) := by
      unfold pickNext
      rw [show pickLoop s s.rq none 1000000 = .ok (some p) from ran]
      simp only [bind,Except.bind,Sched.proc_ok.mpr found]
    have mine : Ready s p x := ⟨member,found,ready⟩
    refine iff_of_true ⟨p,_,picked,fun _ => ⟨x,mine,?_,fun q y other => least q other.1 y other.2.1 other.2.2⟩,
        ?_⟩ fun _ => ⟨p,x,mine,less⟩
    · obtain ⟨y,found',named⟩ := known p member
      rw [found] at found'
      cases found'
      exact named
    · rintro rfl
      exact absurd member idle

theorem Inv.idle_off (inv : Inv s) (c : Fin n) : s.idle c ∉ s.rq := by
  intro member
  obtain ⟨x,found,named⟩ := inv.members _ member
  obtain ⟨y,found',idle,_⟩ := inv.idle c
  rw [found] at found'
  cases found'
  exact named idle

theorem Leaves.known {x : Proc} {state : ProcState} {s₁ : Sched n} (inv : Inv s)
    (there : s.procs (s.thisproc c) = some x) (leaves : Leaves c x state s s₁) :
    ∀ p ∈ s₁.rq, ∃ y, s₁.procs p = some y ∧ y.pid ≠ -1 := by
  intro p member
  obtain ⟨y,found,named⟩ := inv.members p (leaves.members p member)
  rw [leaves.procs]
  by_cases this : p = s.thisproc c
  · subst this
    rw [there] at found
    cases found
    exact ⟨_,Function.update_self _ _ _,named⟩
  · exact ⟨y,(Function.update_of_ne this _ _).trans found,named⟩

end Choice

-- No counter of a process passes the bound, so that the int never overflows.
def Loads (s : Sched n) : Prop := ∀ p x, s.procs p = some x → x.pid ≠ -1 → 0 ≤ x.timeload ∧ x.timeload ≤ maxLoad

section Bound
variable {s s' : Sched n} {c : Fin n}

theorem Loads.set (loads : Loads s) (p : Nat) (y : Proc)
    (bound : y.pid ≠ -1 → 0 ≤ y.timeload ∧ y.timeload ≤ maxLoad) : Loads (s.set p y) := by
  intro q z found named
  by_cases same : q = p
  · subst same
    rw [s.set_self] at found
    cases found
    exact bound named
  · rw [s.set_other y same] at found
    exact loads q z found named

theorem Loads.pickNext {p : Nat} (loads : Loads s) (known : ∀ p ∈ s.rq, ∃ x, s.procs p = some x)
    (ran : pickNext c s = .ok (p,s')) : Loads s' := by
  unfold Scheduler.pickNext at ran
  rcases pickLoop_least s.rq known none maxLoad with ⟨picked,_⟩ | ⟨q,x,picked,_,found,_,less,_⟩
  · rw [show pickLoop s s.rq none 1000000 = .ok none from picked] at ran
    cases ran
    exact loads
  · rw [show pickLoop s s.rq none 1000000 = .ok (some q) from picked] at ran
    simp only [bind,Except.bind,Sched.proc_ok.mpr found] at ran
    cases ran
    refine loads.set _ x.load fun named => ?_
    have bound := loads _ x found named
    simp only [Proc.load]
    omega

theorem Loads.sched (loads : Loads s) (inv : Inv s) (ran : sched c state s = .ok s') : Loads s' := by
  obtain ⟨x,there,running⟩ := inv.current c
  simp only [Scheduler.sched,Sched.proc_ok.mpr there,bind,Except.bind] at ran
  rw [if_neg (by simp [running])] at ran
  split at ran
  · cases ran
    exact loads
  · obtain ⟨s₁,updated,leaves⟩ := updateThisState_leaves inv there state running
    have loads₁ : Loads s₁ := by
      intro q z found named
      rw [leaves.procs] at found
      by_cases this : q = s.thisproc c
      · subst this
        rw [Function.update_self] at found
        cases found
        exact loads _ x there named
      · rw [Function.update_of_ne this] at found
        exact loads q z found named
    have known : ∀ p ∈ s₁.rq, ∃ x, s₁.procs p = some x := fun p member => (leaves.known inv there p member).imp fun _ found => found.1
    rw [updated] at ran
    simp only at ran
    split at ran
    · cases ran
    · rename_i picked returned
      obtain ⟨p,s₂⟩ := picked
      have loads₂ := loads₁.pickNext known returned
      simp only at ran
      split at ran
      · cases ran
      · rename_i y found
        split at ran
        · cases ran
        · cases ran
          exact Loads.set (s := ⟨s₂.procs,s₂.rq,Function.update s₂.thisproc c p,s₂.idle⟩) loads₂ p
            (y.withState .running) fun named => loads₂ p y (Sched.proc_ok.mp found) named

theorem Loads.step (loads : Loads s) (inv : Inv s) (a : Action n) (ran : step s a = .ok s') : Loads s' := by
  cases a with
  | create p pid =>
    simp only [Scheduler.step] at ran
    split at ran
    · cases ran
      exact loads.set p _ fun _ => ⟨Int.le_refl _,show (0 : Int) ≤ maxLoad by decide⟩
    · cases ran
  | kill p =>
    obtain ⟨x,there,ran⟩ := Runs.bind_ok.mp ran
    cases ran
    exact loads.set p x.kill fun named => loads p x (Sched.proc_ok.mp there) named
  | activate p onalert =>
    obtain ⟨⟨woken,_⟩,activated,rfl⟩ := Runs.map_ok ran
    obtain ⟨x,there,activated⟩ := Runs.bind_ok.mp activated
    split at activated
    · cases activated
      exact loads
    · cases activated
      exact loads.set p (x.withState .runnable) fun named => loads p x (Sched.proc_ok.mp there) named
  | sched c state =>
    simp only [Scheduler.step] at ran
    split at ran
    · exact loads.sched inv ran
    · cases ran
  | reap p =>
    obtain ⟨x,there,ran⟩ := Runs.bind_ok.mp ran
    split at ran
    · cases ran
      intro q z found named
      by_cases same : q = p
      · subst same
        simp only [Function.update_self] at found
        cases found
      · simp only [Function.update_of_ne same] at found
        exact loads q z found named
    · cases ran

end Bound

-- pick_next is called in sched, behind update_this_state; between the sections it is
-- asked here too.
theorem least_loaded {idle : Fin n → Nat} {old : Fin n → Proc} {s : Sched n} (apart : Function.Injective idle)
    (run : Runs.Reached next (boot idle old) s) : Loads s ∧ (∀ c, Picks s c ↔ Light s) ∧
      ∀ c state s₁, mayCall s c state → updateThisState c state s = .ok s₁ → (Picks s₁ c ↔ Light s₁) := by
  obtain ⟨inv,loads⟩ := run.invariant (fun s => Inv s ∧ Loads s) ⟨boot_inv idle apart old,by
    intro p x found named
    obtain ⟨c,_,rfl⟩ := (boot_procs idle apart old p x).mp found
    exact absurd rfl named⟩ (by
    intro s a s' both _ ran
    exact ⟨step_inv both.1 a (Runs.toOption_some ran),both.2.step both.1 a (Runs.toOption_some ran)⟩)
  refine ⟨loads,fun c => picks_iff inv.members (inv.idle_off c),fun c state s₁ _ updated => ?_⟩
  obtain ⟨x,there,running⟩ := inv.current c
  obtain ⟨s₂,updated',leaves⟩ := updateThisState_leaves inv there state running
  rw [updated] at updated'
  cases updated'
  refine picks_iff (leaves.known inv there) fun member => ?_
  rw [leaves.idle] at member
  exact inv.idle_off c (leaves.members _ member)

-- Of two RUNNABLE processes the one that has run less.
theorem least_loaded_two : ∃ s : Sched 1, Runs.Reached next (boot (fun _ => 0) fun _ => ⟨.unused,false,0,0⟩) s ∧
    (∃ x y, Ready s 5 x ∧ Ready s 6 y ∧ y.timeload < x.timeload) ∧ Picks s 0 := by
  obtain ⟨s,ran,facts⟩ := Runs.some_such
    (x := Runs.exec next (boot (n := 1) (fun _ => 0) fun _ => ⟨.unused,false,0,0⟩)
      [.create 5 1,.activate 5 false,.sched 0 .runnable,.sched 0 .sleeping,.activate 5 false,.create 6 2,.activate 6 false])
    (p := fun s => decide (5 ∈ s.rq ∧ 6 ∈ s.rq ∧ s.procs 5 = some ⟨.runnable,false,1,1⟩ ∧ s.procs 6 = some
        ⟨.runnable,false,2,0⟩)) (by decide +kernel)
  obtain ⟨five,six,first,second⟩ := of_decide_eq_true facts
  have path := Runs.exec_reached .start ran
  have light : Light s := fun _ => ⟨6,_,⟨six,second,rfl⟩,show (0 : Int) < maxLoad by decide⟩
  refine ⟨s,path,⟨_,_,⟨five,first,rfl⟩,⟨six,second,rfl⟩,show (0 : Int) < 1 by decide⟩,?_⟩
  exact ((least_loaded (fun c d _ => Subsingleton.elim c d) path).2.1 0).mpr light

-- One process that gives up the CPU again and again, when it has been chosen `k` times.
structure Busy (s : Sched 1) (k : Int) : Prop where
  busy : s.procs 5 = some ⟨.running,false,1,k⟩
  idle : ∃ x, s.procs 0 = some x ∧ x.state = .runnable
  queue : s.rq = [5]
  this : s.thisproc 0 = 5
  home : s.idle 0 = 0

theorem sched_picked {s s₁ s₂ : Sched n} {c : Fin n} {x y : Proc} {p : Nat} (there : s.procs (s.thisproc c) = some x)
    (running : x.state = .running) (alive : x.killed = false) (updated : updateThisState c state s = .ok s₁)
    (picked : pickNext c s₁ = .ok (p,s₂)) (found : s₂.procs p = some y) (ready : y.state = .runnable) :
    sched c state s = .ok (Sched.set ⟨s₂.procs,s₂.rq,Function.update s₂.thisproc c p,s₂.idle⟩ p (y.withState .running)) := by
  have here : Sched.proc ⟨s₂.procs,s₂.rq,Function.update s₂.thisproc c p,s₂.idle⟩ p = .ok y := Sched.proc_ok.mpr found
  simp only [sched,Sched.proc_ok.mpr there,bind,Except.bind]
  rw [if_neg (by simp [running]),if_neg (by simp [alive]),updated]
  simp only [picked,here]
  rw [if_neg (by simp [ready])]

theorem Busy.turn {s : Sched 1} {k : Int} (busy : Busy s k) : ∃ s', next s (.sched 0 .runnable) = some s' ∧
    (k < maxLoad → Busy s' (k+1)) ∧ (¬ k < maxLoad → s'.rq = [5] ∧ s'.procs 5 = some ⟨.runnable,false,1,k⟩) := by
  obtain ⟨x,idle,ready⟩ := busy.idle
  have may : mayCall s 0 .runnable := ⟨.inl rfl,fun _ => rfl⟩
  have start : next s (.sched 0 .runnable) = (sched 0 .runnable s).toOption := by
    change Except.toOption (if mayCall s 0 .runnable then sched 0 .runnable s else .error .blocked) = _
    rw [if_pos may]
  obtain ⟨s₁,is⟩ : ∃ s₁, s₁ = s.set 5 ⟨.runnable,false,1,k⟩ := ⟨_,rfl⟩
  have mine : s₁.procs 5 = some ⟨.runnable,false,1,k⟩ := by rw [is,s.set_self]
  have other : s₁.procs 0 = some x := by rw [is,s.set_other _ (by decide),idle]
  have queue : s₁.rq = [5] := by rw [is]; exact busy.queue
  have home : s₁.idle 0 = 0 := by rw [is]; exact busy.home
  have updated : updateThisState 0 .runnable s = .ok s₁ := by
    simp [updateThisState,busy.this,Sched.proc_ok.mpr busy.busy,bind,Except.bind,ProcState.queued,Proc.withState,is]
  by_cases low : k < maxLoad
  · have picked : pickNext 0 s₁ = .ok (5,s₁.set 5 ⟨.runnable,false,1,k+1⟩) := by
      simp [pickNext,queue,pickLoop,Sched.proc_ok.mpr mine,bind,Except.bind,Proc.load,show k < 1000000 from low]
    have ran := sched_picked (by rw [busy.this]; exact busy.busy) rfl rfl updated picked (s₁.set_self _ _) rfl
    have idle' : (s₁.set 5 ⟨.runnable,false,1,k+1⟩).procs 0 = some x := by
      rw [s₁.set_other _ (by decide),other]
    refine ⟨_,start.trans (congrArg Except.toOption ran),fun _ => ⟨Sched.set_self _ _ _,⟨x,?_,ready⟩,queue,?_,home⟩,
        fun high => absurd low high⟩
    · exact (Sched.set_other (p := 5) (q := 0) _ _ (by decide)).trans idle'
    · simp [Sched.set]
  · have picked : pickNext 0 s₁ = .ok (0,s₁) := by
      simp [pickNext,queue,pickLoop,Sched.proc_ok.mpr mine,bind,Except.bind,home,show ¬ k < 1000000 from low]
    have ran := sched_picked (by rw [busy.this]; exact busy.busy) rfl rfl updated picked other ready
    refine ⟨_,start.trans (congrArg Except.toOption ran),fun low' => absurd low' low,fun _ => ⟨queue,?_⟩⟩
    exact (Sched.set_other (p := 0) (q := 5) _ _ (by decide)).trans mine

theorem busy_reached (k : Nat) (below : (k : Int) < maxLoad) :
    ∃ s, Runs.Reached next (boot (fun _ => 0) fun _ => ⟨.unused,false,0,0⟩) s ∧ Busy s (k+1) := by
  induction k with
  | zero =>
    obtain ⟨s,ran,facts⟩ := Runs.some_such
      (x := Runs.exec next (boot (n := 1) (fun _ => 0) fun _ => ⟨.unused,false,0,0⟩) [.create 5 1,.activate 5 false,
          .sched 0 .runnable])
      (p := fun s => decide (s.procs 5 = some ⟨.running,false,1,1⟩ ∧ s.procs 0 = some ⟨.runnable,false,-1,0⟩ ∧ s.rq = [5] ∧
        s.thisproc 0 = 5 ∧ s.idle 0 = 0)) (by decide +kernel)
    obtain ⟨five,zero,queue,this,home⟩ := of_decide_eq_true facts
    exact ⟨s,Runs.exec_reached .start ran,five,⟨_,zero,rfl⟩,queue,this,home⟩
  | succ k ih =>
    push_cast at below
    obtain ⟨s,path,busy⟩ := ih (by omega)
    obtain ⟨s',ran,later,_⟩ := busy.turn
    refine ⟨s',.step path trivial ran,?_⟩
    push_cast
    exact later below

-- Chosen 1000000 times, the only process is never chosen again.
theorem idle_while_runnable : ¬ ∀ s : Sched 1, Runs.Reached next (boot (fun _ => 0) fun _ => ⟨.unused,false,0,0⟩) s →
    ∀ c, Picks s c := by
  intro picks
  obtain ⟨s,path,busy⟩ := busy_reached 999999 (by decide)
  obtain ⟨s',ran,_,stuck⟩ := busy.turn
  obtain ⟨queue,heavy⟩ := stuck (by decide)
  have path' := path.step trivial ran
  have light := ((least_loaded (fun c d _ => Subsingleton.elim c d) path').2.1 0).mp (picks s' path' 0)
  have mine : Ready s' 5 ⟨.runnable,false,1,((999999 : Nat) : Int)+1⟩ := ⟨by rw [queue]; decide,heavy,rfl⟩
  obtain ⟨q,y,⟨member,found,_⟩,low⟩ := light ⟨5,_,mine⟩
  rw [queue,List.mem_singleton] at member
  subst member
  rw [heavy] at found
  cases found
  exact absurd low (by decide)

end Scheduler
