import HonorKernel.DiskFormat
import HonorKernel.Runs

-- kernel/sched.c, one section under the scheduler lock at a time. A process is known by
-- the address of its Proc; `none` is memory that is no Proc (any more).
namespace Scheduler
open DiskFormat

inductive ProcState where
  | unused | runnable | running | sleeping | deepsleeping | zombie
  deriving DecidableEq

-- The states of the processes on the run queue.
def ProcState.queued : ProcState → Bool
  | .runnable | .running => true
  | _ => false

-- Idle processes have pid -1.
structure Proc where
  state : ProcState
  killed : Bool
  pid : Int
  timeload : Int
  deriving DecidableEq

def Proc.withState (x : Proc) (state : ProcState) : Proc := ⟨state,x.killed,x.pid,x.timeload⟩
def Proc.kill (x : Proc) : Proc := ⟨x.state,true,x.pid,x.timeload⟩
def Proc.load (x : Proc) : Proc := ⟨x.state,x.killed,x.pid,x.timeload+1⟩

structure Sched (n : Nat) where
  procs : Nat → Option Proc
  rq : List Nat
  thisproc : Fin n → Nat
  idle : Fin n → Nat

variable {n : Nat}

def Sched.proc (s : Sched n) (p : Nat) : Except Fault Proc :=
  match s.procs p with
  | some x => .ok x
  | none => .error .dangling

def Sched.set (s : Sched n) (p : Nat) (x : Proc) : Sched n := ⟨Function.update s.procs p (some x),s.rq,s.thisproc,s.idle⟩
def Sched.withQueue (s : Sched n) (rq : List Nat) : Sched n := ⟨s.procs,rq,s.thisproc,s.idle⟩

-- _insert_into_list puts a node right behind the head, _detach_from_list takes it out.
def activateProc (p : Nat) (onalert : Bool) (s : Sched n) : Except Fault (Bool × Sched n) := do
  let x ← s.proc p
  if x.state = .running ∨ x.state = .runnable ∨ x.state = .zombie ∨ (x.state = .deepsleeping ∧ onalert = true) then .ok (false,s)
  else .ok (true,(s.set p (x.withState .runnable)).withQueue (p::s.rq))

def updateThisState (c : Fin n) (state : ProcState) (s : Sched n) : Except Fault (Sched n) := do
  let this := s.thisproc c
  let x ← s.proc this
  let s' := s.set this (x.withState state)
  if x.pid = -1 then .ok s'
  else if x.state.queued ∧ ¬ state.queued then .ok (s'.withQueue (s.rq.erase this))
  else if ¬ x.state.queued ∧ state.queued then .ok (s'.withQueue (this::s.rq))
  else .ok s'

-- The walk over rq with `selected_proc` and `min_load`.
def pickLoop (s : Sched n) : List Nat → Option Nat → Int → Except Fault (Option Nat)
  | [],selected,_ => .ok selected
  | p::rest,selected,minLoad => do
    let x ← s.proc p
    if x.state = .runnable ∧ x.timeload < minLoad then pickLoop s rest (some p) x.timeload
    else pickLoop s rest selected minLoad

def pickNext (c : Fin n) (s : Sched n) : Except Fault (Nat × Sched n) := do
  let selected ← pickLoop s s.rq none 1000000
  match selected with
  | none => .ok (s.idle c,s)
  | some p => do
    let x ← s.proc p
    .ok (p,s.set p x.load)

def sched (c : Fin n) (state : ProcState) (s : Sched n) : Except Fault (Sched n) := do
  let this ← s.proc (s.thisproc c)
  if this.state ≠ .running then .error .assertion
  else if this.killed = true ∧ state ≠ .zombie then .ok s
  else do
    let s ← updateThisState c state s
    let (p,s) ← pickNext c s
    let s : Sched n := ⟨s.procs,s.rq,Function.update s.thisproc c p,s.idle⟩
    let x ← s.proc p
    if x.state ≠ .runnable then .error .assertion
    else .ok (s.set p (x.withState .running))

-- init_proc, kill's flag, _activate_proc, sched by the process of a CPU, and the end of
-- a zombie in wait.
inductive Action (n : Nat) where
  | create (p : Nat) (pid : Int)
  | kill (p : Nat)
  | activate (p : Nat) (onalert : Bool)
  | sched (c : Fin n) (state : ProcState)
  | reap (p : Nat)

def mayCall (s : Sched n) (c : Fin n) (state : ProcState) : Prop :=
  (state = .runnable ∨ state = .sleeping ∨ state = .deepsleeping ∨ state = .zombie) ∧
  (s.thisproc c = s.idle c → state = .runnable)

instance (s : Sched n) (c : Fin n) (state : ProcState) : Decidable (mayCall s c state) :=
  inferInstanceAs (Decidable ((state = .runnable ∨ state = .sleeping ∨ state = .deepsleeping ∨ state = .zombie) ∧
    (s.thisproc c = s.idle c → state = .runnable)))

def step (s : Sched n) : Action n → Except Fault (Sched n)
  | .create p pid =>
    if s.procs p = none ∧ pid ≠ -1 then .ok (s.set p ⟨.unused,false,pid,0⟩) else .error .blocked
  | .kill p => do
    let x ← s.proc p
    .ok (s.set p x.kill)
  | .activate p onalert => (·.2) <$> activateProc p onalert s
  | .sched c state => if mayCall s c state then sched c state s else .error .blocked
  | .reap p => do
    let x ← s.proc p
    if x.state = .zombie then .ok ⟨Function.update s.procs p none,s.rq.erase p,s.thisproc,s.idle⟩ else .error .blocked

def next (s : Sched n) (a : Action n) : Option (Sched n) := (step s a).toOption

-- init_sched: the idle processes are fresh memory, so their other fields hold anything.
def boot (idle : Fin n → Nat) (old : Fin n → Proc) : Sched n :=
  ⟨fun p => ((List.finRange n).find? fun c => decide (idle c = p)).map fun c =>
      ⟨.running,(old c).killed,-1,(old c).timeload⟩,[],idle,idle⟩

structure Inv (s : Sched n) : Prop where
  linked : ∀ p x, s.procs p = some x → x.pid ≠ -1 → s.rq.count p = if x.state.queued then 1 else 0
  members : ∀ p ∈ s.rq, ∃ x, s.procs p = some x ∧ x.pid ≠ -1
  current : ∀ c, ∃ x, s.procs (s.thisproc c) = some x ∧ x.state = .running
  running : ∀ p x, s.procs p = some x → x.state = .running → ∃ c, s.thisproc c = p
  once : Function.Injective s.thisproc
  idle : ∀ c, ∃ x, s.procs (s.idle c) = some x ∧ x.pid = -1 ∧ (x.state = .running ∨ x.state = .runnable)
  idles : ∀ p x, s.procs p = some x → x.pid = -1 → ∃ c, s.idle c = p
  apart : Function.Injective s.idle
  own : ∀ c d, s.thisproc c = s.idle d → c = d

section Parts
variable {s s' : Sched n}

theorem Sched.proc_ok : s.proc p = .ok x ↔ s.procs p = some x := by
  unfold Sched.proc
  cases s.procs p with
  | none => simp
  | some y => simp

theorem Sched.set_self (s : Sched n) (p : Nat) (x : Proc) : (s.set p x).procs p = some x := Function.update_self _ _ _

theorem Sched.set_other (s : Sched n) (x : Proc) (other : q ≠ p) : (s.set p x).procs q = s.procs q := Function.update_of_ne other _ _

theorem Inv.idle_runnable (inv : Inv s) (away : s.thisproc c ≠ s.idle c) (there : s.procs (s.idle c) = some x) :
    x.state = .runnable := by
  obtain ⟨y,found,_,state⟩ := inv.idle c
  rw [there] at found
  cases found
  refine state.resolve_left ?_
  intro running
  obtain ⟨d,same⟩ := inv.running _ _ there running
  have := inv.own d c same
  rw [this] at same
  exact away same

-- One process changes in a way that keeps its pid, its place on the queue and whether
-- it is RUNNING.
theorem Inv.set (inv : Inv s) (there : s.procs p = some x) (y : Proc) (pid : y.pid = x.pid)
    (queued : y.state.queued = x.state.queued) (running : y.state = .running ↔ x.state = .running) :
    Inv (s.set p y) := by
  refine ⟨?_,?_,?_,?_,inv.once,?_,?_,inv.apart,inv.own⟩
  · intro q z found notIdle
    by_cases same : q = p
    · subst same
      rw [s.set_self] at found
      cases found
      rw [queued]
      exact inv.linked q x there (by rw [← pid]; exact notIdle)
    · rw [s.set_other y same] at found
      exact inv.linked q z found notIdle
  · intro q member
    obtain ⟨z,found,notIdle⟩ := inv.members q member
    by_cases same : q = p
    · subst same
      rw [there] at found
      cases found
      exact ⟨y,s.set_self q y,by rw [pid]; exact notIdle⟩
    · exact ⟨z,(s.set_other y same).trans found,notIdle⟩
  · intro c
    obtain ⟨z,found,state⟩ := inv.current c
    by_cases same : s.thisproc c = p
    · rw [same,there] at found
      cases found
      refine ⟨y,?_,running.mpr state⟩
      change (s.set p y).procs (s.thisproc c) = _
      rw [same]
      exact s.set_self p y
    · exact ⟨z,(s.set_other y same).trans found,state⟩
  · intro q z found state
    by_cases same : q = p
    · subst same
      rw [s.set_self] at found
      cases found
      exact inv.running q x there (running.mp state)
    · rw [s.set_other y same] at found
      exact inv.running q z found state
  · intro c
    obtain ⟨z,found,idle,state⟩ := inv.idle c
    by_cases same : s.idle c = p
    · rw [same,there] at found
      cases found
      refine ⟨y,?_,by rw [pid]; exact idle,?_⟩
      · change (s.set p y).procs (s.idle c) = _
        rw [same]
        exact s.set_self p y
      · rcases state with state | state
        · exact .inl (running.mpr state)
        · have place : y.state.queued = true := by rw [queued,state]; rfl
          have still : y.state ≠ .running := fun now => by rw [running.mp now] at state; cases state
          revert place still
          cases y.state <;> simp [ProcState.queued]
    · exact ⟨z,(s.set_other y same).trans found,idle,state⟩
  · intro q z found idle
    by_cases same : q = p
    · subst same
      rw [s.set_self] at found
      cases found
      exact inv.idles q x there (by rw [← pid]; exact idle)
    · rw [s.set_other y same] at found
      exact inv.idles q z found idle

end Parts

-- What update_this_state leaves: the process of CPU `c` in its new state, and off the
-- queue unless it stays RUNNABLE.
structure Leaves (c : Fin n) (x : Proc) (state : ProcState) (s s' : Sched n) : Prop where
  procs : s'.procs = Function.update s.procs (s.thisproc c) (some (x.withState state))
  thisproc : s'.thisproc = s.thisproc
  idle : s'.idle = s.idle
  queue : ∀ p, s'.rq.count p = if p = s.thisproc c ∧ x.pid ≠ -1 ∧ state.queued = false then 0 else s.rq.count p
  members : ∀ p ∈ s'.rq, p ∈ s.rq

section Switches
variable {s s' : Sched n} {c : Fin n} {x : Proc}

theorem updateThisState_leaves (inv : Inv s) (there : s.procs (s.thisproc c) = some x) (state : ProcState)
    (running : x.state = .running) :
    ∃ s', updateThisState c state s = .ok s' ∧ Leaves c x state s s' := by
  have queued : x.state.queued = true := by rw [running]; rfl
  simp only [updateThisState,Sched.proc_ok.mpr there,bind,Except.bind]
  by_cases idle : x.pid = -1
  · rw [if_pos idle]
    refine ⟨_,rfl,rfl,rfl,rfl,?_,fun p member => member⟩
    intro p
    rw [if_neg (fun both => both.2.1 idle)]
    rfl
  · rw [if_neg idle]
    by_cases stays : state.queued = true
    · rw [if_neg (by simp [stays]),if_neg (by simp [queued])]
      refine ⟨_,rfl,rfl,rfl,rfl,?_,fun p member => member⟩
      intro p
      rw [if_neg (by simp [stays])]
      rfl
    · rw [if_pos ⟨queued,stays⟩]
      refine ⟨_,rfl,rfl,rfl,rfl,?_,fun p member => List.mem_of_mem_erase member⟩
      intro p
      change (s.rq.erase (s.thisproc c)).count p = _
      have leaves : state.queued = false := by simpa using stays
      by_cases same : p = s.thisproc c
      · subst same
        have once := inv.linked _ x there idle
        rw [queued] at once
        rw [if_pos ⟨rfl,idle,leaves⟩,List.count_erase_self,once]
        rfl
      · rw [if_neg (fun both => same both.1),List.count_erase_of_ne same]

theorem pickLoop_spec {P : Nat → Prop} (rq : List Nat) (known : ∀ p ∈ rq, ∃ x, s.procs p = some x)
    (selected : Option Nat) (minLoad : Int) (before : ∀ p, selected = some p → ∃ x, s.procs p = some x ∧
    x.state = .runnable ∧ P p) (member : ∀ p ∈ rq, P p) :
    ∃ r, pickLoop s rq selected minLoad = .ok r ∧ ∀ p, r = some p → ∃ x, s.procs p = some x ∧ x.state = .runnable ∧
    P p := by
  induction rq generalizing selected minLoad with
  | nil => exact ⟨selected,rfl,before⟩
  | cons p rest ih =>
    obtain ⟨x,there⟩ := known p List.mem_cons_self
    have known' : ∀ q ∈ rest, ∃ x, s.procs q = some x := fun q listed => known q (List.mem_cons_of_mem _ listed)
    have member' : ∀ q ∈ rest, P q := fun q listed => member q (List.mem_cons_of_mem _ listed)
    simp only [pickLoop,Sched.proc_ok.mpr there,bind,Except.bind]
    split
    · rename_i better
      refine ih known' (some p) x.timeload ?_ member'
      intro q same
      cases same
      exact ⟨x,there,better.1,member p List.mem_cons_self⟩
    · exact ih known' selected minLoad before member'

-- CPU `c` goes from its process to `q`, which is `y` before and `y'` after the switch.
structure Switches (c : Fin n) (x : Proc) (state : ProcState) (q : Nat) (y y' : Proc) (s s₁ : Sched n) : Prop where
  there : s.procs (s.thisproc c) = some x
  running : x.state = .running
  may : mayCall s c state
  leaves : Leaves c x state s s₁
  chosen : s₁.procs q = some y
  ready : y.state = .runnable
  idle : y.pid = -1 → q = s.idle c
  pid : y'.pid = y.pid
  now : y'.state = .running

section Switched
variable {s₁ : Sched n} {state : ProcState} {p q : Nat} {y y' z : Proc}

-- Any process in the new state: the chosen one, the one that left, or an untouched one.
theorem Switches.look (switches : Switches c x state q y y' s s₁)
    (found : Function.update s₁.procs q (some y') p = some z) :
    (p = q ∧ z = y') ∨ (p ≠ q ∧ p = s.thisproc c ∧ z = x.withState state) ∨
    (p ≠ q ∧ p ≠ s.thisproc c ∧ s.procs p = some z) := by
  by_cases same : p = q
  · rw [same,Function.update_self] at found
    exact .inl ⟨same,(Option.some.inj found).symm⟩
  · rw [Function.update_of_ne same,switches.leaves.procs] at found
    by_cases this : p = s.thisproc c
    · rw [this,Function.update_self] at found
      exact .inr (.inl ⟨same,this,(Option.some.inj found).symm⟩)
    · rw [Function.update_of_ne this] at found
      exact .inr (.inr ⟨same,this,found⟩)

theorem Switches.untouched (switches : Switches c x state q y y' s s₁) (same : p ≠ q) (this : p ≠ s.thisproc c) :
    Function.update s₁.procs q (some y') p = s.procs p := by
  rw [Function.update_of_ne same,switches.leaves.procs,Function.update_of_ne this]

theorem Switches.left (switches : Switches c x state q y y' s s₁) (same : s.thisproc c ≠ q) :
    Function.update s₁.procs q (some y') (s.thisproc c) = some (x.withState state) := by
  rw [Function.update_of_ne same,switches.leaves.procs,Function.update_self]

-- The chosen process: the old one, still RUNNABLE, or one that was on no CPU.
theorem Switches.origin (switches : Switches c x state q y y' s s₁) : (q = s.thisproc c ∧ y = x.withState state) ∨
    (q ≠ s.thisproc c ∧ s.procs q = some y) := by
  have chosen := switches.chosen
  rw [switches.leaves.procs] at chosen
  by_cases this : q = s.thisproc c
  · rw [this,Function.update_self] at chosen
    exact .inl ⟨this,(Option.some.inj chosen).symm⟩
  · rw [Function.update_of_ne this] at chosen
    exact .inr ⟨this,chosen⟩

theorem Switches.kept_pid (switches : Switches c x state q y y' s s₁) (was : s.procs q = some z) : y.pid = z.pid := by
  rcases switches.origin with ⟨this,rfl⟩ | ⟨_,was'⟩
  · rw [this,switches.there] at was
    cases was
    rfl
  · rw [was'] at was
    cases was
    rfl

theorem Switches.elsewhere (switches : Switches c x state q y y' s s₁) (inv : Inv s) {d : Fin n} (other : d ≠ c) :
    s.thisproc d ≠ s.thisproc c ∧ s.thisproc d ≠ q := by
  refine ⟨fun same => other (inv.once same),?_⟩
  intro same
  obtain ⟨z,found,state'⟩ := inv.current d
  rw [same] at found
  rcases switches.origin with ⟨this,_⟩ | ⟨_,was⟩
  · exact other (inv.once (same.trans this))
  · rw [was] at found
    cases found
    rw [switches.ready] at state'
    cases state'

theorem Switches.linked (switches : Switches c x state q y y' s s₁) (inv : Inv s)
    (found : Function.update s₁.procs q (some y') p = some z) (notIdle : z.pid ≠ -1) :
    s₁.rq.count p = if z.state.queued = true then 1 else 0 := by
  rw [switches.leaves.queue p]
  rcases switches.look found with ⟨same,rfl⟩ | ⟨_,this,rfl⟩ | ⟨_,this,was⟩
  · subst same
    have queued : z.state.queued = true := by rw [switches.now]; rfl
    rw [queued]
    rcases switches.origin with ⟨this,rfl⟩ | ⟨this,was⟩
    · have same : state = .runnable := switches.ready
      rw [if_neg (by simp [same,ProcState.queued]),this,inv.linked _ x switches.there
          (by rw [switches.pid] at notIdle; exact notIdle),switches.running]
      rfl
    · rw [if_neg (fun both => this both.1),inv.linked p y was (by rw [← switches.pid]; exact notIdle),switches.ready]
      rfl
  · have once := inv.linked _ x switches.there notIdle
    rw [switches.running] at once
    change _ = if state.queued = true then 1 else 0
    cases queued : state.queued with
    | true => rw [if_neg (by simp),this,once]; rfl
    | false => rw [if_pos ⟨this,notIdle,rfl⟩]; rfl
  · rw [if_neg (fun both => this both.1)]
    exact inv.linked p z was notIdle

theorem Switches.members (switches : Switches c x state q y y' s s₁) (inv : Inv s) (member : p ∈ s₁.rq) :
    ∃ z, Function.update s₁.procs q (some y') p = some z ∧ z.pid ≠ -1 := by
  obtain ⟨z,was,notIdle⟩ := inv.members p (switches.leaves.members p member)
  by_cases same : p = q
  · rw [same] at was
    refine ⟨y',by rw [same,Function.update_self],?_⟩
    rw [switches.pid,switches.kept_pid was]
    exact notIdle
  · by_cases this : p = s.thisproc c
    · rw [this,switches.there] at was
      cases was
      rw [this] at same ⊢
      exact ⟨x.withState state,switches.left same,notIdle⟩
    · exact ⟨z,(switches.untouched same this).trans was,notIdle⟩

theorem Switches.current (switches : Switches c x state q y y' s s₁) (inv : Inv s) (d : Fin n) :
    ∃ z, Function.update s₁.procs q (some y') (Function.update s.thisproc c q d) = some z ∧ z.state = .running := by
  by_cases here : d = c
  · subst here
    exact ⟨y',by rw [Function.update_self,Function.update_self],switches.now⟩
  · obtain ⟨z,was,state'⟩ := inv.current d
    obtain ⟨notThis,notChosen⟩ := switches.elsewhere inv here
    refine ⟨z,?_,state'⟩
    rw [Function.update_of_ne here,switches.untouched notChosen notThis]
    exact was

theorem Switches.runs (switches : Switches c x state q y y' s s₁) (inv : Inv s)
    (found : Function.update s₁.procs q (some y') p = some z) (state' : z.state = .running) :
    ∃ d, Function.update s.thisproc c q d = p := by
  rcases switches.look found with ⟨same,_⟩ | ⟨_,_,rfl⟩ | ⟨_,this,was⟩
  · exact ⟨c,by rw [Function.update_self]; exact same.symm⟩
  · have stopped : state = .running := state'
    subst stopped
    rcases switches.may.1 with same | same | same | same <;> cases same
  · obtain ⟨d,at_⟩ := inv.running p z was state'
    have other : d ≠ c := by
      intro same
      rw [same] at at_
      exact this at_.symm
    exact ⟨d,by rw [Function.update_of_ne other]; exact at_⟩

theorem Switches.once (switches : Switches c x state q y y' s s₁) (inv : Inv s) {d e : Fin n}
    (same : Function.update s.thisproc c q d = Function.update s.thisproc c q e) : d = e := by
  by_cases left : d = c
  · by_cases right : e = c
    · rw [left,right]
    · rw [left,Function.update_self,Function.update_of_ne right] at same
      exact absurd same.symm (switches.elsewhere inv right).2
  · by_cases right : e = c
    · rw [right,Function.update_self,Function.update_of_ne left] at same
      exact absurd same (switches.elsewhere inv left).2
    · rw [Function.update_of_ne left,Function.update_of_ne right] at same
      exact inv.once same

theorem Switches.idle_there (switches : Switches c x state q y y' s s₁) (inv : Inv s) (d : Fin n) :
    ∃ z, Function.update s₁.procs q (some y') (s.idle d) = some z ∧ z.pid = -1 ∧
    (z.state = .running ∨ z.state = .runnable) := by
  obtain ⟨z,was,idle',state'⟩ := inv.idle d
  by_cases same : s.idle d = q
  · rw [same] at was ⊢
    refine ⟨y',Function.update_self ..,?_,.inl switches.now⟩
    rw [switches.pid,switches.kept_pid was]
    exact idle'
  · by_cases this : s.idle d = s.thisproc c
    · have home := inv.own c d this.symm
      subst home
      rw [this,switches.there] at was
      cases was
      refine ⟨x.withState state,?_,idle',.inr (switches.may.2 this.symm)⟩
      rw [this] at same ⊢
      exact switches.left same
    · exact ⟨z,(switches.untouched same this).trans was,idle',state'⟩

theorem Switches.idles (switches : Switches c x state q y y' s s₁) (inv : Inv s)
    (found : Function.update s₁.procs q (some y') p = some z) (idle' : z.pid = -1) :
    ∃ d, s.idle d = p := by
  rcases switches.look found with ⟨same,rfl⟩ | ⟨_,this,rfl⟩ | ⟨_,_,was⟩
  · exact ⟨c,(same.trans (switches.idle (by rw [← switches.pid]; exact idle'))).symm⟩
  · rw [this]
    exact inv.idles _ x switches.there idle'
  · exact inv.idles p z was idle'

theorem Switches.own (switches : Switches c x state q y y' s s₁) (inv : Inv s) {d e : Fin n}
    (same : Function.update s.thisproc c q d = s.idle e) : d = e := by
  by_cases here : d = c
  · subst here
    rw [Function.update_self] at same
    obtain ⟨z,was,idle',_⟩ := inv.idle e
    rw [← same] at was
    exact inv.apart ((switches.idle ((switches.kept_pid was).trans idle')).symm.trans same)
  · rw [Function.update_of_ne here] at same
    exact inv.own d e same

theorem switch_inv (inv : Inv s) (switches : Switches c x state q y y' s s₁) :
    Inv ⟨Function.update s₁.procs q (some y'),s₁.rq,Function.update s₁.thisproc c q,s₁.idle⟩ := by
  rw [switches.leaves.thisproc,switches.leaves.idle]
  exact ⟨fun _ _ found notIdle => switches.linked inv found notIdle,fun _ member => switches.members inv member,switches.current inv,
    fun _ _ found state' => switches.runs inv found state',fun _ _ same => switches.once inv same,switches.idle_there inv,
    fun _ _ found idle' => switches.idles inv found idle',inv.apart,fun _ _ same => switches.own inv same⟩

end Switched

theorem sched_inv (inv : Inv s) (may : mayCall s c state) : ∃ s', sched c state s = .ok s' ∧ Inv s' := by
  obtain ⟨x,there,running⟩ := inv.current c
  simp only [sched,Sched.proc_ok.mpr there,bind,Except.bind]
  rw [if_neg (by simp [running])]
  by_cases killed : x.killed = true ∧ state ≠ .zombie
  · rw [if_pos killed]
    exact ⟨s,rfl,inv⟩
  · rw [if_neg killed]
    obtain ⟨s₁,updated,leaves⟩ := updateThisState_leaves inv there state running
    have known : ∀ p ∈ s₁.rq, ∃ x, s₁.procs p = some x := by
      intro p member
      obtain ⟨z,was,_⟩ := inv.members p (leaves.members p member)
      rw [leaves.procs]
      by_cases this : p = s.thisproc c
      · exact ⟨_,by rw [this,Function.update_self]⟩
      · exact ⟨z,by rw [Function.update_of_ne this]; exact was⟩
    obtain ⟨selected,picked,good⟩ := pickLoop_spec (P := fun p => p ∈ s₁.rq) s₁.rq known none 1000000
      (fun p none => by cases none) (fun p member => member)
    rw [updated]
    simp only [pickNext,picked,bind,Except.bind]
    cases selected with
    | none =>
      -- Nobody is RUNNABLE: the CPU's idle process goes on.
      have home : ∃ y, s₁.procs (s.idle c) = some y ∧ y.state = .runnable := by
        obtain ⟨z,was,_⟩ := inv.idle c
        rw [leaves.procs]
        by_cases this : s.idle c = s.thisproc c
        · exact ⟨x.withState state,by rw [this,Function.update_self],may.2 this.symm⟩
        · exact ⟨z,by rw [Function.update_of_ne this]; exact was,inv.idle_runnable (Ne.symm this) was⟩
      obtain ⟨y,chosen,ready⟩ := home
      simp only [leaves.idle]
      rw [Sched.proc_ok.mpr (show (Sched.mk s₁.procs s₁.rq (Function.update s₁.thisproc c (s.idle c)) s.idle).procs
          (s.idle c) = some y from chosen)]
      simp only
      rw [if_neg (by simp [ready])]
      refine ⟨_,rfl,?_⟩
      have switches : Switches c x state (s.idle c) y (y.withState .running) s s₁ :=
          ⟨there,running,may,leaves,chosen,ready,fun _ => rfl,rfl,rfl⟩
      have done := switch_inv inv switches
      rw [leaves.idle] at done
      exact done
    | some q =>
      obtain ⟨y,chosen,ready,queued⟩ := good q rfl
      simp only
      rw [Sched.proc_ok.mpr chosen]
      simp only
      have loaded : (Sched.mk (s₁.set q y.load).procs (s₁.set q y.load).rq (Function.update (s₁.set q y.load).thisproc c q)
          (s₁.set q y.load).idle).procs q = some y.load := s₁.set_self q y.load
      rw [Sched.proc_ok.mpr loaded]
      simp only
      rw [if_neg (by simp [Proc.load,ready])]
      refine ⟨_,rfl,?_⟩
      have notIdle : y.pid ≠ -1 := by
        obtain ⟨z,was,notIdle⟩ := inv.members q (leaves.members q queued)
        rw [leaves.procs] at chosen
        by_cases this : q = s.thisproc c
        · rw [this,Function.update_self] at chosen
          cases chosen
          rw [this,there] at was
          cases was
          exact notIdle
        · rw [Function.update_of_ne this,was] at chosen
          cases chosen
          exact notIdle
      have switches : Switches c x state q y (y.load.withState .running) s s₁ :=
        ⟨there,running,may,leaves,chosen,ready,fun idle => absurd idle notIdle,rfl,rfl⟩
      have done := switch_inv inv switches
      simpa [Sched.set,Function.update_idem] using done

end Switches

section Steps
variable {s s' : Sched n}

theorem create_inv (inv : Inv s) (free : s.procs p = none) (named : pid ≠ -1) :
    Inv (s.set p ⟨.unused,false,pid,0⟩) := by
  have new : ∀ q x, s.procs q = some x → q ≠ p := by
    intro q x found same
    rw [same,free] at found
    cases found
  refine ⟨?_,?_,?_,?_,inv.once,?_,?_,inv.apart,inv.own⟩
  · intro q x found notIdle
    by_cases same : q = p
    · subst same
      rw [s.set_self] at found
      cases found
      refine List.count_eq_zero.mpr ?_
      intro member
      obtain ⟨z,was,_⟩ := inv.members q member
      exact new q z was rfl
    · rw [s.set_other _ same] at found
      exact inv.linked q x found notIdle
  · intro q member
    obtain ⟨z,was,notIdle⟩ := inv.members q member
    exact ⟨z,(s.set_other _ (new q z was)).trans was,notIdle⟩
  · intro c
    obtain ⟨z,was,state⟩ := inv.current c
    exact ⟨z,(s.set_other _ (new _ z was)).trans was,state⟩
  · intro q x found state
    by_cases same : q = p
    · subst same
      rw [s.set_self] at found
      cases found
      cases state
    · rw [s.set_other _ same] at found
      exact inv.running q x found state
  · intro c
    obtain ⟨z,was,rest⟩ := inv.idle c
    exact ⟨z,(s.set_other _ (new _ z was)).trans was,rest⟩
  · intro q x found idle
    by_cases same : q = p
    · subst same
      rw [s.set_self] at found
      cases found
      exact absurd idle named
    · rw [s.set_other _ same] at found
      exact inv.idles q x found idle

theorem activate_inv (inv : Inv s) (there : s.procs p = some x) (parked : x.state.queued = false) :
    Inv ((s.set p (x.withState .runnable)).withQueue (p::s.rq)) := by
  have named : x.pid ≠ -1 := by
    intro idle
    obtain ⟨c,same⟩ := inv.idles p x there idle
    obtain ⟨z,was,_,state⟩ := inv.idle c
    rw [same,there] at was
    cases was
    rcases state with state | state <;> rw [state] at parked <;> cases parked
  have stopped : x.state ≠ .running := by
    intro running
    rw [running] at parked
    cases parked
  have look : ∀ q z, ((s.set p (x.withState .runnable)).withQueue (p::s.rq)).procs q = some z →
      (q = p ∧ z = x.withState .runnable) ∨ (q ≠ p ∧ s.procs q = some z) := by
    intro q z found
    by_cases same : q = p
    · subst same
      exact .inl ⟨rfl,Option.some.inj (found.symm.trans (s.set_self q _))⟩
    · exact .inr ⟨same,(s.set_other _ same).symm.trans found⟩
  refine ⟨?_,?_,?_,?_,inv.once,?_,?_,inv.apart,inv.own⟩
  · intro q z found notIdle
    change (p::s.rq).count q = _
    rcases look q z found with ⟨rfl,rfl⟩ | ⟨other,was⟩
    · rw [List.count_cons_self,inv.linked q x there named,parked]
      rfl
    · rw [List.count_cons_of_ne (Ne.symm other)]
      exact inv.linked q z was notIdle
  · intro q member
    rcases List.mem_cons.mp member with rfl | member
    · exact ⟨_,s.set_self q _,named⟩
    · obtain ⟨z,was,notIdle⟩ := inv.members q member
      by_cases same : q = p
      · subst same
        exact ⟨_,s.set_self q _,named⟩
      · exact ⟨z,(s.set_other _ same).trans was,notIdle⟩
  · intro c
    obtain ⟨z,was,state⟩ := inv.current c
    have other : s.thisproc c ≠ p := by
      intro same
      rw [same,there] at was
      cases was
      exact stopped state
    exact ⟨z,(s.set_other _ other).trans was,state⟩
  · intro q z found state
    rcases look q z found with ⟨_,rfl⟩ | ⟨_,was⟩
    · cases state
    · exact inv.running q z was state
  · intro c
    obtain ⟨z,was,idle,state⟩ := inv.idle c
    have other : s.idle c ≠ p := by
      intro same
      rw [same,there] at was
      cases was
      exact named idle
    exact ⟨z,(s.set_other _ other).trans was,idle,state⟩
  · intro q z found idle
    rcases look q z found with ⟨_,rfl⟩ | ⟨_,was⟩
    · exact absurd idle named
    · exact inv.idles q z was idle

theorem reap_inv (inv : Inv s) (there : s.procs p = some x) (dead : x.state = .zombie) :
    Inv ⟨Function.update s.procs p none,s.rq.erase p,s.thisproc,s.idle⟩ := by
  have named : x.pid ≠ -1 := by
    intro idle
    obtain ⟨c,same⟩ := inv.idles p x there idle
    obtain ⟨z,was,_,state⟩ := inv.idle c
    rw [same,there] at was
    cases was
    rcases state with state | state <;> rw [dead] at state <;> cases state
  have absent : p ∉ s.rq := by
    refine List.count_eq_zero.mp ?_
    rw [inv.linked p x there named,dead]
    rfl
  have look : ∀ q z, Function.update s.procs p none q = some z → q ≠ p ∧ s.procs q = some z := by
    intro q z found
    by_cases same : q = p
    · rw [same,Function.update_self] at found
      cases found
    · rw [Function.update_of_ne same] at found
      exact ⟨same,found⟩
  rw [List.erase_of_not_mem absent]
  refine ⟨?_,?_,?_,?_,inv.once,?_,?_,inv.apart,inv.own⟩
  · intro q z found notIdle
    exact inv.linked q z (look q z found).2 notIdle
  · intro q member
    obtain ⟨z,was,notIdle⟩ := inv.members q member
    have other : q ≠ p := fun same => absent (same ▸ member)
    exact ⟨z,(Function.update_of_ne other _ _).trans was,notIdle⟩
  · intro c
    obtain ⟨z,was,state⟩ := inv.current c
    have other : s.thisproc c ≠ p := by
      intro same
      rw [same,there] at was
      cases was
      rw [dead] at state
      cases state
    exact ⟨z,(Function.update_of_ne other _ _).trans was,state⟩
  · intro q z found state
    exact inv.running q z (look q z found).2 state
  · intro c
    obtain ⟨z,was,idle,state⟩ := inv.idle c
    have other : s.idle c ≠ p := by
      intro same
      rw [same,there] at was
      cases was
      exact named idle
    exact ⟨z,(Function.update_of_ne other _ _).trans was,idle,state⟩
  · intro q z found idle
    exact inv.idles q z (look q z found).2 idle

theorem step_inv (inv : Inv s) (a : Action n) (ran : step s a = .ok s') : Inv s' := by
  cases a with
  | create p pid =>
    simp only [step] at ran
    split at ran
    · rename_i new
      cases ran
      exact create_inv inv new.1 new.2
    · cases ran
  | kill p =>
    obtain ⟨x,there,ran⟩ := Runs.bind_ok.mp ran
    cases ran
    exact inv.set (Sched.proc_ok.mp there) _ rfl rfl Iff.rfl
  | activate p onalert =>
    obtain ⟨⟨woken,_⟩,activated,rfl⟩ := Runs.map_ok ran
    clear ran
    obtain ⟨x,there,ran⟩ := Runs.bind_ok.mp activated
    split at ran
    · cases ran
      exact inv
    · rename_i parked
      cases ran
      refine activate_inv inv (Sched.proc_ok.mp there) ?_
      revert parked
      cases x.state <;> simp [ProcState.queued]
  | sched c state =>
    simp only [step] at ran
    split at ran
    · rename_i may
      obtain ⟨_,returned,inv'⟩ := sched_inv inv may
      rw [returned] at ran
      cases ran
      exact inv'
    · cases ran
  | reap p =>
    obtain ⟨x,there,ran⟩ := Runs.bind_ok.mp ran
    split at ran
    · rename_i dead
      cases ran
      exact reap_inv inv (Sched.proc_ok.mp there) dead
    · cases ran

theorem boot_procs (idle : Fin n → Nat) (apart : Function.Injective idle) (old : Fin n → Proc) (p : Nat) (x : Proc) :
    (boot idle old).procs p = some x ↔ ∃ c, idle c = p ∧ x = ⟨.running,(old c).killed,-1,(old c).timeload⟩ := by
  simp only [boot,Option.map_eq_some_iff]
  constructor
  · intro found
    obtain ⟨c,first,same⟩ := found
    exact ⟨c,by simpa using List.find?_some first,same.symm⟩
  · intro found
    obtain ⟨c,rfl,same⟩ := found
    cases search : (List.finRange n).find? fun d => decide (idle d = idle c) with
    | none =>
      have none := List.find?_eq_none.mp search c (List.mem_finRange c)
      simp at none
    | some d =>
      have hit : idle d = idle c := by simpa using List.find?_some search
      exact ⟨d,rfl,by rw [apart hit]; exact same.symm⟩

theorem boot_inv (idle : Fin n → Nat) (apart : Function.Injective idle) (old : Fin n → Proc) : Inv (boot idle old) := by
  have look := boot_procs idle apart old
  refine ⟨?_,?_,?_,?_,apart,?_,?_,apart,fun c d same => apart same⟩
  · intro p x found notIdle
    obtain ⟨c,_,rfl⟩ := (look p x).mp found
    exact absurd rfl notIdle
  · intro p member
    cases member
  · intro c
    exact ⟨_,(look _ _).mpr ⟨c,rfl,rfl⟩,rfl⟩
  · intro p x found _
    obtain ⟨c,same,_⟩ := (look p x).mp found
    exact ⟨c,same⟩
  · intro c
    exact ⟨_,(look _ _).mpr ⟨c,rfl,rfl⟩,rfl,.inl rfl⟩
  · intro p x found _
    obtain ⟨c,same,_⟩ := (look p x).mp found
    exact ⟨c,same⟩

end Steps

-- The state of the scheduler between two sections.
structure Sound (s : Sched n) : Prop where
  queue : ∀ p x, s.procs p = some x → x.pid ≠ -1 → s.rq.count p = if x.state = .runnable ∨ x.state = .running then 1 else 0
  noOthers : ∀ p ∈ s.rq, ∃ x, s.procs p = some x ∧ x.pid ≠ -1
  current : ∀ c, ∃ x, s.procs (s.thisproc c) = some x ∧ x.state = .running
  running : ∀ p x, s.procs p = some x → x.state = .running → ∃ c, s.thisproc c = p ∧ ∀ d, s.thisproc d = p → d = c
  idle : ∀ c, s.thisproc c ≠ s.idle c → ∃ x, s.procs (s.idle c) = some x ∧ x.state = .runnable
  asserts : ∀ a, step s a ≠ .error .assertion

theorem Inv.sound {s : Sched n} (inv : Inv s) : Sound s := by
  refine ⟨?_,inv.members,inv.current,?_,?_,?_⟩
  · intro p x found notIdle
    rw [inv.linked p x found notIdle]
    cases x.state <;> rfl
  · intro p x found state
    obtain ⟨c,here⟩ := inv.running p x found state
    exact ⟨c,here,fun d there => inv.once (there.trans here.symm)⟩
  · intro c away
    obtain ⟨x,found,_⟩ := inv.idle c
    exact ⟨x,found,inv.idle_runnable away found⟩
  · intro a failed
    cases a with
    | create p pid =>
      simp only [step] at failed
      split at failed <;> cases failed
    | kill p =>
      simp only [step,Sched.proc] at failed
      cases found : s.procs p <;> simp [found,bind,Except.bind] at failed
    | activate p onalert =>
      simp only [step,activateProc,Sched.proc] at failed
      cases found : s.procs p with
      | none => simp [found,bind,Except.bind,Functor.map,Except.map] at failed
      | some x =>
        simp only [found,bind,Except.bind] at failed
        split at failed <;> cases failed
    | sched c state =>
      simp only [step] at failed
      split at failed
      · rename_i may
        obtain ⟨_,returned,_⟩ := sched_inv inv may
        rw [returned] at failed
        cases failed
      · cases failed
    | reap p =>
      simp only [step,Sched.proc] at failed
      cases found : s.procs p with
      | none => simp [found,bind,Except.bind] at failed
      | some x =>
        simp only [found,bind,Except.bind] at failed
        split at failed <;> cases failed

theorem scheduler_sound {idle : Fin n → Nat} {old : Fin n → Proc} {s : Sched n} (apart : Function.Injective idle)
    (run : Runs.Reached next (boot idle old) s) : Sound s := by
  have inv : Inv s := by
    refine run.invariant Inv (boot_inv idle apart old) ?_
    intro s a s' inv _ ran
    exact step_inv inv a (Runs.toOption_some ran)
  exact inv.sound

-- Two CPUs: a process starts on CPU 0, sleeps, is woken and starts on CPU 1; another
-- one is killed, exits and is reaped.
theorem scheduler_sound_of_two_cpus : ∃ s : Sched 2, Runs.exec next (boot (fun c => c.val) fun _ => ⟨.unused,false,0,0⟩)
      [.create 5 1,.create 6 2,.activate 5 false,.sched 0 .runnable,.activate 6 false,.sched 0 .sleeping,.activate 5 true,
        .sched 1 .runnable,.kill 6,.sched 0 .sleeping,.sched 0 .zombie,.reap 6] = some s ∧
    s.thisproc 0 = 0 ∧ s.thisproc 1 = 5 ∧ Sound s := by
  obtain ⟨s,ran,facts⟩ := Runs.some_such
    (x := Runs.exec next (boot (n := 2) (fun c => c.val) fun _ => ⟨.unused,false,0,0⟩)
      [.create 5 1,.create 6 2,.activate 5 false,.sched 0 .runnable,.activate 6 false,.sched 0 .sleeping,.activate 5 true,
        .sched 1 .runnable,.kill 6,.sched 0 .sleeping,.sched 0 .zombie,.reap 6])
    (p := fun s => decide (s.thisproc 0 = 0 ∧ s.thisproc 1 = 5)) (by decide +kernel)
  obtain ⟨zero,one⟩ := of_decide_eq_true facts
  exact ⟨s,ran,zero,one,scheduler_sound (fun c d same => Fin.ext same) (Runs.exec_reached .start ran)⟩

end Scheduler
