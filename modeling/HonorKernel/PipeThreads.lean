import HonorKernel.PipeBuffer
import HonorKernel.Semaphores

-- fs/pipe.c as processes run it: one step is one use of the lock, of the counters and the
-- buffer, or of a semaphore.
namespace PipeThreads
open DiskFormat PipeBuffer
open Semaphores (Semaphore initSem waitSem postSem)

-- A call of pipe_write with the bytes that are left, or of pipe_read with the number of
-- bytes that are left and those it has.
inductive Call where
  | write (n : Int) (src : List Byte)
  | read (left : Nat) (out : List Byte)
deriving DecidableEq

def Call.writes : Call → Bool
  | .write _ _ => true
  | .read _ _ => false

-- `woken` is the return from unalertable_wait_sem.
inductive Pc where
  | idle
  | enter (c : Call)
  | test (c : Call)
  | blocked (c : Call)
  | drop (c : Call)
  | wait (c : Call)
  | asleep (c : Call)
  | woken (c : Call)
  | copy (c : Call)
  | post (c : Call)
  | leave (value : Int)
  | close (writable : Bool)
  | closing (writable : Bool)
  | unlock
  | check
deriving DecidableEq

-- `lock` is who took the spinlock; release_spinlock clears it whoever calls it. `closed`
-- tells for the write end and the read end whether file_close has called pipe_close.
-- `freed` counts the calls of kfree, and `late` tells whether a step used the pipe after one.
structure State (n : Nat) where
  pipe : Pipe
  lock : Option (Fin n)
  rlock : Semaphore
  wlock : Semaphore
  pcs : Fin n → Pc
  killed : Fin n → Bool
  closed : Bool → Bool
  freed : Nat
  late : Bool

inductive Action (n : Nat) where
  | call (t : Fin n) (c : Call)
  | close (t : Fin n) (writable : Bool)
  | run (t : Fin n)
  | kill (t : Fin n)
deriving DecidableEq

variable {n : Nat}

namespace State

def goto (s : State n) (t : Fin n) (pc : Pc) : State n := { s with pcs := Function.update s.pcs t pc }

def wake (who : Option Nat) (u : Fin n) (pc : Pc) : Pc :=
  match pc with
  | .asleep c => if who = some u.val then .woken c else .asleep c
  | pc => pc

-- post_sem of rlock or wlock.
def signal (s : State n) (reader : Bool) : Option (State n) :=
  match postSem (if reader then s.rlock else s.wlock) with
  | .error _ => none
  | .ok (who,sem) => some { s with
      rlock := if reader then sem else s.rlock
      wlock := if reader then s.wlock else sem
      pcs := fun u => wake who u (s.pcs u) }

-- A writer waits on wlock and a reader on rlock.
def sleep (s : State n) (t : Fin n) (c : Call) : State n :=
  let (now,sem) := waitSem (if c.writes then s.wlock else s.rlock) t.val
  { s with
    rlock := if c.writes then s.rlock else sem
    wlock := if c.writes then sem else s.wlock
    pcs := Function.update s.pcs t (if now then .woken c else .asleep c) }

end State

-- while (pi->nwrite == pi->nread + PIPE_SIZE), behind the test of the for loop, and
-- while (pi->nread == pi->nwrite && pi->writeopen).
def testNext (pi : Pipe) : Call → Pc
  | .write n [] => .post (.write n [])
  | .write n (b::rest) => if pi.full then .blocked (.write n (b::rest)) else .copy (.write n (b::rest))
  | .read left out => if pi.empty ∧ pi.writeopen = true then .blocked (.read left out) else .copy (.read left out)

-- One byte.
def copyNext (pi : Pipe) : Call → Pc × Pipe
  | .write n [] => (.post (.write n []),pi)
  | .write n (b::rest) => (.test (.write n rest),pi.put b)
  | .read 0 out => (.post (.read 0 out),pi)
  | .read (left+1) out => if pi.empty then (.post (.read (left+1) out),pi) else (.copy (.read left (out++[pi.get])),pi.skip)

def Call.value : Call → Int
  | .write n _ => n
  | .read _ out => out.length

def step (s : State n) (t : Fin n) : Option (State n) :=
  match s.pcs t with
  | .idle => none
  | .asleep _ => none
  | .enter c => if s.lock = none then some { s.goto t (.test c) with lock := some t } else none
  | .test c => some (s.goto t (testNext s.pipe c))
  | .blocked (.write m src) =>
    if s.pipe.readopen = false ∨ s.killed t = true then some (s.goto t (.leave (-1)))
    else (s.goto t (.drop (.write m src))).signal true
  | .blocked (.read left out) => some (s.goto t (if s.killed t then .leave (-1) else .drop (.read left out)))
  | .drop c => some { s.goto t (.wait c) with lock := none }
  | .wait c => some (s.sleep t c)
  | .woken c => some (s.goto t (.test c))
  | .copy c => some { s.goto t (copyNext s.pipe c).1 with pipe := (copyNext s.pipe c).2 }
  | .post c => (s.goto t (.leave c.value)).signal c.writes
  | .leave _ => some { s.goto t .idle with lock := none }
  | .close writable => if s.lock = none then some { s.goto t (.closing writable) with lock := some t } else none
  | .closing writable =>
    ({ s.goto t .unlock with
      pipe := if writable then { s.pipe with writeopen := false } else { s.pipe with readopen := false } } : State n).signal writable
  | .unlock => some { s.goto t .check with lock := none }
  | .check =>
    some (if s.pipe.readopen = false ∧ s.pipe.writeopen = false then { s.goto t .idle with freed := s.freed+1 } else s.goto t .idle)

-- A call on an end that is not closed; and each end is closed once.
def next (s : State n) : Action n → Option (State n)
  | .call t c => if s.pcs t = .idle ∧ s.closed c.writes = false then some (s.goto t (.enter c)) else none
  | .close t writable =>
    if s.pcs t = .idle ∧ s.closed writable = false then
      some { s.goto t (.close writable) with closed := Function.update s.closed writable true }
    else none
  | .run t => (step s t).map fun s' => { s' with late := s.late || decide (0 < s.freed) }
  | .kill t => some { s with killed := Function.update s.killed t true }

def start (data : Fin pipeSize → Byte) : State n :=
  ⟨initPipe data,none,initSem 0,initSem 0,fun _ => .idle,fun _ => false,fun _ => false,0,false⟩

-- Where a process that took the lock and did not give it back stands.
def Pc.inside : Pc → Bool
  | .test _ | .blocked _ | .drop _ | .copy _ | .post _ | .leave _ | .closing _ | .unlock => true
  | _ => false

-- Where the next step reads or writes data, nread or nwrite.
def Pc.touches : Pc → Bool
  | .test _ | .copy _ => true
  | _ => false

-- Where the next step is release_spinlock.
def Pc.releases : Pc → Bool
  | .drop _ | .leave _ | .unlock => true
  | _ => false

def Locked (s : State n) : Prop :=
  ∀ t, (s.pcs t).touches = true ∨ (s.pcs t).releases = true → s.lock = some t

def Pc.waited : Pc → Bool
  | .woken _ => true
  | _ => false

-- A process that has waited goes on behind unalertable_wait_sem.
def resumes (s : State n) : Action n → Bool
  | .run t => (s.pcs t).waited
  | _ => false

-- Where a process is in pipe_close.
def Pc.closes : Pc → Bool
  | .close _ | .closing _ | .unlock | .check => true
  | _ => false

def Pc.resting : Pc → Bool
  | .idle | .asleep _ => true
  | _ => false

-- kfree is called once, behind both closes, and nothing uses the pipe behind it.
structure FreedOnce (s : State n) : Prop where
  once : s.freed ≤ 1
  closed : 0 < s.freed → ∀ writable, s.closed writable = true
  unused : s.late = false
  returned : (∀ writable, s.closed writable = true) → (∀ t, (s.pcs t).closes = false) → s.freed = 1

-- kfree finds every other process out of the pipe's functions, or asleep there.
def alone (s : State n) : Action n → Prop
  | .run t => s.pcs t = .check → s.pipe.readopen = false → s.pipe.writeopen = false → ∀ u ≠ t, (s.pcs u).resting = true
  | _ => True

instance (s : State n) (a : Action n) : Decidable (alone s a) :=
  match a with
  | .run t => inferInstanceAs
      (Decidable (s.pcs t = .check → s.pipe.readopen = false → s.pipe.writeopen = false → ∀ u ≠ t, (s.pcs u).resting = true))
  | .call _ _ | .close _ _ | .kill _ => .isTrue trivial

section steps
variable {s s' : State n} {t u : Fin n}

theorem State.signal_some {reader : Bool} (ran : s.signal reader = some s') :
    ∃ who rlock wlock, s' = { s with rlock := rlock, wlock := wlock, pcs := fun u => wake who u (s.pcs u) } := by
  unfold signal at ran
  split at ran
  · cases ran
  · rename_i who sem _
    exact ⟨who,_,_,(Option.some.inj ran).symm⟩

-- What the others see of a step: a post wakes one that sleeps.
def Bystander (before now : Pc) : Prop := now = before ∨ ∃ c, before = .asleep c ∧ now = .woken c

theorem wake_bystander (who : Option Nat) (u : Fin n) (pc : Pc) : Bystander pc (State.wake who u pc) := by
  cases pc with
  | asleep c =>
    by_cases chosen : who = some u.val
    · exact .inr ⟨c,rfl,if_pos chosen⟩
    · exact .inl (if_neg chosen)
  | _ => exact .inl rfl

-- The rest of a step: where the process stands behind it, the lock, the pipe and the
-- calls of kfree.
inductive Own (s : State n) (t : Fin n) : Pc → Pc → Option (Fin n) → Pipe → Nat → Prop where
  | enter : s.lock = none → Own s t (.enter c) (.test c) (some t) s.pipe s.freed
  | test : Own s t (.test c) (testNext s.pipe c) s.lock s.pipe s.freed
  | fails : Own s t (.blocked c) (.leave (-1)) s.lock s.pipe s.freed
  | blocked : Own s t (.blocked c) (.drop c) s.lock s.pipe s.freed
  | drop : Own s t (.drop c) (.wait c) none s.pipe s.freed
  | wait : Own s t (.wait c) (.asleep c) s.lock s.pipe s.freed
  | passes : Own s t (.wait c) (.woken c) s.lock s.pipe s.freed
  | woken : Own s t (.woken c) (.test c) s.lock s.pipe s.freed
  | copy : Own s t (.copy c) (copyNext s.pipe c).1 s.lock (copyNext s.pipe c).2 s.freed
  | post : Own s t (.post c) (.leave c.value) s.lock s.pipe s.freed
  | leave : Own s t (.leave value) .idle none s.pipe s.freed
  | close : s.lock = none → Own s t (.close writable) (.closing writable) (some t) s.pipe s.freed
  | closing : Own s t (.closing writable) .unlock s.lock
      (if writable then { s.pipe with writeopen := false } else { s.pipe with readopen := false }) s.freed
  | unlock : Own s t .unlock .check none s.pipe s.freed
  | frees : s.pipe.readopen = false → s.pipe.writeopen = false → Own s t .check .idle s.lock s.pipe (s.freed+1)
  | returns : ¬(s.pipe.readopen = false ∧ s.pipe.writeopen = false) → Own s t .check .idle s.lock s.pipe s.freed

structure Steps (s : State n) (t : Fin n) (s' : State n) : Prop where
  own : Own s t (s.pcs t) (s'.pcs t) s'.lock s'.pipe s'.freed
  others : ∀ u ≠ t, Bystander (s.pcs u) (s'.pcs u)
  still : s.pcs t = .check → ∀ u ≠ t, s'.pcs u = s.pcs u
  closed : s'.closed = s.closed

theorem Steps.goto {pc : Pc} {lock : Option (Fin n)} {pipe : Pipe} {freed : Nat}
    (own : Own s t (s.pcs t) pc lock pipe freed) :
    Steps s t { s.goto t pc with lock := lock, pipe := pipe, freed := freed } := by
  refine ⟨?_,fun u other => .inl (Function.update_of_ne other _ _),fun _ u other => Function.update_of_ne other _ _,rfl⟩
  have here : (s.goto t pc).pcs t = pc := Function.update_self _ _ _
  simpa only [here] using own

theorem Steps.signal {middle : State n} {reader : Bool} (first : Steps s t middle) (inside : (s.pcs t).inside = true)
    (awake : ∀ c, middle.pcs t ≠ .asleep c)
    (ran : middle.signal reader = some s') : Steps s t s' := by
  obtain ⟨who,rlock,wlock,rfl⟩ := State.signal_some ran
  refine ⟨?_,fun u other => ?_,fun at_ => ?_,first.closed⟩
  · rcases wake_bystander who t (middle.pcs t) with same | ⟨c,slept,_⟩
    · simpa only [same] using first.own
    · exact absurd slept (awake c)
  · rcases first.others u other with same | ⟨c,slept,roused⟩
    · simpa only [same] using wake_bystander who u (middle.pcs u)
    · exact .inr ⟨c,slept,by simp only [roused,State.wake]⟩
  · rw [at_] at inside
    cases inside

theorem goto_awake {pc : Pc} (awake : ∀ c, pc ≠ .asleep c) (c : Call) : (s.goto t pc).pcs t ≠ .asleep c := by
  rw [show (s.goto t pc).pcs t = pc from Function.update_self _ _ _]
  exact awake c

theorem step_steps (ran : step s t = some s') : Steps s t s' := by
  unfold step at ran
  split at ran
  case h_1 => cases ran
  case h_2 => cases ran
  case h_3 c at_ =>
    split at ran
    · rename_i free
      cases ran
      exact .goto (at_ ▸ .enter free)
    · cases ran
  case h_4 c at_ => cases ran; exact .goto (at_ ▸ .test)
  case h_5 m src at_ =>
    split at ran
    · cases ran
      exact .goto (at_ ▸ .fails)
    · exact .signal (.goto (at_ ▸ .blocked)) (at_ ▸ rfl) (goto_awake (by simp)) ran
  case h_6 left out at_ =>
    split at ran
    · cases ran
      exact .goto (at_ ▸ .fails)
    · cases ran
      exact .goto (at_ ▸ .blocked)
  case h_7 c at_ => cases ran; exact .goto (at_ ▸ .drop)
  case h_8 c at_ =>
    cases ran
    refine ⟨?_,fun u other => .inl (Function.update_of_ne other _ _),fun _ u other => Function.update_of_ne other _ _,rfl⟩
    have here : (s.sleep t c).pcs t = if (waitSem (if c.writes then s.wlock else s.rlock) t.val).1 then .woken c else .asleep c :=
      Function.update_self _ _ _
    rw [here,at_]
    generalize (waitSem (if c.writes then s.wlock else s.rlock) t.val).1 = now
    cases now with
    | true => exact .passes
    | false => exact .wait
  case h_9 c at_ => cases ran; exact .goto (at_ ▸ .woken)
  case h_10 c at_ => cases ran; exact .goto (at_ ▸ .copy)
  case h_11 c at_ => exact .signal (.goto (at_ ▸ .post)) (at_ ▸ rfl) (goto_awake (by simp)) ran
  case h_12 value at_ => cases ran; exact .goto (at_ ▸ .leave)
  case h_13 writable at_ =>
    split at ran
    · rename_i free
      cases ran
      exact .goto (at_ ▸ .close free)
    · cases ran
  case h_14 writable at_ =>
    have first : Steps s t { s.goto t .unlock with
        pipe := if writable then { s.pipe with writeopen := false } else { s.pipe with readopen := false } } :=
      .goto (at_ ▸ .closing)
    exact first.signal (at_ ▸ rfl) (goto_awake (s := s) (by simp)) ran
  case h_15 at_ => cases ran; exact .goto (at_ ▸ .unlock)
  case h_16 at_ =>
    cases ran
    split
    · rename_i both
      exact .goto (at_ ▸ .frees both.1 both.2)
    · rename_i open_
      exact .goto (at_ ▸ .returns open_)

theorem testNext_inside (pi : Pipe) (c : Call) : (testNext pi c).inside = true := by
  unfold testNext
  split
  · rfl
  · split <;> rfl
  · split <;> rfl

theorem copyNext_inside (pi : Pipe) (c : Call) : (copyNext pi c).1.inside = true := by
  unfold copyNext
  split
  · rfl
  · rfl
  · rfl
  · split <;> rfl

-- Who took the lock and has not given it back is who stands in a section.
def Held (s : State n) : Prop := ∀ t, (s.pcs t).inside = true ↔ s.lock = some t

theorem Held.locked (held : Held s) : Locked s := by
  intro t here
  refine (held t).mp ?_
  rcases here with touches | releases
  · cases at_ : s.pcs t <;> simp_all [Pc.touches,Pc.inside]
  · cases at_ : s.pcs t <;> simp_all [Pc.releases,Pc.inside]

theorem Bystander.inside {before now : Pc} (seen : Bystander before now) : now.inside = before.inside := by
  rcases seen with rfl | ⟨c,rfl,rfl⟩
  · rfl
  · rfl

theorem Held.run (held : Held s) (ran : Steps s t s') (waited : (s.pcs t).waited = false) : Held s' := by
  obtain ⟨own,others,_,_⟩ := ran
  have mine := held t
  -- One of three: the process stays where it is with the lock as it was, it takes the lock, or it gives it back.
  have change : ((s'.pcs t).inside = (s.pcs t).inside ∧ s'.lock = s.lock) ∨
      (s.lock = none ∧ (s'.pcs t).inside = true ∧ s'.lock = some t) ∨
      ((s.pcs t).inside = true ∧ (s'.pcs t).inside = false ∧ s'.lock = none) := by
    generalize s.pcs t = before at own waited
    generalize s'.pcs t = now at own
    generalize s'.lock = lock at own
    generalize s'.pipe = pipe at own
    generalize s'.freed = freed at own
    cases own with
    | enter free => exact .inr (.inl ⟨free,rfl,rfl⟩)
    | close free => exact .inr (.inl ⟨free,rfl,rfl⟩)
    | drop | leave | unlock => exact .inr (.inr ⟨rfl,rfl,rfl⟩)
    | woken => cases waited
    | test => exact .inl ⟨testNext_inside _ _,rfl⟩
    | copy => exact .inl ⟨copyNext_inside _ _,rfl⟩
    | _ => exact .inl ⟨rfl,rfl⟩
  intro u
  by_cases same : u = t
  · subst same
    rcases change with ⟨stays,lock⟩ | ⟨_,inside,lock⟩ | ⟨_,outside,lock⟩
    · rw [stays,lock]
      exact mine
    · simp [inside,lock]
    · simp [outside,lock]
  · rw [(others u same).inside]
    rcases change with ⟨_,lock⟩ | ⟨free,_,lock⟩ | ⟨inside,_,lock⟩
    · rw [lock]
      exact held u
    · rw [held u,free,lock]
      simp [Ne.symm same]
    · rw [held u,mine.mp inside,lock]
      simp [Ne.symm same]

theorem Held.goto {pc : Pc} (held : Held s) (same : pc.inside = (s.pcs t).inside) : Held (s.goto t pc) := by
  intro u
  by_cases mine : u = t
  · subst mine
    rw [show (s.goto u pc).pcs u = pc from Function.update_self _ _ _,same]
    exact held u
  · rw [show (s.goto t pc).pcs u = s.pcs u from Function.update_of_ne mine _ _]
    exact held u

theorem next_run (ran : next s (.run t) = some s') :
    ∃ middle, step s t = some middle ∧ s' = { middle with late := s.late || decide (0 < s.freed) } := by
  obtain ⟨middle,stepped,rfl⟩ := Option.map_eq_some_iff.mp ran
  exact ⟨middle,stepped,rfl⟩

theorem Held.next {a : Action n} (held : Held s) (waited : resumes s a = false) (ran : next s a = some s') :
    Held s' := by
  cases a with
  | call t c =>
    simp only [PipeThreads.next] at ran
    split at ran
    · rename_i ready
      cases ran
      exact held.goto (by rw [ready.1]; rfl)
    · cases ran
  | close t writable =>
    simp only [PipeThreads.next] at ran
    split at ran
    · rename_i ready
      cases ran
      have moved : Held (s.goto t (.close writable)) := held.goto (by rw [ready.1]; rfl)
      exact moved
    · cases ran
  | kill t => cases ran; exact held
  | run t =>
    obtain ⟨middle,stepped,rfl⟩ := next_run ran
    have after : Held middle := held.run (step_steps stepped) waited
    exact after

theorem start_held (data : Fin pipeSize → Byte) : Held (start data : State n) := by
  intro t
  simp [start,Pc.inside]

theorem waited_woken {pc : Pc} (waited : pc.waited = true) : ∃ c, pc = .woken c := by
  cases pc with
  | woken c => exact ⟨c,rfl⟩
  | _ => cases waited

theorem Held.resumed (held : Held s) (waited : (s.pcs t).waited = true) (ran : step s t = some s') : ¬Locked s' := by
  obtain ⟨c,at_⟩ := waited_woken waited
  intro locked
  have stepped : s' = s.goto t (.test c) := by
    unfold step at ran
    simpa [at_] using ran.symm
  subst stepped
  have here : (s.goto t (.test c)).pcs t = .test c := Function.update_self _ _ _
  have mine : s.lock = some t := locked t (.inl (by rw [here]; rfl))
  have inside := (held t).mpr mine
  rw [at_] at inside
  cases inside

end steps

theorem sections_locked {data : Fin pipeSize → Byte} {s : State n}
    (path : Runs.Guarded next (fun s a => resumes s a = false) (start data) s) :
    Locked s ∧ ∀ a s', next s a = some s' → (Locked s' ↔ resumes s a = false) := by
  have held : Held s := path.invariant Held (start_held data) fun _ _ _ held waited ran => held.next waited ran
  refine ⟨held.locked,fun a s' ran => ⟨fun locked => ?_,fun waited => (held.next waited ran).locked⟩⟩
  by_contra waited
  cases a with
  | run t =>
    obtain ⟨middle,stepped,rfl⟩ := next_run ran
    exact held.resumed (by simpa [resumes] using waited) stepped locked
  | _ => exact waited rfl

-- A writer and a reader that finds its byte.
theorem sections_locked_copy : ∃ s : State 2, Runs.Guarded next (fun s a => resumes s a = false) (start fun _ => 0) s ∧
    s.pcs 0 = .copy (.write 1 [7]) ∧ Locked s := by
  obtain ⟨s,ran,at_⟩ := Runs.some_such (p := fun s : State 2 => decide (s.pcs 0 = .copy (.write 1 [7])))
    (x := Runs.execGuarded next (fun s a => resumes s a = false) (start fun _ => 0)
      [.call 1 (.read 1 []),.call 0 (.write 1 [7]),.run 0,.run 0]) (by decide)
  have path := Runs.exec_guarded .start ran
  exact ⟨s,path,of_decide_eq_true at_,(sections_locked path).1⟩

-- The reader sleeps on the empty pipe and is woken by the writer, which still holds the lock
-- when the reader tests the counters.
theorem woken_reader_unlocked : ∃ s : State 2, Runs.Reached next (start fun _ => 0) s ∧
    s.pcs 0 = .test (.read 1 []) ∧ s.lock = some 1 ∧ ¬Locked s := by
  obtain ⟨s,ran,at_⟩ := Runs.some_such (p := fun s : State 2 => decide (s.pcs 0 = .test (.read 1 []) ∧ s.lock = some 1))
    (x := Runs.exec next (start fun _ => 0)
      [.call 0 (.read 1 []),.run 0,.run 0,.run 0,.run 0,.run 0,.call 1 (.write 1 [7]),.run 1,.run 1,.run 1,.run 1,.run 1,.run 0])
    (by decide)
  obtain ⟨reader,lock⟩ := of_decide_eq_true at_
  refine ⟨s,Runs.exec_reached .start ran,reader,lock,fun locked => ?_⟩
  have mine := locked 0 (.inl (by rw [reader]; rfl))
  rw [lock] at mine
  cases mine

def openEnd (pi : Pipe) (writable : Bool) : Bool := if writable then pi.writeopen else pi.readopen

-- Where the closes stand, whatever the order of the steps.
structure Closing (s : State n) : Prop where
  mine : ∀ t writable, s.pcs t = .close writable ∨ s.pcs t = .closing writable → s.closed writable = true
  flags : ∀ writable, openEnd s.pipe writable = false → s.closed writable = true
  pending : ∀ writable, s.closed writable = true → openEnd s.pipe writable = false ∨
    ∃ t, s.pcs t = .close writable ∨ s.pcs t = .closing writable
  last : (∀ writable, openEnd s.pipe writable = false) → 0 < s.freed ∨ ∃ t, s.pcs t = .unlock ∨ s.pcs t = .check

-- Behind kfree nobody can take a step any more.
structure Spent (s : State n) : Prop where
  closing : Closing s
  unused : s.late = false
  once : 0 < s.freed → s.freed = 1 ∧ (∀ writable, s.closed writable = true) ∧ ∀ t, (s.pcs t).resting = true

section closes
variable {s s' : State n} {t u : Fin n}

theorem Spent.freedOnce (spent : Spent s) : FreedOnce s := by
  refine ⟨?_,fun freed => (spent.once freed).2.1,spent.unused,fun closed returned => ?_⟩
  · rcases Nat.eq_zero_or_pos s.freed with zero | freed
    · omega
    · exact Nat.le_of_eq (spent.once freed).1
  · have shut : ∀ writable, openEnd s.pipe writable = false := by
      intro writable
      rcases spent.closing.pending writable (closed writable) with shut | ⟨t,at_ | at_⟩
      · exact shut
      · have := returned t
        rw [at_] at this
        cases this
      · have := returned t
        rw [at_] at this
        cases this
    rcases spent.closing.last shut with freed | ⟨t,at_ | at_⟩
    · exact (spent.once freed).1
    · have := returned t
      rw [at_] at this
      cases this
    · have := returned t
      rw [at_] at this
      cases this

theorem copyNext_openEnd (pi : Pipe) (c : Call) (writable : Bool) :
    openEnd (copyNext pi c).2 writable = openEnd pi writable := by
  unfold copyNext
  split
  · rfl
  · rfl
  · rfl
  · split <;> rfl

theorem start_spent (data : Fin pipeSize → Byte) : Spent (start data : State n) := by
  refine ⟨⟨?_,?_,?_,?_⟩,rfl,?_⟩
  · simp [start]
  · simp [start,openEnd,initPipe]
  · simp [start]
  · intro shut
    cases shut true
  · simp [start]

-- What a step is to pipe_close.
inductive Stage (pi : Pipe) (freed : Nat) : Pc → Pc → Pipe → Nat → Prop where
  | elsewhere : before.closes = false → now.closes = false → (∀ writable, openEnd pi' writable = openEnd pi writable) →
      Stage pi freed before now pi' freed
  | enter : Stage pi freed (.close writable) (.closing writable) pi freed
  | clear : openEnd pi' writable = false → (∀ other ≠ writable, openEnd pi' other = openEnd pi other) →
      Stage pi freed (.closing writable) .unlock pi' freed
  | unlock : Stage pi freed .unlock .check pi freed
  | frees : (∀ writable, openEnd pi writable = false) → Stage pi freed .check .idle pi (freed+1)
  | returns : ¬(∀ writable, openEnd pi writable = false) → Stage pi freed .check .idle pi freed

theorem testNext_closes (pi : Pipe) (c : Call) : (testNext pi c).closes = false := by
  unfold testNext
  split
  · rfl
  · split <;> rfl
  · split <;> rfl

theorem copyNext_closes (pi : Pipe) (c : Call) : (copyNext pi c).1.closes = false := by
  unfold copyNext
  split
  · rfl
  · rfl
  · rfl
  · split <;> rfl

theorem Own.stage {before now : Pc} {lock : Option (Fin n)} {pipe : Pipe} {freed : Nat}
    (own : Own s t before now lock pipe freed) : Stage s.pipe s.freed before now pipe freed := by
  cases own with
  | close => exact .enter
  | @closing writable =>
    cases writable with
    | true => exact .clear rfl (by simp [openEnd])
    | false => exact .clear rfl (by simp [openEnd])
  | unlock => exact .unlock
  | frees readEnd writeEnd => exact .frees (by simp [openEnd,readEnd,writeEnd])
  | returns open_ =>
    refine .returns fun shut => open_ ⟨shut false,shut true⟩
  | test => exact .elsewhere rfl (testNext_closes _ _) fun _ => rfl
  | copy => exact .elsewhere rfl (copyNext_closes _ _) fun _ => copyNext_openEnd _ _ _
  | _ => exact .elsewhere rfl rfl fun _ => rfl

theorem Stage.shut {pi pi' : Pipe} {before now : Pc} {freed freed' : Nat} (stage : Stage pi freed before now pi' freed')
    {writable : Bool} (shut : openEnd pi writable = false) : openEnd pi' writable = false := by
  cases stage with
  | elsewhere _ _ same => rw [same]; exact shut
  | @clear _ cleared now others =>
    by_cases this : writable = cleared
    · rw [this]; exact now
    · rw [others writable this]; exact shut
  | _ => exact shut

section stages
variable {pi pi' : Pipe} {before now : Pc} {freed freed' : Nat} {writable : Bool}

theorem Stage.entered (stage : Stage pi freed before now pi' freed')
    (at_ : now = .close writable ∨ now = .closing writable) :
    before = .close writable := by
  cases stage with
  | elsewhere _ out _ => rcases at_ with rfl | rfl <;> cases out
  | enter => rcases at_ with at_ | at_ <;> cases at_; rfl
  | _ => rcases at_ with at_ | at_ <;> cases at_

theorem Stage.cleared (stage : Stage pi freed before now pi' freed') (shut : openEnd pi' writable = false) :
    openEnd pi writable = false ∨ before = .closing writable := by
  cases stage with
  | elsewhere _ _ same => exact .inl (same writable ▸ shut)
  | @clear _ cleared _ others =>
    by_cases this : writable = cleared
    · exact .inr (this ▸ rfl)
    · exact .inl (others writable this ▸ shut)
  | _ => exact .inl shut

theorem Stage.leaves (stage : Stage pi freed before now pi' freed')
    (at_ : before = .close writable ∨ before = .closing writable) :
    now = .closing writable ∨ openEnd pi' writable = false := by
  cases stage with
  | elsewhere out _ _ => rcases at_ with rfl | rfl <;> cases out
  | enter => rcases at_ with at_ | at_ <;> cases at_; exact .inl rfl
  | clear now _ => rcases at_ with at_ | at_ <;> cases at_; exact .inr now
  | _ => rcases at_ with at_ | at_ <;> cases at_

theorem Stage.second (stage : Stage pi freed before now pi' freed') (shut : ∀ writable, openEnd pi' writable = false) :
    (∀ writable, openEnd pi writable = false) ∨ now = .unlock := by
  cases stage with
  | elsewhere _ _ same => exact .inl fun writable => same writable ▸ shut writable
  | clear => exact .inr rfl
  | _ => exact .inl shut

theorem Stage.ends (stage : Stage pi freed before now pi' freed') (shut : ∀ writable, openEnd pi writable = false)
    (at_ : before = .unlock ∨ before = .check) : 0 < freed' ∨ now = .check := by
  cases stage with
  | elsewhere out _ _ => rcases at_ with rfl | rfl <;> cases out
  | unlock => exact .inr rfl
  | frees => exact .inl (Nat.succ_pos _)
  | returns open_ => exact absurd shut open_
  | _ => rcases at_ with at_ | at_ <;> cases at_

theorem Stage.freed_le (stage : Stage pi freed before now pi' freed') : freed ≤ freed' := by
  cases stage with
  | frees => exact Nat.le_succ _
  | _ => exact Nat.le_refl _

end stages

theorem Bystander.closes {before now : Pc} (seen : Bystander before now)
    (closes : now.closes = true ∨ before.closes = true) :
    now = before := by
  rcases seen with same | ⟨c,rfl,rfl⟩
  · exact same
  · rcases closes with closes | closes
    · cases closes
    · cases closes

theorem Closing.run (closing : Closing s) (ran : Steps s t s') : Closing s' := by
  obtain ⟨own,others,_,closed⟩ := ran
  have stage := own.stage
  have same : ∀ u ≠ t, ∀ pc : Pc, pc.closes = true → (s'.pcs u = pc ↔ s.pcs u = pc) := by
    intro u other pc closes
    constructor
    · intro at_
      rw [← (others u other).closes (.inl (at_ ▸ closes)),at_]
    · intro at_
      rw [(others u other).closes (.inr (at_ ▸ closes)),at_]
  refine ⟨fun u writable at_ => ?_,fun writable shut => ?_,fun writable pending => ?_,fun shut => ?_⟩
  · rw [closed]
    by_cases mine : u = t
    · subst mine
      exact closing.mine u writable (.inl (stage.entered at_))
    · exact closing.mine u writable (by rwa [same u mine _ rfl,same u mine _ rfl] at at_)
  · rw [closed]
    rcases stage.cleared shut with already | at_
    · exact closing.flags writable already
    · exact closing.mine t writable (.inr at_)
  · rw [closed] at pending
    rcases closing.pending writable pending with shut | ⟨u,at_⟩
    · exact .inl (stage.shut shut)
    · by_cases mine : u = t
      · subst mine
        rcases stage.leaves at_ with moved | shut
        · exact .inr ⟨u,.inr moved⟩
        · exact .inl shut
      · exact .inr ⟨u,by rwa [same u mine _ rfl,same u mine _ rfl]⟩
  · rcases stage.second shut with already | moved
    · rcases closing.last already with freed | ⟨u,at_⟩
      · exact .inl (Nat.lt_of_lt_of_le freed stage.freed_le)
      · by_cases mine : u = t
        · subst mine
          rcases stage.ends already at_ with freed | moved
          · exact .inl freed
          · exact .inr ⟨u,.inr moved⟩
        · exact .inr ⟨u,by rwa [same u mine _ rfl,same u mine _ rfl]⟩
    · exact .inr ⟨t,.inl moved⟩

theorem Closing.begins (pc : Pc) (closed : Bool → Bool) (closing : Closing s) (ready : s.pcs t = .idle)
    (late : pc ≠ .unlock ∧ pc ≠ .check ∧ ∀ writable, pc ≠ .closing writable)
    (grows : ∀ writable, s.closed writable = true → closed writable = true)
    (own : ∀ writable, closed writable = true → s.closed writable = true ∨ pc = .close writable)
    (mine : ∀ writable, pc = .close writable → closed writable = true) : Closing { s.goto t pc with closed := closed } := by
  have here : (s.goto t pc).pcs t = pc := Function.update_self _ _ _
  have there : ∀ u ≠ t, (s.goto t pc).pcs u = s.pcs u := fun u other => Function.update_of_ne other _ _
  have busy : ∀ u, s.pcs u ≠ .idle → (s.goto t pc).pcs u = s.pcs u :=
    fun u busy => there u fun same => busy (same ▸ ready)
  refine ⟨fun u writable at_ => ?_,fun writable shut => grows _ (closing.flags writable shut),fun writable pending => ?_,
    fun shut => ?_⟩
  · change (s.goto t pc).pcs u = _ ∨ (s.goto t pc).pcs u = _ at at_
    by_cases same : u = t
    · subst same
      rw [here] at at_
      rcases at_ with at_ | at_
      · exact mine writable at_
      · exact absurd at_ (late.2.2 writable)
    · rw [there u same] at at_
      exact grows _ (closing.mine u writable at_)
  · rcases own writable pending with before | starts
    · rcases closing.pending writable before with shut | ⟨u,at_⟩
      · exact .inl shut
      · refine .inr ⟨u,?_⟩
        change (s.goto t pc).pcs u = _ ∨ (s.goto t pc).pcs u = _
        rwa [busy u (by rcases at_ with at_ | at_ <;> rw [at_] <;> simp)]
    · exact .inr ⟨t,.inl (here.trans starts)⟩
  · rcases closing.last shut with freed | ⟨u,at_⟩
    · exact .inl freed
    · refine .inr ⟨u,?_⟩
      change (s.goto t pc).pcs u = _ ∨ (s.goto t pc).pcs u = _
      rwa [busy u (by rcases at_ with at_ | at_ <;> rw [at_] <;> simp)]

theorem Own.busy {before now : Pc} {lock : Option (Fin n)} {pipe : Pipe} {freed : Nat}
    (own : Own s t before now lock pipe freed) : before.resting = false := by
  cases own <;> rfl

theorem Spent.run (spent : Spent s) (single : alone s (.run t)) (ran : Steps s t s') :
    Spent { s' with late := s.late || decide (0 < s.freed) } := by
  have busy := ran.own.busy
  have fresh : s.freed = 0 := by
    rcases Nat.eq_zero_or_pos s.freed with zero | freed
    · exact zero
    · rw [(spent.once freed).2.2 t] at busy
      cases busy
  have after := spent.closing.run ran
  have rest : Closing { s' with late := s.late || decide (0 < s.freed) } := ⟨after.mine,after.flags,after.pending,after.last⟩
  refine ⟨rest,by simp [spent.unused,fresh],fun freed => ?_⟩
  have changed : s.freed ≠ s'.freed := by
    rw [fresh]
    exact Nat.ne_of_lt freed
  have check : s.pcs t = .check ∧ s'.pcs t = .idle ∧ s'.freed = s.freed+1 ∧ ∀ writable, openEnd s.pipe writable = false := by
    have stage := ran.own.stage
    generalize s.pcs t = before at stage ⊢
    generalize s'.pcs t = now at stage ⊢
    generalize s'.pipe = pi' at stage
    generalize s'.freed = freed' at stage changed ⊢
    cases stage with
    | frees shut => exact ⟨rfl,rfl,rfl,shut⟩
    | _ => exact absurd rfl changed
  obtain ⟨at_,idle,counted,shut⟩ := check
  refine ⟨by simp [counted,fresh],fun writable => ?_,fun u => ?_⟩
  · exact (congrFun ran.closed writable).trans (spent.closing.flags writable (shut writable))
  · change (s'.pcs u).resting = true
    by_cases mine : u = t
    · rw [mine,idle]; rfl
    · rw [ran.still at_ u mine]
      exact single at_ (shut false) (shut true) u mine

theorem Spent.next {a : Action n} (spent : Spent s) (single : alone s a) (ran : next s a = some s') : Spent s' := by
  have unfreed : ∀ writable, s.closed writable = false → s.freed = 0 := by
    intro writable still
    rcases Nat.eq_zero_or_pos s.freed with zero | freed
    · exact zero
    · rw [(spent.once freed).2.1 writable] at still
      cases still
  cases a with
  | call t c =>
    simp only [PipeThreads.next] at ran
    split at ran
    · rename_i ready
      cases ran
      have closing := spent.closing.begins (.enter c) s.closed ready.1 (by simp) (fun _ closed => closed)
          (fun _ closed => .inl closed) (by simp)
      refine ⟨closing,spent.unused,fun freed => ?_⟩
      have none : s.freed = 0 := unfreed _ ready.2
      exact absurd freed (by simp [State.goto,none])
    · cases ran
  | close t writable =>
    simp only [PipeThreads.next] at ran
    split at ran
    · rename_i ready
      cases ran
      have closing := spent.closing.begins (.close writable) (Function.update s.closed writable true) ready.1 (by simp)
        (fun other closed => by by_cases same : other = writable <;> simp [same,closed])
        (fun other closed => by
          by_cases same : other = writable
          · exact .inr (same ▸ rfl)
          · exact .inl (by rwa [Function.update_of_ne same] at closed))
        (fun other same => by cases same; exact Function.update_self _ _ _)
      refine ⟨closing,spent.unused,fun freed => ?_⟩
      have none : s.freed = 0 := unfreed _ ready.2
      exact absurd freed (by simp [State.goto,none])
    · cases ran
  | kill t =>
    cases ran
    exact ⟨⟨spent.closing.mine,spent.closing.flags,spent.closing.pending,spent.closing.last⟩,spent.unused,spent.once⟩
  | run t =>
    obtain ⟨middle,stepped,rfl⟩ := next_run ran
    exact spent.run single (step_steps stepped)

end closes

theorem freed_once {data : Fin pipeSize → Byte} {s : State n} (path : Runs.Guarded next alone (start data) s) :
    FreedOnce s :=
  (path.invariant Spent (start_spent data) fun _ _ _ spent single ran => spent.next single ran).freedOnce

-- One close behind the other.
theorem freed_once_in_turn : ∃ s : State 2, Runs.Guarded next alone (start fun _ => 0) s ∧ s.freed = 1 ∧
    FreedOnce s := by
  obtain ⟨s,ran,freed⟩ := Runs.some_such (p := fun s : State 2 => decide (s.freed = 1))
    (x := Runs.execGuarded next alone (start fun _ => 0)
      [.close 0 true,.run 0,.run 0,.run 0,.run 0,.close 1 false,.run 1,.run 1,.run 1,.run 1]) (by decide)
  have path := Runs.exec_guarded .start ran
  exact ⟨s,path,of_decide_eq_true freed,freed_once path⟩

-- Both closers have given the lock back before the first of them tests the flags.
theorem freed_twice : ∃ s : State 2, Runs.Reached next (start fun _ => 0) s ∧ s.freed = 2 ∧ s.late = true ∧
    ¬FreedOnce s := by
  obtain ⟨s,ran,facts⟩ := Runs.some_such (p := fun s : State 2 => decide (s.freed = 2 ∧ s.late = true))
    (x := Runs.exec next (start fun _ => 0)
      [.close 0 true,.close 1 false,.run 0,.run 0,.run 0,.run 1,.run 1,.run 1,.run 0,.run 1]) (by decide)
  obtain ⟨freed,late⟩ := of_decide_eq_true facts
  refine ⟨s,Runs.exec_reached .start ran,freed,late,fun once => ?_⟩
  have bound := once.once
  omega

end PipeThreads
