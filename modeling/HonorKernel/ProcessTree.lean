import HonorKernel.Semaphores
import HonorKernel.Runs

-- kernel/proc.c: fork, exit and wait of any number of processes, in steps that end
-- wherever processlock or the scheduler lock is taken or given back. A process is known
-- by its pid. Page tables, stacks and open files have no part in the process tree.
namespace ProcessTree
open DiskFormat Semaphores

-- `waitChecked` to `waitGranted` are in wait(), the last one behind wait_sem. `exitLoop`
-- (the children it has visited and those to come) and `exitPosting` hold processlock,
-- `exitPosted` holds the scheduler lock. A reaped process is freed memory.
inductive Pc where
  | absent
  | unstarted
  | running
  | waitChecked
  | waitAsleep
  | waitAwake
  | waitGranted
  | exitLoop (visited rest : List Nat)
  | exitUnlocked
  | exitPosting
  | exitPosted
  | zombie
  | reaped
  deriving DecidableEq

structure State where
  pc : Nat → Pc
  parent : Nat → Option Nat
  children : Nat → List Nat
  childexit : Nat → Semaphore
  up : Nat → Bool
  exitcode : Nat → Int
  maxPid : Nat
  processlock : Option Nat
  schedlock : Option Nat
  returned : List (Nat × Nat × Int)

-- init_proc gives root_proc the first pid.
def rootProc : Nat := 1

def State.goto (s : State) (p : Nat) (pc : Pc) : State := {s with pc := Function.update s.pc p pc}
def State.setSem (s : State) (p : Nat) (sem : Semaphore) : State := {s with childexit := Function.update s.childexit p sem}
def State.setParent (s : State) (p q : Nat) : State := {s with parent := Function.update s.parent q (some p)}
def State.setChildren (s : State) (p : Nat) (children : List Nat) : State :=
  {s with children := Function.update s.children p children}
def State.locks (s : State) (processlock schedlock : Option Nat) : State :=
  {s with processlock := processlock,schedlock := schedlock}

def State.unlocked (s : State) : Prop := s.processlock = none ∧ s.schedlock = none

instance (s : State) : Decidable s.unlocked := inferInstanceAs (Decidable (s.processlock = none ∧ s.schedlock = none))

-- wait->up = true; activate_proc(wait->proc)
def State.grant (s : State) (p : Nat) : State :=
  {s with
    up := Function.update s.up p true
    pc := Function.update s.pc p (if s.pc p = .waitAsleep then .waitAwake else s.pc p)}

-- post_sem(&p->childexit)
def State.post (s : State) (p : Nat) : Except Fault State := do
  let (who,sem) ← postSem (s.childexit p)
  .ok (match who with | none => s.setSem p sem | some q => (s.setSem p sem).grant q)

inductive Action where
  | create
  | setParentToThis (p q : Nat)
  | startProc (q : Nat)
  | waitCheck (p : Nat)
  | waitSem (p : Nat) (killed : Bool)
  | alert (p : Nat)
  | waitResume (p : Nat)
  | waitReap (p : Nat)
  | exitEnter (p : Nat) (code : Int)
  | exitChild (p : Nat)
  | exitMerge (p : Nat)
  | exitPost (p : Nat)
  | exitHandOver (p : Nat)
  | exitSched (p : Nat)

def step (s : State) : Action → Except Fault State
  | .create =>
    if s.processlock = none then
      .ok {s.goto (s.maxPid+1) .unstarted with maxPid := s.maxPid+1}
    else .error .blocked
  | .setParentToThis p q =>
    if s.processlock = none ∧ s.pc p = .running ∧ s.pc q = .unstarted then
      if s.parent q = none then .ok ((s.setParent p q).setChildren p (q::s.children p)) else .error .assertion
    else .error .blocked
  | .startProc q =>
    if s.processlock = none ∧ s.pc q = .unstarted then
      if s.parent q = none then
        .ok (((s.setParent rootProc q).setChildren rootProc (q::s.children rootProc)).goto q .running)
      else .ok (s.goto q .running)
    else .error .blocked
  | .waitCheck p =>
    if s.processlock = none ∧ s.pc p = .running then
      .ok (if s.children p = [] then s else s.goto p .waitChecked)
    else .error .blocked
  | .waitSem p killed =>
    if s.pc p = .waitChecked then
      match waitSem (s.childexit p) p with
      | (true,sem) => .ok ((s.setSem p sem).goto p .waitGranted)
      | (false,sem) => .ok {(s.setSem p sem).goto p (if killed then .waitAwake else .waitAsleep) with up := Function.update s.up p false}
    else .error .blocked
  | .alert p => if s.pc p = .waitAsleep then .ok (s.goto p .waitAwake) else .error .blocked
  | .waitResume p =>
    if s.pc p = .waitAwake then
      if s.up p then .ok (s.goto p .waitGranted)
      else do
        let sem ← leaveSem (s.childexit p) p
        .ok ((s.setSem p sem).goto p .running)
    else .error .blocked
  | .waitReap p =>
    if s.unlocked ∧ s.pc p = .waitGranted then
      match (s.children p).find? fun c => s.pc c = .zombie with
      | none => .ok (s.goto p .running)
      | some z => .ok {((s.setChildren p ((s.children p).erase z)).goto z .reaped).goto p .running with
          returned := (p,z,s.exitcode z)::s.returned}
    else .error .blocked
  | .exitEnter p code =>
    if s.unlocked ∧ s.pc p = .running then
      if p = rootProc then .error .assertion
      else .ok {(s.goto p (.exitLoop [] (s.children p))).locks (some p) none with exitcode := Function.update s.exitcode p code}
    else .error .blocked
  | .exitChild p =>
    match s.pc p with
    | .exitLoop visited (c::rest) => do
      let s := s.setParent rootProc c
      let s ← if s.pc c = .zombie then s.post rootProc else .ok s
      .ok (s.goto p (.exitLoop (visited++[c]) rest))
    | _ => .error .blocked
  -- The whole list goes right behind the head of root's.
  | .exitMerge p =>
    match s.pc p with
    | .exitLoop _ [] =>
      .ok ((((s.setChildren rootProc (s.children p++s.children rootProc)).setChildren p []).goto p .exitUnlocked).locks none none)
    | _ => .error .blocked
  | .exitPost p =>
    if s.unlocked ∧ s.pc p = .exitUnlocked then
      match s.parent p with
      | none => .error .dangling
      | some q => do
        let s ← s.post q
        .ok ((s.goto p .exitPosting).locks (some p) none)
    else .error .blocked
  | .exitHandOver p =>
    if s.pc p = .exitPosting ∧ s.schedlock = none then .ok ((s.goto p .exitPosted).locks none (some p)) else .error .blocked
  | .exitSched p =>
    if s.pc p = .exitPosted then .ok ((s.goto p .zombie).locks s.processlock none) else .error .blocked

def next (s : State) (a : Action) : Option State := (step s a).toOption

-- init_kproc: root_proc is its own parent.
def boot : State where
  pc := Function.update (fun _ => .absent) rootProc .running
  parent := Function.update (fun _ => none) rootProc (some rootProc)
  children _ := []
  childexit _ := initSem 0
  up _ := false
  exitcode _ := 0
  maxPid := rootProc
  processlock := none
  schedlock := none
  returned := []

-- Past the entry of exit.
def Pc.entered : Pc → Bool
  | .exitLoop _ _ | .exitUnlocked | .exitPosting | .exitPosted | .zombie | .reaped => true
  | _ => false

-- Exit has posted the parent.
def Pc.late : Pc → Bool
  | .exitPosting | .exitPosted | .zombie => true
  | _ => false

def Pc.inWait : Pc → Bool
  | .waitAsleep | .waitAwake => true
  | _ => false

-- Holding processlock across steps.
def Pc.locking : Pc → Bool
  | .exitLoop _ _ | .exitPosting => true
  | _ => false

-- Without children: not yet there, or behind the hand-over of the children.
def Pc.childless : Pc → Bool
  | .absent | .unstarted | .exitUnlocked | .exitPosting | .exitPosted | .zombie | .reaped => true
  | _ => false

def Pc.there : Pc → Bool
  | .absent | .reaped => false
  | _ => true

-- A wait() that has been granted and has not finished.
def State.granted (s : State) (p : Nat) : Nat :=
  if s.pc p = .waitGranted ∨ ((s.pc p).inWait = true ∧ s.up p = true) then 1 else 0

def State.posts (s : State) (p : Nat) : Nat := (s.childexit p).val.toNat

def State.zombies (s : State) (p : Nat) : Nat := (s.children p).countP fun c => s.pc c = .zombie

end ProcessTree
