import HonorKernel.Ring
import HonorKernel.Runs
import HonorKernel.Semaphores

-- kernel/console.c: the input buffer between the interrupt handler and the readers. A
-- section under cons.lock is one step, and so is the wait on cons.sem. The echo on the
-- uart is left out.
namespace ConsoleInput
open DiskFormat Semaphores

def inputBuf : Nat := 128

instance : NeZero inputBuf := ⟨by decide⟩

def newline : Byte := 10#8
def carriageReturn : Byte := 13#8
def backspace : Byte := 127#8
def ctrlC : Byte := 3#8
def ctrlD : Byte := 4#8
def ctrlU : Byte := 21#8

-- The positions are numbers of type usize; every use reduces them mod INPUT_BUF.
structure Console where
  sem : Semaphore
  buf : Fin inputBuf → Byte
  readIdx : Usize
  writeIdx : Usize
  editIdx : Usize

def consoleInit : Console := ⟨initSem 0,fun _ => 0#8,0#64,0#64,0#64⟩

def Console.at (cons : Console) (i : Usize) : Byte := cons.buf (Ring.slot inputBuf i.toNat)
def up (i : Usize) : Usize := (i+1#64)%128#64
def down (i : Usize) : Usize := (i-1#64)%128#64

def Console.store (cons : Console) (c : Byte) : Console :=
  { cons with editIdx := up cons.editIdx, buf := Function.update cons.buf (Ring.slot inputBuf (up cons.editIdx).toNat) c }

-- cons.write_idx = cons.edit_idx and the post; the call that it wakes.
def Console.commit (cons : Console) : Option (Console × Option Nat) := do
  let (woken,sem) ← (postSem cons.sem).toOption
  some ({ cons with writeIdx := cons.editIdx, sem := sem },woken)

-- The loop of Ctrl-U looks at the character before the one it removes.
def Console.eraseLine : Nat → Console → Option Console
  | 0,_ => none
  | fuel+1,cons =>
    if cons.editIdx ≠ cons.writeIdx ∧ cons.at (down cons.editIdx) ≠ newline then
      Console.eraseLine fuel { cons with editIdx := down cons.editIdx }
    else some cons

def translate (c : Byte) : Byte := if c = carriageReturn then newline else c

-- The body of the loop, which leaves it at the end; `none` where it goes round for ever.
def handle (cons : Console) (c : Byte) : Option (Console × Option Nat) :=
  if c = backspace then
    if cons.editIdx ≠ cons.writeIdx then some ({ cons with editIdx := down cons.editIdx },none) else some (cons,none)
  else if c = ctrlU then (cons.eraseLine inputBuf).map (·,none)
  else if c = ctrlD then
    if up cons.editIdx = cons.readIdx then none else (cons.store c).commit
  else if c = ctrlC then some (cons,none)
  else if up cons.editIdx = cons.readIdx then none
  else if c = newline ∨ up (cons.store c).editIdx = cons.readIdx then (cons.store c).commit
  else some (cons.store c,none)

def consoleIntr (cons : Console) (c : Byte) : Option (Console × Option Nat) :=
  if c = 255#8 then some (cons,none) else handle cons (translate c)

-- How a section of console_read ends: with `n` still to read, or for good.
inductive Exit where
  | returned
  | waits (n : Nat)
deriving DecidableEq

-- The loop of console_read from the test of the indices on, or from behind it; with the
-- characters that it stores.
def readSection (target : Nat) : Nat → Bool → List Byte → Console → Exit × List Byte × Console
  | 0,_,got,cons => (.returned,got,cons)
  | n+1,test,got,cons =>
    if test = true ∧ cons.readIdx = cons.writeIdx then (.waits (n+1),got,cons)
    else
      let cons := { cons with readIdx := up cons.readIdx }
      let c := cons.at cons.readIdx
      if c = ctrlD then (.returned,got,if n+1 < target then { cons with readIdx := cons.readIdx-1#64 } else cons)
      else if c = newline then (.returned,got++[c],cons)
      else readSection target n true (got++[c]) cons

inductive Phase where
  | released
  | asleep
  | granted
deriving DecidableEq

-- A call of console_read that has not returned.
structure Reader where
  n : Nat
  target : Nat
  phase : Phase
deriving DecidableEq

-- The calls are numbered. `committed` and `line` are what the keyboard has sent, `log`
-- the characters that the calls have stored for their callers.
structure State where
  cons : Console
  readers : Nat → Option Reader
  calls : Nat
  committed : List Byte
  line : List Byte
  log : List (Nat × Byte)

def start : State := ⟨consoleInit,fun _ => none,0,[],[],[]⟩

inductive Action where
  | intr (c : Byte)
  | read (n : Nat)
  | wait (call : Nat)
  | resume (call : Nat)
  | interrupt (call : Nat)
deriving DecidableEq

-- How many slots are in use.
def Console.held (cons : Console) : Nat := ((cons.editIdx-cons.readIdx)%128#64).toNat

-- What a character does to the input, whatever the buffer looks like: `filling` when it
-- takes the last slot.
def edited (filling : Bool) (committed line : List Byte) (c : Byte) : List Byte × List Byte :=
  if c = backspace then (committed,line.dropLast)
  else if c = ctrlU then (committed,[])
  else if c = ctrlC then (committed,line)
  else if c = ctrlD ∨ c = newline ∨ filling = true then (committed++(line++[c]),[])
  else (committed,line++[c])

def typed (filling : Bool) (committed line : List Byte) (c : Byte) : List Byte × List Byte :=
  if c = 255#8 then (committed,line) else edited filling committed line (translate c)

def grant (readers : Nat → Option Reader) (woken : Option Nat) : Nat → Option Reader :=
  match woken with
  | none => readers
  | some call => fun other => if other = call then (readers call).map fun reader => { reader with phase := .granted } else readers other

-- A section of call `call` and what becomes of it.
def State.section (s : State) (call target n : Nat) (test : Bool) : State :=
  let (exit,got,cons) := readSection target n test [] s.cons
  { s with
    cons := cons
    readers := Function.update s.readers call (match exit with | .returned => none | .waits n => some ⟨n,target,.released⟩)
    log := s.log++got.map (call,·) }

def next (s : State) : Action → Option State
  | .intr c =>
    (consoleIntr s.cons c).map fun (cons,woken) =>
      { s with
        cons := cons
        readers := grant s.readers woken
        committed := (typed (s.cons.held+2 = inputBuf) s.committed s.line c).1
        line := (typed (s.cons.held+2 = inputBuf) s.committed s.line c).2 }
  | .read n => some ({ s with calls := s.calls+1 }.section s.calls n n true)
  | .wait call =>
    match s.readers call with
    | some ⟨n,target,.released⟩ =>
      let (passed,sem) := waitSem s.cons.sem call
      some { s with
        cons := { s.cons with sem := sem }
        readers := Function.update s.readers call (some ⟨n,target,if passed then .granted else .asleep⟩) }
    | _ => none
  | .resume call =>
    match s.readers call with
    | some ⟨n,target,.granted⟩ => some (s.section call target n false)
    | _ => none
  -- The process is killed in its sleep: the call returns -1.
  | .interrupt call =>
    match s.readers call with
    | some ⟨_,_,.asleep⟩ =>
      (leaveSem s.cons.sem call).toOption.map fun sem =>
        { s with
          cons := { s.cons with sem := sem }
          readers := Function.update s.readers call none
          log := s.log.filter fun x => x.1 ≠ call }
    | _ => none

end ConsoleInput
