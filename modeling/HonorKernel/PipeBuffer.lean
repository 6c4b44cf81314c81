import HonorKernel.DiskFormat
import HonorKernel.Ring
import HonorKernel.Runs

-- The bytes of a pipe and the two counters, which run freely through the 32-bit numbers.
namespace PipeBuffer
open DiskFormat

def pipeSize : Nat := 512

instance : NeZero pipeSize := ⟨by decide⟩

structure Pipe where
  data : Fin pipeSize → Byte
  nread : U32
  nwrite : U32
  readopen : Bool
  writeopen : Bool

-- The memory comes from kalloc: what data holds is not known.
def initPipe (data : Fin pipeSize → Byte) : Pipe := ⟨data,0#32,0#32,true,true⟩

-- pi->data[pi->nwrite++ % PIPE_SIZE] = b
def Pipe.put (pi : Pipe) (b : Byte) : Pipe :=
  { pi with data := Function.update pi.data (Ring.slot pipeSize pi.nwrite.toNat) b, nwrite := pi.nwrite+1#32 }

-- pi->data[pi->nread++ % PIPE_SIZE]
def Pipe.get (pi : Pipe) : Byte := pi.data (Ring.slot pipeSize pi.nread.toNat)
def Pipe.skip (pi : Pipe) : Pipe := { pi with nread := pi.nread+1#32 }

abbrev Pipe.full (pi : Pipe) : Prop := pi.nwrite = pi.nread+BitVec.ofNat 32 pipeSize
abbrev Pipe.empty (pi : Pipe) : Prop := pi.nread = pi.nwrite

-- How a call leaves its section: with a value, or to wait on wlock or rlock.
inductive Outcome where
  | returned (value : Int)
  | waits
deriving DecidableEq

-- The loop of pipe_write up to the next wait, with the bytes that are left; `n` is the
-- argument.
def pipeWrite (killed : Bool) (n : Int) : List Byte → Pipe → Outcome × List Byte × Pipe
  | [],pi => (.returned n,[],pi)
  | b::rest,pi =>
    if pi.full then
      if pi.readopen = false ∨ killed = true then (.returned (-1),b::rest,pi) else (.waits,b::rest,pi)
    else pipeWrite killed n rest (pi.put b)

def readLoop : Nat → List Byte → Pipe → List Byte × Pipe
  | 0,read,pi => (read,pi)
  | left+1,read,pi => if pi.empty then (read,pi) else readLoop left (read++[pi.get]) pi.skip

def pipeRead (killed : Bool) (n : Nat) (pi : Pipe) : Outcome × List Byte × Pipe :=
  if pi.empty ∧ pi.writeopen = true then
    if killed then (.returned (-1),[],pi) else (.waits,[],pi)
  else
    let (read,pi) := readLoop n [] pi
    (.returned read.length,read,pi)

-- One byte at a time, with all the bytes so far.
structure State where
  pipe : Pipe
  written : List Byte
  read : List Byte

inductive Action where
  | write (b : Byte)
  | read
deriving DecidableEq

def next (s : State) : Action → Option State
  | .write b => if s.pipe.full then none else some ⟨s.pipe.put b,s.written++[b],s.read⟩
  | .read => if s.pipe.empty then none else some ⟨s.pipe.skip,s.written,s.read++[s.pipe.get]⟩

def start (data : Fin pipeSize → Byte) : State := ⟨initPipe data,[],[]⟩

-- What is written and not yet read stands in data from nread on, and the difference of
-- the counters is how much that is.
structure Fifo (s : State) (unread : List Byte) : Prop where
  split : s.written = s.read++unread
  room : unread.length ≤ pipeSize
  count : s.pipe.nwrite = s.pipe.nread+BitVec.ofNat 32 unread.length
  holds : Ring.Holds s.pipe.data s.pipe.nread.toNat unread

section Counters
variable {s s' : State} {unread : List Byte}

theorem Fifo.inFlight (fifo : Fifo s unread) : (s.pipe.nwrite-s.pipe.nread).toNat = unread.length := by
  have room : unread.length ≤ 512 := fifo.room
  rw [fifo.count,BitVec.add_comm,BitVec.add_sub_cancel,BitVec.toNat_ofNat,Nat.mod_eq_of_lt (by omega)]

theorem Fifo.full_iff (fifo : Fifo s unread) : s.pipe.full ↔ unread.length = pipeSize := by
  have flight := fifo.inFlight
  constructor
  · intro full
    rw [full,BitVec.add_comm,BitVec.add_sub_cancel] at flight
    exact flight.symm
  · intro all
    rw [Pipe.full,fifo.count,all]

theorem Fifo.empty_iff (fifo : Fifo s unread) : s.pipe.empty ↔ unread = [] := by
  have flight := fifo.inFlight
  constructor
  · intro empty
    rw [← empty,BitVec.sub_self] at flight
    exact List.eq_nil_of_length_eq_zero flight.symm
  · rintro rfl
    rw [Pipe.empty,fifo.count]
    simp

-- 512 divides 2^32, so that the slots follow one another when a counter wraps.
theorem slot_add (a : U32) (k : Nat) : (a+BitVec.ofNat 32 k).toNat%pipeSize = (a.toNat+k)%pipeSize := by
  have size : pipeSize = 512 := rfl
  rw [BitVec.toNat_add,BitVec.toNat_ofNat,size]
  omega

theorem Fifo.put (fifo : Fifo s unread) (room : ¬ s.pipe.full) (b : Byte) :
    Fifo ⟨s.pipe.put b,s.written++[b],s.read⟩ (unread++[b]) := by
  have fits : unread.length < pipeSize := Nat.lt_of_le_of_ne fifo.room fun all => room (fifo.full_iff.mpr all)
  have place : Ring.slot pipeSize s.pipe.nwrite.toNat = Ring.slot pipeSize (s.pipe.nread.toNat+unread.length) := by
    refine Ring.slot_congr ?_
    rw [fifo.count,slot_add]
  refine ⟨?_,?_,?_,?_⟩
  · simp only [fifo.split,List.append_assoc]
  · rw [List.length_append]
    exact fits
  · simp only [Pipe.put,fifo.count,List.length_append,List.length_singleton]
    rw [BitVec.add_assoc,← BitVec.ofNat_add]
  · simp only [Pipe.put,place]
    exact fifo.holds.push fits

theorem Fifo.skip (fifo : Fifo s unread) (some : ¬ s.pipe.empty) :
    ∃ rest, unread = s.pipe.get::rest ∧ Fifo ⟨s.pipe.skip,s.written,s.read++[s.pipe.get]⟩ rest := by
  cases unread with
  | nil => exact absurd (fifo.empty_iff.mpr rfl) some
  | cons b rest =>
    have first : s.pipe.get = b := fifo.holds.head
    refine ⟨rest,by rw [first],?_,?_,?_,?_⟩
    · simp [fifo.split,first]
    · have room := fifo.room
      rw [List.length_cons] at room
      omega
    · simp only [Pipe.skip,fifo.count,List.length_cons]
      rw [BitVec.add_assoc,← BitVec.ofNat_add,Nat.add_comm 1]
    · refine fifo.holds.tail.congr ?_
      exact (slot_add s.pipe.nread 1).symm

theorem next_fifo {a : Action} (fifo : Fifo s unread) (ran : next s a = some s') : ∃ unread, Fifo s' unread := by
  cases a with
  | write b =>
    simp only [next] at ran
    split at ran
    · cases ran
    · rename_i room
      cases ran
      exact ⟨_,fifo.put room b⟩
  | read =>
    simp only [next] at ran
    split at ran
    · cases ran
    · rename_i more
      cases ran
      obtain ⟨rest,_,fifo⟩ := fifo.skip more
      exact ⟨rest,fifo⟩

theorem reached_fifo {data : Fin pipeSize → Byte} (path : Runs.Reached next (start data) s) :
    ∃ unread, Fifo s unread := by
  refine path.invariant (fun s => ∃ unread, Fifo s unread) ⟨[],rfl,Nat.zero_le _,rfl,.nil⟩ ?_
  rintro _ a _ ⟨unread,fifo⟩ _ ran
  exact next_fifo fifo ran

end Counters

theorem pipeWrite_steps {s₀ s : State} (killed : Bool) (n : Int) (src : List Byte) (path : Runs.Reached next s₀ s)
    (ran : pipeWrite killed n src s.pipe = (outcome,rest,pi)) :
    ∃ stored, src = stored++rest ∧ Runs.Reached next s₀ ⟨pi,s.written++stored,s.read⟩ := by
  induction src generalizing s with
  | nil =>
    cases ran
    exact ⟨[],rfl,by simpa using path⟩
  | cons b more ih =>
    simp only [pipeWrite] at ran
    split at ran
    · refine ⟨[],?_,?_⟩
      · split at ran <;> cases ran <;> rfl
      · have same : pi = s.pipe := by split at ran <;> cases ran <;> rfl
        simpa [same] using path
    · rename_i room
      have step : next s (.write b) = some ⟨s.pipe.put b,s.written++[b],s.read⟩ := by simp [next,room]
      obtain ⟨stored,parts,path'⟩ := ih (.step path trivial step) ran
      refine ⟨b::stored,by rw [parts]; rfl,?_⟩
      simpa using path'

theorem readLoop_steps {s₀ s : State} (left : Nat) (read : List Byte) (path : Runs.Reached next s₀ s)
    (ran : readLoop left read s.pipe = (read',pi)) :
    ∃ taken, read' = read++taken ∧ Runs.Reached next s₀ ⟨pi,s.written,s.read++taken⟩ := by
  induction left generalizing s read with
  | zero =>
    cases ran
    exact ⟨[],by simp,by simpa using path⟩
  | succ left ih =>
    simp only [readLoop] at ran
    split at ran
    · cases ran
      exact ⟨[],by simp,by simpa using path⟩
    · rename_i more
      have step : next s .read = some ⟨s.pipe.skip,s.written,s.read++[s.pipe.get]⟩ := by simp [next,more]
      obtain ⟨taken,parts,path'⟩ := ih (read++[s.pipe.get]) (.step path trivial step) ran
      exact ⟨s.pipe.get::taken,by simp [parts],by simpa using path'⟩

theorem pipeRead_steps {s₀ s : State} (killed : Bool) (n : Nat) (path : Runs.Reached next s₀ s)
    (ran : pipeRead killed n s.pipe = (outcome,bytes,pi)) : Runs.Reached next s₀ ⟨pi,s.written,s.read++bytes⟩ := by
  unfold pipeRead at ran
  split at ran
  · split at ran <;> cases ran <;> simpa using path
  · obtain ⟨taken,parts,path'⟩ := readLoop_steps n [] path rfl
    cases ran
    rw [parts]
    simpa using path'

-- Whatever the order of the bytes stored and removed, and however often the counters
-- have wrapped: what was read is the beginning of what was written, and the rest of it
-- is in the buffer.
theorem pipe_is_fifo {data : Fin pipeSize → Byte} {s : State} (path : Runs.Reached next (start data) s) :
    s.read <+: s.written ∧
    (s.pipe.nwrite-s.pipe.nread).toNat ≤ 512 ∧
    (s.pipe.nwrite-s.pipe.nread).toNat = s.written.length-s.read.length ∧
    (∀ k, s.read.length ≤ k → (inside : k < s.written.length) →
      s.pipe.data (Ring.slot pipeSize (s.pipe.nread.toNat+(k-s.read.length))) = s.written[k]) ∧
    (s.pipe.full ↔ s.written.length = s.read.length+512) ∧
    (s.pipe.empty ↔ s.written.length = s.read.length) := by
  obtain ⟨unread,fifo⟩ := reached_fifo path
  have total : s.written.length = s.read.length+unread.length := by rw [fifo.split,List.length_append]
  have size : pipeSize = 512 := rfl
  refine ⟨⟨unread,fifo.split.symm⟩,?_,?_,?_,?_,?_⟩
  · rw [fifo.inFlight]
    exact fifo.room
  · rw [fifo.inFlight]
    omega
  · intro k lower inside
    rw [fifo.holds (k-s.read.length) (by omega)]
    simp only [fifo.split,List.getElem_append_right lower]
  · rw [fifo.full_iff]
    omega
  · rw [fifo.empty_iff,← List.length_eq_zero_iff]
    omega

-- Two bytes in, one out.
theorem pipe_is_fifo_of_two : ∃ s : State, s.written = [7#8,8#8] ∧ s.read = [7#8] ∧ s.read <+: s.written := by
  obtain ⟨s,ran,facts⟩ := Runs.some_such
    (x := Runs.exec next (start fun _ => 255#8) [.write 7#8,.write 8#8,.read])
    (p := fun s => s.written = [7#8,8#8] ∧ s.read = [7#8]) (by decide +kernel)
  obtain ⟨written,read⟩ := of_decide_eq_true facts
  exact ⟨s,written,read,(pipe_is_fifo (Runs.exec_reached .start ran)).1⟩

end PipeBuffer
