import HonorKernel.FileTable
import HonorKernel.InodeConsistency
import HonorKernel.SectionLayout

-- The count of a file and the slots and sections that have it.
namespace FileTable
open DiskFormat CacheView InodeLayer SysFile
open PageTable (Section U64 splitAt initSections)

variable {n : Nat}

def Closing.Fine (c : Closing) : Prop :=
  (∃ f, c.file = some f) ∧ 0 < c.holders ∧ c.before = c.holders ∧ c.after = c.before-1 ∧ (c.released ≠ none ↔ c.before = 1)

def unit (f : Nat) : Nat → Int := fun g => if g = f then 1 else 0

-- `extra` are references that a call has in hand.
structure Booked (k : Kernel n) (extra : Nat → Int) : Prop where
  refs : ∀ f, (k.files f).ref = k.held f+extra f
  typed : ∀ f, (k.files f).type ≠ .none ↔ 0 < (k.files f).ref
  closed : ∀ c ∈ k.closed, c.Fine

section Counting
variable {k : Kernel n} {pid : Fin n} {p p' : Process} {f g : Nat}

theorem refersTo_some (f g : Nat) : (refersTo g (some f) : Int) = unit f g := by
  unfold refersTo unit
  by_cases same : g = f
  · rw [same,if_pos rfl,if_pos rfl]
    rfl
  · rw [if_neg (fun equal => same (Option.some.inj equal).symm),if_neg same]
    rfl

theorem refersTo_none (f : Nat) : refersTo f none = 0 := if_neg (by simp)

theorem holds_setSlot (p : Process) (i : Fin nOpenFile) (x : Option Nat) (f : Nat) :
    (p.setSlot i x).holds f+refersTo f (p.oftable i) = p.holds f+refersTo f x := by
  have update := Runs.total_update (refersTo f) p.oftable i x
  unfold Process.holds Process.setSlot
  simp only
  omega

theorem held_setProc (k : Kernel n) (pid : Fin n) (p : Option Process) (f : Nat) :
    (k.setProc pid p).held f+holdsOf f (k.procs pid) = k.held f+holdsOf f p := Runs.total_update (holdsOf f) k.procs pid p

end Counting

section Steps
variable {env : Env} {k k' : Kernel n} {pid : Fin n} {p : Process} {f : Nat} {extra : Nat → Int}

theorem Booked.setProc (booked : Booked k extra) (here : k.procs pid = p₀) {p₁ : Option Process} {extra' : Nat → Int}
    (moved : ∀ f, (holdsOf f p₀ : Int)+extra f = holdsOf f p₁+extra' f) : Booked (k.setProc pid p₁) extra' := by
  refine ⟨?_,booked.typed,booked.closed⟩
  intro f
  have update := held_setProc k pid p₁ f
  have refs := booked.refs f
  have moved := moved f
  rw [here] at update
  change (k.files f).ref = _
  omega

theorem Booked.fs (booked : Booked k extra) (fs : Fs) (op : Nat) (exited : List Usize) :
    Booked { k with fs := fs, op := op, exited := exited } extra := ⟨booked.refs,booked.typed,booked.closed⟩

theorem Booked.setFile (booked : Booked k extra) {file : File} {extra' : Nat → Int}
    (refs : file.ref = k.held f+extra' f) (typed : file.type ≠ .none ↔ 0 < file.ref)
    (others : ∀ g, g ≠ f → extra' g = extra g) : Booked (k.setFile f file) extra' := by
  refine ⟨?_,?_,booked.closed⟩
  · intro g
    change (Function.update k.files f file g).ref = k.held g+extra' g
    by_cases same : g = f
    · subst same
      rw [Function.update_self]
      exact refs
    · rw [Function.update_of_ne same,others g same]
      exact booked.refs g
  · intro g
    change (Function.update k.files f file g).type ≠ .none ↔ 0 < (Function.update k.files f file g).ref
    by_cases same : g = f
    · subst same
      rw [Function.update_self]
      exact typed
    · rw [Function.update_of_ne same]
      exact booked.typed g

theorem Booked.record (booked : Booked k extra) {c : Closing} (fine : c.Fine) : Booked (k.record c) extra := by
  refine ⟨booked.refs,booked.typed,?_⟩
  intro x member
  rcases List.mem_append.mp member with old | new
  · exact booked.closed x old
  · rw [List.mem_singleton] at new
    rw [new]
    exact fine

theorem unit_self (f : Nat) : unit f f = 1 := if_pos rfl

theorem unit_other {f g : Nat} (other : g ≠ f) : unit f g = 0 := if_neg other

theorem fileAllocLoop_free {files : Nat → File} (count i : Nat) (found : fileAllocLoop files count i = some f) :
    (files f).ref = 0 := by
  induction count generalizing i with
  | zero => cases found
  | succ count ih =>
    simp only [fileAllocLoop] at found
    split at found
    · rename_i free
      cases found
      exact free
    · exact ih (i+1) found

theorem fileAlloc_free (found : fileAlloc k = some (f,k')) : (k.files f).ref = 0 ∧ k' = k.setFile f { k.files f with ref := 1 } := by
  obtain ⟨g,free,same⟩ := Option.map_eq_some_iff.mp found
  cases same
  exact ⟨fileAllocLoop_free _ _ free,rfl⟩

theorem Kernel.proc_ok (found : k.proc pid = .ok p) : k.procs pid = some p := by
  unfold Kernel.proc at found
  split at found
  · cases found
  · rename_i here
    cases found
    exact here

theorem Booked.unheld (booked : Booked k 0) (free : (k.files f).ref = 0) : k.held f = 0 ∧ (k.files f).type = .none := by
  have refs := booked.refs f
  simp only [Pi.zero_apply,Int.add_zero] at refs
  refine ⟨by omega,?_⟩
  by_contra typed
  have positive := (booked.typed f).mp typed
  omega

theorem Booked.enter (booked : Booked k 0) (here : k.procs pid = some p) {i : Fin nOpenFile}
    (empty : p.oftable i = none) (free : (k.files f).ref = 0) (file : File) (one : file.ref = 1)
    (typed : file.type ≠ .none) :
    Booked ((k.setFile f file).setProc pid (some (p.setSlot i (some f)))) 0 := by
  have unheld := (booked.unheld free).1
  have set : Booked (k.setFile f file) (unit f) := by
    refine booked.setFile ?_ ⟨fun _ => by omega,fun _ => typed⟩ fun g other => unit_other other
    rw [one,unheld,unit_self]
    rfl
  refine set.setProc here ?_
  intro g
  have slots := holds_setSlot p i (some f) g
  have refers := refersTo_some f g
  rw [empty,refersTo_none] at slots
  simp only [holdsOf,Pi.zero_apply]
  omega

theorem Booked.positive (booked : Booked k 0) (holder : 0 < k.held f) : 0 < (k.files f).ref := by
  have refs := booked.refs f
  simp only [Pi.zero_apply,Int.add_zero] at refs
  omega

end Steps

-- kalloc has to return a zero where init_sections leaves `fp`, and close has to be called
-- with an open file.
def Careful (k : Kernel n) : Call n → Prop
  | .close pid fd => ((k.procs pid).bind fun p => fd2file p fd).isSome = true
  | .fork _ _ fp => fp = none
  | .execve _ _ fp _ => fp = none
  | _ => True

instance (k : Kernel n) : (call : Call n) → Decidable (Careful k call)
  | .close pid fd => inferInstanceAs (Decidable (((k.procs pid).bind fun p => fd2file p fd).isSome = true))
  | .fork _ _ fp => inferInstanceAs (Decidable (fp = none))
  | .execve _ _ fp _ => inferInstanceAs (Decidable (fp = none))
  | .openat .. => inferInstanceAs (Decidable True)
  | .dup .. => inferInstanceAs (Decidable True)
  | .pipe2 .. => inferInstanceAs (Decidable True)
  | .chdir .. => inferInstanceAs (Decidable True)
  | .unlinkat .. => inferInstanceAs (Decidable True)
  | .mmap .. => inferInstanceAs (Decidable True)
  | .munmap .. => inferInstanceAs (Decidable True)
  | .wait .. => inferInstanceAs (Decidable True)
  | .exit .. => inferInstanceAs (Decidable True)

-- No file is open.
structure Unopened (k : Kernel n) : Prop where
  files : ∀ f, (k.files f).ref = 0 ∧ (k.files f).type = .none
  slots : ∀ pid p, k.procs pid = some p → ∀ i, p.oftable i = none
  sections : ∀ pid p, k.procs pid = some p → ∀ st ∈ p.sections, st.fp = none
  closed : k.closed = []

def Counted (k : Kernel n) : Prop := (∀ f, (k.files f).ref = k.held f) ∧ ∀ c ∈ k.closed, c.Fine

theorem Unopened.booked {k : Kernel n} (start : Unopened k) : Booked k 0 := by
  refine ⟨?_,?_,?_⟩
  · intro f
    have unheld : k.held f = 0 := by
      refine Runs.total_zero ?_
      intro pid
      cases here : k.procs pid with
      | none => rfl
      | some p =>
        have slots : Runs.total (refersTo f) p.oftable = 0 := by
          refine Runs.total_zero ?_
          intro i
          rw [start.slots pid p here i,refersTo_none]
        have sections : (p.sections.map fun st => refersTo f st.fp).sum = 0 := by
          refine List.sum_eq_zero ?_
          intro x member
          obtain ⟨st,inside,rfl⟩ := List.mem_map.mp member
          rw [start.sections pid p here st inside,refersTo_none]
        rw [holdsOf,Process.holds,slots,sections]
    rw [(start.files f).1,unheld]
    rfl
  · intro f
    rw [(start.files f).1,(start.files f).2]
    simp
  · rw [start.closed]
    simp

-- The first process, in the root directory.
def firstProcess : Process := ⟨rootInodeNo,fun _ => none,initSections none⟩
def firstKernel : Kernel 2 :=
  ⟨blankDisk.load mkfsSuperBlock rootInodeNo,fun _ => ⟨.none,0,false,false,0,0#64⟩,fun i =>
      if i = 0 then some firstProcess else none,0,[],[]⟩

theorem firstKernel_unopened : Unopened firstKernel := by
  have only : ∀ pid p, firstKernel.procs pid = some p → p = firstProcess := by
    intro pid p here
    simp only [firstKernel] at here
    split at here
    · exact (Option.some.inj here).symm
    · cases here
  refine ⟨fun f => ⟨rfl,rfl⟩,?_,?_,rfl⟩
  · intro pid p here i
    rw [only pid p here]
    rfl
  · intro pid p here st member
    rw [only pid p here] at member
    simp only [firstProcess,initSections,List.mem_singleton] at member
    rw [member]

end FileTable
