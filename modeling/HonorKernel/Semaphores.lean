import HonorKernel.DiskFormat

-- common/sem.c, the part that runs under the semaphore's own spinlock. Waiters
-- are inserted right behind the list head and granted from its other end. `val` has no
-- bounds here; in SemaphoreInts it is the `int` of the source.
namespace Semaphores
open DiskFormat

structure Semaphore where
  val : Int
  sleeplist : List Nat
  deriving DecidableEq

def initSem (val : Int) : Semaphore := ⟨val,[]⟩

-- `true`: the caller goes on; `false`: it is on the sleep list.
def waitSem (sem : Semaphore) (proc : Nat) : Bool × Semaphore :=
  if 0 ≤ sem.val-1 then (true,⟨sem.val-1,sem.sleeplist⟩)
  else (false,⟨sem.val-1,proc::sem.sleeplist⟩)

-- The process that the post wakes, if any; the assertion is `!_empty_list`.
def postSem (sem : Semaphore) : Except Fault (Option Nat × Semaphore) :=
  if sem.val+1 ≤ 0 then
    match sem.sleeplist.getLast? with
    | none => .error .assertion
    | some proc => .ok (some proc,⟨sem.val+1,sem.sleeplist.dropLast⟩)
  else .ok (none,⟨sem.val+1,sem.sleeplist⟩)

-- What post_all_sem leaves: every sleeper is granted, and the extra post that ends
-- the loop is taken back by `_get_sem`.
def postAllSem (sem : Semaphore) : List Nat × Semaphore :=
  (sem.sleeplist.reverse,⟨max sem.val 0,[]⟩)

-- _get_sem and get_all_sem.
def getSem (sem : Semaphore) : Bool × Semaphore :=
  if 0 < sem.val then (true,⟨sem.val-1,sem.sleeplist⟩) else (false,sem)

def getAllSem (sem : Semaphore) : Int × Semaphore :=
  if 0 < sem.val then (sem.val,⟨0,sem.sleeplist⟩) else (0,sem)

-- What a waiter does behind sched when nobody has granted it: the assertion is
-- `++sem->val <= 0`.
def leaveSem (sem : Semaphore) (proc : Nat) : Except Fault Semaphore :=
  if sem.val+1 ≤ 0 then .ok ⟨sem.val+1,sem.sleeplist.erase proc⟩ else .error .assertion

-- The loop of post_all_sem with its `ret` and the processes woken so far.
def postAllLoop : Nat → Int → List Nat → Semaphore → Except Fault (Int × List Nat × Semaphore)
  | 0,_,_,_ => .error .blocked
  | fuel+1,ret,woken,sem => do
    let (who,sem) ← postSem sem
    match getSem sem with
    | (true,sem) => .ok (ret+1,woken++who.toList,sem)
    | (false,sem) => postAllLoop fuel (ret+1) (woken++who.toList) sem

@[simp] theorem waitSem_free : waitSem ⟨1,[]⟩ proc = (true,⟨0,[]⟩) := rfl
@[simp] theorem postSem_held : postSem ⟨0,[]⟩ = .ok (none,⟨1,[]⟩) := rfl

-- The counter tells how many processes are on the sleep list.
def Counted (sem : Semaphore) : Prop := sem.sleeplist.length = (-sem.val).toNat

theorem Counted.iff (counted : Counted sem) : (sem.val < 0 ↔ sem.sleeplist ≠ []) ∧
    (sem.val < 0 → -sem.val = sem.sleeplist.length) := by
  unfold Counted at counted
  rw [← List.length_pos_iff]
  omega

theorem Counted.wait (counted : Counted sem) (proc : Nat) : Counted (waitSem sem proc).2 := by
  unfold Counted at counted
  unfold waitSem
  split
  · unfold Counted
    simp only
    omega
  · unfold Counted
    simp only [List.length_cons]
    omega

-- A post finds a sleeper exactly if the counter is negative, and takes the last one.
theorem Counted.post (counted : Counted sem) :
    (0 ≤ sem.val ∧ sem.sleeplist = [] ∧ postSem sem = .ok (none,⟨sem.val+1,[]⟩)) ∨
    (sem.val < 0 ∧ ∃ rest proc, sem.sleeplist = rest++[proc] ∧ postSem sem = .ok (some proc,⟨sem.val+1,rest⟩)) := by
  unfold Counted at counted
  unfold postSem
  by_cases free : 0 ≤ sem.val
  · have empty : sem.sleeplist = [] := List.length_eq_zero_iff.mp (by omega)
    refine .inl ⟨free,empty,?_⟩
    rw [if_neg (by omega),empty]
  · have sleepers : sem.sleeplist ≠ [] := List.length_pos_iff.mp (by omega)
    have last := List.dropLast_append_getLast sleepers
    refine .inr ⟨by omega,sem.sleeplist.dropLast,sem.sleeplist.getLast sleepers,last.symm,?_⟩
    rw [if_pos (by omega),List.getLast?_eq_getLast_of_ne_nil sleepers]

theorem Counted.posted (counted : Counted sem) (ran : postSem sem = .ok (who,sem')) : Counted sem' := by
  rcases counted.post with ⟨free,empty,returned⟩ | ⟨negative,rest,proc,listed,returned⟩
  · rw [returned] at ran
    cases ran
    unfold Counted
    simp only [List.length_nil]
    omega
  · rw [returned] at ran
    cases ran
    unfold Counted at counted ⊢
    rw [listed,List.length_append,List.length_singleton] at counted
    simp only
    omega

theorem Counted.get (counted : Counted sem) : Counted (getSem sem).2 := by
  unfold Counted at counted
  unfold getSem
  split
  · unfold Counted
    simp only
    omega
  · exact counted

theorem Counted.getAll (counted : Counted sem) : Counted (getAllSem sem).2 := by
  unfold Counted at counted
  unfold getAllSem
  split
  · unfold Counted
    simp only
    omega
  · exact counted

theorem Counted.leave (counted : Counted sem) (listed : proc ∈ sem.sleeplist) :
    leaveSem sem proc = .ok ⟨sem.val+1,sem.sleeplist.erase proc⟩ ∧ Counted ⟨sem.val+1,sem.sleeplist.erase proc⟩ := by
  have positive := List.length_pos_of_mem listed
  unfold Counted at counted
  refine ⟨?_,?_⟩
  · unfold leaveSem
    rw [if_pos (by omega)]
  · unfold Counted
    simp only [List.length_erase_of_mem listed]
    omega

-- post_all_sem makes one round for every sleeper and one that _get_sem takes back.
theorem postAllLoop_returns (fuel : Nat) (counted : Counted sem) (enough : sem.sleeplist.length < fuel) (ret : Int)
    (woken : List Nat) :
    postAllLoop fuel ret woken sem = .ok (ret+sem.sleeplist.length+1,woken++(postAllSem sem).1,(postAllSem sem).2) := by
  induction fuel generalizing sem ret woken with
  | zero => omega
  | succ fuel ih =>
    unfold postAllLoop
    rcases counted.post with ⟨free,empty,returned⟩ | ⟨negative,rest,proc,listed,returned⟩
    · rw [returned]
      simp only [bind,Except.bind,getSem]
      rw [if_pos (by omega)]
      simp [postAllSem,empty,Int.max_eq_left free]
    · have counted' := counted.posted returned
      have length : sem.sleeplist.length = rest.length+1 := by rw [listed]; simp
      rw [returned]
      simp only [bind,Except.bind,getSem]
      rw [if_neg (by omega)]
      simp only
      rw [ih counted' (by simp only; omega)]
      simp only [postAllSem,listed,Option.toList]
      congr 2
      · simp only [List.length_append,List.length_singleton]
        omega
      · simp only [List.reverse_append,List.reverse_singleton,List.append_assoc]
        congr 2
        omega

end Semaphores
