import HonorKernel.Console
import HonorKernel.SleepLocks
import HonorKernel.SysFile

-- file_read and file_write on the inode of the console (fs/file.c): console_read and
-- console_write give the lock of the inode back that their caller has taken, and take it
-- again before they return.
namespace ConsoleDevice
open DiskFormat SleepLocks

-- A file_read of `n` bytes, or a file_write with `left` to do behind `nwrite` bytes.
inductive Work where
  | read (f : Nat) (n : Usize)
  | write (f : Nat) (left : List Byte) (nwrite : Nat)

def Work.file : Work → Nat
  | .read f _ | .write f _ _ => f

-- `entering` and `relocking` are at an inodes.lock. `released` is behind the inodes.unlock
-- of the console function, `returned` behind its return.
inductive Place where
  | outside
  | entering (w : Work)
  | entered (w : Work)
  | released (w : Work)
  | reading (w : Work) (call : Nat)
  | relocking (w : Work) (r : Int)
  | returned (w : Work) (r : Int)

-- Where the lock leads to.
def Place.locked : Place → Option Place
  | .entering w => some (.entered w)
  | .relocking w r => some (.returned w r)
  | _ => none

def Place.holding : Place → Bool
  | .entered _ | .returned _ _ => true
  | _ => false

-- The files of type FD_INODE on this inode, any of which any thread may use.
structure Machine where
  lock : SleepLock
  cons : ConsoleInput.State
  uart : List Byte
  place : Nat → Place
  killed : Nat → Bool
  readable : Nat → Bool
  writable : Nat → Bool
  off : Nat → Usize
  result : Nat → Option Int

inductive Call where
  | read (t f : Nat) (n : Usize)
  | write (t f : Nat) (src : List Byte)
  | lock (t : Nat)
  | resume (t : Nat)
  | unlock (t : Nat)
  | device (t : Nat)
  | console (a : ConsoleInput.Action)
  | leave (t : Nat)
  | interrupt (t : Nat)
  | finish (t : Nat)
  | kill (t : Nat)

def Machine.goto (m : Machine) (t : Nat) (place : Place) : Machine := { m with place := Function.update m.place t place }
def Machine.answer (m : Machine) (t : Nat) (r : Int) : Machine := { m.goto t .outside with result := Function.update m.result t (some r) }

-- What console_read has stored for the call.
def Machine.got (m : Machine) (call : Nat) : Nat := m.cons.log.countP fun x => x.1 = call

-- f->off += nread, which is a number of type usize, and inodes.unlock.
def Machine.account (m : Machine) (f : Nat) (r : Int) (lock : SleepLock) : Machine :=
  { m with lock, off := Function.update m.off f (m.off f+BitVec.ofInt 64 r) }

-- The keyboard, and what goes on in a console_read that is not interrupted.
def isOwn : ConsoleInput.Action → Bool
  | .intr _ | .wait _ | .resume _ => true
  | .read _ | .interrupt _ => false

def Machine.next (m : Machine) : Call → Option Machine
  | .read t f n =>
    match m.place t with
    | .outside => some (if m.readable f then m.goto t (.entering (.read f n)) else m.answer t (-1))
    | _ => none
  | .write t f src =>
    match m.place t with
    | .outside =>
      let left := src.take (SysFile.writeCount (m.off f) (BitVec.ofNat 64 src.length)).toNat
      some (if m.writable f then (if left = [] then m.answer t 0 else m.goto t (.entering (.write f left 0))) else m.answer t (-1))
    | _ => none
  | .lock t => do
    let after ← (m.place t).locked
    let lock ← (m.lock.acquire t (m.killed t)).toOption
    some (if lock.holds t then { m with lock }.goto t after else { m with lock })
  | .resume t => do
    let after ← (m.place t).locked
    let lock ← (m.lock.resume t).toOption
    some ({ m with lock }.goto t after)
  | .unlock t =>
    match m.place t with
    | .entered w => (m.lock.release t).toOption.map fun lock => { m with lock }.goto t (.released w)
    | _ => none
  | .device t =>
    match m.place t with
    | .released (.read f n) =>
      (ConsoleInput.next m.cons (.read n.toInt.toNat)).map fun cons => { m with cons }.goto t (.reading (.read f n) m.cons.calls)
    | .released (.write f left nwrite) =>
      let op := left.take SysFile.maxOpWriteN
      some ({ m with uart := m.uart++op.map (·%128#8) }.goto t (.relocking (.write f left nwrite) op.length))
    | _ => none
  | .console a => if isOwn a then (ConsoleInput.next m.cons a).map fun cons => { m with cons } else none
  | .leave t =>
    match m.place t with
    | .reading w call => if (m.cons.readers call).isNone then some (m.goto t (.relocking w (m.got call))) else none
    | _ => none
  -- _wait_sem has returned false: return -1.
  | .interrupt t =>
    match m.place t with
    | .reading w call =>
      if m.killed t then (ConsoleInput.next m.cons (.interrupt call)).map fun cons => { m with cons }.goto t
          (.returned w (-1)) else none
    | _ => none
  | .finish t =>
    match m.place t with
    | .returned (.read f _) r => (m.lock.release t).toOption.map fun lock => (m.account f r lock).answer t r
    | .returned (.write f left nwrite) r =>
      (m.lock.release t).toOption.map fun lock =>
        let left := left.drop r.toNat
        let nwrite := nwrite+r.toNat
        if left = [] then (m.account f r lock).answer t nwrite else (m.account f r lock).goto t (.entering (.write f left nwrite))
    | _ => none
  | .kill t => some { m with killed := Function.update m.killed t true }

def Machine.boot (readable writable : Nat → Bool) (off : Nat → Usize) : Machine where
  lock := initSleeplock
  cons := ConsoleInput.start
  uart := []
  place _ := .outside
  killed _ := false
  readable := readable
  writable := writable
  off := off
  result _ := none

-- The call that ends a file_read of thread `t`.
def Call.endsRead (m : Machine) (t : Nat) : Call → Prop
  | .read u _ _ => u = t
  | .finish u => u = t ∧ ∃ f n r, m.place t = .returned (.read f n) r
  | _ => False

-- Who comes back from the console function holds the lock, nobody else does, and the lock
-- is worth one less for each thread that holds it or is on its way to it.
structure Right (m : Machine) : Prop where
  held : ∀ t w r, m.place t = .returned w r → m.lock.holds t = true
  one : ∀ t u, m.lock.holds t = true → m.lock.holds u = true → t = u
  balanced : m.lock.Balanced
  idle : (∀ t, m.place t = .outside) → m.lock.val = 1
  failed : ∀ call m' t, m.next call = some m' → call.endsRead m t → m'.result t = some (-1) → m'.off = m.off

-- No read is interrupted in its wait for input.
def Uninterrupted (_ : Machine) : Call → Prop
  | .interrupt _ => False
  | _ => True

structure Machine.Inv (m : Machine) : Prop where
  lock : m.lock.Sound
  holds : ∀ t, m.lock.holds t = (m.place t).holding
  inside : ∀ t, m.lock.inside t = true → (m.place t).locked ≠ none
  got : ∀ t w r, m.place t = .relocking w r ∨ m.place t = .returned w r → 0 ≤ r

section Steps
variable {m m' : Machine} {t u : Nat} {place after : Place} {lock : SleepLock} {call : Call}

theorem Place.locked_holding (leads : place.locked = some after) : place.holding = false ∧ after.holding = true := by
  cases place <;> cases leads <;> exact ⟨rfl,rfl⟩

theorem Machine.Inv.goto (inv : m.Inv) (same : m'.lock = m.lock) (moved : m'.place = Function.update m.place t after)
    (before : (m.place t).locked = none) (holding : after.holding = (m.place t).holding)
    (got : ∀ w r, after = .relocking w r ∨ after = .returned w r → 0 ≤ r) : m'.Inv := by
  refine ⟨by rw [same]; exact inv.lock,?_,?_,?_⟩
  · intro u
    rw [same,moved,inv.holds,Function.update_apply]
    split
    · rename_i own
      rw [own,holding]
    · rfl
  · intro u waiting
    rw [same] at waiting
    rw [moved,Function.update_apply]
    split
    · rename_i own
      rw [own] at waiting
      exact absurd before (inv.inside t waiting)
    · exact inv.inside u waiting
  · intro u w r at_
    rw [moved,Function.update_apply] at at_
    split at at_
    · exact got w r at_
    · exact inv.got u w r at_

theorem Machine.Inv.still (inv : m.Inv) (lock : m'.lock = m.lock) (place : m'.place = m.place) : m'.Inv :=
  ⟨by rw [lock]; exact inv.lock,by rw [lock,place]; exact inv.holds,by rw [lock,place]; exact inv.inside,by rw [place]; exact inv.got⟩

theorem Machine.Inv.locked (inv : m.Inv) (sound : lock.Sound) (leads : (m.place t).locked = some after)
    (outside : lock.inside t = false) (others : ∀ q, q ≠ t → lock.inside q = m.lock.inside q)
    (holds : lock.holds = Function.update m.lock.holds t true) : Machine.Inv ({ m with lock }.goto t after) := by
  obtain ⟨_,holding⟩ := Place.locked_holding leads
  refine ⟨sound,?_,?_,?_⟩
  · intro u
    change lock.holds u = (Function.update m.place t after u).holding
    rw [holds,Function.update_apply,Function.update_apply]
    split
    · exact holding.symm
    · exact inv.holds u
  · intro u waiting
    change lock.inside u = true at waiting
    change (Function.update m.place t after u).locked ≠ none
    by_cases own : u = t
    · rw [own,outside] at waiting
      cases waiting
    · rw [others u own] at waiting
      rw [Function.update_of_ne own]
      exact inv.inside u waiting
  · intro u w r at_
    change Function.update m.place t after u = _ ∨ Function.update m.place t after u = _ at at_
    rw [Function.update_apply] at at_
    split at at_
    · cases at_ with
      | inl at_ => rw [at_] at holding; cases holding
      | inr at_ =>
        cases place : m.place t <;> rw [place] at leads <;> cases leads <;> cases at_
        exact inv.got t w r (.inl place)
    · exact inv.got u w r at_

theorem Machine.Inv.released (inv : m.Inv) (holding : (m.place t).holding = true) (ran : m.lock.release t = .ok lock)
    (same : m'.lock = lock) (moved : m'.place = Function.update m.place t after) (without : after.holding = false)
    (got : ∀ w r, after ≠ .relocking w r) : m'.Inv := by
  have held : m.lock.holds t = true := (inv.holds t).trans holding
  obtain ⟨sound,inside,holds⟩ := inv.lock.release held ran
  refine ⟨by rw [same]; exact sound,?_,?_,?_⟩
  · intro u
    rw [same,holds,moved,Function.update_apply,Function.update_apply]
    split
    · exact without.symm
    · exact inv.holds u
  · intro u waiting
    rw [same,inside] at waiting
    rw [moved,Function.update_apply]
    split
    · rename_i own
      rw [own,inv.lock.apart t held] at waiting
      cases waiting
    · exact inv.inside u waiting
  · intro u w r at_
    rw [moved,Function.update_apply] at at_
    split at at_
    · rcases at_ with at_ | at_
      · exact absurd at_ (got w r)
      · rw [at_] at without
        cases without
    · exact inv.got u w r at_

theorem Machine.next_inv (inv : m.Inv) (met : Uninterrupted m call) (ran : m.next call = some m') : m'.Inv := by
  cases call with
  | read t f n =>
    simp only [Machine.next] at ran
    split at ran
    · rename_i outside
      cases ran
      split
      · exact inv.goto rfl rfl (by rw [outside]; rfl) (by rw [outside]; rfl) (by simp)
      · exact inv.goto rfl rfl (by rw [outside]; rfl) (by rw [outside]) (by simp)
    · cases ran
  | write t f src =>
    simp only [Machine.next] at ran
    split at ran
    · rename_i outside
      cases ran
      split
      · split
        · exact inv.goto rfl rfl (by rw [outside]; rfl) (by rw [outside]) (by simp)
        · exact inv.goto rfl rfl (by rw [outside]; rfl) (by rw [outside]; rfl) (by simp)
      · exact inv.goto rfl rfl (by rw [outside]; rfl) (by rw [outside]) (by simp)
    · cases ran
  | lock t =>
    simp only [Machine.next,Option.bind_eq_bind,Option.bind_eq_some_iff] at ran
    obtain ⟨after,leads,lock,taken,last⟩ := ran
    have free : m.lock.holds t = false := (inv.holds t).trans (Place.locked_holding leads).1
    obtain ⟨sound,outside,others,⟨granted,holds⟩ | ⟨waiting,holds⟩⟩ := inv.lock.acquire free (Runs.toOption_some taken)
    · have here : lock.holds t = true := by rw [holds]; exact Function.update_self ..
      rw [if_pos here] at last
      cases last
      exact inv.locked sound leads (congrArg SemaphoreAlerts.Pc.inside granted) others holds
    · have here : ¬ lock.holds t = true := by rw [holds,free]; exact Bool.false_ne_true
      rw [if_neg here] at last
      cases last
      refine ⟨sound,?_,?_,inv.got⟩
      · intro u
        rw [holds]
        exact inv.holds u
      · intro u inside
        by_cases own : u = t
        · rw [own,leads]
          exact Option.some_ne_none _
        · rw [others u own] at inside
          exact inv.inside u inside
  | resume t =>
    simp only [Machine.next,Option.bind_eq_bind,Option.bind_eq_some_iff] at ran
    obtain ⟨after,leads,lock,taken,last⟩ := ran
    obtain ⟨sound,_,outside,others,holds⟩ := inv.lock.resume (Runs.toOption_some taken)
    cases last
    exact inv.locked sound leads outside others holds
  | unlock t =>
    simp only [Machine.next] at ran
    split at ran
    · rename_i w at_
      obtain ⟨lock,given,last⟩ := Option.map_eq_some_iff.mp ran
      cases last
      exact inv.released (by rw [at_]; rfl) (Runs.toOption_some given) rfl rfl rfl (by simp)
    · cases ran
  | device t =>
    simp only [Machine.next] at ran
    split at ran
    · rename_i f n at_
      obtain ⟨cons,_,last⟩ := Option.map_eq_some_iff.mp ran
      cases last
      exact inv.goto rfl rfl (by rw [at_]; rfl) (by rw [at_]; rfl) (by simp)
    · rename_i f left nwrite at_
      cases ran
      refine inv.goto rfl rfl (by rw [at_]; rfl) (by rw [at_]; rfl) ?_
      rintro w r (same | same) <;> cases same
      exact Int.natCast_nonneg _
    · cases ran
  | console a =>
    simp only [Machine.next] at ran
    split at ran
    · obtain ⟨cons,_,last⟩ := Option.map_eq_some_iff.mp ran
      cases last
      exact inv.still rfl rfl
    · cases ran
  | leave t =>
    simp only [Machine.next] at ran
    split at ran
    · rename_i w c at_
      split at ran
      · cases ran
        refine inv.goto rfl rfl (by rw [at_]; rfl) (by rw [at_]; rfl) ?_
        rintro w r (same | same) <;> cases same
        exact Int.natCast_nonneg _
      · cases ran
    · cases ran
  | interrupt t => exact met.elim
  | finish t =>
    simp only [Machine.next] at ran
    split at ran
    · rename_i f n r at_
      obtain ⟨lock,given,last⟩ := Option.map_eq_some_iff.mp ran
      cases last
      exact inv.released (by rw [at_]; rfl) (Runs.toOption_some given) rfl rfl rfl (by simp)
    · rename_i f left nwrite r at_
      obtain ⟨lock,given,last⟩ := Option.map_eq_some_iff.mp ran
      cases last
      split
      · exact inv.released (by rw [at_]; rfl) (Runs.toOption_some given) rfl rfl rfl (by simp)
      · exact inv.released (by rw [at_]; rfl) (Runs.toOption_some given) rfl rfl rfl (by simp)
    · cases ran
  | kill t =>
    cases ran
    exact inv.still rfl rfl

theorem Machine.boot_inv (readable writable : Nat → Bool) (off : Nat → Usize) :
    (Machine.boot readable writable off).Inv := by
  refine ⟨initSleeplock_sound,fun _ => rfl,?_,?_⟩
  · intro t waiting
    cases waiting
  · intro t w r at_
    rcases at_ with at_ | at_ <;> cases at_

-- What file_read returns, and what it adds to f->off, is what console_read has returned.
theorem finish_read (at_ : m.place t = .returned (.read f n) r) (ran : m.next (.finish t) = some m') :
    m'.result t = some r ∧ m'.off = Function.update m.off f (m.off f+BitVec.ofInt 64 r) := by
  simp only [Machine.next,at_] at ran
  obtain ⟨lock,_,last⟩ := Option.map_eq_some_iff.mp ran
  cases last
  exact ⟨Function.update_self ..,rfl⟩

theorem Machine.Inv.right (inv : m.Inv) : Right m := by
  refine ⟨?_,fun t u left right => inv.lock.one left right,inv.lock.balanced,?_,?_⟩
  · intro t w r at_
    rw [inv.holds,at_]
    rfl
  · intro outside
    refine inv.lock.free ?_
    rintro t (held | waiting)
    · rw [inv.holds,outside] at held
      cases held
    · have at_ := inv.inside t waiting
      rw [outside] at at_
      exact at_ rfl
  · intro call m' t ran ends failed
    cases call with
    | read u f n =>
      simp only [Machine.next] at ran
      split at ran
      · cases ran
        split <;> rfl
      · cases ran
    | finish u =>
      obtain ⟨rfl,f,n,r,at_⟩ := ends
      rw [(finish_read at_ ran).1] at failed
      cases failed
      exact absurd (inv.got u _ _ (.inr at_)) (by decide)
    | _ => exact ends.elim

theorem interrupted_wrong (inv : m.Inv) (ran : m.next (.interrupt t) = some m') : ¬ Right m' := by
  intro right
  simp only [Machine.next] at ran
  split at ran
  · rename_i w call at_
    split at ran
    · obtain ⟨cons,_,last⟩ := Option.map_eq_some_iff.mp ran
      cases last
      have held := right.held t w (-1) (Function.update_self ..)
      change m.lock.holds t = true at held
      rw [inv.holds,at_] at held
      cases held
    · cases ran
  · cases ran

theorem device_lock_balanced (readable writable : Nat → Bool) (off : Nat → Usize)
    (path : Runs.Guarded Machine.next Uninterrupted (Machine.boot readable writable off) m) :
    Right m ∧ ∀ call m', m.next call = some m' → (Right m' ↔ Uninterrupted m call) := by
  have inv := path.invariant Machine.Inv (Machine.boot_inv readable writable off) fun _ _ _ inv met ran => Machine.next_inv inv met ran
  refine ⟨inv.right,?_⟩
  intro call m' ran
  refine ⟨?_,fun met => (Machine.next_inv inv met ran).right⟩
  intro right
  cases call with
  | interrupt t => exact interrupted_wrong inv ran right
  | _ => trivial

def bootOpen : Machine := Machine.boot (fun _ => true) (fun _ => true) (fun _ => 5#64)

-- 1 waits for input while 2 writes to the same device; then a line comes.
theorem device_lock_balanced_line : ∃ m, Right m ∧ m.result 1 = some 1 ∧ m.result 2 = some 2 ∧ m.off 0 = 8#64 ∧
    m.lock.val = 1 ∧ m.uart = [65#8,66#8] := by
  obtain ⟨m,ran,facts⟩ : ∃ m, Runs.exec Machine.next bootOpen [.read 1 0 10#64,.lock 1,.unlock 1,.device 1,.console
      (.wait 0),.write 2 0 [65#8,66#8],
      .lock 2,.unlock 2,.device 2,.console (.intr 10#8),.console
          (.resume 0),.leave 1,.lock 1,.lock 2,.finish 1,.resume 2,.finish 2] = some m ∧
      decide (m.result 1 = some 1 ∧ m.result 2 = some 2 ∧ m.off 0 = 8#64 ∧ m.lock.val = 1 ∧ m.uart = [65#8,66#8]) = true :=
    Runs.some_such (by decide +kernel)
  refine ⟨m,(device_lock_balanced _ _ _ (Runs.exec_always .start ?_ ran)).1,of_decide_eq_true facts⟩
  intro call member m
  simp only [List.mem_cons,List.not_mem_nil,or_false] at member
  rcases member with rfl | rfl | rfl | rfl | rfl | rfl | rfl | rfl | rfl | rfl | rfl | rfl | rfl | rfl | rfl | rfl | rfl <;> trivial

def Place.hasRead : Place → Bool
  | .returned (.read _ _) _ => true
  | _ => false

-- 1 is killed in its wait: f->off goes down by one, the lock to 2, and 2 and 3 both get it.
theorem device_lock_doubled : ∃ m m' last, Runs.Reached Machine.next bootOpen m ∧ ¬ Right m ∧
    m.next (.finish 1) = some m' ∧
    m'.result 1 = some (-1) ∧ m.off 0 = 5#64 ∧ m'.off 0 = 4#64 ∧ m'.lock.val = 2 ∧
    Runs.exec Machine.next m' [.read 2 0 1#64,.read 3 0 1#64,.lock 2,.lock 3] = some last ∧
    last.lock.holds 2 = true ∧ last.lock.holds 3 = true ∧ ¬ Right last := by
  obtain ⟨m,ran,facts⟩ : ∃ m, Runs.exec Machine.next bootOpen [.read 1 0 10#64,.lock 1,.unlock 1,.device 1,.console
      (.wait 0),.kill 1,.interrupt 1] = some m ∧
      ((m.place 1).hasRead && (m.next (.finish 1)).any fun m' => decide (m'.result 1 = some (-1) ∧ m.off 0 = 5#64 ∧
          m'.off 0 = 4#64 ∧ m'.lock.val = 2) &&
        (Runs.exec Machine.next m' [.read 2 0 1#64,.read 3 0 1#64,.lock 2,.lock 3]).any fun last =>
          decide (last.lock.holds 2 = true ∧ last.lock.holds 3 = true)) = true :=
    Runs.some_such (by decide +kernel)
  obtain ⟨read,facts⟩ := (Bool.and_eq_true _ _).mp facts
  obtain ⟨m',finished,facts⟩ := Runs.some_such facts
  obtain ⟨ended,facts⟩ := (Bool.and_eq_true _ _).mp facts
  obtain ⟨last,both,held⟩ := Runs.some_such facts
  obtain ⟨result,before,after,value⟩ := of_decide_eq_true ended
  have held := of_decide_eq_true held
  refine ⟨m,m',last,Runs.exec_reached .start ran,?_,finished,result,before,after,value,both,held.1,held.2,?_⟩
  · intro right
    obtain ⟨f,n,r,at_⟩ : ∃ f n r, m.place 1 = .returned (.read f n) r := by
      unfold Place.hasRead at read
      split at read
      · exact ⟨_,_,_,‹_›⟩
      · cases read
    have same := right.failed _ m' 1 finished ⟨rfl,f,n,r,at_⟩ result
    rw [same,before] at after
    cases after
  · intro right
    exact absurd (right.one 2 3 held.1 held.2) (by decide)

end Steps

end ConsoleDevice
