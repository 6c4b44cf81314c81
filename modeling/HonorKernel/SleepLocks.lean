import HonorKernel.SemaphoreAlerts
import Mathlib.Data.Finset.Card

-- A semaphore of value 1 as a lock (init_sleeplock), with a record of who has taken it and
-- not given it back.
namespace SleepLocks
open DiskFormat Semaphores SemaphoreAlerts

structure SleepLock where
  waits : SemaphoreAlerts.State
  holds : Nat → Bool

def initSleeplock : SleepLock := ⟨SemaphoreAlerts.boot 1,fun _ => false⟩

def SleepLock.val (lock : SleepLock) : Int := lock.waits.sem.val
def SleepLock.inside (lock : SleepLock) (p : Nat) : Bool := (lock.waits.pc p).inside

-- unalertable_wait_sem: at once, or behind sched. Whoever gets false runs into the ASSERT.
def SleepLock.acquire (lock : SleepLock) (p : Nat) (killed : Bool) : Except Fault SleepLock := do
  let waits ← SemaphoreAlerts.step lock.waits (.wait p false killed)
  .ok ⟨waits,if waits.pc p = .outside (some true) then Function.update lock.holds p true else lock.holds⟩

def SleepLock.resume (lock : SleepLock) (p : Nat) : Except Fault SleepLock := do
  let waits ← SemaphoreAlerts.step lock.waits (.resume p)
  if waits.pc p = .outside (some true) then .ok ⟨waits,Function.update lock.holds p true⟩ else .error .assertion

-- post_sem, also by somebody who does not hold it.
def SleepLock.release (lock : SleepLock) (p : Nat) : Except Fault SleepLock := do
  let waits ← SemaphoreAlerts.step lock.waits .post
  .ok ⟨waits,Function.update lock.holds p false⟩

-- Between the two ends of a critical section, the way into it included.
def SleepLock.claims (lock : SleepLock) (p : Nat) : Prop := lock.holds p = true ∨ lock.inside p = true

-- Every claim has taken one from the value.
def SleepLock.Balanced (lock : SleepLock) : Prop :=
  ∃ claims : Finset Nat, (∀ p, p ∈ claims ↔ lock.claims p) ∧ lock.val = 1-claims.card

structure SleepLock.Sound (lock : SleepLock) : Prop where
  waits : Inv lock.waits
  apart : ∀ p, lock.holds p = true → lock.inside p = false
  balanced : lock.Balanced

section Balance
variable {lock lock' : SleepLock} {p q : Nat}

theorem initSleeplock_sound : initSleeplock.Sound := by
  refine ⟨boot_inv (by decide),fun _ held => absurd held Bool.false_ne_true,∅,?_,rfl⟩
  intro p
  simp [SleepLock.claims,SleepLock.inside,initSleeplock,SemaphoreAlerts.boot,SemaphoreAlerts.Pc.inside]

-- Those on the sleep list claim it and do not hold it; the value tells how many they are.
theorem SleepLock.Sound.one (sound : lock.Sound) (left : lock.holds p = true) (right : lock.holds q = true) :
    p = q := by
  obtain ⟨claims,member,value⟩ := sound.balanced
  have sleeper : ∀ r ∈ lock.waits.sem.sleeplist, lock.inside r = true := fun r listed => ((sound.waits.listed r).mp listed).1
  have inside : lock.waits.sem.sleeplist.toFinset ⊆ claims := by
    intro r listed
    exact (member r).mpr (.inr (sleeper r (List.mem_toFinset.mp listed)))
  have holder : ∀ r, lock.holds r = true → r ∈ claims \ lock.waits.sem.sleeplist.toFinset := by
    intro r held
    rw [Finset.mem_sdiff,List.mem_toFinset]
    refine ⟨(member r).mpr (.inl held),fun listed => ?_⟩
    have here := sleeper r listed
    rw [sound.apart r held] at here
    cases here
  have few : (claims \ lock.waits.sem.sleeplist.toFinset).card ≤ 1 := by
    have size := Finset.card_sdiff_add_card_eq_card inside
    rw [List.toFinset_card_of_nodup sound.waits.distinct] at size
    have counted := sound.waits.counted
    unfold Counted at counted
    unfold SleepLock.val at value
    omega
  exact Finset.card_le_one.mp few p (holder p left) q (holder q right)

theorem SleepLock.Sound.free (sound : lock.Sound) (nobody : ∀ p, ¬ lock.claims p) : lock.val = 1 := by
  obtain ⟨claims,member,value⟩ := sound.balanced
  have none : claims = ∅ := Finset.eq_empty_iff_forall_notMem.mpr fun p listed => nobody p ((member p).mp listed)
  rw [value,none]
  rfl

theorem SleepLock.Balanced.more (balanced : lock.Balanced) (before : ¬ lock.claims p)
    (claims : ∀ q, lock'.claims q ↔ q = p ∨ lock.claims q) (value : lock'.val = lock.val-1) : lock'.Balanced := by
  obtain ⟨list,member,count⟩ := balanced
  have new : p ∉ list := fun listed => before ((member p).mp listed)
  refine ⟨insert p list,?_,?_⟩
  · intro q
    rw [Finset.mem_insert,claims,member]
  · rw [Finset.card_insert_of_notMem new,value,count]
    push_cast
    omega

theorem SleepLock.Balanced.less (balanced : lock.Balanced) (before : lock.claims p)
    (claims : ∀ q, lock'.claims q ↔ q ≠ p ∧ lock.claims q) (value : lock'.val = lock.val+1) : lock'.Balanced := by
  obtain ⟨list,member,count⟩ := balanced
  have old : p ∈ list := (member p).mpr before
  have some := Finset.card_pos.mpr ⟨p,old⟩
  refine ⟨list.erase p,?_,?_⟩
  · intro q
    rw [Finset.mem_erase,claims,member]
  · rw [Finset.card_erase_of_mem old,value,count]
    omega

theorem SleepLock.Balanced.same (balanced : lock.Balanced) (claims : ∀ q, lock'.claims q ↔ lock.claims q)
    (value : lock'.val = lock.val) :
    lock'.Balanced := by
  obtain ⟨list,member,count⟩ := balanced
  refine ⟨list,?_,value.trans count⟩
  intro q
  rw [claims,member]

theorem wait_moves {s s' : SemaphoreAlerts.State} (ran : SemaphoreAlerts.step s (.wait p false killed) = .ok s') :
    (s.pc p).inside = false ∧ s'.sem.val = s.sem.val-1 ∧ (∀ q, q ≠ p → s'.pc q = s.pc q) ∧
      (s'.pc p = .outside (some true) ∨ (s'.pc p).inside = true) := by
  simp only [SemaphoreAlerts.step] at ran
  split at ran
  · cases ran
  · rename_i out
    refine ⟨Bool.eq_false_iff.mpr out,?_⟩
    unfold waitSem at ran
    split at ran
    · rename_i sem entered
      split at entered
      · cases entered
        cases ran
        refine ⟨rfl,?_,.inl (Function.update_self ..)⟩
        intro q other
        exact Function.update_of_ne other _ _
      · cases entered
    · rename_i sem entered
      split at entered
      · cases entered
      · cases entered
        cases ran
        refine ⟨rfl,?_,.inr ?_⟩
        · intro q other
          exact Function.update_of_ne other _ _
        · simp only [Function.update_self]
          cases killed <;> rfl

theorem resume_moves {s s' : SemaphoreAlerts.State} (ran : SemaphoreAlerts.step s (.resume p) = .ok s')
    (granted : s'.pc p = .outside (some true)) : (s.pc p).inside = true ∧ s'.sem.val = s.sem.val ∧ ∀ q, q ≠ p →
    s'.pc q = s.pc q := by
  simp only [SemaphoreAlerts.step] at ran
  split at ran
  · rename_i awake
    split at ran
    · cases ran
      refine ⟨by rw [awake]; rfl,rfl,?_⟩
      intro q other
      exact Function.update_of_ne other _ _
    · obtain ⟨sem,_,last⟩ := Runs.bind_ok.mp ran
      cases last
      simp [SemaphoreAlerts.State.goto] at granted
  · cases ran

theorem post_moves {s s' : SemaphoreAlerts.State} (inv : Inv s) (ran : SemaphoreAlerts.step s .post = .ok s') :
    s'.sem.val = s.sem.val+1 ∧ ∀ q, (s'.pc q).inside = (s.pc q).inside := by
  simp only [SemaphoreAlerts.step] at ran
  rcases inv.counted.post with ⟨_,_,returned⟩ | ⟨_,rest,p,_,returned⟩
  · rw [returned] at ran
    cases ran
    exact ⟨rfl,fun _ => rfl⟩
  · rw [returned] at ran
    cases ran
    exact ⟨rfl,fun q => grant_pc _ p q⟩

theorem SleepLock.Sound.acquire (sound : lock.Sound) (out : lock.holds p = false)
    (ran : lock.acquire p killed = .ok lock') :
    lock'.Sound ∧ lock.inside p = false ∧ (∀ q, q ≠ p → lock'.inside q = lock.inside q) ∧
      ((lock'.waits.pc p = .outside (some true) ∧ lock'.holds = Function.update lock.holds p true) ∨
        (lock'.inside p = true ∧ lock'.holds = lock.holds)) := by
  obtain ⟨waits,stepped,last⟩ := Runs.bind_ok.mp ran
  cases last
  obtain ⟨outside,value,others,place⟩ := wait_moves stepped
  have inv := step_inv sound.waits _ stepped
  have before : ¬ lock.claims p := by
    rintro (held | waiting)
    · rw [out] at held
      cases held
    · unfold SleepLock.inside at waiting
      rw [outside] at waiting
      cases waiting
  have elsewhere : ∀ q, q ≠ p → (waits.pc q).inside = lock.inside q := fun q other => by rw [others q other]; rfl
  rcases place with granted | waiting
  · rw [if_pos granted]
    refine ⟨⟨inv,?_,?_⟩,outside,elsewhere,.inl ⟨granted,rfl⟩⟩
    · intro q held
      by_cases own : q = p
      · rw [own]
        exact congrArg SemaphoreAlerts.Pc.inside granted
      · change Function.update lock.holds p true q = true at held
        rw [Function.update_of_ne own] at held
        exact (elsewhere q own).trans (sound.apart q held)
    · refine sound.balanced.more before ?_ value
      intro q
      by_cases own : q = p
      · simp [SleepLock.claims,own]
      · simp only [SleepLock.claims,Function.update_of_ne own,own,false_or]
        rw [← elsewhere q own]
        rfl
  · have notGranted : waits.pc p ≠ .outside (some true) := by
      intro granted
      rw [granted] at waiting
      cases waiting
    rw [if_neg notGranted]
    refine ⟨⟨inv,?_,?_⟩,outside,elsewhere,.inr ⟨waiting,rfl⟩⟩
    · intro q held
      by_cases own : q = p
      · rw [own] at held
        exact absurd (.inl held) before
      · exact (elsewhere q own).trans (sound.apart q held)
    · refine sound.balanced.more before ?_ value
      intro q
      by_cases own : q = p
      · rw [own]
        exact iff_of_true (.inr waiting) (.inl rfl)
      · simp only [SleepLock.claims,own,false_or]
        rw [← elsewhere q own]
        rfl

theorem SleepLock.Sound.resume (sound : lock.Sound) (ran : lock.resume p = .ok lock') :
    lock'.Sound ∧ lock.inside p = true ∧ lock'.inside p = false ∧ (∀ q, q ≠ p → lock'.inside q = lock.inside q) ∧
      lock'.holds = Function.update lock.holds p true := by
  obtain ⟨waits,stepped,last⟩ := Runs.bind_ok.mp ran
  split at last
  · rename_i granted
    cases last
    obtain ⟨inside,value,others⟩ := resume_moves stepped granted
    have elsewhere : ∀ q, q ≠ p → (waits.pc q).inside = lock.inside q := fun q other => by rw [others q other]; rfl
    have outside : (waits.pc p).inside = false := by rw [granted]; rfl
    refine ⟨⟨step_inv sound.waits _ stepped,?_,?_⟩,inside,outside,elsewhere,rfl⟩
    · intro q held
      by_cases own : q = p
      · rw [own]
        exact outside
      · change Function.update lock.holds p true q = true at held
        rw [Function.update_of_ne own] at held
        exact (elsewhere q own).trans (sound.apart q held)
    · refine sound.balanced.same ?_ value
      intro q
      by_cases own : q = p
      · rw [own]
        exact iff_of_true (.inl (Function.update_self ..)) (.inr inside)
      · simp only [SleepLock.claims,Function.update_of_ne own]
        rw [← elsewhere q own]
        rfl
  · cases last

theorem SleepLock.Sound.release (sound : lock.Sound) (held : lock.holds p = true) (ran : lock.release p = .ok lock') :
    lock'.Sound ∧ lock'.inside = lock.inside ∧ lock'.holds = Function.update lock.holds p false := by
  obtain ⟨waits,stepped,last⟩ := Runs.bind_ok.mp ran
  cases last
  obtain ⟨value,inside⟩ := post_moves sound.waits stepped
  refine ⟨⟨step_inv sound.waits _ stepped,?_,?_⟩,funext inside,rfl⟩
  · intro q still
    by_cases own : q = p
    · rw [own] at still
      simp at still
    · change Function.update lock.holds p false q = true at still
      rw [Function.update_of_ne own] at still
      exact (inside q).trans (sound.apart q still)
  · refine sound.balanced.less (.inl held) ?_ value
    intro q
    by_cases own : q = p
    · rw [own]
      refine iff_of_false ?_ fun both => both.1 rfl
      rintro (again | waiting)
      · simp at again
      · have out := sound.apart p held
        change (waits.pc p).inside = true at waiting
        rw [inside p] at waiting
        rw [SleepLock.inside,waiting] at out
        cases out
    · simp only [SleepLock.claims,Function.update_of_ne own,ne_eq,own,not_false_eq_true,true_and]
      rw [show lock.inside q = (waits.pc q).inside from (inside q).symm]
      rfl

end Balance

end SleepLocks
