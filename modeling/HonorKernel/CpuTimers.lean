import HonorKernel.RbTreeRuns
import HonorKernel.DiskFormat

-- kernel/cpu.c: the timers of one CPU, with the one that kernel/sched.c arms at every
-- switch. Interrupts are off wherever they are touched. What the clock is programmed to
-- is left out: a clock interrupt may come at any time.
namespace CpuTimers
open DiskFormat (Usize)
open RbTree RedBlack RedBlack.ColorTree

structure Timer where
  triggered : Bool
  elapse : BitVec 32
  key : Usize
  deriving DecidableEq

-- __timer_cmp. A timer is known by the address of its node.
def timerCmp (timer : Nat → Timer) (lnode rnode : Nat) : Bool :=
  let d := ((timer lnode).key-(timer rnode).key).toInt
  if d < 0 then true
  else if d = 0 then decide (lnode < rnode)
  else false

-- A run of a handler: the timer, which arming of it, and when.
structure Fired where
  timer : Nat
  arming : Nat
  time : Usize
  deriving DecidableEq

-- `now` is the last timestamp, `armed` has every arming, the last one first. `deadline` is
-- the key of each arming of a timer, `cancelled` a call of cancel_cpu_timer since the last.
structure Cpu where
  timer : Nat → Timer
  tree : RbTree.State
  now : Usize
  armed : List Nat
  deadline : Nat → Nat → Usize
  cancelled : Nat → Bool
  fired : List Fired

inductive Fault where
  | assertion
  | tree (fault : RbTree.Fault)
  | clock
  deriving DecidableEq

def Cpu.key (m : Cpu) (t : Nat) : Usize := (m.timer t).key

def Cpu.arms (m : Cpu) (t : Nat) : Nat := m.armed.count t

-- The loops of the tree go round as often as there can be nodes.
def Cpu.fuel (m : Cpu) : Nat := m.armed.length+3

-- timer->triggered = false and the key.
def Cpu.arm (m : Cpu) (t : Nat) (ts : Usize) : Cpu :=
  let key := ts+(m.timer t).elapse.signExtend 64
  { m with
    timer := Function.update m.timer t { m.timer t with triggered := false, key }
    now := ts
    armed := t::m.armed
    deadline := Function.update m.deadline t (Function.update (m.deadline t) (m.arms t+1) key)
    cancelled := Function.update m.cancelled t false }

def setCpuTimer (m : Cpu) (t : Nat) (ts : Usize) : Except Fault Cpu := do
  let m := m.arm t ts
  let (r,tree) ← (rbInsert (timerCmp m.timer) m.fuel m.tree t).mapError .tree
  if r = 0 then .ok { m with tree } else .error .assertion

def cancelCpuTimer (m : Cpu) (t : Nat) : Except Fault Cpu :=
  if (m.timer t).triggered then .error .assertion
  else do
    let tree ← (rbErase m.fuel m.tree t).mapError .tree
    .ok { m with tree }

def Cpu.first (m : Cpu) : Except Fault Nat := (rbFirst m.fuel m.tree).mapError .tree

def Cpu.fire (m : Cpu) (t : Nat) : Cpu :=
  { m with
    timer := Function.update m.timer t { m.timer t with triggered := true }
    fired := ⟨t,m.arms t,m.now⟩::m.fired }

-- One round of the loop in timer_clock_handler, up to the call of the handler. What the
-- handler does, a switch to another process included, comes in steps of its own.
def timerClockRound (m : Cpu) (ts : Usize) : Except Fault Cpu := do
  let m := { m with now := ts }
  let t ← m.first
  if t = 0 then .ok m
  else if ts < m.key t then .ok m
  else do
    let m ← cancelCpuTimer m t
    .ok (m.fire t)

-- The timers in update_this_proc.
def updateThisProc (schedTimer : Nat) (m : Cpu) (ts : Usize) : Except Fault Cpu := do
  let m ← if (m.timer schedTimer).triggered then .ok m else cancelCpuTimer m schedTimer
  setCpuTimer m schedTimer ts

inductive Action where
  | set (t : Nat) (ts : Usize)
  | cancel (t : Nat)
  | clock (ts : Usize)
  | switch (ts : Usize)
  | elapse (t : Nat) (elapse : BitVec 32)

def Cpu.timely (m : Cpu) (ts : Usize) : Prop := m.now ≤ ts ∧ ts.toNat < 2^63

instance (m : Cpu) (ts : Usize) : Decidable (m.timely ts) := inferInstanceAs (Decidable (_ ∧ _))

-- Timestamps do not go back and stay below 2^63.
def step (schedTimer : Nat) (m : Cpu) : Action → Except Fault Cpu
  | .set t ts => if m.timely ts then setCpuTimer m t ts else .error .clock
  | .cancel t => do
    let m ← cancelCpuTimer m t
    .ok { m with cancelled := Function.update m.cancelled t true }
  | .clock ts => if m.timely ts then timerClockRound m ts else .error .clock
  | .switch ts => if m.timely ts then updateThisProc schedTimer m ts else .error .clock
  | .elapse t elapse => .ok { m with timer := Function.update m.timer t { m.timer t with elapse } }

def next (schedTimer : Nat) (m : Cpu) (a : Action) : Option Cpu := (step schedTimer m a).toOption

-- init_sched: only the timer of the scheduler starts out as triggered for sure.
def boot (schedTimer : Nat) (timer : Nat → Timer) (node : Nat → Node) : Cpu where
  timer := Function.update timer schedTimer { timer schedTimer with triggered := true }
  tree := empty node
  now := 0#64
  armed := []
  deadline _ _ := 0#64
  cancelled _ := false
  fired := []

-- Armed, and neither fired nor taken out since.
def Cpu.listed (m : Cpu) (t : Nat) : Prop := 0 < m.arms t ∧ (m.timer t).triggered = false ∧ m.cancelled t = false

instance (m : Cpu) (t : Nat) : Decidable (m.listed t) := inferInstanceAs (Decidable (_ ∧ _ ∧ _))

-- The signed difference of two keys is their difference.
def Close (left right : Usize) : Prop := left.toNat < right.toNat+2^63 ∧ right.toNat < left.toNat+2^63

-- The key that `t` gets is close to those of the others in the tree.
def Cpu.near (m : Cpu) (t : Nat) (ts : Usize) : Prop :=
  ∀ x ∈ m.armed, x ≠ t → m.listed x → Close (ts+(m.timer t).elapse.signExtend 64) (m.key x)

instance (left right : Usize) : Decidable (Close left right) := inferInstanceAs (Decidable (_ ∧ _))
instance (m : Cpu) (t : Nat) (ts : Usize) : Decidable (m.near t ts) := by
  unfold Cpu.near
  infer_instance

-- A timer is armed while it is not in the tree and cancelled while it is, that of the
-- scheduler by the scheduler alone.
def Fits (schedTimer : Nat) (m : Cpu) : Action → Prop
  | .set t ts => m.timely ts ∧ Place t ∧ ¬ m.listed t ∧ m.near t ts
  | .cancel t => m.listed t ∧ t ≠ schedTimer
  | .clock ts => m.timely ts
  | .switch ts => m.timely ts ∧ m.near schedTimer ts
  | .elapse _ _ => True

instance (schedTimer : Nat) (m : Cpu) (a : Action) : Decidable (Fits schedTimer m a) := by
  cases a <;> unfold Fits Place <;> infer_instance

structure Kept (m : Cpu) : Prop where
  tree : ∃ t, Holds m.tree [] t ∧ Proper t ∧ ∀ x, x ∈ t.inorder ↔ m.listed x
  picked : ∃ x, m.first = .ok x ∧ ((x = 0 ∧ ∀ y, ¬ m.listed y) ∨ (m.listed x ∧ ∀ y, m.listed y → m.key x ≤ m.key y))
  due : ∀ e ∈ m.fired, e.arming ≤ m.arms e.timer ∧ m.deadline e.timer e.arming ≤ e.time
  once : (m.fired.map fun e => (e.timer,e.arming)).Nodup

section Order
variable {timer : Nat → Timer} {key : Nat → Usize} {l r : Nat}

-- The order that the comparison stands for.
def byKey (key : Nat → Usize) (l r : Nat) : Bool := decide (key l < key r ∨ key l = key r ∧ l < r)

instance (key : Nat → Usize) : IsStrictWeakOrder Nat (less (byKey key)) where
  irrefl a := by simp [less,byKey]
  trans a b c one two := by
    simp only [less,byKey,decide_eq_true_eq,BitVec.lt_def,← BitVec.toNat_inj] at one two ⊢
    omega
  incomp_trans a b c one two := by
    simp only [less,byKey,decide_eq_true_eq,BitVec.lt_def,← BitVec.toNat_inj] at one two ⊢
    omega

theorem timerCmp_close (close : Close (timer l).key (timer r).key) :
    timerCmp timer l r = byKey (fun t => (timer t).key) l r := by
  obtain ⟨above,below⟩ := close
  have left := (timer l).key.isLt
  have right := (timer r).key.isLt
  have value : ((timer l).key-(timer r).key).toInt = (timer l).key.toNat-(timer r).key.toNat := by
    rw [BitVec.toInt_eq_toNat_cond,BitVec.toNat_sub]
    split <;> omega
  unfold timerCmp byKey
  simp only [value,BitVec.lt_def,← BitVec.toNat_inj]
  split
  · rename_i negative
    exact (decide_eq_true (.inl (by omega))).symm
  · split
    · rename_i equal
      by_cases order : l < r
      · rw [decide_eq_true order,decide_eq_true (.inr ⟨by omega,order⟩)]
      · rw [decide_eq_false order,decide_eq_false]
        rintro (less | ⟨_,less⟩)
        · omega
        · exact order less
    · refine (decide_eq_false ?_).symm
      omega

end Order

section Tree
variable {m m' : Cpu} {nodes : Finset Nat} {t schedTimer : Nat} {ts : Usize} {a : Action}

theorem mapError_ok {x : Except RbTree.Fault α} {r : α} (ran : x = .ok r) : x.mapError Fault.tree = .ok r := by
  rw [ran]
  rfl

-- These timers are in the tree, by their keys.
structure Cpu.Holding (m : Cpu) (nodes : Finset Nat) : Prop where
  sound : Sound (byKey m.key) m.tree nodes
  few : nodes.card ≤ m.armed.length

theorem Cpu.Holding.first (holding : m.Holding nodes) : ∃ x, m.first = .ok x ∧
    ((x = 0 ∧ nodes = ∅) ∨ (x ∈ nodes ∧ ∀ y ∈ nodes, m.key x ≤ m.key y)) := by
  have few := holding.few
  obtain ⟨x,ran,found⟩ := holding.sound.first m.fuel (by unfold Cpu.fuel; omega)
  refine ⟨x,mapError_ok ran,found.imp id ?_⟩
  rintro ⟨member,least⟩
  refine ⟨member,?_⟩
  intro y other
  by_cases same : y = x
  · rw [same]
    exact BitVec.le_refl _
  · have before := of_decide_eq_true (least y other same)
    simp only [BitVec.lt_def,BitVec.le_def,← BitVec.toNat_inj] at before ⊢
    omega

theorem Cpu.Holding.same (holding : m.Holding nodes) (tree : m'.tree = m.tree) (armed : m'.armed = m.armed)
    (keys : ∀ x ∈ nodes, m'.key x = m.key x) :
    m'.Holding nodes := by
  refine ⟨?_,by rw [armed]; exact holding.few⟩
  rw [tree]
  refine holding.sound.reorder ?_
  intro a here b there
  unfold byKey
  rw [keys a here,keys b there]

theorem Cpu.Holding.cancel (holding : m.Holding nodes) (member : t ∈ nodes) (armed : (m.timer t).triggered = false) :
    ∃ tree, cancelCpuTimer m t = .ok { m with tree } ∧ Cpu.Holding { m with tree } (nodes.erase t) := by
  have few := holding.few
  obtain ⟨tree,ran,sound⟩ := step_sound (a := .erase t) m.fuel holding.sound member (by unfold Cpu.fuel; omega)
  obtain ⟨tree',erased,last⟩ := Runs.bind_ok.mp ran
  cases last
  refine ⟨tree,?_,sound,?_⟩
  · unfold cancelCpuTimer
    rw [if_neg (by rw [armed]; exact Bool.false_ne_true),mapError_ok erased]
    rfl
  · exact (Finset.card_erase_le ..).trans few

theorem arm_key (m : Cpu) (t : Nat) (ts : Usize) (x : Nat) :
    (m.arm t ts).key x = if x = t then ts+(m.timer t).elapse.signExtend 64 else m.key x := by
  change (Function.update m.timer t _ x).key = _
  rw [Function.update_apply]
  split <;> rfl

theorem Cpu.Holding.set (holding : m.Holding nodes) (ts : Usize) (place : Place t) (fresh : t ∉ nodes)
    (close : ∀ x ∈ nodes, Close (ts+(m.timer t).elapse.signExtend 64) (m.key x)) :
    ∃ tree, setCpuTimer m t ts = .ok { m.arm t ts with tree } ∧ Cpu.Holding { m.arm t ts with tree }
    (insert t nodes) := by
  have few := holding.few
  have armed : (m.arm t ts).armed.length = m.armed.length+1 := rfl
  have other : ∀ x ∈ nodes, x ≠ t := fun x member same => fresh (same ▸ member)
  have before : Sound (byKey (m.arm t ts).key) m.tree nodes := by
    refine holding.sound.reorder ?_
    intro a here b there
    unfold byKey
    rw [arm_key,arm_key,if_neg (other a here),if_neg (other b there)]
  have alone : ¬ ∃ e ∈ nodes, Equal (byKey (m.arm t ts).key) t e := by
    rintro ⟨e,member,one,two⟩
    have apart := other e member
    have one := of_decide_eq_false one
    have two := of_decide_eq_false two
    simp only [BitVec.lt_def,← BitVec.toNat_inj] at one two
    omega
  obtain ⟨tree,ran,sound⟩ := step_sound (a := .insert t) (m.arm t ts).fuel before ⟨place,fresh⟩ (by unfold Cpu.fuel; omega)
  rw [show present (byKey (m.arm t ts).key) nodes (.insert t) = (0,insert t nodes) from if_neg alone] at ran sound
  obtain ⟨shape,holds,_,_,same⟩ := before.tree
  have agree : ∀ a ∈ shape.inorder, timerCmp (m.arm t ts).timer t a = byKey (m.arm t ts).key t a ∧
      timerCmp (m.arm t ts).timer a t = byKey (m.arm t ts).key a t := by
    intro a here
    have member : a ∈ nodes := by rw [← same,List.mem_toFinset]; exact here
    have far : Close ((m.arm t ts).key t) ((m.arm t ts).key a) := by
      rw [arm_key,arm_key,if_pos rfl,if_neg (other a member)]
      exact close a member
    exact ⟨timerCmp_close far,timerCmp_close far.symm⟩
  have inserted := rbInsert_congr (m.arm t ts).fuel holds (fun here => fresh (by rw [← same,List.mem_toFinset]; exact here)) agree
  refine ⟨tree,?_,sound,?_⟩
  · unfold setCpuTimer
    simp only [show (m.arm t ts).tree = m.tree from rfl,mapError_ok (inserted.trans ran)]
    rfl
  · have size := Finset.card_insert_le t nodes
    change _ ≤ m.armed.length+1
    omega

end Tree

section Steps
variable {m m' : Cpu} {nodes : Finset Nat} {t x schedTimer : Nat} {ts : Usize} {a : Action}

-- The notes agree with the timers, whatever the tree is.
structure Cpu.Noted (schedTimer : Nat) (m : Cpu) : Prop where
  key : ∀ x, m.listed x → m.deadline x (m.arms x) = m.key x
  due : ∀ e ∈ m.fired, e.arming ≤ m.arms e.timer ∧ m.deadline e.timer e.arming ≤ e.time
  once : (m.fired.map fun e => (e.timer,e.arming)).Nodup
  fresh : ∀ e ∈ m.fired, m.listed e.timer → e.arming < m.arms e.timer
  sched : m.cancelled schedTimer = false ∧ ((m.timer schedTimer).triggered = false → 0 < m.arms schedTimer)

structure Cpu.Inv (schedTimer : Nat) (m : Cpu) : Prop where
  holding : ∃ nodes : Finset Nat, m.Holding nodes ∧ ∀ x, x ∈ nodes ↔ m.listed x
  noted : m.Noted schedTimer

theorem boot_inv (schedTimer : Nat) (timer : Nat → Timer) (node : Nat → Node) :
    (boot schedTimer timer node).Inv schedTimer := by
  have out : ∀ x, ¬ (boot schedTimer timer node).listed x := fun x listed => absurd listed.1 (by simp [boot,Cpu.arms])
  refine ⟨⟨∅,⟨sound_empty node,Nat.le_refl 0⟩,fun x => iff_of_false (Finset.notMem_empty x) (out x)⟩,?_,?_,?_,?_,rfl,?_⟩
  · exact fun x listed => absurd listed (out x)
  · exact fun e member => absurd member List.not_mem_nil
  · exact List.nodup_nil
  · exact fun e member => absurd member List.not_mem_nil
  · intro armed
    change (Function.update timer schedTimer _ schedTimer).triggered = false at armed
    rw [Function.update_self] at armed
    cases armed

theorem arm_arms (m : Cpu) (t : Nat) (ts : Usize) (x : Nat) :
    (m.arm t ts).arms x = if x = t then m.arms t+1 else m.arms x := by
  change (t::m.armed).count x = _
  rw [List.count_cons]
  by_cases same : x = t
  · simp [same,Cpu.arms]
  · simp [same,Ne.symm same,Cpu.arms]

theorem arm_listed (m : Cpu) (t : Nat) (ts : Usize) (x : Nat) :
    (m.arm t ts).listed x ↔ x = t ∨ (x ≠ t ∧ m.listed x) := by
  unfold Cpu.listed
  rw [arm_arms]
  simp only [Cpu.arm,Function.update_apply]
  by_cases same : x = t
  · simp [same]
  · simp [same]

theorem Cpu.Noted.arm (noted : m.Noted schedTimer) (t : Nat) (ts : Usize) (tree : RbTree.State) :
    Cpu.Noted schedTimer { m.arm t ts with tree } := by
  refine ⟨?_,?_,noted.once,?_,?_⟩
  · intro x listed
    change Function.update m.deadline t _ x ((m.arm t ts).arms x) = (m.arm t ts).key x
    rw [arm_key,arm_arms]
    by_cases same : x = t
    · rw [same,Function.update_self,if_pos rfl,if_pos rfl,Function.update_self]
    · rw [Function.update_of_ne same,if_neg same,if_neg same]
      exact noted.key x (((arm_listed m t ts x).mp listed).resolve_left same).2
  · intro e member
    obtain ⟨past,due⟩ := noted.due e member
    change e.arming ≤ (m.arm t ts).arms e.timer ∧ Function.update m.deadline t _ e.timer e.arming ≤ e.time
    rw [arm_arms]
    by_cases same : e.timer = t
    · rw [← same,if_pos rfl,Function.update_self,Function.update_of_ne (by omega)]
      exact ⟨by omega,due⟩
    · rw [if_neg same,Function.update_of_ne same]
      exact ⟨past,due⟩
  · intro e member listed
    change e.arming < (m.arm t ts).arms e.timer
    rw [arm_arms]
    by_cases same : e.timer = t
    · have past := (noted.due e member).1
      rw [← same,if_pos rfl]
      omega
    · rw [if_neg same]
      exact noted.fresh e member (((arm_listed m t ts e.timer).mp listed).resolve_left same).2
  · change Function.update m.cancelled t false schedTimer = false ∧ ((Function.update m.timer t _ schedTimer).triggered = false →
      0 < (m.arm t ts).arms schedTimer)
    rw [arm_arms]
    by_cases same : schedTimer = t
    · rw [same,Function.update_self,Function.update_self,if_pos rfl]
      exact ⟨rfl,fun _ => Nat.succ_pos _⟩
    · rw [Function.update_of_ne same,Function.update_of_ne same,if_neg same]
      exact noted.sched

theorem Cpu.Noted.set (noted : m.Noted schedTimer) (holding : m.Holding nodes)
    (members : ∀ x, x ∈ nodes ↔ x ≠ t ∧ m.listed x) (place : Place t) (near : m.near t ts) :
    ∃ m', setCpuTimer m t ts = .ok m' ∧ m'.Inv schedTimer := by
  have fresh : t ∉ nodes := fun here => ((members t).mp here).1 rfl
  obtain ⟨tree,ran,after⟩ := holding.set ts place fresh fun x here =>
    near x (List.count_pos_iff.mp ((members x).mp here).2.1) ((members x).mp here).1 ((members x).mp here).2
  refine ⟨_,ran,⟨_,after,?_⟩,noted.arm t ts tree⟩
  intro x
  rw [Finset.mem_insert,members]
  exact (arm_listed m t ts x).symm

theorem cancel_inv (inv : m.Inv schedTimer) (listed : m.listed t) (other : t ≠ schedTimer) :
    ∃ m', step schedTimer m (.cancel t) = .ok m' ∧ m'.Inv schedTimer := by
  obtain ⟨nodes,holding,members⟩ := inv.holding
  obtain ⟨tree,ran,after⟩ := holding.cancel ((members t).mpr listed) listed.2.1
  have out : ∀ x, Cpu.listed { m with tree, cancelled := Function.update m.cancelled t true } x ↔ x ≠ t ∧ m.listed x := by
    intro x
    unfold Cpu.listed Cpu.arms
    simp only [Function.update_apply]
    by_cases same : x = t
    · simp [same]
    · simp [same]
  refine ⟨{ m with tree, cancelled := Function.update m.cancelled t true },?_,
      ⟨_,after.same rfl rfl fun _ _ => rfl,?_⟩,?_,inv.noted.due,inv.noted.once,?_,?_⟩
  · simp only [step,ran]
    rfl
  · intro x
    rw [Finset.mem_erase,members,out]
  · exact fun x listed => inv.noted.key x ((out x).mp listed).2
  · exact fun e member listed => inv.noted.fresh e member ((out _).mp listed).2
  · rw [show Cpu.cancelled { m with tree, cancelled := Function.update m.cancelled t true } schedTimer = m.cancelled schedTimer from
      Function.update_of_ne other.symm _ _]
    exact inv.noted.sched

theorem Cpu.Inv.fires (inv : m.Inv schedTimer) (listed : m.listed t) (due : m.key t ≤ m.now) :
    ∃ tree, cancelCpuTimer m t = .ok { m with tree } ∧ (Cpu.fire { m with tree } t).Inv schedTimer := by
  obtain ⟨nodes,holding,members⟩ := inv.holding
  obtain ⟨tree,ran,after⟩ := holding.cancel ((members t).mpr listed) listed.2.1
  have out : ∀ x, (Cpu.fire { m with tree } t).listed x ↔ x ≠ t ∧ m.listed x := by
    intro x
    unfold Cpu.listed Cpu.arms
    simp only [Cpu.fire,Function.update_apply]
    by_cases same : x = t
    · simp [same]
    · simp [same]
  have keys : ∀ x, (Cpu.fire { m with tree } t).key x = m.key x := by
    intro x
    change (Function.update m.timer t _ x).key = _
    rw [Function.update_apply]
    split
    · rename_i same
      rw [same]
      rfl
    · rfl
  refine ⟨tree,ran,⟨_,after.same rfl rfl fun x _ => keys x,?_⟩,?_,?_,?_,?_,?_⟩
  · intro x
    rw [Finset.mem_erase,members,out]
  · intro x here
    rw [keys]
    exact inv.noted.key x ((out x).mp here).2
  · intro e member
    rcases List.mem_cons.mp member with rfl | older
    · refine ⟨Nat.le_refl _,?_⟩
      change m.deadline t (m.arms t) ≤ m.now
      rw [inv.noted.key t listed]
      exact due
    · exact inv.noted.due e older
  · refine List.nodup_cons.mpr ⟨?_,inv.noted.once⟩
    intro again
    obtain ⟨e,member,same⟩ := List.mem_map.mp again
    obtain ⟨timer,arming⟩ := Prod.mk.inj same
    have before := inv.noted.fresh e member (by rw [timer]; exact listed)
    rw [timer,arming] at before
    exact Nat.lt_irrefl _ before
  · intro e member here
    rcases List.mem_cons.mp member with rfl | older
    · exact absurd rfl ((out _).mp here).1
    · exact inv.noted.fresh e older ((out _).mp here).2
  · refine ⟨inv.noted.sched.1,?_⟩
    intro armed
    change (Function.update m.timer t _ schedTimer).triggered = false at armed
    rw [Function.update_apply] at armed
    split at armed
    · cases armed
    · exact inv.noted.sched.2 armed

theorem Cpu.Inv.later (inv : m.Inv schedTimer) (ts : Usize) : Cpu.Inv schedTimer { m with now := ts } := by
  obtain ⟨nodes,holding,members⟩ := inv.holding
  exact ⟨⟨nodes,holding.same rfl rfl fun _ _ => rfl,members⟩,inv.noted.key,inv.noted.due,inv.noted.once,
      inv.noted.fresh,inv.noted.sched⟩

theorem Cpu.Inv.picks (inv : m.Inv schedTimer) : ∃ x, m.first = .ok x ∧
    ((x = 0 ∧ ∀ y, ¬ m.listed y) ∨ (m.listed x ∧ ∀ y, m.listed y → m.key x ≤ m.key y)) := by
  obtain ⟨nodes,holding,members⟩ := inv.holding
  obtain ⟨x,ran,found⟩ := holding.first
  refine ⟨x,ran,?_⟩
  rcases found with ⟨null,empty⟩ | ⟨here,least⟩
  · refine .inl ⟨null,?_⟩
    intro y listed
    have member := (members y).mpr listed
    rw [empty] at member
    exact absurd member (Finset.notMem_empty y)
  · exact .inr ⟨(members x).mp here,fun y listed => least y ((members y).mpr listed)⟩

theorem timerClockRound_inv (inv : m.Inv schedTimer) (ts : Usize) : ∃ m', timerClockRound m ts = .ok m' ∧
    m'.Inv schedTimer := by
  have inv' := inv.later ts
  obtain ⟨x,first,found⟩ := inv'.picks
  unfold timerClockRound
  simp only [first,bind,Except.bind]
  by_cases null : x = 0
  · exact ⟨_,if_pos null,inv'⟩
  · rw [if_neg null]
    by_cases early : ts < Cpu.key { m with now := ts } x
    · exact ⟨_,if_pos early,inv'⟩
    · rw [if_neg early]
      have listed := (found.resolve_left fun none => null none.1).1
      obtain ⟨tree,ran,after⟩ := inv'.fires listed (BitVec.not_lt.mp early)
      rw [ran]
      exact ⟨_,rfl,after⟩

theorem updateThisProc_inv (inv : m.Inv schedTimer) (place : Place schedTimer) (near : m.near schedTimer ts) :
    ∃ m', updateThisProc schedTimer m ts = .ok m' ∧ m'.Inv schedTimer := by
  obtain ⟨nodes,holding,members⟩ := inv.holding
  unfold updateThisProc
  by_cases fired : (m.timer schedTimer).triggered = true
  · rw [if_pos fired]
    refine inv.noted.set holding ?_ place near
    intro x
    rw [members]
    refine ⟨fun listed => ⟨?_,listed⟩,And.right⟩
    intro same
    rw [same] at listed
    rw [listed.2.1] at fired
    cases fired
  · rw [if_neg fired]
    have armed := Bool.eq_false_iff.mpr fired
    have listed : m.listed schedTimer := ⟨inv.noted.sched.2 armed,armed,inv.noted.sched.1⟩
    obtain ⟨tree,ran,after⟩ := holding.cancel ((members schedTimer).mpr listed) armed
    simp only [ran,bind,Except.bind]
    have noted : Cpu.Noted schedTimer { m with tree } := ⟨inv.noted.key,inv.noted.due,inv.noted.once,inv.noted.fresh,inv.noted.sched⟩
    refine noted.set after ?_ place near
    intro x
    rw [Finset.mem_erase,members]
    rfl

theorem elapse_inv (inv : m.Inv schedTimer) (t : Nat) (elapse : BitVec 32) :
    Cpu.Inv schedTimer { m with timer := Function.update m.timer t { m.timer t with elapse } } := by
  have flags : ∀ x, (Function.update m.timer t { m.timer t with elapse } x).triggered = (m.timer x).triggered := by
    intro x
    rw [Function.update_apply]
    split
    · rename_i same
      rw [same]
    · rfl
  have keys : ∀ x, Cpu.key { m with timer := Function.update m.timer t { m.timer t with elapse } } x = m.key x := by
    intro x
    change (Function.update m.timer t _ x).key = _
    rw [Function.update_apply]
    split
    · rename_i same
      rw [same]
      rfl
    · rfl
  have listed : ∀ x, Cpu.listed { m with timer := Function.update m.timer t { m.timer t with elapse } } x ↔ m.listed x := by
    intro x
    unfold Cpu.listed Cpu.arms
    rw [flags]
  obtain ⟨nodes,holding,members⟩ := inv.holding
  refine ⟨⟨nodes,holding.same rfl rfl fun x _ => keys x,?_⟩,?_,inv.noted.due,inv.noted.once,?_,?_⟩
  · intro x
    rw [listed]
    exact members x
  · intro x here
    rw [keys]
    exact inv.noted.key x ((listed x).mp here)
  · exact fun e member here => inv.noted.fresh e member ((listed _).mp here)
  · rw [flags]
    exact inv.noted.sched

theorem step_inv (inv : m.Inv schedTimer) (place : Place schedTimer) (fits : Fits schedTimer m a) :
    ∃ m', step schedTimer m a = .ok m' ∧ m'.Inv schedTimer := by
  cases a with
  | set t ts =>
    obtain ⟨timely,placed,free,near⟩ := fits
    obtain ⟨nodes,holding,members⟩ := inv.holding
    simp only [step,if_pos timely]
    refine inv.noted.set holding ?_ placed near
    intro x
    rw [members]
    exact ⟨fun listed => ⟨fun same => free (same ▸ listed),listed⟩,And.right⟩
  | cancel t => exact cancel_inv inv fits.1 fits.2
  | clock ts =>
    simp only [step,if_pos (show m.timely ts from fits)]
    exact timerClockRound_inv inv ts
  | switch ts =>
    simp only [step,if_pos fits.1]
    exact updateThisProc_inv inv place fits.2
  | elapse t elapse => exact ⟨_,rfl,elapse_inv inv t elapse⟩

theorem Cpu.Inv.kept (inv : m.Inv schedTimer) : Kept m := by
  refine ⟨?_,inv.picks,inv.noted.due,inv.noted.once⟩
  obtain ⟨nodes,holding,members⟩ := inv.holding
  obtain ⟨t,holds,_,proper,same⟩ := holding.sound.tree
  refine ⟨t,holds,proper,?_⟩
  intro x
  rw [← members,← same,List.mem_toFinset]

theorem timers_kept {schedTimer : Nat} (place : Place schedTimer) (timer : Nat → Timer) (node : Nat → Node)
    (path : Runs.Guarded (next schedTimer) (Fits schedTimer) (boot schedTimer timer node) m) :
    Kept m ∧ ∀ a, Fits schedTimer m a → ∃ m', step schedTimer m a = .ok m' ∧ Kept m' := by
  have inv := path.invariant (Cpu.Inv schedTimer) (boot_inv schedTimer timer node) fun m a m' inv fits ran => by
    obtain ⟨after,stepped,inv'⟩ := step_inv inv place fits
    have ran := Runs.toOption_some ran
    rw [stepped] at ran
    cases ran
    exact inv'
  refine ⟨inv.kept,?_⟩
  intro a fits
  obtain ⟨m',ran,inv'⟩ := step_inv inv place fits
  exact ⟨m',ran,inv'.kept⟩

-- The timers at rest, that of the scheduler at 1024 with its eight milliseconds.
def quiet : Cpu := boot 1024 (fun t => ⟨false,if t = 1024 then 8#32 else 0#32,0#64⟩) fun _ => ⟨0,0,0⟩

-- A timer for 5 ms that re-arms itself, with the scheduler's in between.
def quietRun : List Action := [.elapse 8 5#32,.switch 1#64,.set 8 2#64,.clock 4#64,.clock 7#64,.set 8 7#64,.clock 9#64,.switch 9#64,.switch 10#64,.cancel 8]

theorem timers_kept_rearmed : ∃ m, Kept m ∧ m.fired = [⟨1024,1,9#64⟩,⟨8,1,7#64⟩] ∧ m.deadline 8 1 = 7#64 ∧
    m.arms 8 = 2 ∧ m.first.toOption = some 1024 := by
  obtain ⟨m,ran,facts⟩ : ∃ m, Runs.execGuarded (next 1024) (Fits 1024) quiet quietRun = some m ∧
      decide (m.fired = [⟨1024,1,9#64⟩,⟨8,1,7#64⟩] ∧ m.deadline 8 1 = 7#64 ∧ m.arms 8 = 2 ∧ m.first.toOption = some 1024) = true :=
    Runs.some_such (by decide +kernel)
  have place : Place 1024 := ⟨by decide,by decide⟩
  exact ⟨m,(timers_kept place _ _ (Runs.exec_guarded .start ran)).1,of_decide_eq_true facts⟩

def asserts (x : Except Fault Cpu) : Bool :=
  match x with
  | .error .assertion => true
  | _ => false

theorem asserts_error {x : Except Fault Cpu} (fails : asserts x = true) : x = .error .assertion := by
  unfold asserts at fails
  split at fails
  · rfl
  · cases fails

-- set_cpu_timer on a timer in the tree and cancel_cpu_timer on one that has fired run into
-- their ASSERTs; a timer that is taken out keeps its flag; keys that are 2^63 apart are in
-- the wrong order.
theorem timers_misused :
    (∃ m, Runs.exec (next 1024) quiet [.set 8 0#64] = some m ∧ step 1024 m (.set 8 0#64) = .error .assertion) ∧
    (∃ m, Runs.exec (next 1024) quiet [.set 8 0#64,.clock 0#64] = some m ∧
    step 1024 m (.cancel 8) = .error .assertion) ∧
    (∃ m, Runs.exec (next 1024) quiet [.set 8 0#64,.cancel 8] = some m ∧ 0 < m.arms 8 ∧
    (m.timer 8).triggered = false ∧ m.tree.root = 0) ∧
    ∃ m, Runs.exec (next 1024) quiet [.set 8 0#64,.elapse 16 1#32,.set 16 9223372036854775807#64] = some m ∧
    m.listed 8 ∧ m.listed 16 ∧
      m.first.toOption = some 16 ∧ m.key 8 < m.key 16 := by
  refine ⟨?_,?_,?_,?_⟩
  · obtain ⟨m,ran,fails⟩ := Runs.some_such (x := Runs.exec (next 1024) quiet [.set 8 0#64])
      (p := fun m => asserts (step 1024 m (.set 8 0#64))) (by decide +kernel)
    exact ⟨m,ran,asserts_error fails⟩
  · obtain ⟨m,ran,fails⟩ := Runs.some_such (x := Runs.exec (next 1024) quiet [.set 8 0#64,.clock 0#64])
      (p := fun m => asserts (step 1024 m (.cancel 8))) (by decide +kernel)
    exact ⟨m,ran,asserts_error fails⟩
  · obtain ⟨m,ran,facts⟩ := Runs.some_such (x := Runs.exec (next 1024) quiet [.set 8 0#64,.cancel 8])
      (p := fun m => decide (0 < m.arms 8 ∧ (m.timer 8).triggered = false ∧ m.tree.root = 0)) (by decide +kernel)
    exact ⟨m,ran,of_decide_eq_true facts⟩
  · obtain ⟨m,ran,facts⟩ := Runs.some_such
      (x := Runs.exec (next 1024) quiet [.set 8 0#64,.elapse 16 1#32,.set 16 9223372036854775807#64])
      (p := fun m => decide (m.listed 8 ∧ m.listed 16 ∧ m.first.toOption = some 16 ∧ m.key 8 < m.key 16)) (by decide +kernel)
    exact ⟨m,ran,of_decide_eq_true facts⟩

end Steps

end CpuTimers
