import HonorKernel.StoreWrites
import Mathlib.Data.List.Nodup

namespace RedoLog
open StoreWrites
variable {Addr Data : Type*} [DecidableEq Addr]

-- A redo log inside a store: one header cell, whose content names the home
-- addresses of the logged values, and a row of slots that hold the values.
structure Layout (Addr Data : Type*) where
  head : Addr
  slot : Nat → Addr
  capacity : Nat
  homes : Data → List Addr
  slot_inj : ∀ i j, i < capacity → j < capacity → slot i = slot j → i = j
  slot_head : ∀ i, i < capacity → slot i ≠ head

def Layout.Area (L : Layout Addr Data) (a : Addr) : Prop := a = L.head ∨ ∃ i, i < L.capacity ∧ a = L.slot i

def logWrites (L : Layout Addr Data) (hs : List Addr) (value : Addr → Data) : List (Addr × Data) :=
  hs.mapIdx (fun i h => (L.slot i,value h))

def homeWrites (hs : List Addr) (value : Addr → Data) : List (Addr × Data) := hs.map (fun h => (h,value h))

-- Copy everything to the log, publish the header, install, retire the header.
def commitWrites (L : Layout Addr Data) (hs : List Addr) (value : Addr → Data) (full empty : Data) :
    List (Addr × Data) :=
  logWrites L hs value ++ (L.head,full) :: (homeWrites hs value ++ [(L.head,empty)])

def recoverWrites (L : Layout Addr Data) (clear : Data → Data) (d : Addr → Data) : List (Addr × Data) :=
  (L.homes (d L.head)).mapIdx (fun i h => (h,d (L.slot i))) ++ [(L.head,clear (d L.head))]

-- What a transaction may log: distinct addresses outside the log, no more than fit.
structure Loggable (L : Layout Addr Data) (hs : List Addr) : Prop where
  distinct : hs.Nodup
  outside : ∀ h ∈ hs, ¬ L.Area h
  fits : hs.length ≤ L.capacity

def installed (hs : List Addr) (value base : Addr → Data) (a : Addr) : Data :=
  if a ∈ hs then value a else base a

def Clean (L : Layout Addr Data) (base d : Addr → Data) : Prop :=
  L.homes (d L.head) = [] ∧ ∀ a, ¬ L.Area a → d a = base a

structure Pending (L : Layout Addr Data) (hs : List Addr) (value base d : Addr → Data) : Prop where
  header : L.homes (d L.head) = hs
  slots : ∀ i (small : i < hs.length), d (L.slot i) = value hs[i]
  others : ∀ a, ¬ L.Area a → a ∉ hs → d a = base a

-- Every crash point of a commit or of a recovery is in one of three conditions.
def Settled (L : Layout Addr Data) (hs : List Addr) (value base d : Addr → Data) : Prop :=
  Clean L base d ∨ Pending L hs value base d ∨ Clean L (installed hs value base) d

variable {L : Layout Addr Data} {hs : List Addr} {value base d : Addr → Data} {full empty : Data}

omit [DecidableEq Addr] in
theorem Layout.outside_head (L : Layout Addr Data) {a : Addr} (out : ¬ L.Area a) : a ≠ L.head :=
  fun equal => out (.inl equal)
omit [DecidableEq Addr] in
theorem Layout.outside_slot (L : Layout Addr Data) {a : Addr} {i : Nat} (out : ¬ L.Area a)
    (small : i < L.capacity) : a ≠ L.slot i := fun equal => out (.inr ⟨i,small,equal⟩)

theorem Clean.write_slot (clean : Clean L base d) (small : i < L.capacity) (v : Data) :
    Clean L base (Function.update d (L.slot i) v) := by
  refine ⟨?_,?_⟩
  · rw [Function.update_of_ne (L.slot_head i small).symm]; exact clean.1
  · intro a out
    rw [Function.update_of_ne (L.outside_slot out small)]
    exact clean.2 a out

theorem Clean.write_head (clean : ∀ a, ¬ L.Area a → d a = base a) (none : L.homes empty = []) :
    Clean L base (Function.update d L.head empty) := by
  refine ⟨by simpa using none,?_⟩
  intro a out
  rw [Function.update_of_ne (L.outside_head out)]
  exact clean a out

theorem Pending.write_home (pending : Pending L hs value base d) (ok : Loggable L hs) (h : Addr)
    (member : h ∈ hs) (v : Data) : Pending L hs value base (Function.update d h v) := by
  have out := ok.outside h member
  refine ⟨?_,?_,?_⟩
  · rw [Function.update_of_ne (L.outside_head out).symm]; exact pending.header
  · intro i small
    have bounded : i < L.capacity := Nat.lt_of_lt_of_le small ok.fits
    rw [Function.update_of_ne (L.outside_slot out bounded).symm]
    exact pending.slots i small
  · intro a outA notMember
    have different : a ≠ h := fun equal => notMember (equal ▸ member)
    rw [Function.update_of_ne different]
    exact pending.others a outA notMember

omit [DecidableEq Addr] in
theorem mem_logWrites {w : Addr × Data} (member : w ∈ logWrites L hs value) :
    ∃ i, i < hs.length ∧ w.1 = L.slot i := by
  obtain ⟨i,small,rfl⟩ := List.mem_mapIdx.mp member
  exact ⟨i,small,rfl⟩

omit [DecidableEq Addr] in
theorem logWrites_distinct (ok : Loggable L hs) (value : Addr → Data) :
    ((logWrites L hs value).map Prod.fst).Nodup := by
  rw [List.Nodup,List.pairwise_iff_getElem]
  intro i j inI inJ before
  simp only [logWrites,List.length_map,List.length_mapIdx] at inI inJ
  simp only [logWrites,List.getElem_map,List.getElem_mapIdx]
  intro equal
  have := L.slot_inj i j (Nat.lt_of_lt_of_le inI ok.fits) (Nat.lt_of_lt_of_le inJ ok.fits) equal
  omega

theorem logWrites_slot (ok : Loggable L hs) (d : Addr → Data) (i : Nat) (small : i < hs.length) :
    apply (logWrites L hs value) d (L.slot i) = value hs[i] :=
  apply_member _ d (logWrites_distinct ok value) (L.slot i,value hs[i]) (List.mem_mapIdx.mpr ⟨i,small,rfl⟩)

theorem publish (ok : Loggable L hs) (clean : Clean L base d) (names : L.homes full = hs) :
    Pending L hs value base (Function.update (apply (logWrites L hs value) d) L.head full) := by
  refine ⟨by simpa using names,?_,?_⟩
  · intro i small
    rw [Function.update_of_ne (L.slot_head i (Nat.lt_of_lt_of_le small ok.fits))]
    exact logWrites_slot ok d i small
  · intro a out _
    rw [Function.update_of_ne (L.outside_head out),apply_untouched]
    · exact clean.2 a out
    · intro w member
      obtain ⟨i,small,equal⟩ := mem_logWrites member
      rw [equal]
      exact (L.outside_slot out (Nat.lt_of_lt_of_le small ok.fits)).symm

theorem install_values (pending : Pending L hs value base d) (writes : List (Addr × Data))
    (same : writes.map Prod.fst = hs) (rule : ∀ w ∈ writes, w.2 = value w.1) (a : Addr) (out : ¬ L.Area a) :
    apply writes d a = installed hs value base a := by
  rw [apply_rule writes d value rule,same,installed]
  split
  · rfl
  · exact pending.others a out ‹_›

theorem install_along (pending : Pending L hs value base d) (ok : Loggable L hs) (none : L.homes empty = [])
    (writes : List (Addr × Data)) (same : writes.map Prod.fst = hs) (rule : ∀ w ∈ writes, w.2 = value w.1) :
    Along (Settled L hs value base) (writes ++ [(L.head,empty)]) d := by
  have keeps : Along (Pending L hs value base) writes d := by
    refine along_step pending ?_
    intro s valid w member
    exact valid.write_home ok w.1 (same ▸ List.mem_map.mpr ⟨w,member,rfl⟩) w.2
  refine along_append (fun pre isPre => .inr (.inl (keeps pre isPre))) ?_
  refine along_cons (.inr (.inl keeps.last)) (along_nil (.inr (.inr ?_)))
  exact Clean.write_head (install_values pending writes same rule) none

omit [DecidableEq Addr] in
theorem homeWrites_fst (hs : List Addr) (value : Addr → Data) : (homeWrites hs value).map Prod.fst = hs := by
  simp [homeWrites,Function.comp_def]

omit [DecidableEq Addr] in
theorem homeWrites_rule (hs : List Addr) (value : Addr → Data) :
    ∀ w ∈ homeWrites hs value, w.2 = value w.1 := by
  intro w member
  obtain ⟨h,_,rfl⟩ := List.mem_map.mp member
  rfl

theorem commit_along (ok : Loggable L hs) (clean : Clean L base d) (names : L.homes full = hs)
    (none : L.homes empty = []) :
    Along (Settled L hs value base) (commitWrites L hs value full empty) d := by
  have logging : Along (Clean L base) (logWrites L hs value) d := by
    refine along_step clean ?_
    intro s valid w member
    obtain ⟨i,small,equal⟩ := mem_logWrites member
    rw [equal]
    exact valid.write_slot (Nat.lt_of_lt_of_le small ok.fits) w.2
  refine along_append (fun pre isPre => .inl (logging pre isPre)) ?_
  refine along_cons (.inl logging.last) ?_
  exact install_along (publish ok clean names) ok none _ (homeWrites_fst hs value) (homeWrites_rule hs value)

-- Recovery copies the slots home. From a pending log these are the committed
-- values again, whatever part of them had already reached home.
theorem recover_pending (pending : Pending L hs value base d) (ok : Loggable L hs) (clear : Data → Data)
    (none : ∀ x, L.homes (clear x) = []) :
    Along (Settled L hs value base) (recoverWrites L clear d) d ∧
    Clean L (installed hs value base) (apply (recoverWrites L clear d) d) := by
  have same : (hs.mapIdx (fun i h => (h,d (L.slot i)))).map Prod.fst = hs := by
    apply List.ext_getElem <;> simp
  have rule : ∀ w ∈ hs.mapIdx (fun i h => (h,d (L.slot i))), w.2 = value w.1 := by
    intro w member
    obtain ⟨i,small,rfl⟩ := List.mem_mapIdx.mp member
    exact pending.slots i small
  unfold recoverWrites
  rw [pending.header]
  refine ⟨install_along pending ok (none _) _ same rule,?_⟩
  rw [apply_append]
  exact Clean.write_head (install_values pending _ same rule) (none _)

theorem recover_clean (clean : Clean L base d) (clear : Data → Data) (none : ∀ x, L.homes (clear x) = []) :
    Along (Clean L base) (recoverWrites L clear d) d ∧ Clean L base (apply (recoverWrites L clear d) d) := by
  have after := Clean.write_head clean.2 (none (d L.head))
  unfold recoverWrites
  rw [clean.1]
  exact ⟨along_cons clean (along_nil after),after⟩

theorem recover_settled (settled : Settled L hs value base d) (ok : Loggable L hs) (clear : Data → Data)
    (none : ∀ x, L.homes (clear x) = []) :
    Along (Settled L hs value base) (recoverWrites L clear d) d ∧
    (Clean L base (apply (recoverWrites L clear d) d) ∨
      Clean L (installed hs value base) (apply (recoverWrites L clear d) d)) := by
  rcases settled with old | pending | new
  · obtain ⟨along,after⟩ := recover_clean old clear none
    exact ⟨fun pre isPre => .inl (along pre isPre),.inl after⟩
  · obtain ⟨along,after⟩ := recover_pending pending ok clear none
    exact ⟨along,.inr after⟩
  · obtain ⟨along,after⟩ := recover_clean new clear none
    exact ⟨fun pre isPre => .inr (.inr (along pre isPre)),.inr after⟩

-- Any number of recoveries, each cut after a prefix of its writes.
inductive CrashedBoots (recover : (Addr → Data) → List (Addr × Data)) (d : Addr → Data) : (Addr → Data) → Prop where
  | none : CrashedBoots recover d d
  | crash : CrashedBoots recover d s → pre <+: recover s → CrashedBoots recover d (apply pre s)

end RedoLog
