import Mathlib.Logic.Function.Basic

-- A finite map kept in an array of slots: an entry stands in any slot, a slot may be
-- free, and a removed entry is replaced by the last one.
namespace SlotMap

structure Slots (K V : Type) where
  count : Nat
  entry : Nat → Option (K × V)

variable {K V : Type} {s s' : Slots K V} {m : K → Option V} {k : K} {v : V} {i : Nat}

structure Represents (s : Slots K V) (m : K → Option V) : Prop where
  single : ∀ i j k v w, i < s.count → j < s.count → s.entry i = some (k,v) → s.entry j = some (k,w) → i = j
  bound : ∀ k v, m k = some v ↔ ∃ i < s.count, s.entry i = some (k,v)

theorem Represents.empty (none : s.count = 0) : Represents s fun _ => .none := by
  refine ⟨?_,?_⟩
  · intro i j k v w inside
    omega
  · intro k v
    constructor
    · intro impossible
      cases impossible
    · rintro ⟨i,inside,_⟩
      omega

theorem Represents.absent (rep : Represents s m) (absent : m k = none) (inside : i < s.count) :
    s.entry i ≠ some (k,v) := by
  intro there
  cases absent.symm.trans ((rep.bound k v).mpr ⟨i,inside,there⟩)

theorem Represents.fill [DecidableEq K] (rep : Represents s m) (absent : m k = none)
    (free : i < s.count → s.entry i = none) (start : i ≤ s.count) (size : s'.count = max s.count (i+1))
    (here : s'.entry i = some (k,v)) (others : ∀ j < s.count, j ≠ i → s'.entry j = s.entry j) :
    Represents s' (Function.update m k (some v)) := by
  -- A slot that holds some key is the new one, or it held the same before.
  have origin : ∀ j k' v', j < s'.count → s'.entry j = some (k',v') →
      j = i ∧ k' = k ∧ v' = v ∨ j ≠ i ∧ j < s.count ∧ s.entry j = some (k',v') ∧ k' ≠ k := by
    intro j k' v' inside there
    by_cases new : j = i
    · subst new
      cases here.symm.trans there
      exact .inl ⟨rfl,rfl,rfl⟩
    · have old : j < s.count := by omega
      rw [others j old new] at there
      refine .inr ⟨new,old,there,?_⟩
      rintro rfl
      exact rep.absent absent old there
  refine ⟨?_,?_⟩
  · intro j l k' v' w' left right at_j at_l
    rcases origin j k' v' left at_j with ⟨rfl,same,_⟩ | ⟨_,left,at_j,different⟩
    · rcases origin l k' w' right at_l with ⟨rfl,_⟩ | ⟨_,_,_,different⟩
      · rfl
      · exact absurd same different
    · rcases origin l k' w' right at_l with ⟨_,same,_⟩ | ⟨_,right,at_l,_⟩
      · exact absurd same different
      · exact rep.single j l k' v' w' left right at_j at_l
  · intro k' v'
    constructor
    · intro bound
      by_cases mine : k' = k
      · subst mine
        rw [Function.update_self] at bound
        cases bound
        exact ⟨i,by omega,here⟩
      · rw [Function.update_of_ne mine] at bound
        obtain ⟨j,inside,there⟩ := (rep.bound k' v').mp bound
        have other : j ≠ i := by
          rintro rfl
          cases (free inside).symm.trans there
        exact ⟨j,by omega,(others j inside other).trans there⟩
    · rintro ⟨j,inside,there⟩
      rcases origin j k' v' inside there with ⟨_,rfl,rfl⟩ | ⟨_,old,there,different⟩
      · exact Function.update_self ..
      · rw [Function.update_of_ne different]
        exact (rep.bound k' v').mpr ⟨j,old,there⟩

theorem Represents.remove [DecidableEq K] (rep : Represents s m) (inside : i < s.count)
    (there : s.entry i = some (k,v)) (size : s'.count+1 = s.count)
    (moved : i < s'.count → s'.entry i = s.entry s'.count) (others : ∀ j < s'.count, j ≠ i → s'.entry j = s.entry j) :
    Represents s' (Function.update m k none) := by
  -- Every slot has its entry from one of the old slots, never from `i`, and no two from one.
  let source : Nat → Nat := fun j => if j = i then s'.count else j
  have origin : ∀ j < s'.count, s'.entry j = s.entry (source j) ∧ source j < s.count ∧ source j ≠ i := by
    intro j below
    by_cases new : j = i
    · subst new
      simp only [source,if_true]
      exact ⟨moved below,by omega,by omega⟩
    · simp only [source,if_neg new]
      exact ⟨others j below new,by omega,new⟩
  have apart : ∀ j k' v', j < s'.count → s'.entry j = some (k',v') → k' ≠ k := by
    rintro j k' v' below found rfl
    obtain ⟨same,old,other⟩ := origin j below
    exact other (rep.single _ _ k' v' v old inside (same.symm.trans found) there)
  refine ⟨?_,?_⟩
  · intro j l k' v' w' left right at_j at_l
    obtain ⟨same_j,old_j,_⟩ := origin j left
    obtain ⟨same_l,old_l,_⟩ := origin l right
    have same := rep.single _ _ k' v' w' old_j old_l (same_j.symm.trans at_j) (same_l.symm.trans at_l)
    simp only [source] at same
    split at same <;> split at same <;> omega
  · intro k' v'
    constructor
    · intro bound
      by_cases mine : k' = k
      · subst mine
        rw [Function.update_self] at bound
        cases bound
      · rw [Function.update_of_ne mine] at bound
        obtain ⟨j,below,found⟩ := (rep.bound k' v').mp bound
        have other : j ≠ i := by
          rintro rfl
          cases there.symm.trans found
          exact mine rfl
        by_cases last : j = s'.count
        · subst last
          exact ⟨i,by omega,(moved (by omega)).trans found⟩
        · exact ⟨j,by omega,(others j (by omega) other).trans found⟩
    · rintro ⟨j,below,found⟩
      rw [Function.update_of_ne (apart j k' v' below found)]
      obtain ⟨same,old,_⟩ := origin j below
      exact (rep.bound k' v').mpr ⟨source j,old,same.symm.trans found⟩

end SlotMap
