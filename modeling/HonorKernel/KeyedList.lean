import Mathlib.Data.List.Basic
import Mathlib.Data.List.Nodup

namespace KeyedList
variable {α κ : Type*} [DecidableEq κ] {key : α → κ}

-- A linked list whose elements carry a key, looked up by a walk from its head.
def find (key : α → κ) (k : κ) (xs : List α) : Option α := xs.find? (fun x => key x == k)

def modify (key : α → κ) (k : κ) (f : α → α) (xs : List α) : List α :=
  xs.map (fun x => if key x = k then f x else x)

def remove (key : α → κ) (k : κ) (xs : List α) : List α := xs.eraseP (fun x => key x == k)

@[simp] theorem find_nil (k : κ) : find key k [] = none := rfl

theorem find_cons (k : κ) (x : α) (xs : List α) :
    find key k (x::xs) = if key x = k then some x else find key k xs := by
  by_cases same : key x = k <;> simp [find,same]

theorem find_some {k : κ} {x : α} {xs : List α} (found : find key k xs = some x) : x ∈ xs ∧ key x = k := by
  refine ⟨List.mem_of_find?_eq_some found,?_⟩
  simpa using List.find?_some found

theorem find_none {k : κ} {xs : List α} : find key k xs = none ↔ ∀ x ∈ xs, key x ≠ k := by
  simp [find]

theorem find_member {xs : List α} (distinct : (xs.map key).Nodup) {x : α} (member : x ∈ xs) :
    find key (key x) xs = some x := by
  induction xs with
  | nil => cases member
  | cons y rest ih =>
    obtain ⟨fresh,tail⟩ := List.nodup_cons.mp distinct
    rw [find_cons]
    rcases List.mem_cons.mp member with rfl | later
    · simp
    · have different : key y ≠ key x := fun same => fresh (same ▸ List.mem_map.mpr ⟨x,later,rfl⟩)
      rw [if_neg different]
      exact ih tail later

theorem find_modify (k : κ) (f : α → α) (keeps : ∀ x, key (f x) = key x) (xs : List α) (c : κ) :
    find key c (modify key k f xs) = if c = k then (find key c xs).map f else find key c xs := by
  induction xs with
  | nil => simp [modify]
  | cons x rest ih =>
    simp only [modify,List.map_cons] at ih ⊢
    rw [find_cons,find_cons,ih]
    by_cases here : key x = k
    · by_cases same : k = c
      · subst same; simp [here,keeps]
      · simp [here,keeps,same,Ne.symm same]
    · by_cases same : key x = c
      · have different : c ≠ k := same ▸ here
        simp [same,different]
      · simp [here,same]

theorem modify_keys (k : κ) (f : α → α) (keeps : ∀ x, key (f x) = key x) (xs : List α) :
    (modify key k f xs).map key = xs.map key := by
  simp only [modify,List.map_map]
  refine List.map_congr_left ?_
  intro x _
  simp only [Function.comp_apply]
  split <;> simp [keeps]

@[simp] theorem modify_length (k : κ) (f : α → α) (xs : List α) : (modify key k f xs).length = xs.length := by
  simp [modify]

theorem find_remove (k : κ) (xs : List α) (c : κ) (different : c ≠ k) :
    find key c (remove key k xs) = find key c xs := by
  induction xs with
  | nil => rfl
  | cons x rest ih =>
    by_cases here : key x = k
    · have skipped : key x ≠ c := fun same => different (same ▸ here)
      simp [remove,here,find_cons,Ne.symm different]
    · have kept : remove key k (x::rest) = x :: remove key k rest := by simp [remove,here]
      rw [kept,find_cons,find_cons,ih]

theorem remove_sublist (k : κ) (xs : List α) : (remove key k xs).Sublist xs := List.eraseP_sublist

theorem find_sublist {xs ys : List α} (sub : ys.Sublist xs) (distinct : (xs.map key).Nodup) {k : κ} {x : α}
    (found : find key k ys = some x) : find key k xs = some x := by
  obtain ⟨member,same⟩ := find_some found
  rw [← same]
  exact find_member distinct (sub.subset member)

theorem remove_fresh {xs : List α} (distinct : (xs.map key).Nodup) (k : κ) :
    k ∉ (remove key k xs).map key := by
  induction xs with
  | nil => simp [remove]
  | cons x rest ih =>
    obtain ⟨fresh,tail⟩ := List.nodup_cons.mp distinct
    by_cases here : key x = k
    · subst here; simpa [remove] using fresh
    · have kept : remove key k (x::rest) = x :: remove key k rest := by simp [remove,here]
      rw [kept,List.map_cons,List.mem_cons,not_or]
      exact ⟨Ne.symm here,ih tail⟩

theorem front_nodup {xs : List α} (distinct : (xs.map key).Nodup) (k : κ) : (k::(remove key k xs).map key).Nodup :=
  List.nodup_cons.mpr ⟨remove_fresh distinct k,distinct.sublist ((remove_sublist k xs).map key)⟩

theorem length_remove {xs : List α} {k : κ} {x : α} (found : find key k xs = some x) :
    (remove key k xs).length+1 = xs.length := by
  obtain ⟨member,same⟩ := find_some found
  have removed : (remove key k xs).length = xs.length-1 := List.length_eraseP_of_mem member (by simp [same])
  have positive : 0 < xs.length := List.length_pos_of_mem member
  omega

end KeyedList
