import Mathlib.Logic.Function.Basic
import Mathlib.Data.List.Basic

namespace StoreWrites
variable {Addr Data : Type*} [DecidableEq Addr]

-- Writes reach the store one at a time and in order. A crash keeps a prefix of
-- them: nothing below assumes that a list of writes is atomic.
def apply (ws : List (Addr × Data)) (store : Addr → Data) : Addr → Data :=
  ws.foldl (fun s w => Function.update s w.1 w.2) store

@[simp] theorem apply_nil (store : Addr → Data) : apply [] store = store := rfl
@[simp] theorem apply_cons (w : Addr × Data) (ws : List (Addr × Data)) (store : Addr → Data) :
    apply (w::ws) store = apply ws (Function.update store w.1 w.2) := rfl

theorem apply_append (one two : List (Addr × Data)) (store : Addr → Data) :
    apply (one++two) store = apply two (apply one store) := by
  simp [apply,List.foldl_append]

theorem apply_untouched (ws : List (Addr × Data)) (store : Addr → Data) (a : Addr)
    (free : ∀ w ∈ ws, w.1 ≠ a) : apply ws store a = store a := by
  induction ws generalizing store with
  | nil => rfl
  | cons w rest ih =>
    have tail := ih (Function.update store w.1 w.2) (fun x member => free x (List.mem_cons_of_mem _ member))
    rw [apply_cons,tail,Function.update_of_ne (free w (by simp)).symm]

theorem apply_member (ws : List (Addr × Data)) (store : Addr → Data) (distinct : (ws.map Prod.fst).Nodup)
    (w : Addr × Data) (member : w ∈ ws) : apply ws store w.1 = w.2 := by
  induction ws generalizing store with
  | nil => cases member
  | cons x rest ih =>
    obtain ⟨fresh,tail⟩ := List.nodup_cons.mp distinct
    rw [apply_cons]
    rcases List.mem_cons.mp member with rfl | later
    · rw [apply_untouched,Function.update_self]
      intro y inRest equal
      exact fresh (List.mem_map.mpr ⟨y,inRest,equal⟩)
    · exact ih _ tail later

-- The value a list of writes leaves at `a` when it is written by a single rule.
theorem apply_rule (ws : List (Addr × Data)) (store : Addr → Data) (value : Addr → Data)
    (rule : ∀ w ∈ ws, w.2 = value w.1) (a : Addr) :
    apply ws store a = if a ∈ ws.map Prod.fst then value a else store a := by
  induction ws generalizing store with
  | nil => simp
  | cons w rest ih =>
    have tail := ih (Function.update store w.1 w.2) (fun x member => rule x (List.mem_cons_of_mem _ member))
    rw [apply_cons,tail]
    by_cases later : a ∈ rest.map Prod.fst
    · rw [if_pos later,if_pos (by simp only [List.map_cons]; exact List.mem_cons_of_mem _ later)]
    · by_cases here : a = w.1
      · subst here
        simp [later,rule w (by simp)]
      · simp [later,here]

-- `Along I ws store`: the invariant holds at every crash point of `ws`.
def Along (I : (Addr → Data) → Prop) (ws : List (Addr × Data)) (store : Addr → Data) : Prop :=
  ∀ pre, pre <+: ws → I (apply pre store)

theorem Along.start {I : (Addr → Data) → Prop} {ws : List (Addr × Data)} {store : Addr → Data}
    (along : Along I ws store) : I store := along [] List.nil_prefix

theorem along_nil {I : (Addr → Data) → Prop} {store : Addr → Data} (here : I store) : Along I [] store := by
  intro pre isPre
  rw [List.prefix_nil.mp isPre]
  exact here

theorem along_cons {I : (Addr → Data) → Prop} {w : Addr × Data} {ws : List (Addr × Data)} {store : Addr → Data}
    (here : I store) (rest : Along I ws (Function.update store w.1 w.2)) : Along I (w::ws) store := by
  intro pre isPre
  rcases List.prefix_cons_iff.mp isPre with rfl | ⟨shorter,rfl,tail⟩
  · exact here
  · exact rest shorter tail

theorem along_append {I : (Addr → Data) → Prop} {one two : List (Addr × Data)} {store : Addr → Data}
    (first : Along I one store) (second : Along I two (apply one store)) : Along I (one++two) store := by
  induction one generalizing store with
  | nil => exact second
  | cons w rest ih =>
    refine along_cons first.start (ih ?_ second)
    intro pre isPre
    exact first (w::pre) ((List.cons_prefix_cons).mpr ⟨rfl,isPre⟩)

theorem along_step {I : (Addr → Data) → Prop} {ws : List (Addr × Data)} {store : Addr → Data} (here : I store)
    (step : ∀ s, I s → ∀ w ∈ ws, I (Function.update s w.1 w.2)) : Along I ws store := by
  induction ws generalizing store with
  | nil => exact along_nil here
  | cons w rest ih =>
    exact along_cons here (ih (step store here w (by simp))
      (fun s valid x member => step s valid x (List.mem_cons_of_mem _ member)))

theorem Along.last {I : (Addr → Data) → Prop} {ws : List (Addr × Data)} {store : Addr → Data}
    (along : Along I ws store) : I (apply ws store) := along ws (List.prefix_refl _)

end StoreWrites
