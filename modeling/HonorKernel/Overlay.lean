import Mathlib.Data.List.Basic

-- Writes at positions of a growing sequence: what stands at each position afterwards,
-- and how far the sequence reaches.
namespace Overlay
variable {α : Type*}

abbrev Write (α : Type*) := Nat × List α

def covers (w : Write α) (x : Nat) : Prop := w.1 ≤ x ∧ x < w.1+w.2.length

instance (w : Write α) (x : Nat) : Decidable (covers w x) := inferInstanceAs (Decidable (_ ∧ _))

def paint (base : Nat → Option α) (ws : List (Write α)) : Nat → Option α :=
  ws.foldl (fun f w x => if covers w x then w.2[x-w.1]? else f x) base

def reach (size : Nat) (ws : List (Write α)) : Nat := ws.foldl (fun n w => max n (w.1+w.2.length)) size

-- The value written last at a position.
def lastWritten (ws : List (Write α)) : Nat → Option α := paint (fun _ => none) ws

def maxEnd (ws : List (Write α)) : Nat := reach 0 ws

theorem paint_cons (base : Nat → Option α) (w : Write α) (ws : List (Write α)) :
    paint base (w::ws) = paint (fun x => if covers w x then w.2[x-w.1]? else base x) ws := rfl

theorem paint_append (base : Nat → Option α) (ws ws' : List (Write α)) : paint base (ws++ws') = paint (paint base ws) ws' := List.foldl_append

theorem reach_cons (size : Nat) (w : Write α) (ws : List (Write α)) :
    reach size (w::ws) = reach (max size (w.1+w.2.length)) ws := rfl

theorem paint_one (base : Nat → Option α) (start : Nat) (src : List α) (x : Nat) :
    paint base [(start,src)] x = if start ≤ x ∧ x < start+src.length then src[x-start]? else base x := rfl

theorem paint_nothing (base : Nat → Option α) (start : Nat) : paint base [(start,[])] = base := by
  funext x
  rw [paint_one,List.length_nil,if_neg (by omega)]

theorem paint_join (base : Nat → Option α) (start : Nat) (one two : List α) :
    paint (paint base [(start,one)]) [(start+one.length,two)] = paint base [(start,one++two)] := by
  funext x
  rw [paint_one,paint_one,paint_one,List.length_append]
  by_cases early : x < start+one.length
  · rw [if_neg (by omega)]
    by_cases inside : start ≤ x
    · rw [if_pos ⟨inside,early⟩,if_pos (by omega),List.getElem?_append_left (by omega)]
    · rw [if_neg (by omega),if_neg (by omega)]
  · have past : ¬ (start ≤ x ∧ x < start+one.length) := fun both => early both.2
    rw [if_neg past]
    by_cases inside : x < start+one.length+two.length
    · rw [if_pos (by omega),if_pos (by omega),List.getElem?_append_right (by omega)]
      congr 1
      omega
    · rw [if_neg (by omega),if_neg (by omega)]

-- `xs` stands at `a` and behind it.
def At (f : Nat → Option α) (a : Nat) (xs : List α) : Prop := ∀ i < xs.length, f (a+i) = xs[i]?

section Standing
variable {f : Nat → Option α} {a : Nat} {xs ys : List α}

theorem At.nil (f : Nat → Option α) (a : Nat) : At f a [] := fun _ small => absurd small (Nat.not_lt_zero _)

theorem At.append : At f a (xs++ys) ↔ At f a xs ∧ At f (a+xs.length) ys := by
  constructor
  · intro both
    refine ⟨fun i small => ?_,fun i small => ?_⟩
    · rw [both i (by rw [List.length_append]; omega),List.getElem?_append_left small]
    · rw [Nat.add_assoc,both (xs.length+i) (by rw [List.length_append]; omega),List.getElem?_append_right (by omega),
        Nat.add_sub_cancel_left]
  · rintro ⟨first,second⟩ i small
    rw [List.length_append] at small
    by_cases early : i < xs.length
    · rw [first i early,List.getElem?_append_left early]
    · have later := second (i-xs.length) (by omega)
      rw [List.getElem?_append_right (by omega),← later]
      congr 1
      omega

theorem At.same {g : Nat → Option α} (standing : At f a xs) (same : ∀ x, a ≤ x → x < a+xs.length → g x = f x) :
    At g a xs := by
  intro i small
  rw [same (a+i) (by omega) (by omega)]
  exact standing i small

theorem At.unique (one : At f a xs) (two : At f a ys) (lengths : xs.length = ys.length) : xs = ys := by
  refine List.ext_getElem? fun i => ?_
  by_cases small : i < xs.length
  · rw [← one i small,two i (by omega)]
  · rw [List.getElem?_eq_none (by omega),List.getElem?_eq_none (by omega)]

theorem paint_at (f : Nat → Option α) (a : Nat) (xs : List α) : At (paint f [(a,xs)]) a xs := by
  intro i small
  rw [paint_one,if_pos (by omega),Nat.add_sub_cancel_left]

end Standing

end Overlay
