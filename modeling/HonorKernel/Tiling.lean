import Mathlib.Data.List.FinRange
import Mathlib.Logic.Function.Basic

namespace Tiling

-- A stretch of addresses: where it starts and how long it is.
abbrev Piece := Nat × Nat

def Within (p : Piece) (a : Nat) : Prop := p.1 ≤ a ∧ a < p.1+p.2

def Apart (p q : Piece) : Prop := p.1+p.2 ≤ q.1 ∨ q.1+q.2 ≤ p.1

def Inside (p area : Piece) : Prop := area.1 ≤ p.1 ∧ p.1+p.2 ≤ area.1+area.2

-- The pieces cover the areas without overlap, each piece in one area.
structure Tiles (areas pieces : List Piece) : Prop where
  apart : pieces.Pairwise Apart
  nonempty : ∀ p ∈ pieces, 0 < p.2
  inside : ∀ p ∈ pieces, ∃ area ∈ areas, Inside p area
  cover : ∀ area ∈ areas, ∀ a, Within area a → ∃ p ∈ pieces, Within p a

theorem Apart.symm (apart : Apart p q) : Apart q p := Or.symm apart

instance : Std.Symm Apart := ⟨fun _ _ => Or.symm⟩

theorem Apart.starts (apart : Apart p q) (left : 0 < p.2) (right : 0 < q.2) : p.1 ≠ q.1 := by
  unfold Apart at apart
  omega

theorem Inside.apart (inside : Inside p area) (apart : Apart area q) : Apart p q := by
  unfold Inside at inside
  unfold Apart at apart ⊢
  omega

theorem Tiles.nil : Tiles [] [] := by
  refine ⟨.nil,?_,?_,?_⟩
  · intro p member; cases member
  · intro p member; cases member
  · intro area member; cases member

theorem Tiles.perm (tiles : Tiles areas pieces) (same : pieces.Perm pieces') : Tiles areas pieces' := by
  refine ⟨?_,?_,?_,?_⟩
  · exact (same.pairwise_iff fun apart => Apart.symm apart).mp tiles.apart
  · intro p member
    exact tiles.nonempty p (same.mem_iff.mpr member)
  · intro p member
    exact tiles.inside p (same.mem_iff.mpr member)
  · intro area member a within
    obtain ⟨p,listed,here⟩ := tiles.cover area member a within
    exact ⟨p,same.mem_iff.mp listed,here⟩

theorem Tiles.split (tiles : Tiles areas ((a,m+n)::rest)) (left : 0 < m) (right : 0 < n) :
    Tiles areas ((a,m)::(a+m,n)::rest) := by
  have others := List.pairwise_cons.mp tiles.apart
  refine ⟨?_,?_,?_,?_⟩
  · refine List.pairwise_cons.mpr ⟨?_,List.pairwise_cons.mpr ⟨?_,others.2⟩⟩
    · intro q member
      rcases List.mem_cons.mp member with rfl | member
      · exact .inl (Nat.le_refl _)
      · have apart := others.1 q member
        unfold Apart at apart ⊢
        simp only at apart ⊢
        omega
    · intro q member
      have apart := others.1 q member
      unfold Apart at apart ⊢
      simp only at apart ⊢
      omega
  · intro p member
    rcases List.mem_cons.mp member with rfl | member
    · exact left
    · rcases List.mem_cons.mp member with rfl | member
      · exact right
      · exact tiles.nonempty p (List.mem_cons_of_mem _ member)
  · obtain ⟨area,listed,inside⟩ := tiles.inside _ List.mem_cons_self
    intro p member
    unfold Inside at inside
    rcases List.mem_cons.mp member with rfl | member
    · refine ⟨area,listed,?_⟩
      unfold Inside
      simp only at inside ⊢
      omega
    · rcases List.mem_cons.mp member with rfl | member
      · refine ⟨area,listed,?_⟩
        unfold Inside
        simp only at inside ⊢
        omega
      · exact tiles.inside p (List.mem_cons_of_mem _ member)
  · intro area member b within
    obtain ⟨p,listed,here⟩ := tiles.cover area member b within
    rcases List.mem_cons.mp listed with rfl | listed
    · unfold Within at here
      by_cases low : b < a+m
      · exact ⟨(a,m),List.mem_cons_self,here.1,low⟩
      · refine ⟨(a+m,n),List.mem_cons_of_mem _ List.mem_cons_self,?_⟩
        unfold Within
        simp only at here ⊢
        omega
    · exact ⟨p,List.mem_cons_of_mem _ (List.mem_cons_of_mem _ listed),here⟩

theorem Tiles.extend (tiles : Tiles areas pieces) (area : Piece) (size : 0 < area.2)
    (new : ∀ other ∈ areas, Apart area other) :
    Tiles (area::areas) (area::pieces) := by
  refine ⟨?_,?_,?_,?_⟩
  · refine List.pairwise_cons.mpr ⟨?_,tiles.apart⟩
    intro q member
    obtain ⟨other,listed,inside⟩ := tiles.inside q member
    exact (inside.apart (new other listed).symm).symm
  · intro p member
    rcases List.mem_cons.mp member with rfl | member
    · exact size
    · exact tiles.nonempty p member
  · intro p member
    rcases List.mem_cons.mp member with rfl | member
    · exact ⟨p,List.mem_cons_self,Nat.le_refl _,Nat.le_refl _⟩
    · obtain ⟨other,listed,inside⟩ := tiles.inside p member
      exact ⟨other,List.mem_cons_of_mem _ listed,inside⟩
  · intro other member a within
    rcases List.mem_cons.mp member with rfl | member
    · exact ⟨other,List.mem_cons_self,within⟩
    · obtain ⟨p,listed,here⟩ := tiles.cover other member a within
      exact ⟨p,List.mem_cons_of_mem _ listed,here⟩

-- The pieces kept in numbered lists.
def gather (lists : Fin n → List Piece) : List Piece := (List.finRange n).flatMap lists

theorem mem_gather (lists : Fin n → List Piece) (p : Piece) : p ∈ gather lists ↔ ∃ i, p ∈ lists i := by
  simp [gather]

theorem flatMap_cons (lists : Fin n → List Piece) (i : Fin n) (p : Piece) (is : List (Fin n)) (distinct : is.Nodup)
    (member : i ∈ is) : (is.flatMap (Function.update lists i (p::lists i))).Perm (p::is.flatMap lists) := by
  induction is with
  | nil => cases member
  | cons j is ih =>
    have parts := List.nodup_cons.mp distinct
    simp only [List.flatMap_cons]
    by_cases here : i = j
    · subst here
      have rest : is.flatMap (Function.update lists i (p::lists i)) = is.flatMap lists := by
        refine List.flatMap_congr ?_
        intro k listed
        have other : k ≠ i := by
          intro same
          rw [same] at listed
          exact parts.1 listed
        exact Function.update_of_ne other _ _
      rw [rest,Function.update_self,List.cons_append]
    · have later := ih parts.2 ((List.mem_cons.mp member).resolve_left here)
      rw [Function.update_of_ne (Ne.symm here)]
      exact (later.append_left (lists j)).trans List.perm_middle

theorem gather_cons (lists : Fin n → List Piece) (i : Fin n) (p : Piece) :
    (gather (Function.update lists i (p::lists i))).Perm (p::gather lists) :=
  flatMap_cons lists i p _ (List.nodup_finRange n) (List.mem_finRange i)

theorem gather_tail (lists : Fin n → List Piece) (i : Fin n) (head : lists i = p::rest) :
    (gather lists).Perm (p::gather (Function.update lists i rest)) := by
  have same : Function.update (Function.update lists i rest) i (p::Function.update lists i rest i) = lists := by
    rw [Function.update_idem,Function.update_self,← head,Function.update_eq_self]
  have perm := gather_cons (Function.update lists i rest) i p
  rwa [same] at perm

end Tiling
