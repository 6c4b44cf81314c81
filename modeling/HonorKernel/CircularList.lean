import Mathlib.Data.List.Nodup
import Mathlib.Logic.Function.Basic

-- Doubly linked circular lists in a memory of nodes, as common/list.c lays them out.
namespace CircularList
variable {Ptr : Type*}

structure Links (Ptr : Type*) where
  prev : Ptr → Ptr
  next : Ptr → Ptr

-- From `a` over the nodes of the list to `b`, in both directions.
def Linked (l : Links Ptr) : Ptr → List Ptr → Ptr → Prop
  | a,[],b => l.next a = b ∧ l.prev b = a
  | a,x::rest,b => (l.next a = x ∧ l.prev x = a) ∧ Linked l x rest b

-- The circular list at `head` holds these nodes, `head.next` first.
structure Ring (l : Links Ptr) (head : Ptr) (nodes : List Ptr) : Prop where
  distinct : (head::nodes).Nodup
  linked : Linked l head nodes head

variable {l l' : Links Ptr} {a b x y head : Ptr} {xs ys : List Ptr}

theorem linked_append : Linked l a (xs++x::ys) b ↔ Linked l a xs x ∧ Linked l x ys b := by
  induction xs generalizing a with
  | nil => exact Iff.rfl
  | cons z rest ih => simp only [List.cons_append,Linked,ih,and_assoc]

theorem Linked.congr (linked : Linked l a xs b) (next : ∀ p ∈ a::xs, l'.next p = l.next p)
    (prev : ∀ p ∈ xs++[b], l'.prev p = l.prev p) :
    Linked l' a xs b := by
  induction xs generalizing a with
  | nil => exact ⟨(next a List.mem_cons_self).trans linked.1,(prev b (by simp)).trans linked.2⟩
  | cons x rest ih =>
    refine ⟨⟨(next a List.mem_cons_self).trans linked.1.1,(prev x (by simp)).trans linked.1.2⟩,ih linked.2 ?_ ?_⟩
    · exact fun p member => next p (List.mem_cons_of_mem _ member)
    · exact fun p member => prev p (List.mem_cons_of_mem _ member)

theorem Linked.prev_last (linked : Linked l a xs b) : l.prev b = xs.getLastD a := by
  induction xs generalizing a with
  | nil => exact linked.2
  | cons x rest ih => rw [ih linked.2,List.getLastD_cons]

theorem Linked.prev_mem (linked : Linked l a xs b) : l.prev b ∈ a::xs := by
  induction xs generalizing a with
  | nil => rw [linked.2]; exact List.mem_cons_self
  | cons x rest ih => exact List.mem_cons_of_mem _ (ih linked.2)

theorem Linked.next_mem (linked : Linked l a xs b) : l.next a ∈ xs++[b] := by
  cases xs with
  | nil => rw [linked.1]; exact List.mem_cons_self
  | cons x rest => rw [linked.1.1]; exact List.mem_cons_self

section Operations
variable [DecidableEq Ptr]

def Links.setPrev (l : Links Ptr) (p q : Ptr) : Links Ptr := {l with prev := Function.update l.prev p q}
def Links.setNext (l : Links Ptr) (p q : Ptr) : Links Ptr := {l with next := Function.update l.next p q}

def initNode (l : Links Ptr) (node : Ptr) : Links Ptr := (l.setPrev node node).setNext node node

def merge (l : Links Ptr) (node₁ node₂ : Ptr) : Links Ptr :=
  let node₃ := l.next node₁
  let node₄ := l.prev node₂
  (((l.setNext node₁ node₂).setPrev node₂ node₁).setNext node₄ node₃).setPrev node₃ node₄

def insert (l : Links Ptr) (list node : Ptr) : Links Ptr := merge (initNode l node) list node

def detach (l : Links Ptr) (node : Ptr) : Links Ptr :=
  let l := l.setNext (l.prev node) (l.next node)
  let l := l.setPrev (l.next node) (l.prev node)
  initNode l node

theorem detach_next (l : Links Ptr) (node p : Ptr) (other : p ≠ node) :
    (detach l node).next p = if p = l.prev node then l.next node else l.next p := by
  simp only [detach,initNode,Links.setNext,Links.setPrev,Function.update_apply,if_neg other]

theorem detach_prev (l : Links Ptr) (node p : Ptr) (other : p ≠ node) (apart : l.prev node ≠ node) :
    (detach l node).prev p = if p = l.next node then l.prev node else l.prev p := by
  simp only [detach,initNode,Links.setNext,Links.setPrev,Function.update_apply,if_neg other,if_neg (Ne.symm apart)]

theorem Linked.detach (distinct : (a::(xs++y::ys)).Nodup) (outside : b ∉ xs++y::ys) (before : Linked l a xs y)
    (after : Linked l y ys b) :
    Linked (detach l y) a (xs++ys) b := by
  have apart : l.prev y ≠ y := by
    have member := before.prev_mem
    intro same
    rw [same] at member
    rw [List.nodup_cons,List.nodup_append] at distinct
    rcases List.mem_cons.mp member with rfl | inside
    · exact distinct.1 (List.mem_append_right _ List.mem_cons_self)
    · exact distinct.2.2.2 y inside y List.mem_cons_self rfl
  induction xs generalizing a with
  | nil =>
    have others : a ∉ y::ys := (List.nodup_cons.mp distinct).1
    have beyond : y ∉ ys := (List.nodup_cons.mp (List.nodup_cons.mp distinct).2).1
    have notA : a ≠ y := fun same => others (same ▸ List.mem_cons_self)
    have notB : b ≠ y := fun same => outside (same ▸ List.mem_cons_self)
    obtain ⟨_,back⟩ := before
    have forth : (CircularList.detach l y).next a = l.next y := by rw [detach_next l y a notA,if_pos back.symm]
    cases ys with
    | nil =>
      refine ⟨forth.trans after.1,?_⟩
      rw [detach_prev l y b notB apart,if_pos after.1.symm,back]
    | cons z rest =>
      have notZ : z ≠ y := fun same => beyond (same ▸ List.mem_cons_self)
      refine ⟨⟨forth.trans after.1.1,?_⟩,after.2.congr ?_ ?_⟩
      · rw [detach_prev l y z notZ apart,if_pos after.1.1.symm,back]
      · intro p member
        have different : p ≠ y := fun same => beyond (same ▸ member)
        have notA' : p ≠ l.prev y := by
          intro same
          rw [same,back] at member
          exact others (List.mem_cons_of_mem _ member)
        rw [detach_next l y p different,if_neg notA']
      · intro p member
        have tail := (List.nodup_cons.mp (List.nodup_cons.mp (List.nodup_cons.mp distinct).2).2).1
        have different : p ≠ y ∧ p ≠ z := by
          rcases List.mem_append.mp member with inside | last
          · exact ⟨fun same => beyond (List.mem_cons_of_mem _ (same ▸ inside)),fun same => tail (same ▸ inside)⟩
          · rw [List.mem_singleton.mp last]
            exact ⟨notB,fun same => outside (by simp [same])⟩
        have notNext : p ≠ l.next y := fun same => different.2 (same.trans after.1.1)
        rw [detach_prev l y p different.1 apart,if_neg notNext]
  | cons x rest ih =>
    obtain ⟨fresh,tail⟩ := List.nodup_cons.mp distinct
    rw [List.cons_append] at fresh tail outside
    have split := List.nodup_cons.mp tail
    have notA : a ≠ y := fun same => fresh (by simp [same])
    have notX : x ≠ y := fun same => split.1 (by simp [same])
    refine ⟨⟨?_,?_⟩,ih tail (fun member => outside (List.mem_cons_of_mem _ member)) before.2⟩
    · rw [detach_next l y a notA,if_neg,before.1.1]
      intro same
      have member := before.2.prev_mem
      rw [← same] at member
      rw [← List.cons_append] at fresh
      exact fresh (List.mem_append_left _ member)
    · rw [detach_prev l y x notX apart,if_neg,before.1.2]
      intro same
      have member := after.next_mem
      rw [← same] at member
      rcases List.mem_append.mp member with inside | last
      · exact split.1 (by simp [inside])
      · rw [List.mem_singleton.mp last] at outside
        exact outside List.mem_cons_self

theorem Ring.detach (ring : Ring l head (xs++y::ys)) : Ring (detach l y) head (xs++ys) := by
  obtain ⟨before,after⟩ := linked_append.mp ring.linked
  refine ⟨ring.distinct.sublist ?_,.detach ring.distinct (List.nodup_cons.mp ring.distinct).1 before after⟩
  exact ((List.Sublist.refl xs).append (List.sublist_cons_self y ys)).cons_cons head

theorem insert_next (l : Links Ptr) (node p : Ptr) (other : head ≠ node) :
    (insert l head node).next p = if p = node then l.next head else if p = head then node else l.next p := by
  simp only [insert,merge,initNode,Links.setNext,Links.setPrev,Function.update_apply,if_neg other,if_pos]
  split
  · rfl
  · rfl

theorem insert_prev (l : Links Ptr) (node p : Ptr) (other : head ≠ node) :
    (insert l head node).prev p = if p = l.next head then node else if p = node then head else l.prev p := by
  simp only [insert,merge,initNode,Links.setNext,Links.setPrev,Function.update_apply,if_neg other,if_pos]
  split
  · rfl
  · split
    · rfl
    · rfl

theorem Ring.insert (ring : Ring l head xs) (fresh : x ∉ head::xs) : Ring (insert l head x) head (x::xs) := by
  obtain ⟨distinct,linked⟩ := ring
  rw [List.mem_cons,not_or] at fresh
  have other : head ≠ x := Ne.symm fresh.1
  have first : (CircularList.insert l head x).next head = x := by rw [insert_next l x head other,if_neg other,if_pos rfl]
  have second : (CircularList.insert l head x).next x = l.next head := by rw [insert_next l x x other,if_pos rfl]
  have back : (CircularList.insert l head x).prev (l.next head) = x := by rw [insert_prev l x _ other,if_pos rfl]
  have notNext : x ≠ l.next head := by
    intro same
    have member := linked.next_mem
    rw [← same] at member
    rcases List.mem_append.mp member with inside | last
    · exact fresh.2 inside
    · exact fresh.1 (List.mem_singleton.mp last)
  have front : (CircularList.insert l head x).prev x = head := by rw [insert_prev l x x other,if_neg notNext,if_pos rfl]
  refine ⟨?_,⟨first,front⟩,?_⟩
  · refine List.nodup_cons.mpr ⟨?_,List.nodup_cons.mpr ⟨fresh.2,(List.nodup_cons.mp distinct).2⟩⟩
    intro member
    exact (List.mem_cons.mp member).elim other (List.nodup_cons.mp distinct).1
  · cases xs with
    | nil =>
      rw [linked.1] at back second
      exact ⟨second,back⟩
    | cons f rest =>
      have head' := (List.nodup_cons.mp distinct).1
      have rest' := (List.nodup_cons.mp (List.nodup_cons.mp distinct).2).1
      rw [linked.1.1] at back second
      refine ⟨⟨second,back⟩,linked.2.congr ?_ ?_⟩
      · intro p member
        have notX : p ≠ x := fun same => fresh.2 (same ▸ member)
        have notHead : p ≠ head := fun same => head' (same ▸ member)
        rw [insert_next l x p other,if_neg notX,if_neg notHead]
      · intro p member
        have apart : p ≠ f ∧ p ≠ x := by
          rcases List.mem_append.mp member with inside | last
          · exact ⟨fun same => rest' (same ▸ inside),fun same => fresh.2 (List.mem_cons_of_mem _ (same ▸ inside))⟩
          · rw [List.mem_singleton.mp last]
            exact ⟨fun same => head' (same ▸ List.mem_cons_self),other⟩
        rw [insert_prev l x p other,linked.1.1,if_neg apart.1,if_neg apart.2]

end Operations

theorem Ring.prev (ring : Ring l head (xs++y::ys)) : l.prev y = xs.getLastD head := (linked_append.mp ring.linked).1.prev_last
theorem Ring.prev_head (ring : Ring l head xs) : l.prev head = xs.getLastD head := ring.linked.prev_last

end CircularList
