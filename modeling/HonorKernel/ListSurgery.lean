import Mathlib.Data.Fin.VecNotation
import HonorKernel.CircularList

-- Whole lists cut and joined: _merge_list and _detach_from_list at any node of any list, and the
-- splice by which exit hands its children over.
namespace CircularList
variable {Ptr : Type*} {l l' : Links Ptr} {a b c x y head : Ptr} {xs ys : List Ptr}

theorem Ring.rotate (ring : Ring l head (xs++y::ys)) : Ring l y (ys++head::xs) := by
  obtain ⟨before,after⟩ := linked_append.mp ring.linked
  refine ⟨?_,linked_append.mpr ⟨after,before⟩⟩
  have turned : (head::(xs++y::ys)).Perm (y::(ys++head::xs)) := by
    have step : ((head::xs)++(y::ys)).Perm ((y::ys)++(head::xs)) := List.perm_append_comm
    simpa only [List.cons_append] using step
  exact turned.nodup ring.distinct

theorem Ring.congr (ring : Ring l head xs) (next : ∀ p ∈ head::xs, l'.next p = l.next p)
    (prev : ∀ p ∈ head::xs, l'.prev p = l.prev p) :
    Ring l' head xs := by
  refine ⟨ring.distinct,ring.linked.congr next ?_⟩
  intro p member
  refine prev p ?_
  rcases List.mem_append.mp member with inside | last
  · exact List.mem_cons_of_mem _ inside
  · rw [List.mem_singleton.mp last]
    exact List.mem_cons_self

theorem Linked.redirect (linked : Linked l a xs b) (distinct : (a::xs).Nodup) (forth : l'.next (xs.getLastD a) = c)
    (back : l'.prev c = xs.getLastD a) (next : ∀ p ∈ a::xs, p ≠ xs.getLastD a → l'.next p = l.next p)
    (prev : ∀ p ∈ xs, l'.prev p = l.prev p) : Linked l' a xs c := by
  induction xs generalizing a with
  | nil => exact ⟨forth,back⟩
  | cons x rest ih =>
    rw [List.getLastD_cons] at forth back next
    obtain ⟨fresh,tail⟩ := List.nodup_cons.mp distinct
    have apart : a ≠ rest.getLastD x := fun same => fresh (same ▸ List.getLastD_mem_cons)
    refine ⟨⟨(next a List.mem_cons_self apart).trans linked.1.1,(prev x List.mem_cons_self).trans linked.1.2⟩,?_⟩
    refine ih linked.2 tail forth back ?_ ?_
    · exact fun p member => next p (List.mem_cons_of_mem _ member)
    · exact fun p member => prev p (List.mem_cons_of_mem _ member)

theorem Ring.prev_mem (ring : Ring l head xs) : l.prev head ∈ head::xs := ring.linked.prev_mem

theorem Ring.next_mem (ring : Ring l head xs) : l.next head ∈ head::xs := by
  rcases List.mem_append.mp ring.linked.next_mem with inside | last
  · exact List.mem_cons_of_mem _ inside
  · rw [List.mem_singleton.mp last]
    exact List.mem_cons_self

section Operations
variable [DecidableEq Ptr]

theorem merge_next (l : Links Ptr) (a b p : Ptr) :
    (merge l a b).next p = if p = l.prev b then l.next a else if p = a then b else l.next p := by
  simp only [merge,Links.setNext,Links.setPrev,Function.update_apply]

theorem merge_prev (l : Links Ptr) (a b p : Ptr) :
    (merge l a b).prev p = if p = l.next a then l.prev b else if p = b then a else l.prev p := by
  simp only [merge,Links.setNext,Links.setPrev,Function.update_apply]

-- The four pointers: `b`'s list goes in whole between `a` and what followed it.
theorem Ring.merge (first : Ring l a xs) (second : Ring l b ys) (apart : (a::xs).Disjoint (b::ys)) :
    Ring (merge l a b) a (b::ys++xs) := by
  have foreign : ∀ p ∈ b::ys, ∀ q ∈ a::xs, p ≠ q := fun p inside q other same => apart (same ▸ other) inside
  have afterA := first.next_mem
  have beforeB := second.prev_mem
  have last : l.prev b = ys.getLastD b := second.linked.prev_last
  have entry : (CircularList.merge l a b).next a = b ∧ (CircularList.merge l a b).prev b = a := by
    rw [merge_next,merge_prev,if_neg (foreign _ beforeB a List.mem_cons_self).symm,if_pos rfl,
      if_neg (foreign b List.mem_cons_self _ afterA),if_pos rfl]
    exact ⟨rfl,rfl⟩
  have leave : (CircularList.merge l a b).next (l.prev b) = l.next a ∧ (CircularList.merge l a b).prev (l.next a) = l.prev b := by
    rw [merge_next,merge_prev,if_pos rfl,if_pos rfl]
    exact ⟨rfl,rfl⟩
  have inner : Linked (CircularList.merge l a b) b ys (l.next a) := by
    rw [last] at leave
    refine second.linked.redirect second.distinct leave.1 leave.2 ?_ ?_
    · intro p member different
      rw [merge_next,last,if_neg different,if_neg (foreign p member a List.mem_cons_self)]
    · intro p member
      have notB : p ≠ b := fun same => (List.nodup_cons.mp second.distinct).1 (same ▸ member)
      rw [merge_prev,if_neg (foreign p (List.mem_cons_of_mem _ member) _ afterA),if_neg notB]
  refine ⟨?_,?_⟩
  · refine List.nodup_cons.mpr ⟨?_,List.nodup_append.mpr ⟨second.distinct,(List.nodup_cons.mp first.distinct).2,?_⟩⟩
    · intro member
      rcases List.mem_append.mp member with inside | rest
      · exact foreign a inside a List.mem_cons_self rfl
      · exact (List.nodup_cons.mp first.distinct).1 rest
    · exact fun p inside q other => foreign p inside q (List.mem_cons_of_mem _ other)
  · have linked := first.linked
    cases xs with
    | nil =>
      rw [linked.1] at inner
      rw [List.append_nil]
      exact ⟨entry,inner⟩
    | cons x rest =>
      rw [linked.1.1] at inner
      refine linked_append.mpr ⟨⟨entry,inner⟩,linked.2.congr ?_ ?_⟩
      · intro p member
        have notA : p ≠ a := fun same => (List.nodup_cons.mp first.distinct).1 (same ▸ member)
        rw [merge_next,if_neg (foreign _ beforeB p (List.mem_cons_of_mem _ member)).symm,if_neg notA]
      · intro p member
        obtain ⟨inside,notX⟩ : p ∈ a::x::rest ∧ p ≠ x := by
          rcases List.mem_append.mp member with inside | beyond
          · have fresh := (List.nodup_cons.mp (List.nodup_cons.mp first.distinct).2).1
            exact ⟨List.mem_cons_of_mem _ (List.mem_cons_of_mem _ inside),fun same => fresh (same ▸ inside)⟩
          · rw [List.mem_singleton.mp beyond]
            exact ⟨List.mem_cons_self,fun same => (List.nodup_cons.mp first.distinct).1 (same ▸ List.mem_cons_self)⟩
        rw [merge_prev,linked.1.1,if_neg notX,if_neg (foreign b List.mem_cons_self p inside).symm]

theorem Ring.merge_frame (first : Ring l a xs) (second : Ring l b ys) (p : Ptr) (outA : p ∉ a::xs) (outB : p ∉ b::ys) :
    (CircularList.merge l a b).next p = l.next p ∧ (CircularList.merge l a b).prev p = l.prev p := by
  have notA : p ≠ a := fun same => outA (same ▸ List.mem_cons_self)
  have notB : p ≠ b := fun same => outB (same ▸ List.mem_cons_self)
  have notNext : p ≠ l.next a := fun same => outA (same ▸ first.next_mem)
  have notPrev : p ≠ l.prev b := fun same => outB (same ▸ second.prev_mem)
  rw [merge_next,merge_prev,if_neg notPrev,if_neg notA,if_neg notNext,if_neg notB]
  exact ⟨rfl,rfl⟩

theorem detach_self (l : Links Ptr) (node : Ptr) : Ring (CircularList.detach l node) node [] := by
  exact ⟨List.nodup_singleton node,Function.update_self _ _ _,Function.update_self _ _ _⟩

theorem Ring.detach_head (ring : Ring l head (x::xs)) : Ring (CircularList.detach l head) x xs := by
  have start : Ring l head ([]++x::xs) := ring
  have gone := start.rotate.detach
  rwa [List.append_nil] at gone

theorem Ring.detach_frame (ring : Ring l head xs) (p : Ptr) (outside : p ∉ head::xs) :
    (CircularList.detach l head).next p = l.next p ∧ (CircularList.detach l head).prev p = l.prev p := by
  have notHead : p ≠ head := fun same => outside (same ▸ List.mem_cons_self)
  have notNext : p ≠ l.next head := fun same => outside (same ▸ ring.next_mem)
  have notPrev : p ≠ l.prev head := fun same => outside (same ▸ ring.prev_mem)
  refine ⟨by rw [detach_next l head p notHead,if_neg notPrev],?_⟩
  by_cases alone : l.prev head = head
  · simp only [CircularList.detach,initNode,Links.setNext,Links.setPrev,Function.update_apply,alone,if_pos,if_neg notHead]
    split
    · rename_i same
      exact absurd same notNext
    · rfl
  · rw [detach_prev l head p notHead alone,if_neg notNext]

-- _merge_list, with the answers it has for a missing list, and _detach_from_list, which answers
-- the predecessor unless the node was by itself.
def mergeList (l : Links Ptr) : Option Ptr → Option Ptr → Option Ptr × Links Ptr
  | none,node₂ => (node₂,l)
  | some node₁,none => (some node₁,l)
  | some node₁,some node₂ => (some node₁,merge l node₁ node₂)

def detachFromList (l : Links Ptr) (node : Ptr) : Option Ptr × Links Ptr :=
  let prev := l.prev node
  let l := detach l node
  (if prev = node then none else some prev,l)

theorem Ring.detachFromList_returns (ring : Ring l head xs) : (detachFromList l head).1 = xs.getLast? := by
  have last : l.prev head = xs.getLastD head := ring.linked.prev_last
  simp only [detachFromList,last]
  rcases List.eq_nil_or_concat xs with rfl | ⟨init,z,rfl⟩
  · exact if_pos rfl
  · rw [List.concat_eq_append,List.getLastD_concat,List.getLast?_concat,if_neg]
    intro same
    exact (List.nodup_cons.mp ring.distinct).1 (same ▸ by simp)

-- _for_in_list, the nodes its body is run for: the walk ends behind `flag`, never with NULL.
def forInList (l : Links Ptr) (flag : Ptr) : Nat → Ptr → List Ptr
  | 0,_ => []
  | fuel+1,valptr => valptr::(if valptr = flag then [] else forInList l flag fuel (l.next valptr))

theorem Linked.walked (linked : Linked l a xs b) (fresh : b ∉ xs) (fuel : Nat) (enough : xs.length < fuel) :
    forInList l b fuel (l.next a) = xs++[b] := by
  induction xs generalizing a fuel with
  | nil =>
    obtain ⟨more,rfl⟩ := Nat.exists_eq_succ_of_ne_zero (Nat.ne_of_gt enough)
    rw [linked.1,forInList,if_pos rfl,List.nil_append]
  | cons x rest ih =>
    obtain ⟨more,rfl⟩ := Nat.exists_eq_succ_of_ne_zero (Nat.ne_of_gt (Nat.zero_lt_of_lt enough))
    rw [List.mem_cons,not_or] at fresh
    rw [linked.1.1,forInList,if_neg (Ne.symm fresh.1),List.cons_append]
    rw [ih linked.2 fresh.2 more (Nat.lt_of_succ_lt_succ enough)]

-- exit hands its children over, in one piece unless it has none.
def exitSplice (l : Links Ptr) (root this : Ptr) : Links Ptr :=
  if l.next this ≠ this then
    let l := (mergeList l (some root) (some (l.next this))).2
    (detachFromList l this).2
  else l

end Operations

-- A memory whose nodes form these circular lists, each read from one of its nodes: no node is in
-- two of them. A list without nodes is there for the indices that a merge leaves empty.
def Circle (l : Links Ptr) : List Ptr → Prop
  | [] => True
  | head::rest => Ring l head rest

structure Forms {ι : Type*} (l : Links Ptr) (lists : ι → List Ptr) : Prop where
  circle : ∀ i, Circle l (lists i)
  disjoint : ∀ i j, i ≠ j → (lists i).Disjoint (lists j)

-- Every node but these keeps both pointers.
def Untouched (l l' : Links Ptr) (nodes : List Ptr) : Prop :=
  ∀ p, p ∉ nodes → l'.next p = l.next p ∧ l'.prev p = l.prev p

-- One more index, without nodes so far.
def spare {ι : Type*} (lists : ι → List Ptr) (k : Option ι) : List Ptr := k.elim [] lists

theorem perm_from {nodes before after : List Ptr} (split : nodes = before++x::after) :
    (x::(after++before)).Perm nodes := by
  rw [split,← List.cons_append]
  exact List.perm_append_comm

theorem Circle.from_node {nodes before after : List Ptr} (circle : Circle l nodes) (split : nodes = before++x::after) :
    Ring l x (after++before) := by
  subst split
  cases before with
  | nil =>
    rw [List.append_nil]
    exact circle
  | cons head rest =>
    have ring : Ring l head (rest++x::after) := circle
    exact ring.rotate

theorem Circle.rotate (circle : Circle l (xs++ys)) : Circle l (ys++xs) := by
  cases ys with
  | nil =>
    rw [List.append_nil] at circle
    exact circle
  | cons y rest => exact circle.from_node rfl

theorem Circle.congr {nodes touched : List Ptr} (circle : Circle l nodes) (same : Untouched l l' touched)
    (apart : nodes.Disjoint touched) :
    Circle l' nodes := by
  cases nodes with
  | nil => exact circle
  | cons head rest =>
    have ring : Ring l head rest := circle
    exact ring.congr (fun p member => (same p (apart member)).1) (fun p member => (same p (apart member)).2)

section Families
variable {ι : Type*} {lists : ι → List Ptr} {i j : ι} {touched whole left : List Ptr}

theorem Forms.spare (forms : Forms l lists) : Forms l (CircularList.spare lists) := by
  refine ⟨?_,?_⟩
  · rintro (_ | k)
    · trivial
    · exact forms.circle k
  · rintro (_ | k) (_ | m) different
    · exact absurd rfl different
    · exact List.disjoint_nil_left _
    · exact List.disjoint_nil_right _
    · exact forms.disjoint k m fun same => different (congrArg some same)

variable [DecidableEq ι]

-- Two lists of the family take new nodes, all of them from the two; the others are as they were.
theorem Forms.replace (forms : Forms l lists) (different : i ≠ j) (same : Untouched l l' (lists i++lists j))
    (wholeCircle : Circle l' whole) (leftCircle : Circle l' left) (apart : whole.Disjoint left)
    (inWhole : whole ⊆ lists i++lists j) (inLeft : left ⊆ lists i++lists j) :
    Forms l' (Function.update (Function.update lists j left) i whole) := by
  have outside : ∀ k, k ≠ i → k ≠ j → (lists k).Disjoint (lists i++lists j) := by
    intro k notI notJ
    exact List.disjoint_append_right.mpr ⟨forms.disjoint k i notI,forms.disjoint k j notJ⟩
  have atI : Function.update (Function.update lists j left) i whole i = whole := Function.update_self _ _ _
  have atJ : Function.update (Function.update lists j left) i whole j = left := by
    rw [Function.update_of_ne different.symm,Function.update_self]
  have atOther : ∀ k, k ≠ i → k ≠ j → Function.update (Function.update lists j left) i whole k = lists k := by
    intro k notI notJ
    rw [Function.update_of_ne notI,Function.update_of_ne notJ]
  -- which of the two lists a node is in now, told from where it was
  have places : ∀ k, k = i ∨ k = j ∨ k ≠ i ∧ k ≠ j := by
    intro k
    by_cases isI : k = i
    · exact .inl isI
    · by_cases isJ : k = j
      · exact .inr (.inl isJ)
      · exact .inr (.inr ⟨isI,isJ⟩)
  refine ⟨?_,?_⟩
  · intro k
    rcases places k with rfl | rfl | ⟨notI,notJ⟩
    · rw [atI]; exact wholeCircle
    · rw [atJ]; exact leftCircle
    · rw [atOther k notI notJ]
      exact (forms.circle k).congr same (outside k notI notJ)
  · intro k m distinct
    rcases places k with rfl | rfl | ⟨notI,notJ⟩
    · rcases places m with rfl | rfl | ⟨notI,notJ⟩
      · exact absurd rfl distinct
      · rw [atI,atJ]; exact apart
      · rw [atI,atOther m notI notJ]
        exact fun p inside other => outside m notI notJ other (inWhole inside)
    · rcases places m with rfl | rfl | ⟨notI,notJ⟩
      · rw [atI,atJ]; exact fun p inLeft inWhole => apart inWhole inLeft
      · exact absurd rfl distinct
      · rw [atJ,atOther m notI notJ]
        exact fun p inside other => outside m notI notJ other (inLeft inside)
    · rcases places m with rfl | rfl | ⟨notI',notJ'⟩
      · rw [atI,atOther k notI notJ]
        exact fun p inside other => outside k notI notJ inside (inWhole other)
      · rw [atJ,atOther k notI notJ]
        exact fun p inside other => outside k notI notJ inside (inLeft other)
      · rw [atOther k notI notJ,atOther m notI' notJ']
        exact forms.disjoint k m distinct

end Families

section Surgery
variable {ι : Type*} [DecidableEq ι] [DecidableEq Ptr] {lists : ι → List Ptr} {i j : ι}
  {before after before₁ before₂ after₁ after₂ : List Ptr}

theorem Forms.merge (forms : Forms l lists) (different : i ≠ j) (splitI : lists i = before₁++x::after₁)
    (splitJ : lists j = before₂++y::after₂) :
    Untouched l (CircularList.merge l x y) (lists i++lists j) ∧
    Forms (CircularList.merge l x y)
    (Function.update (Function.update lists j []) i (x::(y::(after₂++before₂)++(after₁++before₁)))) := by
  have first := (forms.circle i).from_node splitI
  have second := (forms.circle j).from_node splitJ
  have fromI := (perm_from splitI).subset
  have fromJ := (perm_from splitJ).subset
  have apart : (x::(after₁++before₁)).Disjoint (y::(after₂++before₂)) := fun p inI inJ =>
      forms.disjoint i j different (fromI inI) (fromJ inJ)
  have same : Untouched l (CircularList.merge l x y) (lists i++lists j) := by
    intro p outside
    rw [List.mem_append,not_or] at outside
    exact first.merge_frame second p (fun member => outside.1 (fromI member)) (fun member => outside.2 (fromJ member))
  refine ⟨same,forms.replace different same (first.merge second apart) trivial (List.disjoint_nil_right _) ?_ (List.nil_subset _)⟩
  intro p member
  rw [List.mem_cons,List.mem_append] at member
  rw [List.mem_append]
  rcases member with rfl | inJ | inI
  · exact .inl (fromI List.mem_cons_self)
  · exact .inr (fromJ inJ)
  · exact .inl (fromI (List.mem_cons_of_mem _ inI))

theorem Forms.detach (forms : Forms l lists) (split : lists i = before++x::after) :
    Untouched l (CircularList.detach l x) (lists i) ∧
    Forms (CircularList.detach l x)
    (Function.update (Function.update (CircularList.spare lists) none [x]) (some i) (before++after)) := by
  have ring := (forms.circle i).from_node split
  have inside := (perm_from split).subset
  have same : Untouched l (CircularList.detach l x) (lists i) := fun p outside => ring.detach_frame p fun member =>
      outside (inside member)
  have circle : Circle (CircularList.detach l x) (after++before) := by
    cases rest : after++before with
    | nil => trivial
    | cons z more =>
      rw [rest] at ring
      exact ring.detach_head
  have both : CircularList.spare lists (some i)++CircularList.spare lists none = lists i := List.append_nil _
  refine ⟨same,forms.spare.replace (Option.some_ne_none i) (both ▸ same) circle.rotate (detach_self l x) ?_ ?_ ?_⟩
  · rw [List.disjoint_singleton]
    intro member
    exact (List.nodup_cons.mp ring.distinct).1 ((List.perm_append_comm).mem_iff.mp member)
  · rw [both]
    exact fun p member => inside (List.mem_cons_of_mem _ ((List.perm_append_comm).mem_iff.mp member))
  · rw [both]
    exact fun p member => inside (List.mem_singleton.mp member ▸ List.mem_cons_self)

-- The two rings of exit: the children in their order, then what root had.
theorem Ring.splice (first : Ring l x xs) (second : Ring l y ys) (apart : (x::xs).Disjoint (y::ys)) :
    Ring (exitSplice l x y) x (ys++xs) ∧ Ring (exitSplice l x y) y [] ∧ Untouched l (exitSplice l x y)
    (x::xs++y::ys) := by
  cases ys with
  | nil =>
    have alone : exitSplice l x y = l := if_neg fun different => different second.linked.1
    rw [alone]
    exact ⟨first,second,fun p outside => ⟨rfl,rfl⟩⟩
  | cons c cs =>
    have children : l.next y = c := second.linked.1.1
    have apartC : c ≠ y := fun same => (List.nodup_cons.mp second.distinct).1 (same ▸ List.mem_cons_self)
    have spliced : exitSplice l x y = CircularList.detach (CircularList.merge l x c) y := by
      rw [exitSplice,children,if_pos apartC]
      rfl
    have start : Ring l y ([]++c::cs) := second
    have turned : Ring l c (cs++[y]) := start.rotate
    have turnedIn : c::(cs++[y]) ⊆ y::c::cs := by
      intro p member
      simp only [List.mem_cons,List.mem_append,List.not_mem_nil,or_false] at member ⊢
      tauto
    have joined := first.merge turned fun p inX inC => apart inX (turnedIn inC)
    rw [spliced]
    rw [show c::(cs++[y])++xs = (c::cs)++y::xs by simp] at joined
    refine ⟨joined.detach,detach_self _ y,?_⟩
    intro p outside
    rw [List.mem_append,not_or] at outside
    have merged := first.merge_frame turned p outside.1 fun member => outside.2 (turnedIn member)
    have detached := joined.rotate.detach_frame p (by
      intro member
      simp only [List.mem_cons,List.mem_append] at member outside
      tauto)
    exact ⟨detached.1.trans merged.1,detached.2.trans merged.2⟩

theorem Forms.splice (forms : Forms l lists) (different : i ≠ j) (splitI : lists i = before₁++x::after₁)
    (splitJ : lists j = before₂++y::after₂) :
    Untouched l (exitSplice l x y) (lists i++lists j) ∧
    Forms (exitSplice l x y)
    (Function.update (Function.update lists j [y]) i (x::((after₂++before₂)++(after₁++before₁)))) := by
  have first := (forms.circle i).from_node splitI
  have second := (forms.circle j).from_node splitJ
  have fromI := (perm_from splitI).subset
  have fromJ := (perm_from splitJ).subset
  have apart : (x::(after₁++before₁)).Disjoint (y::(after₂++before₂)) := fun p inI inJ =>
      forms.disjoint i j different (fromI inI) (fromJ inJ)
  obtain ⟨root,this,frame⟩ := first.splice second apart
  have same : Untouched l (exitSplice l x y) (lists i++lists j) := by
    intro p outside
    refine frame p fun member => outside (List.mem_append.mpr ?_)
    exact (List.mem_append.mp member).imp (fun inI => fromI inI) fun inJ => fromJ inJ
  refine ⟨same,forms.replace different same root this ?_ ?_ ?_⟩
  · rw [List.disjoint_singleton,List.mem_cons,List.mem_append]
    rintro (rfl | child | sibling)
    · exact apart List.mem_cons_self List.mem_cons_self
    · exact (List.nodup_cons.mp second.distinct).1 child
    · exact apart (List.mem_cons_of_mem _ sibling) List.mem_cons_self
  · intro p member
    rw [List.mem_cons,List.mem_append] at member
    rw [List.mem_append]
    rcases member with rfl | child | sibling
    · exact .inl (fromI List.mem_cons_self)
    · exact .inr (fromJ (List.mem_cons_of_mem _ child))
    · exact .inl (fromI (List.mem_cons_of_mem _ sibling))
  · exact fun p member => List.mem_append_right _ (fromJ (List.mem_singleton.mp member ▸ List.mem_cons_self))

-- The surgery on a whole memory of disjoint circular lists, at any of their nodes.
theorem circular_surgery (forms : Forms l lists) :
    (∀ i j node₁ node₂ before₁ after₁ before₂ after₂, i ≠ j → lists i = before₁++node₁::after₁ →
    lists j = before₂++node₂::after₂ →
      (mergeList l (some node₁) (some node₂)).1 = some node₁ ∧
      Untouched l (mergeList l (some node₁) (some node₂)).2 (lists i++lists j) ∧
      Forms (mergeList l (some node₁) (some node₂)).2
        (Function.update (Function.update lists j []) i (node₁::(node₂::(after₂++before₂)++(after₁++before₁))))) ∧
    (∀ i node before after, lists i = before++node::after →
      (detachFromList l node).1 = (after++before).getLast? ∧
      Untouched l (detachFromList l node).2 (lists i) ∧
      Forms (detachFromList l node).2 (Function.update (Function.update (CircularList.spare lists) none [node])
          (some i) (before++after))) ∧
    (∀ i j root this before₁ after₁ before₂ after₂, i ≠ j → lists i = before₁++root::after₁ →
    lists j = before₂++this::after₂ →
      (∀ fuel, (lists j).length ≤ fuel → forInList l this fuel (l.next this) = after₂++before₂++[this]) ∧
      Untouched l (exitSplice l root this) (lists i++lists j) ∧
      Forms (exitSplice l root this)
        (Function.update (Function.update lists j [this]) i (root::((after₂++before₂)++(after₁++before₁))))) := by
  refine ⟨?_,?_,?_⟩
  · intro i j node₁ node₂ before₁ after₁ before₂ after₂ different splitI splitJ
    exact ⟨rfl,forms.merge different splitI splitJ⟩
  · intro i node before after split
    exact ⟨((forms.circle i).from_node split).detachFromList_returns,forms.detach split⟩
  · intro i j root this before₁ after₁ before₂ after₂ different splitI splitJ
    have ring := (forms.circle j).from_node splitJ
    refine ⟨?_,forms.splice different splitI splitJ⟩
    intro fuel enough
    refine ring.linked.walked (List.nodup_cons.mp ring.distinct).1 fuel ?_
    rw [← (perm_from splitJ).length_eq] at enough
    exact enough

-- Two nodes and three nodes, joined behind the second of the one at the second of the other.
def twoLists : Bool → List (Fin 5)
  | false => [0,1]
  | true => [2,3,4]

def twoRings : Links (Fin 5) := {prev := ![1,0,4,2,3],next := ![1,0,3,4,2]}

theorem twoRings_forms : Forms twoRings twoLists := by
  refine ⟨?_,?_⟩
  · rintro (_ | _)
    · exact ⟨by decide,⟨rfl,rfl⟩,rfl,rfl⟩
    · exact ⟨by decide,⟨rfl,rfl⟩,⟨rfl,rfl⟩,rfl,rfl⟩
  · rintro (_ | _) (_ | _) different p inside other
    · exact different rfl
    · revert p; decide
    · revert p; decide
    · exact different rfl

theorem circular_surgery_joined : (mergeList twoRings (some 1) (some 3)).1 = some 1 ∧
    Forms (mergeList twoRings (some 1) (some 3)).2 (Function.update (Function.update twoLists true []) false [1,3,4,2,0]) := by
  have joined := (circular_surgery twoRings_forms).1 false true 1 3 [0] [] [2] [4] (by decide) rfl rfl
  exact ⟨joined.1,joined.2.2⟩

end Surgery
end CircularList
