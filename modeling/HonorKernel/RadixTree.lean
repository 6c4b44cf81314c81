import Mathlib.Data.List.Basic
import Mathlib.Data.List.Induction
import Mathlib.Data.List.Nodup
import Mathlib.Logic.Function.Basic

-- A tree that is laid out in memory: `child` tells which node an index of a node points
-- to. A node is addressed by the indices on the way from the root.
namespace RadixTree
variable {P I : Type*} {child child' : P → I → Option P} {root p q : P} {way way' : List I} {i : I} {depth : Nat}

def node (child : P → I → Option P) (root : P) (way : List I) : Option P :=
  way.foldl (fun here i => here.bind fun p => child p i) (some root)

@[simp] theorem node_nil : node child root [] = some root := rfl

theorem node_snoc (way : List I) (i : I) :
    node child root (way++[i]) = (node child root way).bind fun p => child p i := by
  simp [node]

theorem node_cons (i : I) (way : List I) :
    node child root (i::way) = (child root i).bind fun p => node child p way := by
  induction way using List.reverseRecOn with
  | nil => cases found : child root i <;> simp [node,found]
  | append_singleton way j ih =>
    rw [← List.cons_append,node_snoc,ih]
    cases child root i with
    | none => rfl
    | some p => simp only [Option.bind_some,node_snoc]

-- No two nodes down to `depth` are the same.
def Distinct (child : P → I → Option P) (root : P) (depth : Nat) : Prop :=
  ∀ way way' p, way.length ≤ depth → way'.length ≤ depth → node child root way = some p → node child root way' = some p → way = way'

theorem node_frame (same : ∀ way p, way.length < depth → node child root way = some p → ∀ i, child' p i = child p i)
    (short : way.length ≤ depth) : node child' root way = node child root way := by
  induction way using List.reverseRecOn with
  | nil => rfl
  | append_singleton way i ih =>
    rw [List.length_append,List.length_singleton] at short
    rw [node_snoc,node_snoc,ih (by omega)]
    cases found : node child root way with
    | none => rfl
    | some p => exact same way p (by omega) found i

theorem node_prefix (found : node child root (way++way') = some q) : ∃ p, node child root way = some p := by
  induction way' using List.reverseRecOn generalizing q with
  | nil => exact ⟨q,by simpa using found⟩
  | append_singleton way' i ih =>
    rw [← List.append_assoc,node_snoc] at found
    obtain ⟨p,above,_⟩ := Option.bind_eq_some_iff.mp found
    exact ih above

-- A new node without children under the index `i` of the node at `way`: nothing else in
-- the tree changes.
theorem node_graft [DecidableEq I] (distinct : Distinct child root depth) (above : node child root way = some p)
    (short : way.length < depth) (vacant : child p i = none) (linked : child' p i = some q)
    (beside : ∀ j, j ≠ i → child' p j = child p j) (bare : ∀ j, child' q j = none)
    (rest : ∀ other x, other.length < depth → node child root other = some x → x ≠ p → ∀ j, child' x j = child x j)
    {other : List I} (within : other.length ≤ depth) :
    node child' root other = if other = way++[i] then some q else node child root other := by
  induction other using List.reverseRecOn with
  | nil => rw [if_neg (by simp)]; rfl
  | append_singleton other j ih =>
    rw [List.length_append,List.length_singleton] at within
    rw [node_snoc,ih (by omega)]
    by_cases here : other = way++[i]
    · have below : node child root (other++[j]) = none := by
        rw [node_snoc,here,node_snoc,above]
        simp [vacant]
      have longer : other++[j] ≠ way++[i] := by
        intro same
        have lengths := congrArg List.length same
        rw [here] at lengths
        simp at lengths
      rw [if_pos here,if_neg longer,below]
      exact bare j
    · rw [if_neg here,node_snoc]
      cases found : node child root other with
      | none =>
        have elsewhere : other++[j] ≠ way++[i] := by
          intro same
          obtain ⟨equal,_⟩ := List.append_inj' same rfl
          rw [equal,above] at found
          cases found
        rw [if_neg elsewhere]
        rfl
      | some x =>
        simp only [Option.bind_some]
        by_cases same : x = p
        · subst same
          have equal := distinct _ _ _ (by omega) (by omega) found above
          subst equal
          by_cases index : j = i
          · subst index
            rw [if_pos rfl,linked]
          · rw [if_neg (by simpa using index),beside j index]
        · have elsewhere : other++[j] ≠ way++[i] := by
            intro equal
            obtain ⟨equal,_⟩ := List.append_inj' equal rfl
            rw [equal,above] at found
            exact same (Option.some.inj found).symm
          rw [if_neg elsewhere,rest other x (by omega) found same j]

-- The nodes below `p`, children before their parents.
def postorder (indices : List I) (child : P → I → Option P) : Nat → P → List P
  | 0,p => [p]
  | depth+1,p => (indices.filterMap (child p)).flatMap (postorder indices child depth)++[p]

theorem mem_postorder {indices : List I} (all : ∀ i, i ∈ indices) : q ∈ postorder indices child depth p ↔
    ∃ way, way.length ≤ depth ∧ node child p way = some q := by
  induction depth generalizing p with
  | zero =>
    simp only [postorder,List.mem_singleton,Nat.le_zero,List.length_eq_zero_iff,exists_eq_left,node_nil,Option.some.injEq]
    exact eq_comm
  | succ depth ih =>
    simp only [postorder,List.mem_append,List.mem_flatMap,List.mem_filterMap,List.mem_singleton,ih]
    constructor
    · rintro (⟨x,⟨i,_,below⟩,way,short,found⟩ | rfl)
      · refine ⟨i::way,by rw [List.length_cons]; omega,?_⟩
        rw [node_cons,below]
        exact found
      · exact ⟨[],Nat.zero_le _,rfl⟩
    · rintro ⟨way,short,found⟩
      cases way with
      | nil => exact .inr (Option.some.inj found).symm
      | cons i way =>
        rw [node_cons] at found
        obtain ⟨x,below,found⟩ := Option.bind_eq_some_iff.mp found
        rw [List.length_cons] at short
        exact .inl ⟨x,⟨i,all i,below⟩,way,by omega,found⟩

theorem Distinct.below (distinct : Distinct child p (depth+1)) (below : child p i = some q) :
    Distinct child q depth := by
  intro way way' x short short' found found'
  have step : ∀ way, node child p (i::way) = node child q way := fun way => by rw [node_cons,below]; rfl
  have ways := distinct (i::way) (i::way') x (by rw [List.length_cons]; omega) (by rw [List.length_cons]; omega)
    ((step way).trans found) ((step way').trans found')
  exact (List.cons.inj ways).2

theorem postorder_nodup {indices : List I} (all : ∀ i, i ∈ indices) (nodup : indices.Nodup)
    (distinct : Distinct child p depth) :
    (postorder indices child depth p).Nodup := by
  induction depth generalizing p with
  | zero => exact List.nodup_singleton p
  | succ depth ih =>
    have reach : ∀ i x y way, child p i = some x → node child x way = some y → node child p (i::way) = some y := by
      intro i x y way below found
      rw [node_cons,below]
      exact found
    -- Two children of `p` are nodes of the tree themselves.
    have apart : ∀ i x j y, child p i = some x → child p j = some y → ∀ z, z ∈ postorder indices child depth x →
        z ∈ postorder indices child depth y → i = j := by
      intro i x j y below below' z one two
      obtain ⟨way,short,found⟩ := (mem_postorder all).mp one
      obtain ⟨way',short',found'⟩ := (mem_postorder all).mp two
      have ways := distinct (i::way) (j::way') z (by rw [List.length_cons]; omega) (by rw [List.length_cons]; omega)
        (reach i x z way below found) (reach j y z way' below' found')
      exact (List.cons.inj ways).1
    have self : ∀ x, x ∈ postorder indices child depth x := fun x => (mem_postorder all).mpr ⟨[],Nat.zero_le _,rfl⟩
    rw [postorder,List.nodup_append]
    refine ⟨List.nodup_flatMap.mpr ⟨?_,?_⟩,List.nodup_singleton p,?_⟩
    · intro x member
      obtain ⟨i,_,below⟩ := List.mem_filterMap.mp member
      exact ih (distinct.below below)
    · refine (List.pairwise_filterMap.mpr (nodup.imp_of_mem ?_))
      intro i j _ _ different x below y below' z one two
      exact different (apart i x j y below below' z one two)
    · rintro x member y single rfl
      rw [List.mem_singleton] at single
      subst single
      obtain ⟨q,child_q,inside⟩ := List.mem_flatMap.mp member
      obtain ⟨i,_,below⟩ := List.mem_filterMap.mp child_q
      obtain ⟨way,short,found⟩ := (mem_postorder all).mp inside
      have ways := distinct (i::way) [] x (by rw [List.length_cons]; omega) (Nat.zero_le _) (reach i q x way below found) rfl
      cases ways

end RadixTree
