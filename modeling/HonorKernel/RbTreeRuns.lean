import HonorKernel.RbTreeSearch
import HonorKernel.RbTreeUnlink
import Mathlib.Data.Finset.Card

namespace RbTree
open RedBlack RedBlack.ColorTree

inductive Action where
  | insert (node : Nat)
  | erase (node : Nat)

def step (cmp : Nat → Nat → Bool) (fuel : Nat) (s : State) : Action → Except Fault (Int × State)
  | .insert n => rbInsert cmp fuel s n
  | .erase n => do
    let s ← rbErase fuel s n
    .ok (0,s)

def run (cmp : Nat → Nat → Bool) (fuel : Nat) : State → List Action → Except Fault (List Int × State)
  | s,[] => .ok ([],s)
  | s,a::rest => do
    let (result,s) ← step cmp fuel s a
    let (results,s) ← run cmp fuel s rest
    .ok (result::results,s)

instance (cmp : Nat → Nat → Bool) (a b : Nat) : Decidable (Equal cmp a b) :=
  inferInstanceAs (Decidable (cmp a b = false ∧ cmp b a = false))

-- What the tree is for: a set of nodes, no two of them equal.
def present (cmp : Nat → Nat → Bool) (nodes : Finset Nat) : Action → Int × Finset Nat
  | .insert n => if ∃ e ∈ nodes, Equal cmp n e then (-1,nodes) else (0,insert n nodes)
  | .erase n => (0,nodes.erase n)

def outcome (cmp : Nat → Nat → Bool) : Finset Nat → List Action → List Int × Finset Nat
  | nodes,[] => ([],nodes)
  | nodes,a::rest =>
    let (result,nodes) := present cmp nodes a
    let (results,nodes) := outcome cmp nodes rest
    (result::results,nodes)

-- Nodes are inserted while they are out of the tree and erased while they are in it.
def Fits (nodes : Finset Nat) : Action → Prop
  | .insert n => Place n ∧ n ∉ nodes
  | .erase n => n ∈ nodes

def Usable (cmp : Nat → Nat → Bool) : Finset Nat → List Action → Prop
  | _,[] => True
  | nodes,a::rest => Fits nodes a ∧ Usable cmp (present cmp nodes a).2 rest

-- A red-black search tree of these nodes, and what a call on it does.
structure Sound (cmp : Nat → Nat → Bool) (s : State) (nodes : Finset Nat) : Prop where
  tree : ∃ t, Holds s [] t ∧ Search (less cmp) t ∧ Proper t ∧ t.inorder.toFinset = nodes
  equal : ∀ n fuel, Place n → n ∉ nodes → nodes.card+1 < fuel → (∃ e ∈ nodes, Equal cmp n e) →
    ∃ s', rbInsert cmp fuel s n = .ok (-1,s') ∧ s'.root = s.root ∧ ∀ a ∈ nodes, s'.node a = s.node a
  lookup : ∀ n fuel, nodes.card < fuel → ∃ e, rbLookup cmp fuel s n s.root = .ok e ∧
    ((e = 0 ∧ ∀ x ∈ nodes, ¬ Equal cmp n x) ∨ (e ∈ nodes ∧ ∀ x ∈ nodes, Equal cmp n x ↔ x = e))
  first : ∀ fuel, nodes.card < fuel → ∃ m, rbFirst fuel s = .ok m ∧
    ((m = 0 ∧ nodes = ∅) ∨ (m ∈ nodes ∧ ∀ x ∈ nodes, x ≠ m → cmp m x = true))

theorem present_card (cmp : Nat → Nat → Bool) (nodes : Finset Nat) (a : Action) :
    (present cmp nodes a).2.card ≤ nodes.card+1 := by
  cases a with
  | insert n =>
    simp only [present]
    split
    · exact Nat.le_succ _
    · exact Finset.card_insert_le ..
  | erase n => exact Nat.le_succ_of_le (Finset.card_erase_le ..)

section Soundness
variable {cmp : Nat → Nat → Bool} [IsStrictWeakOrder Nat (less cmp)] {s : State} {t : ColorTree Nat}
  {nodes : Finset Nat} {a : Action}

theorem Holds.card (holds : Holds s [] t) (same : t.inorder.toFinset = nodes) : nodes.card = t.inorder.length := by
  have distinct := holds.distinct
  rw [cells,List.append_nil] at distinct
  rw [← same,List.toFinset_card_of_nodup distinct]

theorem sound_of_tree (holds : Holds s [] t) (search : Search (less cmp) t) (proper : Proper t)
    (same : t.inorder.toFinset = nodes) :
    Sound cmp s nodes := by
  have size := holds.card same
  have mem : ∀ x, x ∈ nodes ↔ x ∈ t.inorder := by
    intro x
    rw [← same,List.mem_toFinset]
  have root : s.root = addr t := holds.around
  refine ⟨⟨t,holds,search,proper,same⟩,?_,?_,?_⟩
  · rintro n fuel place fresh enough ⟨e,member,equal⟩
    rcases rbInsert_spec fuel holds proper search place (fun here => fresh ((mem n).mpr here)) (by omega) with
      ⟨_,s',ran,_,kept,rest⟩ | ⟨none,_⟩
    · refine ⟨s',ran,kept,?_⟩
      intro b here
      exact rest b fun own => fresh (own ▸ here)
    · exact absurd equal (none e ((mem e).mp member))
  · intro n fuel enough
    obtain ⟨e,ran,found⟩ := rbLookup_spec (n := n) fuel holds.rep (fun b here => holds.places b (by simp [here])) search (by omega)
    refine ⟨e,by rw [root]; exact ran,?_⟩
    rcases found with ⟨null,none⟩ | ⟨here,equal⟩
    · exact .inl ⟨null,fun x member => none x ((mem x).mp member)⟩
    · refine .inr ⟨(mem e).mpr here,?_⟩
      intro x member
      constructor
      · intro other
        exact Search.equal_unique search ((mem x).mp member) here other equal
      · intro own
        rw [own]
        exact equal
  · intro fuel enough
    obtain ⟨m,ran,found⟩ := rbFirst_spec fuel holds search (by omega)
    refine ⟨m,ran,?_⟩
    rcases found with ⟨null,empty⟩ | ⟨here,least⟩
    · refine .inl ⟨null,?_⟩
      rw [← same,empty]
      rfl
    · exact .inr ⟨(mem m).mpr here,fun x member => least x ((mem x).mp member)⟩

theorem sound_empty (node : Nat → Node) : Sound cmp (empty node) ∅ :=
  sound_of_tree (t := .leaf) ⟨rfl,trivial,by simp [inorder,cells],by simp [inorder,cells]⟩ List.Pairwise.nil proper_leaf rfl

theorem step_sound (fuel : Nat) (sound : Sound cmp s nodes) (fits : Fits nodes a) (enough : nodes.card+1 < fuel) :
    ∃ s', step cmp fuel s a = .ok ((present cmp nodes a).1,s') ∧ Sound cmp s' (present cmp nodes a).2 := by
  obtain ⟨t,holds,search,proper,same⟩ := sound.tree
  have size := holds.card same
  have mem : ∀ x, x ∈ nodes ↔ x ∈ t.inorder := by
    intro x
    rw [← same,List.mem_toFinset]
  cases a with
  | insert n =>
    obtain ⟨place,fresh⟩ := fits
    rcases rbInsert_spec fuel holds proper search place (fun here => fresh ((mem n).mpr here)) (by omega) with
      ⟨⟨e,member,equal⟩,s',ran,holds',_⟩ | ⟨none,s',t',ran,holds',proper',search',perm⟩
    · have found : present cmp nodes (.insert n) = (-1,nodes) := if_pos ⟨e,(mem e).mpr member,equal⟩
      rw [found]
      exact ⟨s',ran,sound_of_tree holds' search proper same⟩
    · have missing : present cmp nodes (.insert n) = (0,insert n nodes) :=
        if_neg fun found => none _ ((mem _).mp found.choose_spec.1) found.choose_spec.2
      rw [missing]
      refine ⟨s',ran,sound_of_tree holds' search' proper' ?_⟩
      rw [List.toFinset_eq_of_perm _ _ perm,List.toFinset_cons,same]
  | erase n =>
    obtain ⟨s',t',ran,holds',proper',order⟩ := rbErase_spec fuel holds proper ((mem n).mp fits) (by omega)
    refine ⟨s',?_,sound_of_tree holds' ?_ proper' ?_⟩
    · simp only [step,ran,bind,Except.bind,present]
    · unfold Search
      rw [order]
      exact search.sublist (List.erase_sublist ..)
    · have distinct := holds.distinct
      rw [cells,List.append_nil] at distinct
      ext x
      rw [order,List.mem_toFinset,distinct.mem_erase_iff]
      simp only [present,Finset.mem_erase,mem]

theorem run_sound (fuel : Nat) (actions : List Action) (sound : Sound cmp s nodes) (usable : Usable cmp nodes actions)
    (enough : nodes.card+actions.length+1 < fuel) :
    ∃ s', run cmp fuel s actions = .ok ((outcome cmp nodes actions).1,s') ∧
    Sound cmp s' (outcome cmp nodes actions).2 := by
  induction actions generalizing s nodes with
  | nil => exact ⟨s,rfl,sound⟩
  | cons a rest ih =>
    obtain ⟨s₁,one,sound₁⟩ := step_sound fuel sound usable.1 (by simp only [List.length_cons] at enough; omega)
    have smaller := present_card cmp nodes a
    obtain ⟨s₂,two,sound₂⟩ := ih sound₁ usable.2 (by simp only [List.length_cons] at enough; omega)
    refine ⟨s₂,?_,sound₂⟩
    simp only [run,one,two,bind,Except.bind,outcome]

variable (cmp) in
theorem rbtree_sound (node : Nat → Node) (actions : List Action) (usable : Usable cmp ∅ actions) (fuel : Nat)
    (enough : actions.length+1 < fuel) :
    ∃ s, run cmp fuel (empty node) actions = .ok ((outcome cmp ∅ actions).1,s) ∧
    Sound cmp s (outcome cmp ∅ actions).2 :=
  run_sound fuel actions (sound_empty node) usable (by simpa using enough)

end Soundness

section Orders
variable {cmp cmp' : Nat → Nat → Bool} {s : State} {t : ColorTree Nat} {nodes : Finset Nat} {n parent : Nat}

theorem rbDescend_congr (fuel : Nat) (rep : Rep s parent t) (agree : ∀ a ∈ t.inorder, cmp n a = cmp' n a ∧
    cmp a n = cmp' a n) :
    rbDescend cmp fuel s n (addr t) = rbDescend cmp' fuel s n (addr t) := by
  have out : ∀ (fuel : Nat) (s : State), rbDescend cmp fuel s n 0 = rbDescend cmp' fuel s n 0 := by
    intro fuel s
    cases fuel with
    | zero => rfl
    | succ fuel => exact (if_pos rfl).trans (if_pos rfl).symm
  induction t generalizing fuel parent with
  | leaf => exact out fuel s
  | node c l a r left right =>
    cases fuel with
    | zero => rfl
    | succ fuel =>
      obtain ⟨atA,repL,repR⟩ := rep
      obtain ⟨before,behind⟩ := agree a (by simp [inorder])
      have left := left fuel repL fun b member => agree b (by simp [inorder,member])
      have right := right fuel repR fun b member => agree b (by simp [inorder,member])
      unfold rbDescend addr
      simp only [atA,before,behind,left,right]
      by_cases noLeft : addr l = 0 <;> by_cases noRight : addr r = 0 <;> simp only [noLeft,noRight,if_true,if_false,out]

theorem rbInsert_congr (fuel : Nat) (holds : Holds s [] t) (fresh : n ∉ t.inorder)
    (agree : ∀ a ∈ t.inorder, cmp n a = cmp' n a ∧ cmp a n = cmp' a n) :
    rbInsert cmp fuel s n = rbInsert cmp' fuel s n := by
  unfold rbInsert State.write
  by_cases null : n = 0
  · rw [if_pos null]
    rfl
  · rw [if_neg null]
    have holds₁ : Holds (s.put n fun _ => ⟨0,0,0⟩) [] t := holds.reset (by simpa [cells] using fresh) _
    have root : (s.put n fun _ => ⟨0,0,0⟩).root = addr t := holds₁.around
    simp only [bind,Except.bind,root,rbDescend_congr fuel holds₁.rep agree]

theorem Sound.reorder [IsStrictWeakOrder Nat (less cmp')] (sound : Sound cmp s nodes)
    (agree : ∀ a ∈ nodes, ∀ b ∈ nodes, cmp a b = cmp' a b) : Sound cmp' s nodes := by
  obtain ⟨t,holds,search,proper,same⟩ := sound.tree
  have member : ∀ a ∈ t.inorder, a ∈ nodes := fun a here => by rw [← same,List.mem_toFinset]; exact here
  refine sound_of_tree holds (search.imp_of_mem ?_) proper same
  intro a b here there before
  exact (agree a (member a here) b (member b there)).symm.trans before

end Orders

-- Nodes that compare by their addresses.
def byAddress (a b : Nat) : Bool := decide (a < b)

instance : IsStrictWeakOrder Nat (less byAddress) where
  irrefl a := by simp [less,byAddress]
  trans a b c one two := by
    simp only [less,byAddress,decide_eq_true_eq] at one two ⊢
    omega
  incomp_trans a b c one two := by
    simp only [less,byAddress,decide_eq_true_eq] at one two ⊢
    omega

theorem rbtree_sound_of_erase : ∃ s, run byAddress 9 (empty fun _ => ⟨0,0,0⟩)
    [.insert 32,.insert 16,.insert 48,.insert 8,.erase 32,.erase 48] = .ok ([0,0,0,0,0,0],s) ∧
    Sound byAddress s {8,16} := by
  have usable : Usable byAddress ∅ [.insert 32,.insert 16,.insert 48,.insert 8,.erase 32,.erase 48] := by
    refine ⟨⟨⟨by decide,by decide⟩,by decide⟩,⟨⟨by decide,by decide⟩,by decide⟩,⟨⟨by decide,by decide⟩,by decide⟩,
      ⟨⟨by decide,by decide⟩,by decide⟩,?_,?_,trivial⟩
    · change 32 ∈ _
      decide
    · change 48 ∈ _
      decide
  exact rbtree_sound byAddress (fun _ => ⟨0,0,0⟩) _ usable 9 (by decide)

-- _rb_insert resets the links of its node before it looks for an equal one: a node that is
-- in the tree loses what hangs below it, although the call fails.
theorem insert_of_member_loses : ∃ s s', run byAddress 9 (empty fun _ => ⟨0,0,0⟩)
    [.insert 8,.insert 16] = .ok ([0,0],s) ∧
    rbInsert byAddress 9 s 8 = .ok (-1,s') ∧ s'.node 8 ≠ s.node 8 ∧
    rbLookup byAddress 9 s 16 s.root = .ok 16 ∧ rbLookup byAddress 9 s' 16 s'.root = .ok 0 := by
  obtain ⟨⟨⟨results,s⟩,result,s'⟩,ran,facts⟩ := Runs.ok_such
    (x := do
      let r ← run byAddress 9 (empty fun _ => ⟨0,0,0⟩) [.insert 8,.insert 16]
      let i ← rbInsert byAddress 9 r.2 8
      Except.ok (r,i))
    (p := fun (r,i) => decide (r.1 = [0,0] ∧ i.1 = -1 ∧ i.2.node 8 ≠ r.2.node 8 ∧ rbLookup byAddress 9 r.2 16 r.2.root = .ok 16 ∧
      rbLookup byAddress 9 i.2 16 i.2.root = .ok 0)) (by decide +kernel)
  obtain ⟨r,one,rest⟩ := Runs.bind_ok.mp ran
  obtain ⟨i,two,last⟩ := Runs.bind_ok.mp rest
  cases last
  obtain ⟨rfl,rfl,changed,before,after⟩ := of_decide_eq_true facts
  exact ⟨s,s',one,two,changed,before,after⟩

end RbTree
