import HonorKernel.RbTreeInsert

namespace RbTree
open RedBlack RedBlack.ColorTree

section Searching
variable {s : State} {k : List (Frame Nat)} {t : ColorTree Nat} {cmp : Nat → Nat → Bool} {c : Color} {side : Side}
  {far : ColorTree Nat} {a n : Nat}

def less (cmp : Nat → Nat → Bool) (a b : Nat) : Prop := cmp a b = true

-- Incomparable nodes are equal.
def Equal (cmp : Nat → Nat → Bool) (a b : Nat) : Prop := cmp a b = false ∧ cmp b a = false

def Between (cmp : Nat → Nat → Bool) (n : Nat) (k : List (Frame Nat)) : Prop := (∀ x ∈ before k, less cmp x n) ∧ ∀ y ∈ after k, less cmp n y

-- parent->rb_left = node; node->__rb_parent_color = (unsigned long)parent, or the same on the right
def hang (s : State) (a : Nat) (side : Side) (n : Nat) : State :=
  (s.put a fun m => m.setChild side n).put n (reword a)

theorem hang_holds (holds : Holds s (⟨side,c,a,far⟩::k) .leaf) (fresh : n ∉ cells (⟨side,c,a,far⟩::k)) (place : Place n)
    (zero : s.node n = ⟨0,0,0⟩) : Holds (hang s a side n) (⟨side,c,a,far⟩::k) (.node .red .leaf n .leaf) := by
  have distinct := holds.distinct
  simp only [cells,inorder,List.nil_append,List.nodup_append,List.nodup_cons] at distinct
  obtain ⟨atA,repF,around⟩ := holds.around
  have away : n ≠ a ∧ n ∉ far.inorder ∧ n ∉ cells k := by simpa [cells] using fresh
  simp only at atA repF around
  refine ⟨⟨?_,(repF.put (by grind)).put away.2.1,(around.put ?_).put away.2.2⟩,⟨?_,trivial,trivial⟩,?_,?_⟩
  · unfold hang
    rw [put_other (Ne.symm away.1),put_same,atA,link_setChild]
    rfl
  · intro member
    exact distinct.2.2 a List.mem_cons_self a member rfl
  · unfold hang
    rw [put_same,put_other away.1,zero,above_cons,word_red]
    rfl
  · simp only [inorder,List.nil_append,List.singleton_append,List.nodup_cons]
    exact ⟨fresh,holds.distinct⟩
  · intro b member
    simp only [inorder,List.nil_append,List.singleton_append,List.mem_cons] at member
    rcases member with rfl | member
    · exact place
    · exact holds.places b member

theorem rbDescend_out {fuel : Nat} (enough : 0 < fuel) : rbDescend cmp fuel s n 0 = .ok (true,s) := by
  obtain ⟨fuel,rfl⟩ : ∃ f, fuel = f+1 := Nat.exists_eq_succ_of_ne_zero (by omega)
  exact if_pos rfl

theorem Between.apart (between : Between cmp n k) (member : e ∈ (plug k .leaf).inorder) :
    less cmp n e ∨ less cmp e n := by
  rw [inorder_plug] at member
  simp only [inorder,List.append_nil,List.mem_append] at member
  rcases member with low | high
  · exact .inr (between.1 e low)
  · exact .inl (between.2 e high)

theorem Holds.reset (holds : Holds s k t) (fresh : n ∉ t.inorder++cells k) (f : Node → Node) :
    Holds (s.put n f) k t := by
  rw [List.mem_append,not_or] at fresh
  exact holds.same (holds.around.put fresh.2) (holds.rep.put fresh.1) rfl

variable [IsStrictWeakOrder Nat (less cmp)]

theorem less_trans {a b c : Nat} (one : less cmp a b) (two : less cmp b c) : less cmp a c := IsTrans.trans a b c one two

-- The way down to where the node belongs, left or right of each node on it.
theorem Between.left {l r : ColorTree Nat} (between : Between cmp n k) (search : Search (less cmp) (.node c l a r))
    (low : less cmp n a) :
    Between cmp n (⟨.left,c,a,r⟩::k) := by
  obtain ⟨_,_,_,above⟩ := search.parts
  refine ⟨between.1,?_⟩
  intro y member
  simp only [after,List.cons_append,List.mem_cons,List.mem_append] at member
  rcases member with rfl | inside | outside
  · exact low
  · exact less_trans low (above y inside)
  · exact between.2 y outside

theorem Between.right {l r : ColorTree Nat} (between : Between cmp n k) (search : Search (less cmp) (.node c l a r))
    (high : less cmp a n) :
    Between cmp n (⟨.right,c,a,l⟩::k) := by
  obtain ⟨_,_,below,_⟩ := search.parts
  refine ⟨?_,between.2⟩
  intro x member
  simp only [before,List.mem_append,List.mem_singleton] at member
  rcases member with (outside | inside) | rfl
  · exact between.1 x outside
  · exact less_trans (below x inside) high
  · exact high

theorem rbDescend_spec (fuel : Nat) (holds : Holds s k t) (filled : t ≠ .leaf) (search : Search (less cmp) t)
    (between : Between cmp n k) (enough : t.inorder.length < fuel) (fresh : n ∉ t.inorder++cells k) (place : Place n)
    (zero : s.node n = ⟨0,0,0⟩) :
    (∃ e ∈ t.inorder, Equal cmp n e ∧ rbDescend cmp fuel s n (addr t) = .ok (false,s)) ∨
    ∃ s' k', rbDescend cmp fuel s n (addr t) = .ok (true,s') ∧ plug k' .leaf = plug k t ∧ Between cmp n k' ∧
      Holds s' k' (.node .red .leaf n .leaf) := by
  induction t generalizing k fuel with
  | leaf => exact absurd rfl filled
  | node c l a r left right =>
    have real : a ≠ 0 := (holds.places a (by simp [inorder])).1
    have realN : n ≠ 0 := place.1
    have atA : s.node a = ⟨above k ||| bit c,addr r,addr l⟩ := holds.rep.1
    obtain ⟨searchL,searchR,_⟩ := search.parts
    obtain ⟨fuel,rfl⟩ : ∃ f, fuel = f+1 := Nat.exists_eq_succ_of_ne_zero (by omega)
    simp only [inorder,List.length_append,List.length_cons] at enough
    have placesL : ∀ b ∈ l.inorder, Place b := fun b member => holds.places b (by simp [inorder,member])
    have placesR : ∀ b ∈ r.inorder, Place b := fun b member => holds.places b (by simp [inorder,member])
    have holdsL : Holds s (⟨.left,c,a,r⟩::k) l := holds_cons.mpr holds
    have holdsR : Holds s (⟨.right,c,a,l⟩::k) r := holds_cons.mpr holds
    unfold rbDescend addr
    rw [if_neg real,atA]
    by_cases low : cmp n a = true
    · have fresh' : n ∉ l.inorder++cells (⟨.left,c,a,r⟩::k) := by
        simp only [inorder,cells,List.mem_append,List.mem_cons] at fresh ⊢
        tauto
      simp only [low,if_true]
      by_cases empty : l = .leaf
      · subst empty
        refine .inr ⟨hang s a .left n,_,?_,rfl,between.left search low,hang_holds holdsL (by simpa [inorder] using fresh') place zero⟩
        simp only [show addr .leaf = 0 from rfl,if_true,setChild_ok real,bind,Except.bind,write_ok realN]
        exact rbDescend_out (by omega)
      · have below : addr l ≠ 0 := fun null => empty ((addr_leaf placesL).mp null)
        simp only [below,if_false]
        rcases left fuel holdsL empty searchL (between.left search low) (by omega) fresh' with ⟨e,member,rest⟩ | found
        · exact .inl ⟨e,by simp [inorder,member],rest⟩
        · exact .inr found
    · have fresh' : n ∉ r.inorder++cells (⟨.right,c,a,l⟩::k) := by
        simp only [inorder,cells,List.mem_append,List.mem_cons] at fresh ⊢
        tauto
      simp only [low]
      by_cases high : cmp a n = true
      · simp only [high,if_true]
        by_cases empty : r = .leaf
        · subst empty
          refine .inr ⟨hang s a .right n,_,?_,rfl,between.right search high,hang_holds holdsR
              (by simpa [inorder] using fresh') place zero⟩
          simp only [show addr .leaf = 0 from rfl,if_true,setChild_ok real,bind,Except.bind,write_ok realN]
          exact rbDescend_out (by omega)
        · have below : addr r ≠ 0 := fun null => empty ((addr_leaf placesR).mp null)
          simp only [below,if_false]
          rcases right fuel holdsR empty searchR (between.right search high) (by omega) fresh' with ⟨e,member,rest⟩ | found
          · exact .inl ⟨e,by simp [inorder,member],rest⟩
          · exact .inr found
      · simp only [high]
        exact .inl ⟨a,by simp [inorder],⟨by simpa using low,by simpa using high⟩,rfl⟩

theorem rbInsert_spec (fuel : Nat) (holds : Holds s [] t) (proper : Proper t) (search : Search (less cmp) t)
    (place : Place n) (fresh : n ∉ t.inorder) (enough : t.inorder.length+1 < fuel) :
    ((∃ e ∈ t.inorder, Equal cmp n e) ∧ ∃ s', rbInsert cmp fuel s n = .ok (-1,s') ∧ Holds s' [] t ∧ s'.root = s.root ∧
      ∀ a, a ≠ n → s'.node a = s.node a) ∨
    ((∀ e ∈ t.inorder, ¬ Equal cmp n e) ∧ ∃ s' t', rbInsert cmp fuel s n = .ok (0,s') ∧ Holds s' [] t' ∧ Proper t' ∧
    Search (less cmp) t' ∧
      t'.inorder.Perm (n::t.inorder)) := by
  have realN := place.1
  have fresh' : n ∉ t.inorder++cells [] := by simpa [cells] using fresh
  have holds₁ := holds.reset fresh' fun _ => ⟨0,0,0⟩
  have zero : (s.put n fun _ => ⟨0,0,0⟩).node n = ⟨0,0,0⟩ := put_same ..
  have root : (s.put n fun _ => ⟨0,0,0⟩).root = addr t := holds₁.around
  unfold rbInsert
  simp only [write_ok realN,bind,Except.bind,root]
  by_cases empty : t = .leaf
  · subst empty
    -- The first node: the loop makes it the root.
    have rooted : Holds {s.put n (fun _ => ⟨0,0,0⟩) with root := n} [] (.node .red .leaf n .leaf) := by
      refine ⟨rfl,⟨zero,trivial,trivial⟩,by simp [inorder,cells],?_⟩
      intro a member
      have same : a = n := by simpa [inorder,cells] using member
      rw [same]
      exact place
    obtain ⟨s',t',ran,after,proper',order⟩ := rbInsertFix_spec fuel 0 rooted rfl trivial ⟨rfl,rfl,rfl,rfl⟩
        (by simp only [List.length_nil]; omega)
    refine .inr ⟨by simp [inorder],s',t',?_,after,proper',?_,by rw [order]; rfl⟩
    · simp only [addr,rbDescend_out (show 0 < fuel by omega),zero,if_true]
      obtain ⟨fuel,rfl⟩ : ∃ f, fuel = f+1 := Nat.exists_eq_succ_of_ne_zero (by omega)
      have swap : rbInsertFix (fuel+1) (s.put n fun _ => ⟨0,0,0⟩) n 0 = .ok s' := by
        rw [← ran]
        unfold rbInsertFix
        simp only [addr,above,if_true,rbSetParentColor,write_ok realN,bind,Except.bind]
        rfl
      rw [swap]
    · unfold Search
      rw [order]
      exact List.pairwise_singleton ..
  · rcases rbDescend_spec fuel holds₁ empty search ⟨by simp [before],by simp [after]⟩ (by omega) fresh' place zero with
      ⟨e,member,equal,ran⟩ | ⟨s',k',ran,same,between,holds'⟩
    · refine .inl ⟨⟨e,member,equal⟩,s.put n fun _ => ⟨0,0,0⟩,?_,holds₁,rfl,fun a other => put_other other⟩
      rw [ran]
      rfl
    · have none : ∀ e ∈ t.inorder, ¬ Equal cmp n e := by
        intro e member equal
        rw [show t = plug k' .leaf from same.symm] at member
        rcases between.apart member with low | high
        · exact absurd (equal.1.symm.trans low) (by decide)
        · exact absurd (equal.2.symm.trans high) (by decide)
      have length : k'.length ≤ t.inorder.length := by
        have sizes := (perm_plug k' .leaf).length_eq
        rw [same] at sizes
        simp only [inorder,List.nil_append] at sizes
        change t.inorder.length = _ at sizes
        rw [sizes]
        exact cells_length k'
      have properL : Proper (plug k' .leaf) := by
        rw [same]
        exact proper
      obtain ⟨h,hole,zeroH,_⟩ := properL.hole
      have zeroH : h = 0 := zeroH
      subst zeroH
      obtain ⟨s'',t',ran',after,proper',order⟩ := rbInsertFix_spec fuel 0 holds' rfl hole ⟨rfl,rfl,rfl,rfl⟩ (by omega)
      have word : (s'.node n).parentColor = above k' := by
        rw [holds'.rep.1]
        exact word_red _
      refine .inr ⟨none,s'',t',?_,after,proper',?_,?_⟩
      · rw [ran]
        simp only [if_true]
        rw [word]
        simp only [addr] at ran'
        rw [ran']
      · unfold Search
        rw [order]
        refine Search.insert .red ?_ between.1 between.2
        rw [same]
        exact search
      · rw [order,inorder_plug]
        have old : t.inorder = before k'++RedBlack.after k' := by
          rw [show t = plug k' .leaf from same.symm,inorder_plug]
          simp [inorder]
        rw [old]
        simp only [inorder,List.nil_append,List.append_assoc,List.singleton_append]
        exact List.perm_middle

theorem Equal.left {l r : ColorTree Nat} {e : Nat} (equal : Equal cmp n e)
    (search : Search (less cmp) (.node c l a r)) (low : less cmp n a)
    (member : e ∈ (ColorTree.node c l a r).inorder) : e ∈ l.inorder := by
  obtain ⟨_,_,_,above⟩ := search.parts
  rcases List.mem_append.mp member with here | here
  · exact here
  · have high : less cmp n e := by
      rcases List.mem_cons.mp here with rfl | here
      · exact low
      · exact less_trans low (above e here)
    exact absurd (equal.1.symm.trans high) (by decide)

theorem Equal.right {l r : ColorTree Nat} {e : Nat} (equal : Equal cmp n e)
    (search : Search (less cmp) (.node c l a r)) (high : less cmp a n)
    (member : e ∈ (ColorTree.node c l a r).inorder) : e ∈ r.inorder := by
  obtain ⟨_,_,below,_⟩ := search.parts
  rcases List.mem_append.mp member with here | here
  · have low : less cmp e n := less_trans (below e here) high
    exact absurd (equal.2.symm.trans low) (by decide)
  · rcases List.mem_cons.mp here with rfl | here
    · exact absurd (equal.2.symm.trans high) (by decide)
    · exact here

theorem rbLookup_spec {parent : Nat} (fuel : Nat) (rep : Rep s parent t) (places : ∀ a ∈ t.inorder, Place a)
    (search : Search (less cmp) t) (enough : t.inorder.length < fuel) : ∃ e, rbLookup cmp fuel s n (addr t) = .ok e ∧
      ((e = 0 ∧ ∀ x ∈ t.inorder, ¬ Equal cmp n x) ∨ (e ∈ t.inorder ∧ Equal cmp n e)) := by
  induction t generalizing parent fuel with
  | leaf =>
    obtain ⟨fuel,rfl⟩ : ∃ f, fuel = f+1 := Nat.exists_eq_succ_of_ne_zero (by omega)
    exact ⟨0,if_pos rfl,.inl ⟨rfl,by simp [inorder]⟩⟩
  | node c l a r left right =>
    obtain ⟨fuel,rfl⟩ : ∃ f, fuel = f+1 := Nat.exists_eq_succ_of_ne_zero (by omega)
    obtain ⟨atA,repL,repR⟩ := rep
    have real : a ≠ 0 := (places a (by simp [inorder])).1
    obtain ⟨searchL,searchR,_⟩ := search.parts
    simp only [inorder,List.length_append,List.length_cons] at enough
    unfold rbLookup addr
    simp only [real,if_false,atA]
    by_cases low : cmp n a = true
    · simp only [low,if_true]
      obtain ⟨e,ran,found⟩ := left fuel repL (fun b member => places b (by simp [inorder,member])) searchL (by omega)
      refine ⟨e,ran,?_⟩
      rcases found with ⟨null,none⟩ | ⟨member,equal⟩
      · exact .inl ⟨null,fun x member equal => none x (equal.left search low member) equal⟩
      · exact .inr ⟨by simp [inorder,member],equal⟩
    · simp only [low]
      by_cases high : cmp a n = true
      · simp only [high,if_true]
        obtain ⟨e,ran,found⟩ := right fuel repR (fun b member => places b (by simp [inorder,member])) searchR (by omega)
        refine ⟨e,ran,?_⟩
        rcases found with ⟨null,none⟩ | ⟨member,equal⟩
        · exact .inl ⟨null,fun x member equal => none x (equal.right search high member) equal⟩
        · exact .inr ⟨by simp [inorder,member],equal⟩
      · simp only [high]
        exact ⟨a,rfl,.inr ⟨by simp [inorder],by simpa using low,by simpa using high⟩⟩

theorem Search.equal_unique {e e' : Nat} (search : Search (less cmp) t) (here : e ∈ t.inorder) (there : e' ∈ t.inorder)
    (equal : Equal cmp n e) (equal' : Equal cmp n e') : e = e' := by
  have apart : ∀ {x y : Nat}, Equal cmp n x → Equal cmp n y → ¬ less cmp x y := by
    intro x y one two
    unfold less
    have across : ¬ less cmp x n ∧ ¬ less cmp n x → ¬ less cmp n y ∧ ¬ less cmp y n → ¬ less cmp x y ∧ ¬ less cmp y x :=
      IsStrictWeakOrder.incomp_trans x n y
    simp only [less,one.1,one.2,two.1,two.2] at across
    simpa using (across ⟨by simp,by simp⟩ ⟨by simp,by simp⟩).1
  by_contra different
  rcases List.pairwise_iff_getElem.mp search with ordered
  obtain ⟨i,hi,rfl⟩ := List.getElem_of_mem here
  obtain ⟨j,hj,rfl⟩ := List.getElem_of_mem there
  rcases Nat.lt_trichotomy i j with lower | same | higher
  · exact apart equal equal' (ordered i j hi hj lower)
  · subst same
    exact different rfl
  · exact apart equal' equal (ordered j i hj hi higher)

omit [IsStrictWeakOrder Nat (less cmp)] in
theorem rbLeftmost_spec {parent : Nat} (fuel : Nat) (rep : Rep s parent t) (places : ∀ a ∈ t.inorder, Place a)
    (filled : t ≠ .leaf) (enough : t.inorder.length < fuel) : ∃ m rest, rbLeftmost fuel s (addr t) = .ok m ∧
    t.inorder = m::rest := by
  induction t generalizing parent fuel with
  | leaf => exact absurd rfl filled
  | node c l a r left _ =>
    obtain ⟨fuel,rfl⟩ : ∃ f, fuel = f+1 := Nat.exists_eq_succ_of_ne_zero (by omega)
    obtain ⟨atA,repL,_⟩ := rep
    simp only [inorder,List.length_append,List.length_cons] at enough
    have placesL : ∀ b ∈ l.inorder, Place b := fun b member => places b (by simp [inorder,member])
    unfold rbLeftmost addr
    rw [atA]
    by_cases empty : l = .leaf
    · subst empty
      exact ⟨a,r.inorder,if_pos rfl,rfl⟩
    · have below : addr l ≠ 0 := fun null => empty ((addr_leaf placesL).mp null)
      obtain ⟨m,rest,ran,list⟩ := left fuel repL placesL empty (by omega)
      refine ⟨m,rest++a::r.inorder,?_,by simp [inorder,list]⟩
      simp only [below,if_false]
      exact ran

omit [IsStrictWeakOrder Nat (less cmp)] in
theorem rbFirst_spec (fuel : Nat) (holds : Holds s [] t) (search : Search (less cmp) t)
    (enough : t.inorder.length < fuel) :
    ∃ m, rbFirst fuel s = .ok m ∧
    ((m = 0 ∧ t.inorder = []) ∨ (m ∈ t.inorder ∧ ∀ x ∈ t.inorder, x ≠ m → less cmp m x)) := by
  have root : s.root = addr t := holds.around
  have places : ∀ a ∈ t.inorder, Place a := fun a member => holds.places a (List.mem_append_left _ member)
  unfold rbFirst
  by_cases empty : t = .leaf
  · subst empty
    exact ⟨0,if_pos root,.inl ⟨rfl,rfl⟩⟩
  · have real : addr t ≠ 0 := fun null => empty ((addr_leaf places).mp null)
    obtain ⟨m,rest,ran,list⟩ := rbLeftmost_spec fuel holds.rep places empty enough
    unfold Search at search
    rw [list] at search ⊢
    refine ⟨m,by rw [root,if_neg real]; exact ran,.inr ⟨List.mem_cons_self,?_⟩⟩
    intro x member other
    rcases List.mem_cons.mp member with same | later
    · exact absurd same other
    · exact (List.pairwise_cons.mp search).1 x later

end Searching

end RbTree
