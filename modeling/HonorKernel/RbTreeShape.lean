import HonorKernel.RbTree

namespace RbTree
open RedBlack RedBlack.ColorTree

-- struct rb_node_ is aligned to eight bytes.
def Place (a : Nat) : Prop := a ≠ 0 ∧ a%8 = 0

section Words
variable {p q : Nat} {c : Color}

theorem word_eq (aligned : p%4 = 0) (c : Color) : p ||| bit c = p+bit c := by
  have small : bit c < 2^2 := by cases c <;> decide
  have split : p = 2^2*(p/4) := by omega
  rw [split]
  exact (Nat.two_pow_add_eq_or_of_lt small (p/4)).symm

@[simp] theorem word_red (p : Nat) : p ||| bit .red = p := Nat.or_zero p

theorem rbParent_word (aligned : p%4 = 0) (c : Color) : rbParent (p ||| bit c) = p := by
  rw [word_eq aligned]
  unfold rbParent
  cases c <;> simp only [bit] <;> omega

theorem rbIsBlack_word (aligned : p%4 = 0) (c : Color) : rbIsBlack (p ||| bit c) = decide (c = .black) := by
  rw [word_eq aligned]
  unfold rbIsBlack
  rw [Nat.and_one_is_mod]
  cases c
  · simp only [bit]
    rw [show (p+0)%2 = 0 by omega]
    rfl
  · simp only [bit]
    rw [show (p+1)%2 = 1 by omega]
    rfl

theorem parentWord_word (aligned : p%4 = 0) (c : Color) (q : Nat) : (p ||| bit c) &&& 1 ||| q = q ||| bit c := by
  rw [word_eq aligned,Nat.and_one_is_mod,Nat.or_comm]
  congr 1
  cases c <;> simp only [bit] <;> omega

theorem Place.aligned (place : Place p) : p%4 = 0 := by
  have := place.2
  omega

end Words

-- The two links of a node, the one on `side` first.
def link : Side → Nat → Nat → Nat → Node
  | .left,pc,near,far => ⟨pc,far,near⟩
  | .right,pc,near,far => ⟨pc,near,far⟩

section Links
variable (side : Side) (pc near far p : Nat)

@[simp] theorem link_parentColor : (link side pc near far).parentColor = pc := by cases side <;> rfl
@[simp] theorem link_child : (link side pc near far).child side = near := by cases side <;> rfl
@[simp] theorem link_child_other : (link side pc near far).child side.other = far := by cases side <;> rfl
@[simp] theorem link_setChild : (link side pc near far).setChild side p = link side pc p far := by cases side <;> rfl
@[simp] theorem link_setChild_other : (link side pc near far).setChild side.other p = link side pc near p := by cases side <;> rfl
@[simp] theorem link_word : {link side pc near far with parentColor := p} = link side p near far := by cases side <;> rfl
@[simp] theorem link_paint (c : Color) : paintWord p c (link side pc near far) = link side (p ||| bit c) near far := by cases side <;> rfl
theorem link_sideOf (apart : near ≠ far) : (link side pc near far).sideOf near = side := by
  cases side
  · exact if_pos apart
  · exact if_neg fun other => other rfl
theorem link_other : link side.other pc near far = link side pc far near := by cases side <;> rfl

end Links

-- What a pointer to the tree holds.
def addr : ColorTree Nat → Nat
  | .leaf => 0
  | .node _ _ a _ => a

-- The memory holds the tree below a parent.
def Rep (s : State) : Nat → ColorTree Nat → Prop
  | _,.leaf => True
  | parent,.node c l a r => s.node a = ⟨parent ||| bit c,addr r,addr l⟩ ∧ Rep s a l ∧ Rep s a r

def above : List (Frame Nat) → Nat
  | [] => 0
  | f::_ => f.value

@[simp] theorem above_cons (f : Frame Nat) (k : List (Frame Nat)) : above (f::k) = f.value := rfl

-- The memory holds the way up to the root from a subtree with the address `a`.
def Around (s : State) : List (Frame Nat) → Nat → Prop
  | [],a => s.root = a
  | f::k,a => s.node f.value = link f.side (above k ||| bit f.color) a (addr f.sibling) ∧ Rep s f.value f.sibling ∧ Around s k f.value

section Frames
variable {s s' : State} {t : ColorTree Nat} {k : List (Frame Nat)} {a p parent : Nat} {side : Side} {c : Color}
  {f : Node → Node}

@[simp] theorem addr_join (side : Side) (c : Color) (near far : ColorTree Nat) (a : Nat) : addr (join side c near a far) = a := by
  cases side <;> rfl

@[simp] theorem addr_paint (c : Color) (t : ColorTree Nat) : addr (t.paint c) = addr t := by cases t <;> rfl

theorem addr_mem (filled : t ≠ .leaf) : addr t ∈ t.inorder := by
  cases t with
  | leaf => exact absurd rfl filled
  | node c l a r => simp [addr,inorder]

theorem addr_ne (outside : a ∉ t.inorder) (real : a ≠ 0) : a ≠ addr t := by
  cases t with
  | leaf => exact real
  | node c l b r =>
    intro same
    refine outside ?_
    rw [same]
    simp [addr,inorder]

theorem addr_outside {l : List Nat} (real : ∀ a ∈ l, a ≠ 0) (apart : ∀ a ∈ t.inorder, a ∉ l) : addr t ∉ l := by
  cases t with
  | leaf => exact fun member => real 0 member rfl
  | node c l b r => exact apart b (by simp [inorder])

theorem addr_leaf (places : ∀ a ∈ t.inorder, Place a) : addr t = 0 ↔ t = .leaf := by
  cases t with
  | leaf => simp [addr]
  | node c l b r =>
    have real := (places b (by simp [inorder])).1
    simpa [addr] using real

theorem rep_join (side : Side) (c : Color) (near far : ColorTree Nat) (a parent : Nat) :
    Rep s parent (join side c near a far) ↔
    s.node a = link side (parent ||| bit c) (addr near) (addr far) ∧ Rep s a near ∧ Rep s a far := by
  cases side
  · rfl
  · simp only [join,Rep,link]
    tauto

theorem Rep.frame (rep : Rep s parent t) (same : ∀ a ∈ t.inorder, s'.node a = s.node a) : Rep s' parent t := by
  induction t generalizing parent with
  | leaf => trivial
  | node c l a r left right =>
    obtain ⟨here,repL,repR⟩ := rep
    refine ⟨?_,left repL ?_,right repR ?_⟩
    · rw [same a (by simp [inorder])]
      exact here
    · intro b member
      exact same b (by simp [inorder,member])
    · intro b member
      exact same b (by simp [inorder,member])

theorem Around.frame (around : Around s k a) (same : ∀ b ∈ cells k, s'.node b = s.node b) (root : s'.root = s.root) :
    Around s' k a := by
  induction k generalizing a with
  | nil => exact root.trans around
  | cons f k ih =>
    obtain ⟨here,sibling,rest⟩ := around
    refine ⟨?_,sibling.frame ?_,ih rest ?_⟩
    · rw [same f.value (by simp [cells])]
      exact here
    · intro b member
      exact same b (by simp [cells,member])
    · intro b member
      exact same b (by simp [cells,member])

@[simp] theorem put_same (s : State) (p : Nat) (f : Node → Node) : (s.put p f).node p = f (s.node p) := Function.update_self ..

theorem put_other (other : a ≠ p) : (s.put p f).node a = s.node a := Function.update_of_ne other ..

theorem unlessNull_other (other : a ≠ p) : (unlessNull s p f).node a = s.node a := by
  unfold unlessNull
  split
  · rfl
  · exact put_other other

theorem unlessNull_root : (unlessNull s p f).root = s.root := by
  unfold unlessNull
  split <;> rfl

theorem Rep.put (rep : Rep s parent t) (outside : p ∉ t.inorder) : Rep (s.put p f) parent t :=
  rep.frame fun _ member => put_other fun same => outside (same ▸ member)

theorem Rep.unless (rep : Rep s parent t) (outside : p ∉ t.inorder) : Rep (unlessNull s p f) parent t :=
  rep.frame fun _ member => unlessNull_other fun same => outside (same ▸ member)

theorem Around.put (around : Around s k a) (outside : p ∉ cells k) : Around (s.put p f) k a :=
  around.frame (fun _ member => put_other fun same => outside (same ▸ member)) rfl

theorem Around.unless (around : Around s k a) (outside : p ∉ cells k) : Around (unlessNull s p f) k a :=
  around.frame (fun _ member => unlessNull_other fun same => outside (same ▸ member)) unlessNull_root

-- The root of a subtree gets another parent, and with it another colour or the same.
theorem Rep.recolor (rep : Rep s parent t) (distinct : t.inorder.Nodup) (places : ∀ a ∈ t.inorder, Place a)
    (word : ∀ c l a r, t = .node c l a r → f (s.node a) = ⟨q ||| bit d,addr r,addr l⟩) :
    Rep (unlessNull s (addr t) f) q (t.paint d) := by
  cases t with
  | leaf => trivial
  | node c l a r =>
    obtain ⟨here,repL,repR⟩ := rep
    have real := (places a (by simp [inorder])).1
    have apart := (nodup_join .left c l r a).mp distinct
    unfold unlessNull addr
    rw [if_neg real]
    refine ⟨?_,repL.put apart.1,repR.put apart.2.1⟩
    rw [put_same]
    exact word c l a r rfl

theorem Rep.painted (rep : Rep s parent t) (distinct : t.inorder.Nodup) (places : ∀ a ∈ t.inorder, Place a) (q : Nat)
    (d : Color) :
    Rep (unlessNull s (addr t) (paintWord q d)) q (t.paint d) := by
  refine rep.recolor distinct places ?_
  intro c l a r same
  subst same
  rw [rep.1]
  rfl

theorem paint_color (t : ColorTree Nat) : t.paint t.color = t := by cases t <;> rfl

theorem Rep.moved (rep : Rep s parent t) (distinct : t.inorder.Nodup) (places : ∀ a ∈ t.inorder, Place a)
    (aligned : parent%4 = 0) (q : Nat) :
    Rep (unlessNull s (addr t) (parentWord q)) q t := by
  have recolored : Rep (unlessNull s (addr t) (parentWord q)) q (t.paint t.color) := by
    refine rep.recolor distinct places ?_
    intro c l a r same
    subst same
    rw [rep.1]
    unfold parentWord
    rw [parentWord_word aligned]
    rfl
  rwa [paint_color] at recolored

theorem write_ok (real : p ≠ 0) : s.write p f = .ok (s.put p f) := if_neg real

theorem read_ok (real : p ≠ 0) : s.read p = .ok (s.node p) := if_neg real

theorem setChild_ok (real : p ≠ 0) (side : Side) (q : Nat) : s.setChild p side q = .ok (s.put p fun n => n.setChild side q) := write_ok real

theorem isRed_addr (rep : Rep s parent t) (places : ∀ a ∈ t.inorder, Place a) (aligned : parent%4 = 0) :
    s.isRed (addr t) = decide (t.color = .red) := by
  cases t with
  | leaf => rfl
  | node c l a r =>
    have real := (places a (by simp [inorder])).1
    unfold State.isRed addr
    rw [rep.1,rbIsBlack_word aligned]
    cases c <;> simp [real,ColorTree.color]

end Frames

-- The state holds the tree `plug k t`, seen at the place of `t`.
structure Holds (s : State) (k : List (Frame Nat)) (t : ColorTree Nat) : Prop where
  around : Around s k (addr t)
  rep : Rep s (above k) t
  distinct : (t.inorder++cells k).Nodup
  places : ∀ a ∈ t.inorder++cells k, Place a

section Holding
variable {s s' : State} {t t' : ColorTree Nat} {k k' : List (Frame Nat)} {a p parent : Nat} {side : Side}
  {c d : Color} {f : Frame Nat}

theorem Holds.same (holds : Holds s k t) (around : Around s' k' (addr t')) (rep : Rep s' (above k') t')
    (order : (plug k' t').inorder = (plug k t).inorder) : Holds s' k' t' := by
  have perm : (t'.inorder++cells k').Perm (t.inorder++cells k) := by
    refine (perm_plug k' t').symm.trans ?_
    rw [order]
    exact perm_plug k t
  refine ⟨around,rep,perm.nodup_iff.mpr holds.distinct,?_⟩
  intro a member
  exact holds.places a (perm.mem_iff.mp member)

theorem holds_cons : Holds s (f::k) t ↔ Holds s k (join f.side f.color t f.value f.sibling) := by
  have perm : (t.inorder++cells (f::k)).Perm ((join f.side f.color t f.value f.sibling).inorder++cells k) :=
    (perm_plug (f::k) t).symm.trans (perm_plug k (join f.side f.color t f.value f.sibling))
  constructor
  · intro holds
    obtain ⟨here,sibling,rest⟩ := holds.around
    refine ⟨by rw [addr_join]; exact rest,?_,perm.nodup_iff.mp holds.distinct,fun a member => holds.places a (perm.mem_iff.mpr member)⟩
    exact (rep_join ..).mpr ⟨here,holds.rep,sibling⟩
  · intro holds
    obtain ⟨here,rep,sibling⟩ := (rep_join ..).mp holds.rep
    have around := holds.around
    rw [addr_join] at around
    exact ⟨⟨here,sibling,around⟩,rep,perm.nodup_iff.mpr holds.distinct,fun a member => holds.places a (perm.mem_iff.mp member)⟩

theorem holds_plug (k k' : List (Frame Nat)) : Holds s (k++k') t ↔ Holds s k' (plug k t) := by
  induction k generalizing t with
  | nil => rfl
  | cons f k ih => exact holds_cons.trans ih

theorem Holds.above_aligned (holds : Holds s k t) : above k%4 = 0 := by
  cases k with
  | nil => rfl
  | cons f k => exact (holds.places f.value (by simp [cells])).aligned

theorem Holds.above_eq_zero (holds : Holds s k t) : above k = 0 ↔ k = [] := by
  cases k with
  | nil => simp [above]
  | cons f k =>
    have real := (holds.places f.value (by simp [cells])).1
    simpa [above] using real

theorem cells_length (k : List (Frame Nat)) : k.length ≤ (cells k).length := by
  induction k with
  | nil => exact Nat.le_refl 0
  | cons f k ih =>
    simp only [cells,List.length_cons,List.length_append,List.cons_append]
    omega

-- __rb_change_child: the link down to a subtree is set to another address.
theorem rbChangeChild_spec (around : Around s k old) (real : old ≠ 0) (outside : old ∉ cells k)
    (distinct : (cells k).Nodup) (places : ∀ a ∈ cells k, Place a) (new : Nat) :
    ∃ s', rbChangeChild s old new (above k) = .ok s' ∧ Around s' k new ∧ ∀ a, a ∉ cells k → s'.node a = s.node a := by
  unfold rbChangeChild
  cases k with
  | nil => exact ⟨_,if_pos rfl,rfl,fun _ _ => rfl⟩
  | cons f k =>
    obtain ⟨side,c,p,sibling⟩ := f
    obtain ⟨here,rep,rest⟩ := around
    have realP := (places p (by simp [cells])).1
    have apart : p ∉ sibling.inorder ∧ p ∉ cells k := by
      have := List.nodup_cons.mp distinct
      simpa [cells] using this.1
    have turned : ∀ a, a ≠ p → (s.put p fun n => n.setChild side new).node a = s.node a := fun _ other => put_other other
    have done : Around (s.put p fun n => n.setChild side new) (⟨side,c,p,sibling⟩::k) new := by
      refine ⟨?_,rep.put apart.1,rest.put apart.2⟩
      rw [put_same]
      simp only at here ⊢
      rw [here,link_setChild]
    refine ⟨_,?_,done,fun a other => turned a fun same => other (by simp [cells,same])⟩
    change (if p = 0 then _ else if (s.node p).left = old then s.setChild p .left new else s.setChild p .right new) = _
    simp only at here
    rw [if_neg realP,here]
    cases side with
    | left => rw [if_pos (show (link .left _ old _).left = old from rfl),setChild_ok realP]
    | right =>
      have other : (link .right (above k ||| bit c) old (addr sibling)).left ≠ old :=
        Ne.symm (addr_ne (fun member => outside (by simp [cells,member])) real)
      rw [if_neg other,setChild_ok realP]

-- __rb_rotate_set_parents: `new` takes the place of `old`, which goes below it.
theorem rbRotateSetParents_spec (around : Around s k old) (word : (s.node old).parentColor = above k ||| bit c)
    (realO : old ≠ 0) (realN : new ≠ 0) (different : old ≠ new) (outsideO : old ∉ cells k) (outsideN : new ∉ cells k)
    (distinct : (cells k).Nodup) (places : ∀ a ∈ cells k, Place a) (d : Color) :
    ∃ s', rbRotateSetParents s old new d = .ok s' ∧ Around s' k new ∧
      s'.node new = {s.node new with parentColor := above k ||| bit c} ∧ s'.node old = {s.node old with parentColor := new ||| bit d} ∧
      ∀ a, a ≠ old → a ≠ new → a ∉ cells k → s'.node a = s.node a := by
  have aligned : above k%4 = 0 := by
    cases k with
    | nil => rfl
    | cons f k => exact (places f.value (by simp [cells])).aligned
  have around' := (around.put (f := reword (above k ||| bit c)) outsideN).put (f := paintWord new d) outsideO
  obtain ⟨s',ran,after,rest⟩ := rbChangeChild_spec around' realO outsideO distinct places new
  refine ⟨s',?_,after,?_,?_,?_⟩
  · unfold rbRotateSetParents rbSetParentColor
    rw [read_ok realO]
    simp only [bind,Except.bind]
    rw [word,write_ok realN]
    simp only
    rw [write_ok realO]
    simp only
    rw [rbParent_word aligned]
    exact ran
  · rw [rest new outsideN,put_other (Ne.symm different),put_same]
    rfl
  · rw [rest old outsideO,put_same,put_other different]
    rfl
  · intro a one two three
    rw [rest a three,put_other one,put_other two]

end Holding

end RbTree
