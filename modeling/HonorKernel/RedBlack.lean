import Mathlib.Data.List.Nodup
import Mathlib.Data.List.Perm.Basic

namespace RedBlack
variable {α : Type*}

inductive Color where
  | red
  | black
  deriving DecidableEq

inductive Side where
  | left
  | right
  deriving DecidableEq

def Side.other : Side → Side
  | .left => .right
  | .right => .left

@[simp] theorem Side.other_other (side : Side) : side.other.other = side := by cases side <;> rfl

theorem Side.eq_other {side side' : Side} (different : side' ≠ side) : side' = side.other := by
  cases side <;> cases side' <;> simp_all [Side.other]

inductive ColorTree (α : Type*) where
  | leaf
  | node (color : Color) (left : ColorTree α) (value : α) (right : ColorTree α)

namespace ColorTree

def inorder : ColorTree α → List α
  | leaf => []
  | node _ l a r => l.inorder++a::r.inorder

-- An empty tree counts as black.
def color : ColorTree α → Color
  | leaf => .black
  | node c _ _ _ => c

def paint (c : Color) : ColorTree α → ColorTree α
  | leaf => leaf
  | node _ l a r => node c l a r

-- A node given by the subtree on one side and the one on the other.
def join : Side → Color → ColorTree α → α → ColorTree α → ColorTree α
  | .left,c,near,a,far => node c near a far
  | .right,c,near,a,far => node c far a near

@[simp] theorem color_join (side : Side) (c : Color) (near far : ColorTree α) (a : α) : (join side c near a far).color = c := by
  cases side <;> rfl

@[simp] theorem paint_join (side : Side) (c d : Color) (near far : ColorTree α) (a : α) :
    (join side c near a far).paint d = join side d near a far := by
  cases side <;> rfl

@[simp] theorem join_other (side : Side) (c : Color) (near far : ColorTree α) (a : α) : join side.other c near a far = join side c far a near := by
  cases side <;> rfl

theorem join_ne_leaf (side : Side) (c : Color) (near far : ColorTree α) (a : α) : join side c near a far ≠ leaf := by
  cases side <;> simp [join]

@[simp] theorem inorder_paint (c : Color) (t : ColorTree α) : (t.paint c).inorder = t.inorder := by
  cases t <;> rfl

theorem exists_join (side : Side) (t : ColorTree α) : t = leaf ∨ ∃ near a far, t = join side t.color near a far := by
  cases t with
  | leaf => exact .inl rfl
  | node c l a r =>
    cases side with
    | left => exact .inr ⟨l,a,r,rfl⟩
    | right => exact .inr ⟨r,a,l,rfl⟩

@[simp] theorem mem_join (side : Side) (c : Color) (near far : ColorTree α) (a x : α) :
    x ∈ (join side c near a far).inorder ↔ x = a ∨ x ∈ near.inorder ∨ x ∈ far.inorder := by
  cases side
  · simp only [join,inorder,List.mem_append,List.mem_cons]
    tauto
  · simp only [join,inorder,List.mem_append,List.mem_cons]
    tauto

theorem perm_join (side : Side) (c : Color) (near far : ColorTree α) (a : α) :
    (join side c near a far).inorder.Perm (a::(near.inorder++far.inorder)) := by
  cases side
  · exact List.perm_middle
  · exact List.perm_middle.trans (List.Perm.cons a List.perm_append_comm)

theorem nodup_join (side : Side) (c : Color) (near far : ColorTree α) (a : α) : (join side c near a far).inorder.Nodup ↔
    a ∉ near.inorder ∧ a ∉ far.inorder ∧ near.inorder.Nodup ∧ far.inorder.Nodup ∧ ∀ x ∈ near.inorder,
    x ∉ far.inorder := by
  rw [(perm_join side c near far a).nodup_iff,List.nodup_cons,List.nodup_append,List.mem_append]
  constructor
  · rintro ⟨outside,left,right,apart⟩
    refine ⟨fun here => outside (.inl here),fun here => outside (.inr here),left,right,?_⟩
    intro x one two
    exact apart x one x two rfl
  · rintro ⟨one,two,left,right,apart⟩
    refine ⟨by tauto,left,right,?_⟩
    intro x here y there same
    exact apart x here (same ▸ there)

-- No red node has a red child, and every path down holds `n` black nodes.
def Balanced : ColorTree α → Nat → Prop
  | leaf,n => n = 0
  | node .red l _ r,n => l.color = .black ∧ r.color = .black ∧ l.Balanced n ∧ r.Balanced n
  | node .black l _ r,n => ∃ m, n = m+1 ∧ l.Balanced m ∧ r.Balanced m

theorem balanced_red (side : Side) (near far : ColorTree α) (a : α) (n : Nat) : (join side .red near a far).Balanced n ↔
    near.color = .black ∧ far.color = .black ∧ near.Balanced n ∧ far.Balanced n := by
  cases side
  · rfl
  · simp only [join,Balanced]
    tauto

theorem balanced_black (side : Side) (near far : ColorTree α) (a : α) (n : Nat) :
    (join side .black near a far).Balanced (n+1) ↔
    near.Balanced n ∧ far.Balanced n := by
  cases side
  · simp [join,Balanced]
  · simp only [join,Balanced,Nat.add_right_cancel_iff,exists_eq_left']
    tauto

theorem balanced_black_pos {side : Side} {near far : ColorTree α} {a : α} {n : Nat}
    (balanced : (join side .black near a far).Balanced n) :
    ∃ m, n = m+1 ∧ near.Balanced m ∧ far.Balanced m := by
  cases n with
  | zero =>
    cases side <;> simp [join,Balanced] at balanced
  | succ m => exact ⟨m,rfl,(balanced_black side near far a m).mp balanced⟩

theorem Balanced.blacken {t : ColorTree α} {n : Nat} (balanced : t.Balanced n) (red : t.color = .red) :
    (t.paint .black).Balanced (n+1) := by
  cases t with
  | leaf => cases red
  | node c l a r =>
    cases red
    exact ⟨n,rfl,balanced.2.2.1,balanced.2.2.2⟩

theorem Balanced.of_zero {t : ColorTree α} (balanced : t.Balanced 0) (black : t.color = .black) : t = leaf := by
  cases t with
  | leaf => rfl
  | node c l a r =>
    cases black
    obtain ⟨m,impossible,_⟩ := balanced
    cases impossible

theorem Balanced.unique {t : ColorTree α} {m n : Nat} (one : t.Balanced m) (two : t.Balanced n) : m = n := by
  induction t generalizing m n with
  | leaf => exact one.trans two.symm
  | node c l a r ih _ =>
    cases c with
    | red => exact ih one.2.2.1 two.2.2.1
    | black =>
      obtain ⟨m',rfl,left,_⟩ := one
      obtain ⟨n',rfl,left',_⟩ := two
      rw [ih left left']

end ColorTree

open ColorTree

-- The way from a subtree up to the root: on which side it hangs, and what hangs on the other.
structure Frame (α : Type*) where
  side : Side
  color : Color
  value : α
  sibling : ColorTree α

def plug : List (Frame α) → ColorTree α → ColorTree α
  | [],t => t
  | f::k,t => plug k (join f.side f.color t f.value f.sibling)

def top : List (Frame α) → Option Color
  | [] => none
  | f::_ => some f.color

def cells : List (Frame α) → List α
  | [] => []
  | f::k => f.value::f.sibling.inorder++cells k

def before : List (Frame α) → List α
  | [] => []
  | f::k => match f.side with
    | .left => before k
    | .right => before k++f.sibling.inorder++[f.value]

def after : List (Frame α) → List α
  | [] => []
  | f::k => match f.side with
    | .left => f.value::f.sibling.inorder++after k
    | .right => after k

theorem plug_append (k k' : List (Frame α)) (t : ColorTree α) : plug (k++k') t = plug k' (plug k t) := by
  induction k generalizing t with
  | nil => rfl
  | cons f k ih => exact ih _

theorem inorder_plug (k : List (Frame α)) (t : ColorTree α) : (plug k t).inorder = before k++t.inorder++after k := by
  induction k generalizing t with
  | nil => simp [plug,before,after]
  | cons f k ih =>
    obtain ⟨side,c,a,sibling⟩ := f
    rw [plug,ih]
    cases side
    · simp [before,after,join,inorder]
    · simp [before,after,join,inorder]

theorem inorder_plug_congr (k : List (Frame α)) {t t' : ColorTree α} (same : t'.inorder = t.inorder) :
    (plug k t').inorder = (plug k t).inorder := by
  rw [inorder_plug,inorder_plug,same]

theorem perm_plug (k : List (Frame α)) (t : ColorTree α) : (plug k t).inorder.Perm (t.inorder++cells k) := by
  induction k generalizing t with
  | nil => simp [plug,cells]
  | cons f k ih =>
    refine (ih _).trans ?_
    have one := perm_join f.side f.color t f.sibling f.value
    have two : (f.value::(t.inorder++f.sibling.inorder)).Perm (t.inorder++f.value::f.sibling.inorder) := List.perm_middle.symm
    have both := (one.trans two).append_right (cells k)
    simpa [cells] using both

theorem exists_plug {t : ColorTree α} {a : α} (member : a ∈ t.inorder) : ∃ k c l r, t = plug k (.node c l a r) := by
  induction t with
  | leaf => cases member
  | node c l b r left right =>
    rcases List.mem_append.mp member with here | here
    · obtain ⟨k,d,x,y,same⟩ := left here
      exact ⟨k++[⟨.left,c,b,r⟩],d,x,y,by rw [plug_append,← same]; rfl⟩
    · rcases List.mem_cons.mp here with same | here
      · exact ⟨[],c,l,r,by rw [same]; rfl⟩
      · obtain ⟨k,d,x,y,same⟩ := right here
        exact ⟨k++[⟨.right,c,b,l⟩],d,x,y,by rw [plug_append,← same]; rfl⟩

-- The place of a subtree of height `n` in a tree that is balanced and black at the root.
def Hole : List (Frame α) → Nat → Prop
  | [],_ => True
  | ⟨_,.black,_,sibling⟩::k,n => sibling.Balanced n ∧ Hole k (n+1)
  | ⟨_,.red,_,sibling⟩::k,n => sibling.color = .black ∧ sibling.Balanced n ∧ top k = some .black ∧ Hole k n

def Proper (t : ColorTree α) : Prop := t.color = .black ∧ ∃ n, t.Balanced n

theorem Hole.fill {k : List (Frame α)} {t : ColorTree α} {n : Nat} (hole : Hole k n) (balanced : t.Balanced n)
    (fits : t.color = .red → top k = some .black) : Proper (plug k t) := by
  induction k generalizing t n with
  | nil =>
    refine ⟨?_,n,balanced⟩
    cases color : t.color with
    | black => exact color
    | red => cases fits color
  | cons f k ih =>
    obtain ⟨side,c,a,sibling⟩ := f
    cases c with
    | black =>
      obtain ⟨aside,hole⟩ := hole
      refine ih hole ((balanced_black side t sibling a n).mpr ⟨balanced,aside⟩) ?_
      intro red
      rw [color_join] at red
      cases red
    | red =>
      obtain ⟨black,aside,above,hole⟩ := hole
      have own : t.color = .black := by
        cases color : t.color with
        | black => rfl
        | red => cases fits color
      exact ih hole ((balanced_red side t sibling a n).mpr ⟨own,black,balanced,aside⟩) fun _ => above

theorem Proper.hole {k : List (Frame α)} {t : ColorTree α} (proper : Proper (plug k t)) :
    ∃ n, Hole k n ∧ t.Balanced n ∧ (t.color = .red → top k = some .black) := by
  induction k generalizing t with
  | nil =>
    obtain ⟨black,n,balanced⟩ := proper
    refine ⟨n,trivial,balanced,?_⟩
    intro red
    change t.color = .black at black
    rw [red] at black
    cases black
  | cons f k ih =>
    obtain ⟨side,c,a,sibling⟩ := f
    obtain ⟨n,hole,balanced,fits⟩ := ih proper
    cases c with
    | black =>
      obtain ⟨m,rfl,own,aside⟩ := balanced_black_pos balanced
      exact ⟨m,⟨aside,hole⟩,own,fun _ => rfl⟩
    | red =>
      obtain ⟨black,black',own,aside⟩ := (balanced_red side t sibling a n).mp balanced
      refine ⟨n,⟨black',aside,fits (color_join ..),hole⟩,own,?_⟩
      intro red
      rw [black] at red
      cases red

theorem Hole.sibling {f : Frame α} {k : List (Frame α)} {n : Nat} (hole : Hole (f::k) n) :
    f.sibling.Balanced n ∧ (f.color = .red → f.sibling.color = .black ∧ top k = some .black) := by
  obtain ⟨side,c,a,sibling⟩ := f
  cases c with
  | black =>
    refine ⟨hole.1,?_⟩
    intro red
    cases red
  | red => exact ⟨hole.2.1,fun _ => ⟨hole.1,hole.2.2.1⟩⟩

-- A node of the same colour with two other black subtrees fits where the frame was.
theorem Hole.rejoin {f : Frame α} {k : List (Frame α)} {n : Nat} (hole : Hole (f::k) n) (side : Side) (a : α)
    {near far : ColorTree α} (left : near.Balanced n) (right : far.Balanced n) (blackL : near.color = .black)
    (blackR : far.color = .black) :
    ∃ m, Hole k m ∧ (join side f.color near a far).Balanced m := by
  obtain ⟨side',c,b,sibling⟩ := f
  cases c with
  | black => exact ⟨n+1,hole.2,(balanced_black ..).mpr ⟨left,right⟩⟩
  | red => exact ⟨n,hole.2.2.2,(balanced_red ..).mpr ⟨blackL,blackR,left,right⟩⟩

theorem proper_leaf : Proper (leaf : ColorTree α) := ⟨rfl,0,rfl⟩

section Order
variable {lt : α → α → Prop}

-- A search tree holds its values in order.
def Search (lt : α → α → Prop) (t : ColorTree α) : Prop := t.inorder.Pairwise lt

theorem Search.parts {c : Color} {l r : ColorTree α} {a : α} (search : Search lt (.node c l a r)) :
    Search lt l ∧ Search lt r ∧ (∀ x ∈ l.inorder, lt x a) ∧ (∀ y ∈ r.inorder, lt a y) := by
  obtain ⟨left,right,across⟩ := List.pairwise_append.mp search
  obtain ⟨above,right⟩ := List.pairwise_cons.mp right
  exact ⟨left,right,fun x here => across x here a List.mem_cons_self,above⟩

theorem Search.insert {k : List (Frame α)} {a : α} (c : Color) (search : Search lt (plug k leaf))
    (low : ∀ x ∈ before k, lt x a) (high : ∀ y ∈ after k, lt a y) : Search lt (plug k (.node c leaf a leaf)) := by
  unfold Search at search ⊢
  rw [inorder_plug] at search ⊢
  simp only [inorder,List.append_nil,List.nil_append] at search ⊢
  obtain ⟨left,right,across⟩ := List.pairwise_append.mp search
  rw [List.append_assoc]
  refine List.pairwise_append.mpr ⟨left,List.pairwise_cons.mpr ⟨high,right⟩,?_⟩
  intro x here y there
  rcases List.mem_cons.mp there with rfl | there
  · exact low x here
  · exact across x here y there

end Order

end RedBlack
