import HonorKernel.RbTreeErase

namespace RbTree
open RedBlack RedBlack.ColorTree

-- The parent of a subtree in a piece of a tree that itself hangs below `parent`.
def aboveIn (parent : Nat) : List (Frame Nat) → Nat
  | [] => parent
  | f::_ => f.value

-- The memory holds the frames between a subtree with the address `a` and a node `parent` above them.
def Spine (s : State) (parent : Nat) : List (Frame Nat) → Nat → Prop
  | [],_ => True
  | f::k,a => s.node f.value = link f.side (aboveIn parent k ||| bit f.color) a (addr f.sibling) ∧ Rep s f.value f.sibling ∧
      Spine s parent k f.value

section Spines
variable {s s' : State} {k : List (Frame Nat)} {t : ColorTree Nat} {a b p parent : Nat} {f : Node → Node}
  {g : Frame Nat}

theorem rep_plug (k : List (Frame Nat)) (t : ColorTree Nat) : Rep s parent (plug k t) ↔ Spine s parent k (addr t) ∧
    Rep s (aboveIn parent k) t := by
  induction k generalizing t with
  | nil => exact ⟨fun rep => ⟨trivial,rep⟩,fun both => both.2⟩
  | cons f k ih =>
    rw [plug,ih,rep_join,addr_join]
    constructor
    · rintro ⟨spine,here,rep,sibling⟩
      exact ⟨⟨here,sibling,spine⟩,rep⟩
    · rintro ⟨⟨here,sibling,spine⟩,rep⟩
      exact ⟨spine,here,rep,sibling⟩

theorem Spine.frame (spine : Spine s parent k a) (same : ∀ b ∈ cells k, s'.node b = s.node b) :
    Spine s' parent k a := by
  induction k generalizing a with
  | nil => trivial
  | cons f k ih =>
    obtain ⟨here,sibling,rest⟩ := spine
    refine ⟨?_,sibling.frame ?_,ih rest ?_⟩
    · rw [same f.value (by simp [cells])]
      exact here
    · intro b member
      exact same b (by simp [cells,member])
    · intro b member
      exact same b (by simp [cells,member])

theorem Spine.put (spine : Spine s parent k a) (outside : p ∉ cells k) : Spine (s.put p f) parent k a :=
  spine.frame fun _ member => put_other fun same => outside (same ▸ member)

theorem Spine.unless (spine : Spine s parent k a) (outside : p ∉ cells k) : Spine (unlessNull s p f) parent k a :=
  spine.frame fun _ member => unlessNull_other fun same => outside (same ▸ member)

theorem Spine.child (spine : Spine s parent (g::k) a) (distinct : (cells (g::k)).Nodup) (b : Nat) :
    Spine (s.put g.value fun m => m.setChild g.side b) parent (g::k) b := by
  simp only [cells,List.nodup_append,List.nodup_cons,List.mem_cons] at distinct
  obtain ⟨here,sibling,rest⟩ := spine
  refine ⟨?_,sibling.put distinct.1.1,rest.put fun member => distinct.2.2 _ (.inl rfl) _ member rfl⟩
  rw [put_same,here,link_setChild]

theorem addr_plug_mem (g : Frame Nat) (k : List (Frame Nat)) (t : ColorTree Nat) :
    addr (plug (g::k) t) ∈ cells (g::k) := by
  induction k generalizing g t with
  | nil =>
    simp only [plug,addr_join,cells]
    exact List.mem_cons_self
  | cons h k ih =>
    have deeper := ih h (join g.side g.color t g.value g.sibling)
    rw [cells]
    exact List.mem_append_right _ deeper

theorem Spine.base (spine : Spine s parent (g::k) a) (distinct : (cells (g::k)).Nodup) (aligned : parent%4 = 0)
    (q : Nat) (t : ColorTree Nat) :
    Spine (s.put (addr (plug (g::k) t)) (parentWord q)) q (g::k) a := by
  induction k generalizing g a t with
  | nil =>
    obtain ⟨here,sibling,_⟩ := spine
    simp only [cells,List.append_nil,List.nodup_cons] at distinct
    simp only [plug,addr_join,aboveIn] at here ⊢
    refine ⟨?_,sibling.put distinct.1,trivial⟩
    rw [put_same,here]
    unfold parentWord
    rw [link_parentColor,parentWord_word aligned,link_word]
    rfl
  | cons h k ih =>
    obtain ⟨here,sibling,rest⟩ := spine
    have apart := distinct
    rw [cells,List.nodup_append] at apart
    obtain ⟨own,others,across⟩ := apart
    have inside := addr_plug_mem h k (join g.side g.color t g.value g.sibling)
    have outside : ∀ b ∈ g.value::g.sibling.inorder, b ≠ addr (plug (g::h::k) t) := fun b member => across b member _ inside
    refine ⟨?_,sibling.put fun member => outside _ (List.mem_cons_of_mem _ member) rfl,ih rest others
        (join g.side g.color t g.value g.sibling)⟩
    rw [put_other (outside _ List.mem_cons_self),here]
    rfl

theorem rbSuccessor_spec (fuel parent : Nat) (rep : Rep s (aboveIn parent k) t) (places : ∀ a ∈ t.inorder, Place a)
    (filled : t ≠ .leaf) (left : ∀ f ∈ k, f.side = .left) (enough : t.inorder.length < fuel) :
    ∃ k' c su r, plug k t = plug k' (.node c .leaf su r) ∧
      (∀ f ∈ k', f.side = .left) ∧ (k ≠ [] → k' ≠ []) ∧ rbSuccessor fuel s (aboveIn parent k)
      (addr t) = .ok (aboveIn parent k',su) := by
  induction t generalizing k fuel with
  | leaf => exact absurd rfl filled
  | node c l a r ih _ =>
    obtain ⟨fuel,rfl⟩ : ∃ f, fuel = f+1 := Nat.exists_eq_succ_of_ne_zero (by omega)
    obtain ⟨atA,repL,_⟩ := rep
    simp only [inorder,List.length_append,List.length_cons] at enough
    have placesL : ∀ b ∈ l.inorder, Place b := fun b member => places b (by simp [inorder,member])
    unfold rbSuccessor addr
    rw [atA]
    by_cases empty : l = .leaf
    · subst empty
      exact ⟨k,c,a,r,rfl,left,id,if_pos rfl⟩
    · have below : addr l ≠ 0 := fun null => empty ((addr_leaf placesL).mp null)
      simp only [below,if_false]
      obtain ⟨k',c',su,r',same,left',deep,ran⟩ := ih (k := ⟨.left,c,a,r⟩::k) fuel repL placesL empty (by
        intro f member
        rcases List.mem_cons.mp member with rfl | member
        · rfl
        · exact left f member) (by omega)
      exact ⟨k',c',su,r',same,left',fun _ => deep (by simp),ran⟩

theorem before_left (left : ∀ f ∈ k, f.side = .left) : before k = [] := by
  induction k with
  | nil => rfl
  | cons f k ih =>
    obtain ⟨side,c,a,x⟩ := f
    have own : side = .left := left ⟨side,c,a,x⟩ List.mem_cons_self
    subst own
    exact ih fun f member => left f (List.mem_cons_of_mem _ member)

end Spines

section Unlinking
variable {s s' : State} {k k' : List (Frame Nat)} {t t' l r x : ColorTree Nat} {a b : Nat} {c : Color}

theorem Holds.sub (holds : Holds s k t) (around : Around s' k' (addr t')) (rep : Rep s' (above k') t')
    (order : (plug k' t').inorder.Sublist (plug k t).inorder) : Holds s' k' t' := by
  refine ⟨around,rep,?_,?_⟩
  · refine (perm_plug k' t').nodup_iff.mp (order.nodup ?_)
    exact (perm_plug k t).nodup_iff.mpr holds.distinct
  · intro b member
    have here := order.subset ((perm_plug k' t').mem_iff.mpr member)
    exact holds.places b ((perm_plug k t).mem_iff.mp here)

theorem Rep.replace (rep : Rep s a x) (distinct : x.inorder.Nodup) (places : ∀ a ∈ x.inorder, Place a) (parent : Nat)
    (c : Color) :
    Rep (unlessNull s (addr x) (reword (parent ||| bit c))) parent (x.paint c) := by
  refine rep.recolor distinct places ?_
  intro c l a r same
  subst same
  rw [rep.1]
  rfl

theorem inorder_drop (k : List (Frame Nat)) (c : Color) (l r x : ColorTree Nat) (a : Nat)
    (order : x.inorder = l.inorder++r.inorder) :
    (plug k x).inorder.Sublist (plug k (.node c l a r)).inorder := by
  rw [inorder_plug,inorder_plug,order]
  refine (List.Sublist.append_left ?_ _).append_right _
  exact List.Sublist.append_left (List.sublist_cons_self ..) _

theorem unlinkRight_spec (holds : Holds s k (.node c .leaf a r)) : ∃ s₁ s', rbChangeChild s a (addr r)
    (above k) = .ok s₁ ∧
    unlessNull s₁ (addr r) (reword (above k ||| bit c)) = s' ∧ Holds s' k (r.paint c) := by
  have distinct := holds.distinct
  have places := holds.places
  simp only [inorder,List.nil_append,List.nodup_append,List.nodup_cons,List.mem_append,List.mem_cons] at distinct places
  obtain ⟨_,_,repR⟩ := holds.rep
  have real : a ≠ 0 := (places a (by grind)).1
  obtain ⟨s₁,ran,after,rest⟩ := rbChangeChild_spec (k := k) holds.around real (show a ∉ cells k by grind) (by grind)
      (by grind) (addr r)
  have repR₁ : Rep s₁ a r := repR.frame fun b member => rest b (by grind)
  refine ⟨s₁,_,ran,rfl,holds.sub ?_ (repR₁.replace (by grind) (by grind) (above k) c)
      (inorder_drop k c .leaf r _ a (by simp [inorder]))⟩
  rw [addr_paint]
  exact after.unless (addr_outside (fun b member => (places b (by grind)).1) (by grind))

theorem unlinkLeft_spec (holds : Holds s k (.node c l a .leaf)) (filled : l ≠ .leaf) : ∃ s₁ s',
    s.write (addr l) (reword (above k ||| bit c)) = .ok s₁ ∧ rbChangeChild s₁ a (addr l) (above k) = .ok s' ∧
    Holds s' k (l.paint c) := by
  have distinct := holds.distinct
  have places := holds.places
  simp only [inorder,List.nodup_append,List.nodup_cons,List.mem_append,List.mem_cons] at distinct places
  obtain ⟨_,repL,_⟩ := holds.rep
  have real : a ≠ 0 := (places a (by grind)).1
  have inside := addr_mem filled
  have realL : addr l ≠ 0 := (places _ (by grind)).1
  have painted : unlessNull s (addr l) (reword (above k ||| bit c)) = s.put (addr l) (reword (above k ||| bit c)) := if_neg realL
  have around : Around (s.put (addr l) (reword (above k ||| bit c))) k a := holds.around.put (by grind)
  obtain ⟨s',ran,after,rest⟩ := rbChangeChild_spec around real (show a ∉ cells k by grind) (by grind) (by grind) (addr l)
  have repL₁ : Rep (s.put (addr l) (reword (above k ||| bit c))) (above k) (l.paint c) :=
    painted ▸ repL.replace (by grind) (by grind) (above k) c
  refine ⟨_,s',write_ok realL,ran,holds.sub (by rw [addr_paint]; exact after) (repL₁.frame ?_)
      (inorder_drop k c l .leaf _ a (by simp [inorder]))⟩
  intro b member
  rw [inorder_paint] at member
  exact rest b (by grind)

theorem addr_plug_congr (k : List (Frame Nat)) (same : addr t' = addr t) : addr (plug k t') = addr (plug k t) := by
  induction k generalizing t t' with
  | nil => exact same
  | cons f k ih =>
    refine ih ?_
    rw [addr_join,addr_join]

-- The node has two children, and its successor is already out of the right subtree.
theorem rbReplace_spec {u : ColorTree Nat} {d : Color} {m q v w : Nat}
    (distinct : (a::m::(l.inorder++u.inorder++cells k'++cells k)).Nodup)
    (places : ∀ b ∈ a::m::(l.inorder++u.inorder++cells k'++cells k), Place b) (filled : l ≠ .leaf)
    (atA : s.node a = ⟨above k ||| bit c,w,addr l⟩) (atM : s.node m = ⟨q ||| bit d,addr (plug k' u),v⟩)
    (aligned : q%4 = 0) (repL : Rep s a l) (repU : Rep s m u) (spine : Spine s m k' (addr u))
    (around : Around s k a) : ∃ s',
      rbReplace s a (aboveIn m k') m (addr u) = .ok (s',if addr u = 0 ∧ d = .black then aboveIn m k' else 0) ∧
      Around s' k m ∧ Rep s' (above k) (.node c l m (plug k' (u.paint .black))) := by
  have placeA := places a (by simp)
  have realM := (places m (by simp)).1
  simp only [List.nodup_cons,List.nodup_append,List.mem_append,List.mem_cons] at distinct places
  have alignedK : above k%4 = 0 := by
    cases k with
    | nil => rfl
    | cons f k => exact (places f.value (by simp [cells])).aligned
  have inside := addr_mem filled
  have realL : addr l ≠ 0 := (places _ (by grind)).1
  have different : a ≠ m := by grind
  have awayM : m ≠ addr u := addr_ne (by grind) realM
  have away : ∀ l : List Nat, (∀ a ∈ l, Place a) → (∀ a ∈ u.inorder, a ∉ l) → addr u ∉ l :=
    fun l places => addr_outside fun a member => (places a member).1
  generalize first : s.put m (fun n => n.setChild .left (addr l)) = s₁
  generalize second : s₁.put (addr l) (parentWord m) = s₂
  have moved : unlessNull s₁ (addr l) (parentWord m) = s₂ := by
    rw [← second]
    exact if_neg realL
  have atA₂ : s₂.node a = ⟨above k ||| bit c,w,addr l⟩ := by
    rw [← second,put_other (by grind),← first,put_other different,atA]
  have atM₂ : s₂.node m = ⟨q ||| bit d,addr (plug k' u),addr l⟩ := by
    rw [← second,put_other (by grind),← first,put_same,atM]
    rfl
  have repL₂ : Rep s₂ m l := by
    have one : Rep s₁ a l := first ▸ repL.put (by grind)
    exact moved ▸ one.moved (by grind) (by grind) placeA.aligned m
  have repU₂ : Rep s₂ m u := by
    have one : Rep s₁ m u := first ▸ repU.put (by grind)
    exact second ▸ one.put (by grind)
  have spine₂ : Spine s₂ m k' (addr u) := by
    have one : Spine s₁ m k' (addr u) := first ▸ spine.put (by grind)
    exact second ▸ one.put (by grind)
  have around₂ : Around s₂ k a := by
    have one : Around s₁ k a := first ▸ around.put (by grind)
    exact second ▸ one.put (by grind)
  obtain ⟨s₃,ran,around₃,rest⟩ := rbChangeChild_spec around₂ placeA.1 (by grind) (by grind) (by grind) m
  have frame : ∀ l : List Nat, (∀ a ∈ l, a ∉ cells k) → ∀ a ∈ l, s₃.node a = s₂.node a := fun l apart a member =>
      rest a (apart a member)
  have atM₃ : s₃.node m = ⟨q ||| bit d,addr (plug k' u),addr l⟩ := by
    rw [rest m (by grind),atM₂]
  generalize fourth : s₃.put m (reword (above k ||| bit c)) = s₄
  have atM₄ : s₄.node m = ⟨above k ||| bit c,addr (plug k' u),addr l⟩ := by
    rw [← fourth,put_same,atM₃]
    rfl
  have repL₄ : Rep s₄ m l := fourth ▸ (repL₂.frame (frame _ (by grind))).put (by grind)
  have repU₄ : Rep s₄ m u := fourth ▸ (repU₂.frame (frame _ (by grind))).put (by grind)
  have spine₄ : Spine s₄ m k' (addr u) := fourth ▸ (spine₂.frame (frame _ (by grind))).put (by grind)
  have around₄ : Around s₄ k m := fourth ▸ around₃.put (by grind)
  generalize fifth : unlessNull s₄ (addr u) (paintWord (aboveIn m k') .black) = s₅
  refine ⟨s₅,?_,fifth ▸ around₄.unless (away _ (by grind) (by grind)),?_,fifth ▸ repL₄.unless (away _ (by grind) (by grind)),?_⟩
  · unfold rbReplace rbSetParent rbSetParentColor
    rw [read_ok placeA.1,atA]
    simp only [bind,Except.bind]
    rw [setChild_ok realM,first]
    simp only
    rw [write_ok realL,second]
    simp only
    rw [atA₂,rbParent_word alignedK,ran]
    simp only
    rw [atM₃,rbIsBlack_word aligned,write_ok realM,fourth]
    simp only
    by_cases null : addr u = 0
    · have same : s₄ = s₅ := by
        rw [← fifth]
        exact (if_pos null).symm
      rw [if_neg (by simp [null]),same]
      simp [null]
    · have same : s₄.put (addr u) (paintWord (aboveIn m k') .black) = s₅ := by
        rw [← fifth]
        exact (if_neg null).symm
      rw [if_pos null,write_ok null,same]
      simp [null]
  · rw [← fifth,unlessNull_other awayM,atM₄,addr_plug_congr k' (addr_paint .black u)]
  · refine (rep_plug ..).mpr ⟨?_,fifth ▸ repU₄.painted (by grind) (by grind) (aboveIn m k') .black⟩
    rw [addr_paint]
    exact fifth ▸ spine₄.unless (away _ (by grind) (by grind))

-- The successor is taken out of the right subtree, whose root goes below it.
theorem detach_spec {g : Frame Nat} {u : ColorTree Nat} {d : Color} {m : Nat}
    (distinct : (m::(u.inorder++cells (g::k'))).Nodup) (places : ∀ b ∈ m::(u.inorder++cells (g::k')), Place b)
    (aligned : a%4 = 0) (left : g.side = .left) (rep : Rep s a (plug (g::k') (.node d .leaf m u))) :
    ∃ s₁ s₂ s', s.setChild g.value .left (addr u) = .ok s₁ ∧
      s₁.setChild m .right (addr (plug (g::k') u)) = .ok s₂ ∧ rbSetParent s₂ (addr (plug (g::k') u)) m = .ok s' ∧
      s'.node m = ⟨g.value ||| bit d,addr (plug (g::k') u),0⟩ ∧ Rep s' m u ∧ Spine s' m (g::k') (addr u) ∧
      s'.root = s.root ∧
      ∀ b, b ≠ m → b ∉ cells (g::k') → s'.node b = s.node b := by
  obtain ⟨spine,atM,_,repU⟩ := (rep_plug ..).mp rep
  have base := addr_plug_mem g k' u
  have realG : g.value ≠ 0 := (places _ (by simp [cells])).1
  have realM : m ≠ 0 := (places m (by simp)).1
  have realB : addr (plug (g::k') u) ≠ 0 := (places _ (by simp [base])).1
  simp only [List.nodup_cons,List.nodup_append,List.mem_append] at distinct
  have member : g.value ∈ cells (g::k') := by simp [cells]
  have awayG : m ≠ g.value := fun same => distinct.1 (.inr (same ▸ member))
  have awayB : m ≠ addr (plug (g::k') u) := fun same => distinct.1 (.inr (same ▸ base))
  have outG : g.value ∉ u.inorder := fun here => distinct.2.2.2 _ here _ member rfl
  have outB : addr (plug (g::k') u) ∉ u.inorder := fun here => distinct.2.2.2 _ here _ base rfl
  have spine₁ := spine.child distinct.2.2.1 (addr u)
  rw [left] at spine₁
  have spine₂ := spine₁.put (f := fun n => n.setChild .right (addr (plug (g::k') u))) (p := m) fun here => distinct.1 (.inr here)
  have spine₃ := spine₂.base distinct.2.2.1 aligned m u
  refine ⟨_,_,_,setChild_ok realG .left (addr u),setChild_ok realM .right _,write_ok realB,?_,?_,spine₃,rfl,?_⟩
  · rw [put_other awayB,put_same,put_other awayG,atM]
    rfl
  · exact ((repU.put outG).put fun here => distinct.1 (.inl here)).put outB
  · intro b other outside
    have one : b ≠ addr (plug (g::k') u) := fun same => outside (same ▸ base)
    have two : b ≠ g.value := fun same => outside (same ▸ member)
    rw [put_other one,put_other other,put_other two]

theorem unlinkBoth_spec (fuel : Nat) (holds : Holds s k (.node c l a r)) (filledL : l ≠ .leaf) (filledR : r ≠ .leaf)
    (enough : r.inorder.length < fuel) : ∃ s' k' d m u, r = plug k' (.node d .leaf m u) ∧ (∀ f ∈ k', f.side = .left) ∧
      rbUnlink fuel s a = .ok (s',if addr u = 0 ∧ d = .black then aboveIn m k' else 0) ∧ Around s' k m ∧
      Rep s' (above k) (.node c l m (plug k' (u.paint .black))) := by
  have distinct := holds.distinct
  have places := holds.places
  simp only [inorder,List.nodup_append,List.nodup_cons,List.mem_append,List.mem_cons] at distinct places
  obtain ⟨atA,repL,repR⟩ := holds.rep
  have placeA : Place a := places a (by grind)
  have insideL := addr_mem filledL
  have insideR := addr_mem filledR
  have realL : addr l ≠ 0 := (places _ (by grind)).1
  have realR : addr r ≠ 0 := (places _ (by grind)).1
  cases r with
  | leaf => exact absurd rfl filledR
  | node d x b u =>
    have atB : s.node b = ⟨a ||| bit d,addr u,addr x⟩ := repR.1
    by_cases empty : x = .leaf
    · subst empty
      have distinct' : (a::b::(l.inorder++u.inorder++cells []++cells k)).Nodup := by
        simp only [inorder,cells,List.append_nil,List.nil_append,List.nodup_append,List.nodup_cons,List.mem_append,
            List.mem_cons] at distinct ⊢
        grind
      have places' : ∀ e ∈ a::b::(l.inorder++u.inorder++cells []++cells k), Place e := by
        simp only [inorder,cells,List.append_nil,List.nil_append,List.mem_append,List.mem_cons] at places ⊢
        grind
      obtain ⟨s',ran,around,rep⟩ := rbReplace_spec distinct' places' filledL atA atB placeA.aligned repL repR.2.2 trivial holds.around
      refine ⟨s',[],d,b,u,rfl,by simp,?_,around,rep⟩
      unfold rbUnlink
      rw [read_ok placeA.1,atA]
      simp only [bind,Except.bind,realL,if_false,realR,read_ok realR,show s.node (addr (.node d .leaf b u)) = _ from atB,
        show addr .leaf = 0 from rfl,if_true]
      exact ran
    · have realX : addr x ≠ 0 := fun null => empty ((addr_leaf (by simp only [inorder] at places; grind)).mp null)
      obtain ⟨k',e,m,v,same,left,deep,found⟩ := rbSuccessor_spec (k := [⟨.left,d,b,u⟩]) fuel a repR.2.1
        (by simp only [inorder] at places; grind) empty (by simp)
            (by simp only [inorder,List.length_append,List.length_cons] at enough; omega)
      cases k' with
      | nil => exact absurd rfl (deep (by simp))
      | cons g k' =>
        have shape : ColorTree.node d x b u = plug (g::k') (.node e .leaf m v) := same
        have inner : (ColorTree.node d x b u).inorder.Perm (m::(v.inorder++cells (g::k'))) := by
          rw [shape]
          exact perm_plug (g::k') (.node e .leaf m v)
        have whole : ((ColorTree.node c l a (.node d x b u)).inorder++cells k).Perm
            (a::m::(l.inorder++v.inorder++cells (g::k')++cells k)) := by
          have one : (ColorTree.node c l a (.node d x b u)).inorder.Perm (a::(l.inorder++m::(v.inorder++cells (g::k')))) :=
            List.perm_middle.trans ((inner.append_left _).cons a)
          have two : (a::(l.inorder++m::(v.inorder++cells (g::k')))).Perm (a::m::(l.inorder++(v.inorder++cells (g::k')))) :=
            List.perm_middle.cons a
          have three := (one.trans two).append_right (cells k)
          rwa [← List.append_assoc l.inorder] at three
        have distinct' := whole.nodup_iff.mp holds.distinct
        have places' : ∀ e ∈ a::m::(l.inorder++v.inorder++cells (g::k')++cells k), Place e :=
          fun e member => holds.places e (whole.mem_iff.mpr member)
        have base : addr (.node d x b u) = addr (plug (g::k') v) := by
          rw [shape]
          exact addr_plug_congr k' (by rw [addr_join,addr_join])
        rw [shape] at repR
        have sub : (m::(v.inorder++cells (g::k'))).Sublist (a::m::(l.inorder++v.inorder++cells (g::k')++cells k)) := by
          refine List.Sublist.cons a (List.Sublist.cons_cons m ?_)
          rw [List.append_assoc l.inorder,List.append_assoc l.inorder]
          exact (List.sublist_append_left _ _).trans (List.sublist_append_right _ _)
        obtain ⟨s₁,s₂,s₃,one,two,three,atM,repV,spine,root,rest⟩ := detach_spec (sub.nodup distinct')
            (fun e member => places' e (sub.subset member))
          placeA.aligned (left g List.mem_cons_self) repR
        have atM₀ := ((rep_plug ..).mp repR).2.1
        have apart := distinct'
        simp only [List.nodup_cons,List.nodup_append,List.mem_append,List.mem_cons] at apart
        have atA₃ : s₃.node a = ⟨above k ||| bit c,addr (.node d x b u),addr l⟩ := by
          rw [rest a (by grind) (by grind)]
          exact atA
        have repL₃ : Rep s₃ a l := repL.frame fun e member => rest e (by grind) (by grind)
        have around₃ : Around s₃ k a := holds.around.frame (fun e member => rest e (by grind) (by grind)) root
        have alignedG : g.value%4 = 0 := (places' g.value (by simp [cells])).aligned
        obtain ⟨s',ran,around,rep⟩ := rbReplace_spec distinct' places' filledL atA₃ atM alignedG repL₃ repV spine around₃
        refine ⟨s',g::k',e,m,v,shape,left,?_,around,rep⟩
        have realM : m ≠ 0 := (places' m (by simp)).1
        unfold rbUnlink
        rw [read_ok placeA.1,atA]
        simp only [bind,Except.bind,realL,if_false,realR,read_ok realR,show s.node (addr (.node d x b u)) = _ from atB,realX]
        rw [show rbSuccessor fuel s (addr (.node d x b u)) (addr x) = _ from found]
        simp only [read_ok realM]
        rw [atM₀,base]
        simp only [aboveIn] at ran ⊢
        rw [one]
        simp only
        rw [two]
        simp only
        rw [three]
        exact ran

theorem hole_value (k k' : List (Frame Nat)) (side : Side) (c : Color) (x : ColorTree Nat) (a b n : Nat)
    (hole : Hole (k'++⟨side,c,a,x⟩::k) n) :
    Hole (k'++⟨side,c,b,x⟩::k) n := by
  induction k' generalizing n with
  | nil => cases c <;> exact hole
  | cons f k' ih =>
    obtain ⟨side',d,e,y⟩ := f
    have colors : top (k'++⟨side,c,b,x⟩::k) = top (k'++⟨side,c,a,x⟩::k) := by
      cases k' <;> rfl
    cases d with
    | black => exact ⟨hole.1,ih _ hole.2⟩
    | red => exact ⟨hole.1,hole.2.1,colors.trans hole.2.2.1,ih _ hole.2.2.2⟩

-- What __rb_erase leaves: a proper tree, or one that is a black node short at an empty place.
def Pending (s : State) (rebalance : Nat) (k : List (Frame Nat)) (t : ColorTree Nat) : Prop :=
  Holds s k t ∧ ((rebalance = 0 ∧ Proper (plug k t)) ∨ ∃ f k', k = f::k' ∧ rebalance = f.value ∧ t = .leaf ∧ Hole k 1)

-- Where a black node without children was, there is nothing to do only at the root.
theorem Holds.pending (holds : Holds s k .leaf) (hole : Hole k 1) : Pending s (above k) k .leaf := by
  refine ⟨holds,?_⟩
  cases k with
  | nil => exact .inl ⟨rfl,proper_leaf⟩
  | cons f k => exact .inr ⟨f,k,rfl,rfl,rfl,hole⟩

theorem only_child {n : Nat} {d : Color} (balanced : (ColorTree.node d .leaf a x).Balanced n ∨
    (ColorTree.node d x a .leaf).Balanced n) (filled : x ≠ .leaf) :
    d = .black ∧ n = 1 ∧ x.color = .red ∧ x.Balanced 0 := by
  have inner : x.Balanced 0 → x.color = .red := by
    intro flat
    cases color : x.color with
    | red => rfl
    | black => exact absurd (flat.of_zero color) filled
  cases d with
  | red =>
    exfalso
    rcases balanced with ⟨_,black,zero,flat⟩ | ⟨black,_,flat,zero⟩
    · cases zero
      exact filled (flat.of_zero black)
    · cases zero
      exact filled (flat.of_zero black)
  | black =>
    rcases balanced with ⟨m,rfl,zero,flat⟩ | ⟨m,rfl,flat,zero⟩
    · cases zero
      exact ⟨rfl,rfl,inner flat,flat⟩
    · cases zero
      exact ⟨rfl,rfl,inner flat,flat⟩

theorem rbUnlink_spec (fuel : Nat) (holds : Holds s k (.node c l a r)) (proper : Proper (plug k (.node c l a r)))
    (enough : r.inorder.length < fuel) :
    ∃ s' rebalance k' t', rbUnlink fuel s a = .ok (s',rebalance) ∧ Pending s' rebalance k' t' ∧
      (plug k' t').inorder = before k++(l.inorder++r.inorder)++after k := by
  obtain ⟨n,hole,balanced,fits⟩ := proper.hole
  have atA : s.node a = ⟨above k ||| bit c,addr r,addr l⟩ := holds.rep.1
  have real : a ≠ 0 := (holds.places a (by simp [inorder])).1
  have aligned := holds.above_aligned
  have placesL : ∀ b ∈ l.inorder, Place b := fun b member => holds.places b (by simp [inorder,member])
  have placesR : ∀ b ∈ r.inorder, Place b := fun b member => holds.places b (by simp [inorder,member])
  by_cases emptyL : l = .leaf
  · subst emptyL
    obtain ⟨s₁,s',ran,written,after⟩ := unlinkRight_spec holds
    by_cases emptyR : r = .leaf
    · subst emptyR
      have same : s₁ = s' := by
        rw [← written]
        exact (if_pos rfl).symm
      subst same
      refine ⟨s₁,if rbIsBlack (above k ||| bit c) then above k else 0,k,.leaf,?_,?_,by rw [inorder_plug]; simp [inorder]⟩
      · unfold rbUnlink
        rw [read_ok real,atA]
        simp only [bind,Except.bind,show addr .leaf = 0 from rfl,if_true,rbParent_word aligned]
        rw [show rbChangeChild s a 0 (above k) = _ from ran]
        rfl
      · rw [rbIsBlack_word aligned]
        cases c with
        | red =>
          have zero : n = 0 := balanced.2.2.1
          subst zero
          exact ⟨after,.inl ⟨rfl,hole.fill rfl (by simp [ColorTree.color])⟩⟩
        | black =>
          obtain ⟨m,rfl,zero,_⟩ := balanced
          cases zero
          exact after.pending hole
    · obtain ⟨rfl,rfl,red,flat⟩ := only_child (.inl balanced) emptyR
      have realR : addr r ≠ 0 := fun null => emptyR ((addr_leaf placesR).mp null)
      have proper' : Proper (plug k (r.paint .black)) := by
        refine hole.fill (flat.blacken red) ?_
        cases r <;> simp [ColorTree.paint,ColorTree.color]
      refine ⟨s',0,k,r.paint .black,?_,⟨after,.inl ⟨rfl,proper'⟩⟩,by rw [inorder_plug]; simp [inorder]⟩
      have write : s₁.put (addr r) (reword (above k ||| bit .black)) = s' := by
        rw [← written]
        exact (if_neg realR).symm
      unfold rbUnlink
      rw [read_ok real,atA]
      simp only [bind,Except.bind,show addr .leaf = 0 from rfl,if_true,rbParent_word aligned]
      rw [ran]
      simp only [ne_eq,realR,not_false_eq_true,if_true,write_ok realR]
      rw [write]
  · have realL : addr l ≠ 0 := fun null => emptyL ((addr_leaf placesL).mp null)
    by_cases emptyR : r = .leaf
    · subst emptyR
      obtain ⟨rfl,rfl,red,flat⟩ := only_child (.inr balanced) emptyL
      obtain ⟨s₁,s',one,two,after⟩ := unlinkLeft_spec holds emptyL
      have proper' : Proper (plug k (l.paint .black)) := by
        refine hole.fill (flat.blacken red) ?_
        cases l <;> simp [ColorTree.paint,ColorTree.color]
      refine ⟨s',0,k,l.paint .black,?_,⟨after,.inl ⟨rfl,proper'⟩⟩,by rw [inorder_plug]; simp [inorder]⟩
      unfold rbUnlink
      rw [read_ok real,atA]
      simp only [bind,Except.bind,realL,if_false,show addr .leaf = 0 from rfl,if_true,rbParent_word aligned]
      rw [one]
      simp only
      rw [two]
    · obtain ⟨s',k',d,m,u,rfl,left,ran,around,rep⟩ := unlinkBoth_spec fuel holds emptyL emptyR enough
      -- The place of the successor's child, below the successor at its new place.
      have order : (plug (k'++⟨.right,c,m,l⟩::k) (u.paint .black)).inorder =
          before k++(l.inorder++(plug k' (.node d .leaf m u)).inorder)++after k := by
        rw [plug_append]
        change (plug k (.node c l m (plug k' (u.paint .black)))).inorder = _
        rw [inorder_plug,inorder,inorder_plug,inorder_plug,before_left left]
        simp [inorder]
      have after : Holds s' (k'++⟨.right,c,m,l⟩::k) (u.paint .black) := by
        refine (holds_plug k' (⟨.right,c,m,l⟩::k)).mpr (holds_cons.mpr (holds.sub around rep ?_))
        have dropped : (plug k (.node c l m (plug k' (u.paint .black)))).inorder = before k++(l.inorder++(plug k'
            (.node d .leaf m u)).inorder)++after k := by
          rw [← order,plug_append]
          rfl
        change (plug k (.node c l m (plug k' (u.paint .black)))).inorder.Sublist _
        rw [dropped,inorder_plug k (.node c l a _)]
        exact (List.Sublist.append_left (List.Sublist.append_left (List.sublist_cons_self ..) _) _).append_right _
      have deep : Proper (plug (k'++⟨.right,c,a,l⟩::k) (.node d .leaf m u)) := by
        rw [plug_append]
        exact proper
      obtain ⟨n',hole',balanced',_⟩ := deep.hole
      have hole' := hole_value k k' .right c l a m n' hole'
      refine ⟨s',_,k'++⟨.right,c,m,l⟩::k,u.paint .black,ran,?_,order⟩
      by_cases empty : u = .leaf
      · subst empty
        have parent : aboveIn m k' = above (k'++⟨.right,c,m,l⟩::k) := by cases k' <;> rfl
        cases d with
        | red =>
          have zero : n' = 0 := balanced'.2.2.1
          subst zero
          rw [if_neg (by simp)]
          exact ⟨after,.inl ⟨rfl,hole'.fill rfl (by simp [ColorTree.paint,ColorTree.color])⟩⟩
        | black =>
          obtain ⟨n'',rfl,zero,_⟩ := balanced'
          cases zero
          rw [if_pos ⟨rfl,rfl⟩,parent]
          exact after.pending hole'
      · obtain ⟨rfl,rfl,red,flat⟩ := only_child (.inl balanced') empty
        have realU : addr u ≠ 0 := by
          intro null
          refine empty ((addr_leaf ?_).mp null)
          intro b member
          exact after.places b (by simp [member])
        rw [if_neg (fun both => realU both.1)]
        refine ⟨after,.inl ⟨rfl,hole'.fill (flat.blacken red) ?_⟩⟩
        cases u <;> simp [ColorTree.paint,ColorTree.color]

theorem rbErase_spec (fuel : Nat) (holds : Holds s [] t) (proper : Proper t) (member : a ∈ t.inorder)
    (enough : t.inorder.length < fuel) :
    ∃ s' t', rbErase fuel s a = .ok s' ∧ Holds s' [] t' ∧ Proper t' ∧ t'.inorder = t.inorder.erase a := by
  obtain ⟨k,c,l,r,rfl⟩ := exists_plug member
  have whole := inorder_plug k (.node c l a r)
  have short : r.inorder.length < fuel := by
    rw [whole] at enough
    simp only [inorder,List.length_append,List.length_cons] at enough
    omega
  have place : Holds s k (.node c l a r) := by
    have split := (holds_plug (s := s) (t := .node c l a r) k []).mpr holds
    rwa [List.append_nil] at split
  obtain ⟨s₁,rebalance,k',t',ran,⟨after,left⟩,order⟩ := rbUnlink_spec fuel place proper short
  have erased : before k++(l.inorder++r.inorder)++RedBlack.after k = (plug k (.node c l a r)).inorder.erase a := by
    have distinct := (perm_plug k (.node c l a r)).nodup_iff.mpr place.distinct
    rw [whole] at distinct ⊢
    simp only [inorder,List.append_assoc,List.cons_append] at distinct ⊢
    rw [← List.append_assoc (before k)] at distinct
    rw [← List.append_assoc (before k),← List.append_assoc (before k)]
    have fresh : a ∉ before k++l.inorder := by
      intro here
      exact (List.nodup_append.mp distinct).2.2 a here a List.mem_cons_self rfl
    rw [List.erase_append_right _ fresh,List.erase_cons_head]
  unfold rbErase
  rw [ran]
  simp only [bind,Except.bind]
  rcases left with ⟨rfl,proper'⟩ | ⟨f,k'',rfl,rfl,rfl,hole⟩
  · refine ⟨s₁,plug k' t',by simp,?_,proper',order.trans erased⟩
    exact (holds_plug k' []).mp (by rw [List.append_nil]; exact after)
  · have real : f.value ≠ 0 := (after.places f.value (by simp [cells])).1
    have length : k''.length < fuel := by
      have one := (perm_plug (f::k'') .leaf).length_eq
      rw [order,erased] at one
      have two := List.length_erase_le (a := a) (l := (plug k (.node c l a r)).inorder)
      have three := cells_length (f::k'')
      simp only [inorder,List.nil_append] at one
      simp only [List.length_cons] at three
      omega
    obtain ⟨s',fixed,t',holds',proper',order'⟩ := rbEraseFix_spec fuel 0 after hole rfl length
    refine ⟨s',t',?_,holds',proper',order'.trans (order.trans erased)⟩
    rw [if_pos real]
    exact fixed

end Unlinking

end RbTree
