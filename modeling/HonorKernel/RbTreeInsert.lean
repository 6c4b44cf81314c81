import HonorKernel.RbTreeShape

namespace RbTree
open RedBlack RedBlack.ColorTree

section Rotations
variable {s : State} {k : List (Frame Nat)} {side : Side} {c : Color} {t u x y z : ColorTree Nat}
  {g n p q w far near : Nat}

-- Case 3. What the links between parent and grandparent hold does not matter before.
theorem insertOuter_spec (distinct : (g::p::(t.inorder++x.inorder++u.inorder++cells k)).Nodup)
    (places : ∀ a ∈ g::p::(t.inorder++x.inorder++u.inorder++cells k), Place a)
    (atP : s.node p = link side w (addr t) far) (atG : s.node g = link side (above k ||| bit c) near (addr u))
    (repT : Rep s p t) (repX : Rep s q x) (repU : Rep s g u) (around : Around s k g) :
    ∃ s', insertOuter s side p g (addr x) = .ok s' ∧
      Around s' k p ∧ Rep s' (above k) (join side c t p (join side .red (x.paint .black) g u)) := by
  have realG := (places g (by simp)).1
  have realP := (places p (by simp)).1
  simp only [List.nodup_cons,List.nodup_append,List.mem_append,List.mem_cons] at distinct places
  have different : g ≠ p := by grind
  have awayG : g ≠ addr x := addr_ne (by grind) realG
  have awayP : p ≠ addr x := addr_ne (by grind) realP
  have away : ∀ l : List Nat, (∀ a ∈ l, Place a) → (∀ a ∈ x.inorder, a ∉ l) → addr x ∉ l :=
    fun l places => addr_outside fun a member => (places a member).1
  generalize first : s.put g (fun m => m.setChild side (addr x)) = s₁
  generalize second : unlessNull s₁ (addr x) (paintWord g .black) = s₂
  generalize third : s₂.put p (fun m => m.setChild side.other g) = s₃
  have repX₁ : Rep s₁ q x := first ▸ repX.put (by grind)
  have repX₂ : Rep s₂ g (x.paint .black) := second ▸ repX₁.painted (by grind) (by grind) g .black
  have repX₃ : Rep s₃ g (x.paint .black) := third ▸ repX₂.put (by rw [inorder_paint]; grind)
  have repT₃ : Rep s₃ p t := by
    have one : Rep s₁ p t := first ▸ repT.put (by grind)
    have two : Rep s₂ p t := second ▸ one.unless (away _ (by grind) (by grind))
    exact third ▸ two.put (by grind)
  have repU₃ : Rep s₃ g u := by
    have one : Rep s₁ g u := first ▸ repU.put (by grind)
    have two : Rep s₂ g u := second ▸ one.unless (away _ (by grind) (by grind))
    exact third ▸ two.put (by grind)
  have around₃ : Around s₃ k g := by
    have one : Around s₁ k g := first ▸ around.put (by grind)
    have two : Around s₂ k g := second ▸ one.unless (away _ (by grind) (by grind))
    exact third ▸ two.put (by grind)
  have atG₃ : s₃.node g = link side (above k ||| bit c) (addr x) (addr u) := by
    rw [← third,put_other different,← second,unlessNull_other awayG,← first,put_same,atG,link_setChild]
  have atP₃ : s₃.node p = link side w (addr t) g := by
    rw [← third,put_same,← second,unlessNull_other awayP,← first,put_other (Ne.symm different),atP,link_setChild_other]
  obtain ⟨s',ran,after,newP,newG,rest⟩ := rbRotateSetParents_spec (c := c) around₃
      (by rw [atG₃,link_parentColor]) realG realP different
    (by grind) (by grind) (by grind) (by grind) .red
  have frame : ∀ l : List Nat, (∀ a ∈ l, a ≠ g ∧ a ≠ p ∧ a ∉ cells k) → ∀ a ∈ l, s'.node a = s₃.node a :=
    fun l apart a member => rest a (apart a member).1 (apart a member).2.1 (apart a member).2.2
  refine ⟨s',?_,after,?_⟩
  · unfold insertOuter
    rw [setChild_ok realG]
    simp only [bind,Except.bind]
    rw [first,second,setChild_ok realP]
    simp only
    rw [third]
    exact ran
  · rw [atP₃,link_word] at newP
    rw [atG₃,link_word] at newG
    refine (rep_join ..).mpr ⟨?_,repT₃.frame (frame _ (by grind)),(rep_join ..).mpr
        ⟨?_,repX₃.frame (frame _ ?_),repU₃.frame (frame _ (by grind))⟩⟩
    · rw [newP,addr_join]
    · rw [newG,addr_paint]
    · rw [inorder_paint]
      grind

-- Case 2: the node moves up over its parent, which takes over its inner subtree.
theorem insertInner_spec (distinct : (n::p::(x.inorder++y.inorder++z.inorder)).Nodup)
    (places : ∀ a ∈ n::p::(x.inorder++y.inorder++z.inorder), Place a)
    (atN : s.node n = link side w (addr y) (addr z)) (atP : s.node p = link side near (addr x) far)
    (repX : Rep s p x) (repY : Rep s n y) (repZ : Rep s n z) : ∃ s', insertInner s side n p = .ok (s',n,addr z) ∧
    s'.node n = link side w p (addr z) ∧
      Rep s' n (join side .red x p (y.paint .black)) ∧ Rep s' n z ∧ s'.root = s.root ∧
      ∀ a, a ≠ n → a ≠ p → a ∉ y.inorder → a ≠ 0 → s'.node a = s.node a := by
  have realN := (places n (by simp)).1
  have realP := (places p (by simp)).1
  simp only [List.nodup_cons,List.nodup_append,List.mem_append,List.mem_cons] at distinct places
  have different : n ≠ p := by grind
  have awayN : n ≠ addr y := addr_ne (by grind) realN
  have awayP : p ≠ addr y := addr_ne (by grind) realP
  have away : ∀ l : List Nat, (∀ a ∈ l, Place a) → (∀ a ∈ y.inorder, a ∉ l) → addr y ∉ l :=
    fun l places => addr_outside fun a member => (places a member).1
  generalize first : s.put p (fun m => m.setChild side.other (addr y)) = s₁
  generalize second : unlessNull s₁ (addr y) (paintWord p .black) = s₂
  generalize third : s₂.put n (fun m => m.setChild side p) = s₃
  generalize fourth : s₃.put p (paintWord n .red) = s₄
  have repY₄ : Rep s₄ p (y.paint .black) := by
    have one : Rep s₁ n y := first ▸ repY.put (by grind)
    have two : Rep s₂ p (y.paint .black) := second ▸ one.painted (by grind) (by grind) p .black
    have three : Rep s₃ p (y.paint .black) := third ▸ two.put (by rw [inorder_paint]; grind)
    exact fourth ▸ three.put (by rw [inorder_paint]; grind)
  have repX₄ : Rep s₄ p x := by
    have one : Rep s₁ p x := first ▸ repX.put (by grind)
    have two : Rep s₂ p x := second ▸ one.unless (away _ (by grind) (by grind))
    have three : Rep s₃ p x := third ▸ two.put (by grind)
    exact fourth ▸ three.put (by grind)
  have repZ₄ : Rep s₄ n z := by
    have one : Rep s₁ n z := first ▸ repZ.put (by grind)
    have two : Rep s₂ n z := second ▸ one.unless (away _ (by grind) (by grind))
    have three : Rep s₃ n z := third ▸ two.put (by grind)
    exact fourth ▸ three.put (by grind)
  have atN₃ : s₃.node n = link side w p (addr z) := by
    rw [← third,put_same,← second,unlessNull_other awayN,← first,put_other different,atN,link_setChild]
  have atN₄ : s₄.node n = link side w p (addr z) := by
    rw [← fourth,put_other different,atN₃]
  have atP₄ : s₄.node p = link side (n ||| bit .red) (addr x) (addr y) := by
    rw [← fourth,put_same,← third,put_other (Ne.symm different),← second,unlessNull_other awayP,← first,put_same,atP,
        link_setChild_other,
      link_paint]
  refine ⟨s₄,?_,atN₄,(rep_join ..).mpr ⟨by rw [atP₄,addr_paint],repX₄,repY₄⟩,repZ₄,?_,?_⟩
  · unfold insertInner rbSetParentColor
    rw [read_ok realN,atN]
    simp only [bind,Except.bind,link_child]
    rw [setChild_ok realP]
    simp only
    rw [first,second,setChild_ok realN]
    simp only
    rw [third,write_ok realP]
    simp only
    rw [fourth,read_ok realN,atN₄]
    simp only [link_child_other]
  · rw [← fourth,← third,← second,← first]
    exact unlessNull_root
  · intro a one two three four
    have four : a ≠ addr y := addr_ne three four
    rw [← fourth,put_other two,← third,put_other one,← second,unlessNull_other four,← first,put_other two]

end Rotations

section Fixing
variable {s : State} {k : List (Frame Nat)} {t u x y z : ColorTree Nat} {side turn : Side} {g n p : Nat}

theorem insertUncle_spec (holds : Holds s (⟨turn,.red,p,x⟩::⟨side,.black,g,u⟩::k) t) (red : u.color = .red) :
    ∃ s₁ s₂ s',
    rbSetParentColor s (addr u) g .black = .ok s₁ ∧ rbSetParentColor s₁ p g .black = .ok s₂ ∧
    rbParent (s₂.node g).parentColor = above k ∧
    rbSetParentColor s₂ g (above k) .red = .ok s' ∧
    Holds s' k (join side .red (join turn .black t p x) g (u.paint .black)) := by
  have distinct := holds.distinct
  have places := holds.places
  simp only [cells,List.nodup_append,List.nodup_cons,List.mem_append,List.mem_cons] at distinct places
  have aligned := (holds_cons.mp (holds_cons.mp holds)).above_aligned
  obtain ⟨atP,repX,atG,repU,around⟩ := holds.around
  have repT := holds.rep
  simp only [above_cons] at atP atG repX repU around repT aligned
  have realG : g ≠ 0 := (places g (by grind)).1
  have realP : p ≠ 0 := (places p (by grind)).1
  have realU : addr u ≠ 0 := by
    intro null
    have empty := (addr_leaf (by grind)).mp null
    rw [empty] at red
    cases red
  have away : ∀ l : List Nat, (∀ a ∈ l, Place a) → (∀ a ∈ u.inorder, a ∉ l) → addr u ∉ l :=
    fun l places => addr_outside fun a member => (places a member).1
  have awayG : g ≠ addr u := addr_ne (by grind) realG
  have awayP : p ≠ addr u := addr_ne (by grind) realP
  have different : g ≠ p := by grind
  generalize first : s.put (addr u) (paintWord g .black) = s₁
  generalize second : s₁.put p (paintWord g .black) = s₂
  generalize third : s₂.put g (paintWord (above k) .red) = s₃
  have atG₂ : s₂.node g = link side (above k ||| bit .black) p (addr u) := by
    rw [← second,put_other different,← first,put_other awayG,atG]
  have atG₃ : s₃.node g = link side (above k ||| bit .red) p (addr u) := by
    rw [← third,put_same,atG₂,link_paint]
  have atP₃ : s₃.node p = link turn (g ||| bit .black) (addr t) (addr x) := by
    rw [← third,put_other (Ne.symm different),← second,put_same,← first,put_other awayP,atP,link_paint]
  have painted : unlessNull s (addr u) (paintWord g .black) = s₁ := by
    rw [← first]
    exact if_neg realU
  have repU₃ : Rep s₃ g (u.paint .black) := by
    have one : Rep s₁ g (u.paint .black) := painted ▸ repU.painted (by grind) (by grind) g .black
    have two : Rep s₂ g (u.paint .black) := second ▸ one.put (by rw [inorder_paint]; grind)
    exact third ▸ two.put (by rw [inorder_paint]; grind)
  have repT₃ : Rep s₃ p t := by
    have one : Rep s₁ p t := first ▸ repT.put (away _ (by grind) (by grind))
    have two : Rep s₂ p t := second ▸ one.put (by grind)
    exact third ▸ two.put (by grind)
  have repX₃ : Rep s₃ p x := by
    have one : Rep s₁ p x := first ▸ repX.put (away _ (by grind) (by grind))
    have two : Rep s₂ p x := second ▸ one.put (by grind)
    exact third ▸ two.put (by grind)
  have around₃ : Around s₃ k g := by
    have one : Around s₁ k g := first ▸ around.put (away _ (by grind) (by grind))
    have two : Around s₂ k g := second ▸ one.put (by grind)
    exact third ▸ two.put (by grind)
  refine ⟨s₁,s₂,s₃,?_,?_,?_,?_,holds.same (by rw [addr_join]; exact around₃) ?_ ?_⟩
  · rw [← first]
    exact write_ok realU
  · rw [← second]
    exact write_ok realP
  · rw [atG₂,link_parentColor,rbParent_word aligned]
  · rw [← third]
    exact write_ok realG
  · refine (rep_join ..).mpr ⟨by rw [atG₃,addr_join,addr_paint],(rep_join ..).mpr ⟨atP₃,repT₃,repX₃⟩,repU₃⟩
  · refine inorder_plug_congr k ?_
    cases side <;> cases turn <;> simp [join,inorder]

theorem insertStraight_spec (holds : Holds s (⟨side,.red,p,x⟩::⟨side,.black,g,u⟩::k) t) :
    ∃ s', insertOuter s side p g (addr x) = .ok s' ∧
    Holds s' k (join side .black t p (join side .red (x.paint .black) g u)) := by
  have distinct := holds.distinct
  have places := holds.places
  simp only [cells,List.nodup_append,List.nodup_cons,List.mem_append,List.mem_cons] at distinct places
  obtain ⟨atP,repX,atG,repU,around⟩ := holds.around
  simp only [above_cons] at atP atG repX repU around
  have distinct' : (g::p::(t.inorder++x.inorder++u.inorder++cells k)).Nodup := by
    simp only [List.nodup_append,List.nodup_cons,List.mem_append,List.mem_cons]
    grind
  obtain ⟨s',ran,after,rep⟩ := insertOuter_spec distinct' (by grind) atP atG holds.rep repX repU around
  refine ⟨s',ran,holds.same (by rw [addr_join]; exact after) rep (inorder_plug_congr k ?_)⟩
  cases side <;> simp [join,inorder]

theorem insertBent_spec (holds : Holds s (⟨side.other,.red,p,x⟩::⟨side,.black,g,u⟩::k) (join side .red y n z)) :
    ∃ s₁ s',
    insertInner s side n p = .ok (s₁,n,addr z) ∧ insertOuter s₁ side n g (addr z) = .ok s' ∧
    Holds s' k (join side .black (join side .red x p (y.paint .black)) n (join side .red (z.paint .black) g u)) := by
  have distinct := holds.distinct
  have places := holds.places
  simp only [cells,List.nodup_append,List.nodup_cons,nodup_join,mem_join,List.mem_append,List.mem_cons] at distinct places
  obtain ⟨atP,repX,atG,repU,around⟩ := holds.around
  obtain ⟨atN,repY,repZ⟩ := (rep_join ..).mp holds.rep
  simp only [above_cons,link_other] at atP atG atN repX repU around
  have distinctN : (n::p::(x.inorder++y.inorder++z.inorder)).Nodup := by
    simp only [List.nodup_append,List.nodup_cons,List.mem_append,List.mem_cons]
    grind
  obtain ⟨s₁,ran₁,atN₁,repT,repZ₁,root,rest⟩ := insertInner_spec distinctN (by grind) atN atP repX repY repZ
  have distinctG : (g::n::((join side .red x p (y.paint .black)).inorder++z.inorder++u.inorder++cells k)).Nodup := by
    simp only [List.nodup_append,List.nodup_cons,nodup_join,mem_join,inorder_paint,List.mem_append,List.mem_cons]
    grind
  have placesG : ∀ a ∈ g::n::((join side .red x p (y.paint .black)).inorder++z.inorder++u.inorder++cells k), Place a := by
    simp only [mem_join,inorder_paint,List.mem_append,List.mem_cons]
    grind
  have same : ∀ l : List Nat, (∀ a ∈ l, a ≠ n ∧ a ≠ p ∧ a ∉ y.inorder ∧ Place a) → ∀ a ∈ l, s₁.node a = s.node a :=
    fun l apart a member => rest a (apart a member).1 (apart a member).2.1 (apart a member).2.2.1 (apart a member).2.2.2.1
  have atG₁ : s₁.node g = link side (above k ||| bit .black) p (addr u) := by
    rw [same [g] (by grind) g (by simp)]
    exact atG
  obtain ⟨s',ran,after,rep⟩ := insertOuter_spec (t := join side .red x p (y.paint .black)) distinctG placesG
      (by rw [addr_join]; exact atN₁) atG₁ repT
    repZ₁ (repU.frame (same _ (by grind))) (around.frame (same _ (by grind)) root)
  refine ⟨s₁,s',ran₁,ran,holds.same (by rw [addr_join]; exact after) rep (inorder_plug_congr k ?_)⟩
  cases side <;> simp [join,inorder,Side.other]

theorem rbInsertFix_spec (fuel n : Nat) (holds : Holds s k t) (red : t.color = .red) (hole : Hole k n)
    (balanced : t.Balanced n) (enough : k.length < fuel) : ∃ s' t', rbInsertFix fuel s (addr t) (above k) = .ok s' ∧
    Holds s' [] t' ∧ Proper t' ∧
      t'.inorder = (plug k t).inorder := by
  induction fuel generalizing s k t n with
  | zero => cases enough
  | succ fuel ih =>
    unfold rbInsertFix
    cases k with
    | nil =>
      have distinct := holds.distinct
      have places := holds.places
      simp only [cells,List.append_nil] at distinct places
      have real : addr t ≠ 0 := by
        intro null
        rw [(addr_leaf places).mp null] at red
        cases red
      have painted : unlessNull s (addr t) (paintWord 0 .black) = s.put (addr t) (paintWord 0 .black) := if_neg real
      have rep : Rep (s.put (addr t) (paintWord 0 .black)) 0 (t.paint .black) := painted ▸ holds.rep.painted distinct places 0 .black
      refine ⟨{s.put (addr t) (paintWord 0 .black) with root := addr t},t.paint .black,?_,?_,?_,by simp [plug]⟩
      · rw [if_pos (show above ([] : List (Frame Nat)) = 0 from rfl)]
        unfold rbSetParentColor
        rw [write_ok real]
        rfl
      · exact holds.same (addr_paint .black t).symm (rep.frame fun _ _ => rfl) (by simp [plug])
      · refine ⟨?_,n+1,balanced.blacken red⟩
        cases t with
        | leaf => rfl
        | node c l a r => rfl
    | cons f k =>
      obtain ⟨turn,c,p,x⟩ := f
      have realP : p ≠ 0 := (holds.places p (by simp [cells])).1
      have aligned := (holds_cons.mp holds).above_aligned
      obtain ⟨atP,repX,around⟩ := holds.around
      simp only at atP repX around
      have word : (s.node p).parentColor = above k ||| bit c := by rw [atP,link_parentColor]
      simp only [above_cons,realP,if_false,word,rbIsBlack_word aligned,decide_eq_true_eq]
      cases c with
      | black =>
        exact ⟨s,_,rfl,(holds_plug (⟨turn,.black,p,x⟩::k) []).mp (by rw [List.append_nil]; exact holds),
            hole.fill balanced fun _ => rfl,rfl⟩
      | red =>
        obtain ⟨blackX,balancedX,blackTop,hole⟩ := hole
        cases k with
        | nil => cases blackTop
        | cons f k =>
          obtain ⟨side,c,g,u⟩ := f
          cases blackTop
          have distinct := holds.distinct
          have places := holds.places
          simp only [cells,List.nodup_append,List.nodup_cons,List.mem_append,List.mem_cons] at distinct places
          obtain ⟨atG,repU,around⟩ := around
          simp only [above_cons] at atP atG repU around aligned
          have realG : g ≠ 0 := (places g (by grind)).1
          have awayP : p ≠ addr u := addr_ne (by grind) realP
          have alignedG := (places g (by grind)).aligned
          have uncle : s.isRed (addr u) = decide (u.color = .red) := isRed_addr repU (by grind) alignedG
          obtain ⟨balancedU,hole⟩ := hole
          simp only [above_cons,word_red,reduceCtorEq,if_false]
          rw [read_ok realG]
          simp only [bind,Except.bind,atG,link_sideOf _ _ _ _ awayP,link_child_other,uncle,decide_eq_true_eq]
          cases color : u.color with
          | red =>
            obtain ⟨s₁,s₂,s₃,one,two,three,four,after⟩ := insertUncle_spec holds color
            have taller : (join side .red (join turn .black t p x) g (u.paint .black)).Balanced (n+1) := by
              refine (balanced_red ..).mpr ⟨color_join ..,?_,(balanced_black ..).mpr ⟨balanced,balancedX⟩,balancedU.blacken color⟩
              cases u with
              | leaf => rfl
              | node c l a r => rfl
            obtain ⟨s',t',ran,result,proper,order⟩ := ih (n+1) after (color_join ..) hole taller
                (by simp only [List.length_cons] at enough; omega)
            rw [addr_join] at ran
            refine ⟨s',t',?_,result,proper,order.trans ?_⟩
            · rw [if_pos rfl,one]
              simp only
              rw [two]
              simp only
              rw [three,four]
              exact ran
            · change _ = (plug k (join side .black (join turn .red t p x) g u)).inorder
              refine inorder_plug_congr k ?_
              cases side <;> cases turn <;> simp [join,inorder]
          | black =>
            rw [if_neg (by simp),atP]
            -- Either rotation leaves a black node over two red ones, and the loop is done.
            have finish : ∀ {s' : State} {l r : ColorTree Nat} {a : Nat}, Holds s' k (join side .black l a r) →
                (join side .black l a r).inorder = (join side .black (join turn .red t p x) g u).inorder →
                    l.Balanced n → r.Balanced n →
                ∃ t', Holds s' [] t' ∧ Proper t' ∧ t'.inorder = (plug (⟨turn,.red,p,x⟩::⟨side,.black,g,u⟩::k) t).inorder := by
              intro s' l r a after order left right
              refine ⟨_,(holds_plug k []).mp (by rw [List.append_nil]; exact after),?_,inorder_plug_congr k order⟩
              refine hole.fill ((balanced_black ..).mpr ⟨left,right⟩) ?_
              rw [color_join]
              simp
            have filled : t ≠ .leaf := by
              intro empty
              rw [empty] at red
              cases red
            have whiteX : x.paint .black = x := blackX ▸ paint_color x
            by_cases straight : turn = side
            · subst straight
              have inside := addr_mem filled
              have away : addr t ≠ addr x := addr_ne (by grind) (places _ (.inl inside)).1
              rw [link_child_other,if_neg away]
              obtain ⟨s',ran,after⟩ := insertStraight_spec holds
              rw [whiteX] at after
              obtain ⟨t',result⟩ := finish after (by cases turn <;> simp [join,inorder]) balanced
                ((balanced_red ..).mpr ⟨blackX,color,balancedX,balancedU⟩)
              exact ⟨s',t',ran,result⟩
            · have inner := Side.eq_other straight
              subst inner
              obtain ⟨y,a,z,same⟩ := (exists_join side t).resolve_left filled
              rw [red] at same
              subst same
              obtain ⟨blackY,blackZ,balancedY,balancedZ⟩ := (balanced_red ..).mp balanced
              obtain ⟨s₁,s',one,two,after⟩ := insertBent_spec holds
              rw [show y.paint .black = y from blackY ▸ paint_color y,show z.paint .black = z from blackZ ▸ paint_color z] at after
              obtain ⟨t',result⟩ := finish after (by cases side <;> simp [join,inorder,Side.other])
                ((balanced_red ..).mpr ⟨blackX,blackY,balancedX,balancedY⟩) ((balanced_red ..).mpr ⟨blackZ,color,balancedZ,balancedU⟩)
              refine ⟨s',t',?_,result⟩
              rw [link_other,link_child_other,addr_join,if_pos rfl,one]
              exact two

end Fixing

end RbTree
