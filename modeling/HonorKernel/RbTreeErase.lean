import HonorKernel.RbTreeShape

namespace RbTree
open RedBlack RedBlack.ColorTree

section Rotations
variable {s : State} {k : List (Frame Nat)} {side : Side} {c : Color} {t u x y z : ColorTree Nat}
  {b d p q w far near : Nat}

theorem eraseSibling_spec (holds : Holds s (⟨side,c,p,join side .red y b z⟩::k) t) (filled : y ≠ .leaf) : ∃ s',
    eraseSibling s side p b = .ok (s',addr y) ∧ Holds s' (⟨side,.red,p,y.paint .black⟩::⟨side,c,b,z⟩::k) t := by
  have distinct := holds.distinct
  have places := holds.places
  simp only [cells,List.nodup_append,List.nodup_cons,nodup_join,mem_join,List.mem_append,List.mem_cons] at distinct places
  obtain ⟨atP,repS,around⟩ := holds.around
  obtain ⟨atB,repY,repZ⟩ := (rep_join ..).mp repS
  have repT := holds.rep
  simp only [above_cons,addr_join] at atP atB repT around repY repZ
  have realP : p ≠ 0 := (places p (by grind)).1
  have realB : b ≠ 0 := (places b (by grind)).1
  have inside := addr_mem filled
  have realY : addr y ≠ 0 := (places _ (by grind)).1
  have different : p ≠ b := by grind
  have awayP : p ≠ addr y := addr_ne (by grind) realP
  have awayB : b ≠ addr y := addr_ne (by grind) realB
  generalize first : s.put p (fun m => m.setChild side.other (addr y)) = s₁
  generalize second : s₁.put (addr y) (paintWord p .black) = s₂
  generalize third : s₂.put b (fun m => m.setChild side p) = s₃
  have painted : unlessNull s₁ (addr y) (paintWord p .black) = s₂ := by
    rw [← second]
    exact if_neg realY
  have repY₃ : Rep s₃ p (y.paint .black) := by
    have one : Rep s₁ b y := first ▸ repY.put (by grind)
    have two : Rep s₂ p (y.paint .black) := painted ▸ one.painted (by grind) (by grind) p .black
    exact third ▸ two.put (by rw [inorder_paint]; grind)
  have repT₃ : Rep s₃ p t := by
    have one : Rep s₁ p t := first ▸ repT.put (by grind)
    have two : Rep s₂ p t := second ▸ one.put (by grind)
    exact third ▸ two.put (by grind)
  have repZ₃ : Rep s₃ b z := by
    have one : Rep s₁ b z := first ▸ repZ.put (by grind)
    have two : Rep s₂ b z := second ▸ one.put (by grind)
    exact third ▸ two.put (by grind)
  have around₃ : Around s₃ k p := by
    have one : Around s₁ k p := first ▸ around.put (by grind)
    have two : Around s₂ k p := second ▸ one.put (by grind)
    exact third ▸ two.put (by grind)
  have atP₃ : s₃.node p = link side (above k ||| bit c) (addr t) (addr y) := by
    rw [← third,put_other different,← second,put_other awayP,← first,put_same,atP,link_setChild_other]
  have atB₃ : s₃.node b = link side (p ||| bit .red) p (addr z) := by
    rw [← third,put_same,← second,put_other awayB,← first,put_other (Ne.symm different),atB,link_setChild]
  obtain ⟨s',ran,after,newB,newP,rest⟩ := rbRotateSetParents_spec (c := c) around₃
      (by rw [atP₃,link_parentColor]) realP realB different
    (by grind) (by grind) (by grind) (by grind) .red
  rw [atB₃,link_word] at newB
  rw [atP₃,link_word] at newP
  have frame : ∀ l : List Nat, (∀ a ∈ l, a ≠ p ∧ a ≠ b ∧ a ∉ cells k) → ∀ a ∈ l, s'.node a = s₃.node a :=
    fun l apart a member => rest a (apart a member).1 (apart a member).2.1 (apart a member).2.2
  refine ⟨s',?_,holds.same ⟨?_,repY₃.frame (frame _ ?_),newB,repZ₃.frame (frame _ (by grind)),after⟩
      (repT₃.frame (frame _ (by grind))) ?_⟩
  · unfold eraseSibling rbSetParentColor
    rw [read_ok realB,atB]
    simp only [bind,Except.bind,link_child]
    rw [setChild_ok realP,first]
    simp only
    rw [write_ok realY,second]
    simp only
    rw [setChild_ok realB,third]
    simp only
    rw [ran]
  · simp only [above_cons,addr_paint]
    exact newP
  · rw [inorder_paint]
    grind
  · refine inorder_plug_congr k ?_
    cases side <;> simp [join,inorder]

-- Case 4. The words of the sibling and of its far child do not matter before.
theorem eraseOuter_spec (distinct : (p::b::(t.inorder++y.inorder++z.inorder++cells k)).Nodup)
    (places : ∀ a ∈ p::b::(t.inorder++y.inorder++z.inorder++cells k), Place a) (filled : z ≠ .leaf)
    (atP : s.node p = link side (above k ||| bit c) (addr t) far) (atB : s.node b = link side w (addr y) (addr z))
    (repT : Rep s p t) (repY : Rep s b y) (repZ : Rep s q z) (around : Around s k p) :
    ∃ s', eraseOuter s side p b (addr z) = .ok s' ∧
      Around s' k b ∧ Rep s' (above k) (join side c (join side .black t p y) b (z.paint .black)) := by
  have realP := (places p (by simp)).1
  have placeB := places b (by simp)
  have realB := placeB.1
  simp only [List.nodup_cons,List.nodup_append,List.mem_append,List.mem_cons] at distinct places
  have inside := addr_mem filled
  have realZ : addr z ≠ 0 := (places _ (by grind)).1
  have different : p ≠ b := by grind
  have awayP : p ≠ addr y := addr_ne (by grind) realP
  have awayB : b ≠ addr y := addr_ne (by grind) realB
  have away : ∀ l : List Nat, (∀ a ∈ l, Place a) → (∀ a ∈ y.inorder, a ∉ l) → addr y ∉ l :=
    fun l places => addr_outside fun a member => (places a member).1
  generalize first : s.put p (fun m => m.setChild side.other (addr y)) = s₁
  generalize second : unlessNull s₁ (addr y) (parentWord p) = s₂
  generalize third : s₂.put b (fun m => m.setChild side p) = s₃
  generalize fourth : s₃.put (addr z) (paintWord b .black) = s₄
  have painted : unlessNull s₃ (addr z) (paintWord b .black) = s₄ := by
    rw [← fourth]
    exact if_neg realZ
  have repY₄ : Rep s₄ p y := by
    have one : Rep s₁ b y := first ▸ repY.put (by grind)
    have two : Rep s₂ p y := second ▸ one.moved (by grind) (by grind) placeB.aligned p
    have three : Rep s₃ p y := third ▸ two.put (by grind)
    exact fourth ▸ three.put (by grind)
  have repZ₄ : Rep s₄ b (z.paint .black) := by
    have one : Rep s₁ q z := first ▸ repZ.put (by grind)
    have two : Rep s₂ q z := second ▸ one.unless (away _ (by grind) (by grind))
    have three : Rep s₃ q z := third ▸ two.put (by grind)
    exact painted ▸ three.painted (by grind) (by grind) b .black
  have repT₄ : Rep s₄ p t := by
    have one : Rep s₁ p t := first ▸ repT.put (by grind)
    have two : Rep s₂ p t := second ▸ one.unless (away _ (by grind) (by grind))
    have three : Rep s₃ p t := third ▸ two.put (by grind)
    exact fourth ▸ three.put (by grind)
  have around₄ : Around s₄ k p := by
    have one : Around s₁ k p := first ▸ around.put (by grind)
    have two : Around s₂ k p := second ▸ one.unless (away _ (by grind) (by grind))
    have three : Around s₃ k p := third ▸ two.put (by grind)
    exact fourth ▸ three.put (by grind)
  have atP₄ : s₄.node p = link side (above k ||| bit c) (addr t) (addr y) := by
    rw [← fourth,put_other (by grind),← third,put_other different,← second,unlessNull_other awayP,← first,put_same,
        atP,link_setChild_other]
  have atB₄ : s₄.node b = link side w p (addr z) := by
    rw [← fourth,put_other (by grind),← third,put_same,← second,unlessNull_other awayB,← first,put_other
        (Ne.symm different),atB,link_setChild]
  obtain ⟨s',ran,after,newB,newP,rest⟩ := rbRotateSetParents_spec (c := c) around₄
      (by rw [atP₄,link_parentColor]) realP realB different
    (by grind) (by grind) (by grind) (by grind) .black
  rw [atB₄,link_word] at newB
  rw [atP₄,link_word] at newP
  have frame : ∀ l : List Nat, (∀ a ∈ l, a ≠ p ∧ a ≠ b ∧ a ∉ cells k) → ∀ a ∈ l, s'.node a = s₄.node a :=
    fun l apart a member => rest a (apart a member).1 (apart a member).2.1 (apart a member).2.2
  refine ⟨s',?_,after,(rep_join ..).mpr ⟨?_,(rep_join ..).mpr ⟨newP,repT₄.frame (frame _ (by grind)),repY₄.frame (frame _ (by grind))⟩,
    repZ₄.frame (frame _ ?_)⟩⟩
  · unfold eraseOuter rbSetParentColor
    rw [read_ok realB,atB]
    simp only [bind,Except.bind,link_child]
    rw [setChild_ok realP,first]
    simp only
    rw [second,setChild_ok realB,third]
    simp only
    rw [write_ok realZ,fourth]
    exact ran
  · rw [addr_join,addr_paint]
    exact newB
  · rw [inorder_paint]
    grind

theorem eraseInner_spec (distinct : (p::d::b::(t.inorder++x.inorder++y.inorder++z.inorder)).Nodup)
    (places : ∀ a ∈ p::d::b::(t.inorder++x.inorder++y.inorder++z.inorder), Place a)
    (atP : s.node p = link side w (addr t) d) (atD : s.node d = link side (p ||| bit c) b (addr z))
    (atB : s.node b = link side near (addr y) (addr x)) (repT : Rep s p t) (repX : Rep s b x) (repY : Rep s b y)
    (repZ : Rep s d z) : ∃ s', eraseInner s side p d b = .ok (s',d,b) ∧
      s'.node p = link side w (addr t) b ∧ s'.node b = link side near (addr y) d ∧
      Rep s' p (join side c (x.paint .black) d z) ∧
      Rep s' p t ∧ Rep s' b y ∧ s'.root = s.root ∧ ∀ a, a ≠ p → a ≠ d → a ≠ b → a ∉ x.inorder → a ≠ 0 →
      s'.node a = s.node a := by
  have realP := (places p (by simp)).1
  have realD := (places d (by simp)).1
  have realB := (places b (by simp)).1
  simp only [List.nodup_cons,List.nodup_append,List.mem_append,List.mem_cons] at distinct places
  have apart : p ≠ d ∧ p ≠ b ∧ d ≠ b := by grind
  have awayP : p ≠ addr x := addr_ne (by grind) realP
  have awayD : d ≠ addr x := addr_ne (by grind) realD
  have awayB : b ≠ addr x := addr_ne (by grind) realB
  have away : ∀ l : List Nat, (∀ a ∈ l, Place a) → (∀ a ∈ x.inorder, a ∉ l) → addr x ∉ l :=
    fun l places => addr_outside fun a member => (places a member).1
  generalize first : s.put d (fun m => m.setChild side (addr x)) = s₁
  generalize second : unlessNull s₁ (addr x) (paintWord d .black) = s₂
  generalize third : s₂.put b (fun m => m.setChild side.other d) = s₃
  generalize fourth : s₃.put p (fun m => m.setChild side.other b) = s₄
  have others : ∀ {u : ColorTree Nat} {r : Nat}, (∀ a ∈ u.inorder, Place a ∧ a ≠ p ∧ a ≠ d ∧ a ≠ b ∧ a ∉ x.inorder) →
      Rep s r u → Rep s₄ r u := by
    intro u r outside rep
    have one : Rep s₁ r u := first ▸ rep.put (by grind)
    have two : Rep s₂ r u := second ▸ one.unless (away _ (by grind) (by grind))
    have three : Rep s₃ r u := third ▸ two.put (by grind)
    exact fourth ▸ three.put (by grind)
  have repX₄ : Rep s₄ d (x.paint .black) := by
    have one : Rep s₁ b x := first ▸ repX.put (by grind)
    have two : Rep s₂ d (x.paint .black) := second ▸ one.painted (by grind) (by grind) d .black
    have three : Rep s₃ d (x.paint .black) := third ▸ two.put (by rw [inorder_paint]; grind)
    exact fourth ▸ three.put (by rw [inorder_paint]; grind)
  have atP₄ : s₄.node p = link side w (addr t) b := by
    rw [← fourth,put_same,← third,put_other apart.2.1,← second,unlessNull_other awayP,← first,put_other apart.1,atP,
        link_setChild_other]
  have atD₄ : s₄.node d = link side (p ||| bit c) (addr x) (addr z) := by
    rw [← fourth,put_other (Ne.symm apart.1),← third,put_other apart.2.2,← second,unlessNull_other awayD,← first,
        put_same,atD,link_setChild]
  have atB₄ : s₄.node b = link side near (addr y) d := by
    rw [← fourth,put_other (Ne.symm apart.2.1),← third,put_same,← second,unlessNull_other awayB,← first,put_other
        (Ne.symm apart.2.2),atB,
      link_setChild_other]
  refine ⟨s₄,?_,atP₄,atB₄,(rep_join ..).mpr ⟨by rw [atD₄,addr_paint],repX₄,others (by grind) repZ⟩,others
      (by grind) repT,others (by grind) repY,?_,?_⟩
  · unfold eraseInner
    rw [read_ok realB,atB]
    simp only [bind,Except.bind,link_child_other]
    rw [setChild_ok realD,first]
    simp only
    rw [second,setChild_ok realB,third]
    simp only
    rw [setChild_ok realP,fourth]
  · rw [← fourth,← third,← second,← first]
    exact unlessNull_root
  · intro a one two three four five
    have six : a ≠ addr x := addr_ne four five
    rw [← fourth,put_other one,← third,put_other three,← second,unlessNull_other six,← first,put_other two]

end Rotations

section Fixing
variable {s : State} {k : List (Frame Nat)} {side : Side} {c cd : Color} {t x y z : ColorTree Nat} {b d p : Nat}

theorem eraseFar_spec (holds : Holds s (⟨side,c,p,join side .black y b z⟩::k) t) (filled : z ≠ .leaf) : ∃ s',
    eraseOuter s side p b (addr z) = .ok s' ∧ Holds s' k (join side c (join side .black t p y) b (z.paint .black)) := by
  have distinct := holds.distinct
  have places := holds.places
  simp only [cells,List.nodup_append,List.nodup_cons,nodup_join,mem_join,List.mem_append,List.mem_cons] at distinct places
  obtain ⟨atP,repS,around⟩ := holds.around
  obtain ⟨atB,repY,repZ⟩ := (rep_join ..).mp repS
  simp only [addr_join] at atP atB around repY repZ
  have distinct' : (p::b::(t.inorder++y.inorder++z.inorder++cells k)).Nodup := by
    simp only [List.nodup_append,List.nodup_cons,List.mem_append,List.mem_cons]
    grind
  obtain ⟨s',ran,after,rep⟩ := eraseOuter_spec distinct' (by grind) filled atP atB holds.rep repY repZ around
  refine ⟨s',ran,holds.same (by rw [addr_join]; exact after) rep (inorder_plug_congr k ?_)⟩
  cases side <;> simp [join,inorder]

theorem eraseNear_spec (holds : Holds s (⟨side,c,p,join side .black (join side .red y b x) d z⟩::k) t) : ∃ s₁ s',
    eraseInner s side p d b = .ok (s₁,d,b) ∧ eraseOuter s₁ side p b d = .ok s' ∧
    Holds s' k (join side c (join side .black t p y) b (join side .black (x.paint .black) d z)) := by
  have distinct := holds.distinct
  have places := holds.places
  simp only [cells,List.nodup_append,List.nodup_cons,nodup_join,mem_join,List.mem_append,List.mem_cons] at distinct places
  obtain ⟨atP,repS,around⟩ := holds.around
  obtain ⟨atD,repB,repZ⟩ := (rep_join ..).mp repS
  obtain ⟨atB,repY,repX⟩ := (rep_join ..).mp repB
  simp only [addr_join] at atP atB atD around repY repX repZ
  have distinct₁ : (p::d::b::(t.inorder++x.inorder++y.inorder++z.inorder)).Nodup := by
    simp only [List.nodup_append,List.nodup_cons,List.mem_append,List.mem_cons]
    grind
  obtain ⟨s₁,ran₁,atP₁,atB₁,repD,repT,repY₁,root,rest⟩ := eraseInner_spec distinct₁ (by grind) atP atD atB holds.rep repX repY repZ
  have distinct₂ : (p::b::(t.inorder++y.inorder++(join side .black (x.paint .black) d z).inorder++cells k)).Nodup := by
    simp only [List.nodup_append,List.nodup_cons,nodup_join,mem_join,inorder_paint,List.mem_append,List.mem_cons]
    and_intros <;> grind
  have places₂ : ∀ a ∈ p::b::(t.inorder++y.inorder++(join side .black (x.paint .black) d z).inorder++cells k), Place a := by
    simp only [mem_join,inorder_paint,List.mem_append,List.mem_cons]
    grind
  have around₁ : Around s₁ k p := by
    refine around.frame ?_ root
    intro a member
    exact rest a (by grind) (by grind) (by grind) (by grind) (places a (by grind)).1
  obtain ⟨s',ran,after,rep⟩ := eraseOuter_spec distinct₂ places₂ (join_ne_leaf _ _ _ _ _) atP₁
      (by rw [addr_join]; exact atB₁) repT repY₁ repD around₁
  rw [addr_join] at ran
  rw [paint_join] at rep
  refine ⟨s₁,s',ran₁,ran,holds.same (by rw [addr_join]; exact after) rep (inorder_plug_congr k ?_)⟩
  cases side <;> simp [join,inorder]

theorem eraseRed_spec (holds : Holds s (⟨side,c,p,join side .black y b z⟩::k) t) : ∃ s',
    rbSetParentColor s b p .red = .ok s' ∧ Holds s' (⟨side,c,p,join side .red y b z⟩::k) t := by
  have distinct := holds.distinct
  have places := holds.places
  simp only [cells,List.nodup_append,List.nodup_cons,nodup_join,mem_join,List.mem_append,List.mem_cons] at distinct places
  obtain ⟨atP,repS,around⟩ := holds.around
  obtain ⟨atB,repY,repZ⟩ := (rep_join ..).mp repS
  have repT := holds.rep
  simp only [above_cons,addr_join] at atP atB around repY repZ repT
  have realB : b ≠ 0 := (places b (by grind)).1
  refine ⟨s.put b (paintWord p .red),write_ok realB,holds.same ⟨?_,(rep_join ..).mpr ⟨?_,repY.put (by grind),repZ.put (by grind)⟩,
    around.put (by grind)⟩ (repT.put (by grind)) (inorder_plug_congr k ?_)⟩
  · rw [put_other (by grind),atP,addr_join]
  · rw [put_same,atB,link_paint]
  · cases side <;> simp [join,inorder]

theorem rbSetBlack_spec (holds : Holds s (⟨side,.red,p,x⟩::k) t) :
    ∃ s', rbSetBlack s p = .ok s' ∧ Holds s' (⟨side,.black,p,x⟩::k) t := by
  have distinct := holds.distinct
  have places := holds.places
  simp only [cells,List.nodup_append,List.nodup_cons,List.mem_append,List.mem_cons] at distinct places
  obtain ⟨atP,repX,around⟩ := holds.around
  have repT := holds.rep
  simp only [above_cons] at atP repX around repT
  have realP : p ≠ 0 := (places p (by grind)).1
  refine ⟨_,write_ok realP,holds.same ⟨?_,repX.put (by grind),around.put (by grind)⟩ (repT.put (by grind)) (inorder_plug_congr k ?_)⟩
  · rw [put_same,atP,link_parentColor,link_word,word_red]
    rfl
  · cases side <;> simp [join,inorder]

-- What every way out of the loop leaves.
def Done (s : State) (k : List (Frame Nat)) (t : ColorTree Nat) : Prop := ∃ t', Holds s [] t' ∧ Proper t' ∧ t'.inorder = (plug k t).inorder

theorem Holds.done {s' : State} {k' : List (Frame Nat)} {t' : ColorTree Nat} (holds : Holds s' k' t')
    (hole : Hole k' n) (balanced : t'.Balanced n) (fits : t'.color = .red → top k' = some .black)
    (order : (plug k' t').inorder = (plug k t).inorder) : Done s' k t :=
  ⟨plug k' t',(holds_plug k' []).mp (by rw [List.append_nil]; exact holds),hole.fill balanced fits,order⟩

theorem eraseRest_spec {again : State → Nat → Nat → Except Fault State}
    (holds : Holds s (⟨side,c,p,join side .black y b z⟩::k) t)
    (hole : Hole (⟨side,c,p,join side .black y b z⟩::k) (n+1)) (balanced : t.Balanced n)
    (next : ∀ s₁, c = .black → k ≠ [] → Holds s₁ k (join side .black t p (join side .red y b z)) →
      (join side .black t p (join side .red y b z)).Balanced (n+1) →
      ∃ s', again s₁ p (above k) = .ok s' ∧ Done s' k (join side .black t p (join side .red y b z))) :
    ∃ s', eraseRest again s side p b = .ok s' ∧ Done s' (⟨side,c,p,join side .black y b z⟩::k) t := by
  have places := holds.places
  simp only [cells,mem_join,List.mem_append,List.mem_cons] at places
  obtain ⟨atP,repS,around⟩ := holds.around
  obtain ⟨atB,repY,repZ⟩ := (rep_join ..).mp repS
  have placeB : Place b := places b (by grind)
  simp only [addr_join] at atP atB around repY repZ
  have redY : s.isRed (addr y) = decide (y.color = .red) := isRed_addr repY (by grind) placeB.aligned
  have redZ : s.isRed (addr z) = decide (z.color = .red) := isRed_addr repZ (by grind) placeB.aligned
  obtain ⟨balancedS,under⟩ := hole.sibling
  obtain ⟨balancedY,balancedZ⟩ := (balanced_black ..).mp balancedS
  unfold eraseRest
  rw [read_ok placeB.1,atB]
  simp only [bind,Except.bind,link_child,link_child_other,redY,redZ]
  cases colorZ : z.color with
  | red =>
    have filled : z ≠ .leaf := by
      intro empty
      rw [empty] at colorZ
      cases colorZ
    obtain ⟨s',ran,after⟩ := eraseFar_spec holds filled
    obtain ⟨m,hole',balanced'⟩ := hole.rejoin side b ((balanced_black side t y p n).mpr ⟨balanced,balancedY⟩)
        (balancedZ.blacken colorZ)
      (color_join ..) (by cases z <;> rfl)
    refine ⟨s',ran,after.done hole' balanced' ?_ (inorder_plug_congr k ?_)⟩
    · rw [color_join]
      exact fun red => (under red).2
    · cases side <;> simp [join,inorder]
  | black =>
    cases colorY : y.color with
    | red =>
      have filled : y ≠ .leaf := by
        intro empty
        rw [empty] at colorY
        cases colorY
      obtain ⟨y₁,a,y₂,same⟩ := (exists_join side y).resolve_left filled
      rw [colorY] at same
      subst same
      obtain ⟨black₁,black₂,balanced₁,balanced₂⟩ := (balanced_red ..).mp balancedY
      obtain ⟨s₁,s',one,two,after⟩ := eraseNear_spec holds
      rw [show y₂.paint .black = y₂ from black₂ ▸ paint_color y₂] at after
      obtain ⟨m,hole',balanced'⟩ := hole.rejoin side a ((balanced_black side t y₁ p n).mpr ⟨balanced,balanced₁⟩)
        ((balanced_black side y₂ z b n).mpr ⟨balanced₂,balancedZ⟩) (color_join ..) (color_join ..)
      refine ⟨s',?_,after.done hole' balanced' ?_ (inorder_plug_congr k ?_)⟩
      · simp only [reduceCtorEq,decide_false,decide_true,Bool.not_false,Bool.not_true,Bool.and_false,if_false,Bool.false_eq_true]
        rw [addr_join,one]
        exact two
      · rw [color_join]
        exact fun red => (under red).2
      · cases side <;> simp [join,inorder]
    | black =>
      obtain ⟨s₁,one,after⟩ := eraseRed_spec holds
      have short : (join side .red y b z).Balanced n := (balanced_red ..).mpr ⟨colorY,colorZ,balancedY,balancedZ⟩
      have level : (join side .black t p (join side .red y b z)).Balanced (n+1) := (balanced_black ..).mpr ⟨balanced,short⟩
      have order : (plug k (join side .black t p (join side .red y b z))).inorder =
          (plug (⟨side,c,p,join side .black y b z⟩::k) t).inorder := by
        refine inorder_plug_congr k ?_
        cases side <;> simp [join,inorder]
      have aligned := (holds_cons.mp after).above_aligned
      have word : (s₁.node p).parentColor = above k ||| bit c := by rw [after.around.1,link_parentColor]
      simp only [reduceCtorEq,decide_false,Bool.not_false,Bool.and_self,if_true,one,word,rbIsBlack_word aligned,rbParent_word aligned]
      cases c with
      | red =>
        obtain ⟨s₂,two,after₂⟩ := rbSetBlack_spec after
        exact ⟨s₂,two,(holds_cons.mp after₂).done hole.2.2.2 level (by rw [color_join]; simp) order⟩
      | black =>
        have after' := holds_cons.mp after
        simp only [decide_true,if_true]
        by_cases last : k = []
        · subst last
          exact ⟨s₁,if_pos rfl,after'.done trivial level (by rw [color_join]; simp) order⟩
        · have more : above k ≠ 0 := fun null => last (after'.above_eq_zero.mp null)
          obtain ⟨s',ran,t',rest⟩ := next s₁ rfl last after' level
          exact ⟨s',by rw [if_neg more]; exact ran,t',rest.1,rest.2.1,rest.2.2.trans order⟩

theorem rbEraseFix_spec (fuel n : Nat) {f : Frame Nat} (holds : Holds s (f::k) t) (hole : Hole (f::k) (n+1))
    (balanced : t.Balanced n) (enough : k.length < fuel) : ∃ s', rbEraseFix fuel s (addr t) f.value = .ok s' ∧
    Done s' (f::k) t := by
  induction fuel generalizing s k t f n with
  | zero => cases enough
  | succ fuel ih =>
    obtain ⟨side,c,p,sibling⟩ := f
    obtain ⟨balancedS,under⟩ := hole.sibling
    have filled : sibling ≠ .leaf := by
      intro empty
      rw [empty] at balancedS
      cases balancedS
    obtain ⟨y,b,z,same⟩ := (exists_join side sibling).resolve_left filled
    generalize colored : sibling.color = d at same
    subst same
    have distinct := holds.distinct
    have places := holds.places
    simp only [cells,List.nodup_append,List.nodup_cons,mem_join,List.mem_append,List.mem_cons] at distinct places
    have placeP : Place p := places p (by grind)
    have realB : b ≠ 0 := (places b (by grind)).1
    obtain ⟨atP,repS,around⟩ := holds.around
    obtain ⟨atB,repY,repZ⟩ := (rep_join ..).mp repS
    simp only [addr_join] at atP atB around repY repZ
    have away : addr t ≠ b := Ne.symm (addr_ne (by grind) realB)
    have again : ∀ {s₁ : State} {c' : Color} {y' z' : ColorTree Nat} {b' : Nat} {k' : List (Frame Nat)},
        (c' = .black → k'.length ≤ k.length) →
        Holds s₁ (⟨side,c',p,join side .black y' b' z'⟩::k') t → Hole (⟨side,c',p,join side .black y' b' z'⟩::k') (n+1) →
        ∃ s', eraseRest (rbEraseFix fuel) s₁ side p b' = .ok s' ∧ Done s' (⟨side,c',p,join side .black y' b' z'⟩::k') t := by
      intro s₁ c' y' z' b' k' shorter holds' hole'
      refine eraseRest_spec holds' hole' balanced ?_
      intro s₂ black more after level
      subst black
      cases k' with
      | nil => exact absurd rfl more
      | cons g k' =>
        have result := ih (n+1) after hole'.2 level (by have := shorter rfl; simp only [List.length_cons] at this; omega)
        rw [addr_join] at result
        exact result
    unfold rbEraseFix
    rw [read_ok placeP.1]
    simp only [bind,Except.bind,atP,link_sideOf _ _ _ _ away,link_child_other]
    rw [read_ok realB]
    simp only [atB,link_parentColor,rbIsBlack_word placeP.aligned,decide_eq_true_eq]
    cases d with
    | black =>
      exact again (fun _ => Nat.le_refl _) holds hole
    | red =>
      have black : c = .black := by
        cases c with
        | black => rfl
        | red => cases (under rfl).1.symm.trans colored
      subst black
      obtain ⟨blackY,_,balancedY,balancedZ⟩ := (balanced_red ..).mp balancedS
      have deep : y ≠ .leaf := by
        intro empty
        rw [empty] at balancedY
        cases balancedY
      obtain ⟨s₁,one,after⟩ := eraseSibling_spec holds deep
      rw [show y.paint .black = y from blackY ▸ paint_color y] at after
      obtain ⟨y₁,a,y₂,same⟩ := (exists_join side y).resolve_left deep
      rw [blackY] at same
      subst same
      have hole' : Hole (⟨side,.red,p,join side .black y₁ a y₂⟩::⟨side,.black,b,z⟩::k) (n+1) :=
        ⟨color_join ..,balancedY,rfl,balancedZ,hole.2⟩
      obtain ⟨s',ran,t',rest⟩ := again (fun impossible => by cases impossible) after hole'
      refine ⟨s',?_,t',rest.1,rest.2.1,rest.2.2.trans (inorder_plug_congr k ?_)⟩
      · simp only [reduceCtorEq,if_false,one]
        rw [addr_join]
        exact ran
      · cases side <;> simp [join,inorder]

end Fixing

end RbTree
