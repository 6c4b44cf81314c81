import HonorKernel.SpaceRuns

-- How many pages fork takes at most, and that it returns when the queue has as many.
namespace PageTable
open DiskFormat BitSlice

-- `n` pages are enough for the call, whose memory afterwards is `after`.
def Affords (n : Nat) (mem : Mem) (after : α → Mem) (post : α → Prop) (x : Except Trap α) : Prop :=
  n ≤ mem.free.length → ∃ a, x = .ok a ∧ post a ∧ mem.free.length ≤ (after a).free.length+n

section Rules
variable {α β : Type} {mem : Mem} {after : α → Mem} {post : α → Prop} {m n : Nat}

theorem Affords.pure {a : α} (same : (after a).free = mem.free) (holds : post a) : Affords n mem after post (.ok a) :=
  fun _ => ⟨a,rfl,holds,by rw [same]; exact Nat.le_add_right _ _⟩

theorem Affords.bind {x : Except Trap α} {f : α → Except Trap β} {after' : β → Mem} {post' : β → Prop}
    (first : Affords m mem after post x) (rest : ∀ a, post a → Affords n (after a) after' post' (f a)) :
    Affords (m+n) mem after' post' (x >>= f) := by
  intro enough
  obtain ⟨a,ran,holds,left⟩ := first (by omega)
  obtain ⟨b,ran',holds',left'⟩ := rest a holds (by omega)
  exact ⟨b,by rw [ran]; exact ran',holds',by omega⟩

theorem Affords.weaken {x : Except Trap α} (affords : Affords m mem after post x) (less : m ≤ n) :
    Affords n mem after post x := by
  intro enough
  obtain ⟨a,ran,holds,left⟩ := affords (by omega)
  exact ⟨a,ran,holds,by omega⟩

theorem Affords.after_ok {x : Except Trap α} {a : α} {f : α → Except Trap β} {after' : β → Mem} {post' : β → Prop}
    (ran : x = .ok a) (rest : Affords n mem after' post' (f a)) : Affords n mem after' post' (x >>= f) := by
  rw [ran]
  exact rest

theorem Affords.map {x : Except Trap α} {f : α → β} {after' : β → Mem} {post' : β → Prop}
    (affords : Affords n mem after post x) (same : ∀ a, (after' (f a)).free = (after a).free)
    (holds : ∀ a, post a → post' (f a)) :
    Affords n mem after' post' (x >>= fun a => .ok (f a)) := by
  intro enough
  obtain ⟨a,ran,here,left⟩ := affords enough
  exact ⟨f a,by rw [ran]; rfl,holds a here,by rw [same]; exact left⟩

end Rules

section Calls
variable {mem : Mem} {root : Frame} {va : U64}

theorem kallocPage_affords (mem : Mem) : Affords 1 mem Prod.snd (fun _ => True) mem.kallocPage := by
  intro enough
  unfold Mem.kallocPage
  split
  · rename_i empty
    rw [empty] at enough
    cases enough
  · rename_i p rest queue
    exact ⟨_,rfl,trivial,by rw [queue]; exact Nat.le_refl _⟩

theorem kzallocPage_affords (mem : Mem) : Affords 1 mem Prod.snd (fun _ => True) mem.kzallocPage :=
  (kallocPage_affords mem).map (fun _ => rfl) fun _ _ => trivial

theorem descend_affords (i : Index) (mem : Mem) (p : Frame) :
    Affords 1 mem Prod.snd (fun r => r.1.isSome) (mem.descend true i p) := by
  unfold Mem.descend
  by_cases set : valid (mem.entry p i)
  · rw [if_pos set]
    exact Affords.pure rfl rfl
  · rw [if_neg set,if_neg (by decide)]
    exact (kzallocPage_affords mem).map (fun _ => rfl) fun _ _ => rfl

theorem walk_affords (way : List Index) (mem : Mem) (p : Frame) :
    Affords way.length mem Prod.snd (fun r => r.1.isSome) (mem.walk true way p) := by
  induction way generalizing mem p with
  | nil => exact Affords.pure rfl rfl
  | cons i way ih =>
    rw [List.length_cons,Nat.add_comm]
    refine (descend_affords i mem p).bind ?_
    rintro ⟨q,middle⟩ present
    obtain ⟨q,rfl⟩ := Option.isSome_iff_exists.mp present
    exact ih middle q

theorem getPte_affords (va : U64) (root : Frame) (mem : Mem) :
    Affords 3 mem (fun r => r.2.2) (fun r => r.1.isSome ∧ r.2.1 = some root) (getPte true va (some root) mem) :=
  (walk_affords [part 0 va,part 1 va,part 2 va] mem root).map (fun _ => rfl) fun r present =>
      ⟨by rw [Option.isSome_map]; exact present,rfl⟩

theorem vmmap_affords (va : U64) (ka : Frame) (flags : U64) (root : Frame) (mem : Mem) :
    Affords 3 mem Prod.snd (fun r => r.1 = some root) (vmmap va ka flags (some root) mem) := by
  refine (getPte_affords va root mem).bind (n := 0) ?_
  rintro ⟨slot,pt,middle⟩ ⟨present,same⟩
  obtain ⟨slot,rfl⟩ := Option.isSome_iff_exists.mp present
  exact Affords.pure rfl same

theorem copyoutLoop_nil (fuel : Nat) (va : U64) (pt : Option Frame) (mem : Mem) :
    copyoutLoop fuel va [] pt mem = .ok (pt,mem) := by
  cases fuel with
  | zero => rfl
  | succ fuel => simp [copyoutLoop]

theorem copyout_affords (aligned : pageOffset va = 0) (src : List Byte) (short : src.length ≤ pageSize) (mem : Mem) :
    Affords 3 mem Prod.snd (fun r => r.1 = some root) (copyout va src (some root) mem) := by
  unfold copyout
  cases fuel : src.length with
  | zero => exact Affords.pure rfl rfl
  | succ k =>
    have more : src ≠ [] := by
      rintro rfl
      cases fuel
    have whole : min src.length (pageSize-pageOffset va) = src.length := by omega
    rw [copyoutLoop,if_neg more,whole]
    refine (getPte_affords va root mem).bind (n := 0) ?_
    rintro ⟨slot,pt,middle⟩ ⟨present,same⟩
    obtain ⟨slot,rfl⟩ := Option.isSome_iff_exists.mp present
    rw [List.drop_length]
    refine Affords.after_ok rfl ?_
    rw [copyoutLoop_nil]
    exact Affords.pure rfl same

theorem forkPage_affords (parent : Option Frame) (aligned : pageOffset va = 0) (root : Frame) (mem : Mem) :
    Affords 7 mem Prod.snd (fun r => r.1 = some root) (forkPage parent va (some root) mem) := by
  obtain ⟨slot,got⟩ := getPte_looks va parent mem
  refine Affords.after_ok got ?_
  cases slot with
  | none => exact Affords.pure rfl rfl
  | some old =>
    simp only
    split
    · refine (kallocPage_affords mem).bind (n := 6) ?_
      rintro ⟨page,taken⟩ _
      refine (vmmap_affords va page _ root taken).bind (n := 3) ?_
      rintro ⟨pt,mapped⟩ same
      subst same
      exact copyout_affords aligned _ (by rw [getBytes_length]) mapped
    · exact Affords.pure rfl rfl

theorem forkPages_affords (parent : Option Frame) (pages : List U64) (aligned : ∀ va ∈ pages, pageOffset va = 0)
    (root : Frame) (mem : Mem) :
    Affords (7*pages.length) mem Prod.snd (fun r => r.1 = some root) (forkPages parent pages (some root) mem) := by
  induction pages generalizing mem with
  | nil => exact Affords.pure rfl rfl
  | cons va rest ih =>
    rw [List.length_cons,Nat.mul_succ,Nat.add_comm]
    refine (forkPage_affords parent (aligned va List.mem_cons_self) root mem).bind ?_
    rintro ⟨pt,middle⟩ same
    subst same
    exact ih (fun va member => aligned va (List.mem_cons_of_mem _ member)) middle

-- The pages of all sections, and that the loops over them end.
def pagesIn (sections : List Section) : Nat := (sections.map fun st => pageCount st.first st.last).sum
def Ending (sections : List Section) : Prop := ∀ st ∈ sections, pageLoop st.first st.last = .ok st.pages

theorem ending_of_laid {sections : List Section} (laid : ∀ st ∈ sections, st.Laid) : Ending sections := by
  intro st member
  refine if_neg ?_
  have size : pageSize = 4096 := rfl
  rcases laid st member with none | low
  · rw [pageBase_toNat]
    omega
  · omega

theorem forkSections_affords (parent : Option Frame) (sections : List Section) (ending : Ending sections)
    (root : Frame) (mem : Mem) :
    Affords (7*pagesIn sections) mem Prod.snd (fun r => r.1 = some root)
    (forkSections parent sections (some root) mem) := by
  induction sections generalizing mem with
  | nil => exact Affords.pure rfl rfl
  | cons st rest ih =>
    have length : st.pages.length = pageCount st.first st.last := by rw [Section.pages,pagesOf,List.length_map,List.length_range]
    rw [pagesIn,List.map_cons,List.sum_cons,Nat.mul_add,← length]
    refine Affords.after_ok (ending st List.mem_cons_self) ?_
    have aligned : ∀ va ∈ st.pages, pageOffset va = 0 := by
      intro va member
      obtain ⟨k,_,rfl⟩ := List.mem_map.mp member
      exact pageOffset_step k
    refine (forkPages_affords parent st.pages aligned root mem).bind ?_
    rintro ⟨pt,middle⟩ same
    subst same
    exact ih (fun st member => ending st (List.mem_cons_of_mem _ member)) middle

theorem slab_affords (n : Nat) (mem : Mem) : Affords n mem id (fun _ => True) (slab n mem) := by
  induction n generalizing mem with
  | zero => exact Affords.pure rfl trivial
  | succ n ih =>
    exact ((kallocPage_affords mem).bind fun r _ => ih r.2).weaken (by omega)

def forkPagesNeeded (slab₀ slab₁ : Nat) (parent : PgDir) : Nat := slab₀+2+7*pagesIn parent.sections+slab₁

theorem fork_affords (slab₀ slab₁ : Nat) (fp : Option Nat) (parent : PgDir) (ending : Ending parent.sections)
    (mem : Mem) :
    Affords (forkPagesNeeded slab₀ slab₁ parent) mem Prod.snd (fun r => r.1.sections = parent.sections.reverse++initSections fp)
      (fork slab₀ slab₁ fp parent mem) := by
  have parts : forkPagesNeeded slab₀ slab₁ parent = slab₀+(1+(1+(7*pagesIn parent.sections+(slab₁+0)))) := by
    unfold forkPagesNeeded
    omega
  rw [parts]
  refine (slab_affords slab₀ mem).bind fun mem₁ _ => ?_
  refine (kzallocPage_affords mem₁).bind fun r _ => ?_
  have started : Affords 1 r.2 Prod.snd (fun c => c.1.pt.isSome ∧ c.1.sections = initSections fp) (initPgdir fp r.2) :=
    (kzallocPage_affords r.2).map (fun _ => rfl) fun _ _ => ⟨rfl,rfl⟩
  refine started.bind ?_
  rintro ⟨⟨pt,list⟩,mem₃⟩ ⟨present,same⟩
  obtain ⟨root,rfl⟩ := Option.isSome_iff_exists.mp present
  refine (forkSections_affords parent.pt parent.sections ending root mem₃).bind ?_
  rintro ⟨pt,mem₄⟩ _
  refine (slab_affords slab₁ mem₄).bind fun mem₅ _ => ?_
  exact Affords.pure rfl (congrArg (parent.sections.reverse++·) same)

end Calls

end PageTable
