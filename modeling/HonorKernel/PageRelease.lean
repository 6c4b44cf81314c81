import HonorKernel.PageOwnership

-- The end of an address space: free_sections frees the pages and leaves the entries as
-- they are, and the tables go after them.
namespace PageTable
open DiskFormat BitSlice

section Relabel
variable {D D' : Type*} {holes : Holes} {zero : Frame} {mem mem' : Mem} {roots : D → Option Frame}
  {roots' : D' → Option Frame} {p q c : Frame}

theorem Sane.relabel (sane : Sane holes zero mem roots) (f : D' → D) (injective : Function.Injective f)
    (part : ∀ d r, roots' d = some r → roots (f d) = some r) : Sane holes zero mem roots' := by
  have tables : ∀ d way t, IsTable mem roots' d way t → IsTable mem roots (f d) way t := by
    rintro d way t ⟨r,found,short,there⟩
    exact ⟨r,part d r found,short,there⟩
  have maps : ∀ d v e, Maps mem roots' d v e → Maps mem roots (f d) v e := by
    rintro d v e ⟨r,found,value,set⟩
    exact ⟨r,part d r found,value,set⟩
  refine ⟨⟨sane.nodup,?_,?_,?_,?_⟩,sane.clean,?_,sane.zero_used,?_,?_,sane.zero_real,sane.hole,?_,?_,sane.hole_refs,?_⟩
  · intro d d' way way' t one two
    obtain ⟨same,ways⟩ := sane.table_once _ _ _ _ _ (tables _ _ _ one) (tables _ _ _ two)
    exact ⟨injective same,ways⟩
  · intro d way t there
    exact sane.table_used _ _ _ (tables _ _ _ there)
  · intro d v e mapped
    exact sane.page_used _ _ _ (maps _ _ _ mapped)
  · intro d v e mapped d' way there
    exact sane.page_data _ _ _ (maps _ _ _ mapped) _ _ (tables _ _ _ there)
  · intro d d' v v' e e' one two same
    rcases sane.page_once _ _ _ _ _ _ (maps _ _ _ one) (maps _ _ _ two) same with ⟨same,pages⟩ | isZero
    · exact .inl ⟨injective same,pages⟩
    · exact .inr isZero
  · intro d way there
    exact sane.zero_data _ _ (tables _ _ _ there)
  · obtain ⟨S,all,count⟩ := sane.zero_count
    have both : Function.Injective (Prod.map f (id : VPage → VPage)) := injective.prodMap Function.injective_id
    refine ⟨S.preimage (Prod.map f id) both.injOn,?_,?_⟩
    · intro d v e mapped isZero
      rw [Finset.mem_preimage]
      exact all _ _ _ (maps _ _ _ mapped) isZero
    · have fewer : (S.preimage (Prod.map f id) both.injOn).card ≤ S.card :=
        Finset.card_le_card_of_injOn (Prod.map f id) (fun x there => Finset.mem_preimage.mp there) both.injOn
      omega
  · intro h is d way there
    exact sane.hole_data h is _ _ (tables _ _ _ there)
  · intro d v e mapped
    exact sane.hole_page _ _ _ (maps _ _ _ mapped)
  · intro d r v found
    exact sane.plain (f d) r v (part d r found)

theorem Sane.forget [DecidableEq D] (sane : Sane holes zero mem roots) (d : D) :
    Sane holes zero mem (Function.update roots d none) := by
  refine sane.relabel id Function.injective_id ?_
  intro d' r found
  by_cases same : d' = d
  · subst same
    rw [Function.update_self] at found
    cases found
  · rw [Function.update_of_ne same] at found
    exact found

theorem Sane.root [DecidableEq D] (sane : Sane holes zero mem roots) (loose : Loose holes zero mem roots c)
    (bare : mem.pages c = 0#32768) (d : D) :
    Sane holes zero mem (Function.update roots d (some c)) := by
  refine ⟨sane.toFresh.root loose.used bare loose.data loose.apart d,sane.clean,?_,sane.zero_used,?_,?_,
      sane.zero_real,sane.hole,?_,?_,sane.hole_refs,?_⟩
  · intro d₁ d₂ v₁ v₂ e₁ e₂ one two
    exact sane.page_once _ _ _ _ _ _ (maps_update bare one) (maps_update bare two)
  · intro d' way there
    rcases isTable_update bare there with old | ⟨_,_,same⟩
    · exact sane.zero_data _ _ old
    · exact loose.notZero same.symm
  · obtain ⟨S,all,count⟩ := sane.zero_count
    exact ⟨S,fun d v e mapped => all _ _ _ (maps_update bare mapped),count⟩
  · intro h is d' way there
    rcases isTable_update bare there with old | ⟨_,_,same⟩
    · exact sane.hole_data h is _ _ old
    · exact loose.notHole (same ▸ is)
  · intro d' v e mapped
    exact sane.hole_page _ _ _ (maps_update bare mapped)
  · intro d' root v found vacant
    by_cases same : d' = d
    · subst same
      rw [Function.update_self] at found
      cases found
      exact zero_lookup bare v
    · rw [Function.update_of_ne same] at found
      exact sane.plain d' root v found vacant

theorem Sane.recount (sane : Sane holes zero mem roots) (pages : mem'.pages = mem.pages)
    (free : mem'.free = mem.free) (clean : mem'.clean = mem.clean)
    (others : ∀ h, holes.frames h → mem'.refs h = mem.refs h)
    (count : ∃ S : Finset (D × VPage), (∀ d v e, Maps mem roots d v e → frameOf e = zero → (d,v) ∈ S) ∧
    (S.card : Int) < mem'.refs zero) :
    Sane holes zero mem' roots := by
  refine ⟨sane.toFresh.of_pages pages (by rw [free]),clean.trans sane.clean,?_,by rw [free]; exact sane.zero_used,?_,?_,sane.zero_real,
    by rw [free]; exact sane.hole,?_,?_,fun h is => (others h is).trans (sane.hole_refs h is),?_⟩
  · intro d d' v v' e e' one two
    exact sane.page_once _ _ _ _ _ _ ((maps_of_pages pages).mp one) ((maps_of_pages pages).mp two)
  · intro d way there
    exact sane.zero_data _ _ ((isTable_of_pages pages).mp there)
  · obtain ⟨S,all,more⟩ := count
    exact ⟨S,fun d v e mapped => all d v e ((maps_of_pages pages).mp mapped),more⟩
  · intro h is d way there
    exact sane.hole_data h is _ _ ((isTable_of_pages pages).mp there)
  · intro d v e mapped
    exact sane.hole_page _ _ _ ((maps_of_pages pages).mp mapped)
  · intro d root v found
    rw [lookup_of_pages pages]
    exact sane.plain d root v found

theorem Loose.of_pages (loose : Loose holes zero mem roots q) (pages : mem'.pages = mem.pages)
    (free : mem'.free = mem.free) :
    Loose holes zero mem' roots q := by
  refine ⟨by rw [free]; exact loose.used,?_,?_,loose.notZero,loose.notHole⟩
  · intro d way there
    exact loose.data _ _ ((isTable_of_pages pages).mp there)
  · intro d v e mapped
    exact loose.apart _ _ _ ((maps_of_pages pages).mp mapped)

theorem Loose.frees (loose : Loose holes zero mem roots q) (gone : Loose holes zero mem roots p) (other : q ≠ p) :
    Loose holes zero (mem.kfreePage p) roots q := by
  have entries : ∀ x j, x ≠ p → (mem.kfreePage p).entry x j = mem.entry x j := fun x j differs => kfreePage_entry mem differs j
  refine ⟨?_,?_,?_,loose.notZero,loose.notHole⟩
  · intro there
    rcases kfreePage_free mem p with ⟨longer,_⟩ | ⟨_,queue,_⟩
    · rw [longer] at there
      rcases List.mem_cons.mp there with same | there
      · exact other same
      · exact loose.used there
    · rw [queue] at there
      exact loose.used there
  · rintro d way ⟨root,found,short,there⟩
    rw [data_tables (gone.data d) entries found short] at there
    exact loose.data d way ⟨root,found,short,there⟩
  · rintro d v e ⟨root,found,value,set⟩
    rw [data_lookup (gone.data d) entries found v] at value
    exact loose.apart d v e ⟨root,found,value,set⟩

theorem kfreePage_kept (more : 1 < mem.refs p) :
    (mem.kfreePage p).free = mem.free ∧ (mem.kfreePage p).clean = mem.clean ∧
    (mem.kfreePage p).pages = mem.pages := by
  have positive : ¬ mem.refs p-1 ≤ 0 := by omega
  simp [Mem.kfreePage,positive]

end Relabel

-- The pages of the page table at `root`, which is no longer among the `roots`: `todo` are
-- those still to be freed. `mem₀` is the memory before.
structure Dying {D : Type*} (holes : Holes) (zero : Frame) (mem₀ mem : Mem) (roots : D → Option Frame) (d : D) (root : Frame) (todo : VPage → Prop) : Prop where
  sane : Sane holes zero mem roots
  tables : ∀ way t, way.length ≤ 3 → mem₀.table root way = some t → Loose holes zero mem roots t ∧ mem.pages t = mem₀.pages t
  loose : ∀ v, todo v → valid (mem₀.lookup root v) → frameOf (mem₀.lookup root v) ≠ zero → Loose holes zero mem roots
      (frameOf (mem₀.lookup root v))
  count : ∃ S : Finset (D × VPage), (∀ d v e, Maps mem roots d v e → frameOf e = zero → (d,v) ∈ S) ∧
    (∀ v, todo v → valid (mem₀.lookup root v) → frameOf (mem₀.lookup root v) = zero → (d,v) ∈ S) ∧ (S.card : Int) < mem.refs zero

section Release
variable {D : Type*} {holes : Holes} {zero : Frame} {mem₀ mem mem' : Mem} {roots₀ roots : D → Option Frame} {d : D}
  {root p : Frame} {todo : VPage → Prop} {v : VPage}

theorem Dying.start [DecidableEq D] (sane : Sane holes zero mem roots) (here : roots d = some root) :
    Dying holes zero mem mem (Function.update roots d none) d root (fun _ => True) := by
  have others : ∀ d' r, Function.update roots d none d' = some r → d' ≠ d ∧ roots d' = some r := by
    intro d' r found
    by_cases same : d' = d
    · subst same
      rw [Function.update_self] at found
      cases found
    · rw [Function.update_of_ne same] at found
      exact ⟨same,found⟩
  have tables : ∀ d' way t, IsTable mem (Function.update roots d none) d' way t → d' ≠ d ∧ IsTable mem roots d' way t := by
    rintro d' way t ⟨r,found,short,there⟩
    obtain ⟨apart,found⟩ := others d' r found
    exact ⟨apart,r,found,short,there⟩
  have maps : ∀ d' v e, Maps mem (Function.update roots d none) d' v e → d' ≠ d ∧ Maps mem roots d' v e := by
    rintro d' v e ⟨r,found,value,set⟩
    obtain ⟨apart,found⟩ := others d' r found
    exact ⟨apart,r,found,value,set⟩
  refine ⟨sane.forget d,?_,?_,?_⟩
  · intro way t short reached
    have table : IsTable mem roots d way t := ⟨root,here,short,reached⟩
    refine ⟨⟨sane.table_used _ _ _ table,?_,?_,?_,?_⟩,rfl⟩
    · intro d' way' there
      obtain ⟨apart,there⟩ := tables _ _ _ there
      exact apart (sane.table_once _ _ _ _ _ there table).1
    · intro d' v e mapped same
      exact sane.page_data _ _ _ (maps _ _ _ mapped).2 _ _ (same ▸ table)
    · rintro rfl
      exact sane.zero_data _ _ table
    · intro is
      exact sane.hole_data t is _ _ table
  · intro v _ set notZero
    have mine : Maps mem roots d v (mem.lookup root v) := ⟨root,here,rfl,set⟩
    refine ⟨sane.page_used _ _ _ mine,?_,?_,notZero,sane.hole_page _ _ _ mine⟩
    · intro d' way there
      exact sane.page_data _ _ _ mine _ _ (tables _ _ _ there).2
    · intro d' v' e mapped same
      obtain ⟨apart,mapped⟩ := maps _ _ _ mapped
      rcases sane.page_once _ _ _ _ _ _ mapped mine same with ⟨equal,_⟩ | isZero
      · exact apart equal
      · exact notZero (same.symm.trans isZero)
  · obtain ⟨S,all,count⟩ := sane.zero_count
    exact ⟨S,fun d' v e mapped => all _ _ _ (maps _ _ _ mapped).2,fun v _ set isZero => all _ _ _ ⟨root,here,rfl,set⟩ isZero,count⟩

theorem Dying.mono (dying : Dying holes zero mem₀ mem roots d root todo) {todo' : VPage → Prop}
    (fewer : ∀ v, todo' v → todo v) :
    Dying holes zero mem₀ mem roots d root todo' := by
  obtain ⟨S,all,mine,count⟩ := dying.count
  exact ⟨dying.sane,dying.tables,fun v there => dying.loose v (fewer v there),S,all,fun v there => mine v (fewer v there),count⟩

theorem Dying.table (dying : Dying holes zero mem₀ mem roots d root todo) {way : List Index} (short : way.length ≤ 3) :
    mem.table root way = mem₀.table root way := by
  refine table_frame ?_ short
  intro way t short reached i
  unfold Mem.entry
  rw [(dying.tables way t (by omega) reached).2]

theorem Dying.lookup (dying : Dying holes zero mem₀ mem roots d root todo) (v : VPage) :
    mem.lookup root v = mem₀.lookup root v := by
  refine lookup_frame ?_ v
  intro way t short reached i
  unfold Mem.entry
  rw [(dying.tables way t short reached).2]

theorem Dying.frees (dying : Dying holes zero mem₀ mem roots d root todo) (sane₀ : Sane holes zero mem₀ roots₀)
    (here : roots₀ d = some root) (gone : roots d = none) (next : todo v) (set : valid (mem₀.lookup root v)) :
    Dying holes zero mem₀ (mem.kfreePage (frameOf (mem₀.lookup root v))) roots d root (fun w => todo w ∧ w ≠ v) := by
  classical
  have mine : Maps mem₀ roots₀ d v (mem₀.lookup root v) := ⟨root,here,rfl,set⟩
  obtain ⟨S,all,todos,count⟩ := dying.count
  by_cases isZero : frameOf (mem₀.lookup root v) = zero
  · have inside := todos v next set isZero
    have positive : 0 < S.card := Finset.card_pos.mpr ⟨_,inside⟩
    have smaller : (S.erase (d,v)).card = S.card-1 := Finset.card_erase_of_mem inside
    rw [isZero]
    obtain ⟨free,clean,pages⟩ := kfreePage_kept (show 1 < mem.refs zero by omega)
    have refs : (mem.kfreePage zero).refs zero = mem.refs zero-1 := by rw [kfreePage_refs,Function.update_self]
    have others : ∀ d' v' e, Maps mem roots d' v' e → frameOf e = zero → (d',v') ∈ S.erase (d,v) := by
      intro d' v' e mapped target
      refine Finset.mem_erase.mpr ⟨?_,all _ _ _ mapped target⟩
      intro same
      obtain ⟨rfl,_⟩ := Prod.mk.inj same
      obtain ⟨_,found,_⟩ := mapped
      rw [gone] at found
      cases found
    have untouched : ∀ h, holes.frames h → (mem.kfreePage zero).refs h = mem.refs h := by
      intro h is
      rw [kfreePage_refs,Function.update_of_ne (by rintro rfl; exact dying.sane.zero_real is)]
    refine ⟨dying.sane.recount pages free clean untouched ⟨S.erase (d,v),others,by omega⟩,?_,?_,S.erase (d,v),?_,?_,by omega⟩
    · intro way t short reached
      obtain ⟨loose,same⟩ := dying.tables way t short reached
      exact ⟨loose.of_pages pages free,by rw [pages]; exact same⟩
    · intro w rest set notZero
      exact (dying.loose w rest.1 set notZero).of_pages pages free
    · intro d' v' e mapped
      exact others d' v' e ((maps_of_pages pages).mp mapped)
    · intro w rest set target
      refine Finset.mem_erase.mpr ⟨?_,todos w rest.1 set target⟩
      intro same
      exact rest.2 (Prod.mk.inj same).2
  · have loose := dying.loose v next set isZero
    refine ⟨dying.sane.frees loose,?_,?_,S,?_,?_,?_⟩
    · intro way t short reached
      obtain ⟨kept,same⟩ := dying.tables way t short reached
      have apart : t ≠ frameOf (mem₀.lookup root v) := by
        rintro rfl
        exact sane₀.page_data _ _ _ mine d way ⟨root,here,short,reached⟩
      exact ⟨kept.frees loose apart,by rw [kfreePage_pages mem apart]; exact same⟩
    · intro w rest set' notZero
      refine (dying.loose w rest.1 set' notZero).frees loose ?_
      intro same
      rcases sane₀.page_once _ _ _ _ _ _ ⟨root,here,rfl,set'⟩ mine same with ⟨_,equal⟩ | target
      · exact rest.2 equal
      · exact notZero target
    · rintro d' v' e ⟨r,found,value,set'⟩ target
      rw [data_lookup (loose.data d') (fun x j differs => kfreePage_entry mem differs j) found v'] at value
      exact all d' v' e ⟨r,found,value,set'⟩ target
    · intro w rest
      exact todos w rest.1
    · rw [kfreePage_refs,Function.update_of_ne (Ne.symm isZero)]
      exact count

theorem freePages_dying (pages : List U64) (dying : Dying holes zero mem₀ mem roots d root todo)
    (sane₀ : Sane holes zero mem₀ roots₀) (here : roots₀ d = some root) (gone : roots d = none)
    (nodup : (pages.map vpage).Nodup) (all : ∀ va ∈ pages, todo (vpage va))
    (ran : freePages (some root) pages mem = .ok mem') :
    Dying holes zero mem₀ mem' roots d root (fun v => todo v ∧ v ∉ pages.map vpage) := by
  induction pages generalizing mem todo with
  | nil =>
    cases ran
    exact dying.mono fun v there => there.1
  | cons va rest ih =>
    obtain ⟨⟨slot,_,same⟩,got,ran⟩ := Runs.bind_ok.mp ran
    obtain ⟨rfl,_,found⟩ := getPte_reads got
    rw [List.map_cons,List.nodup_cons] at nodup
    have step : ∀ middle, freePages (some root) rest middle = .ok mem' →
        Dying holes zero mem₀ middle roots d root (fun w => todo w ∧ w ≠ vpage va) →
        Dying holes zero mem₀ mem' roots d root (fun v => todo v ∧ v ∉ (va::rest).map vpage) := by
      intro middle ran dying
      refine (ih dying nodup.2 ?_ ran).mono ?_
      · intro va' member
        refine ⟨all va' (List.mem_cons_of_mem _ member),?_⟩
        intro equal
        exact nodup.1 (equal ▸ List.mem_map_of_mem member)
      · intro v there
        rw [List.map_cons,List.mem_cons,not_or] at there
        exact ⟨⟨there.1,there.2.1⟩,there.2.2⟩
    rcases found with ⟨rfl,_⟩ | ⟨t,rfl,_,value⟩
    · exact step same ran (dying.mono fun v there => there.1)
    · have entry : same.at ⟨t,part 3 va⟩ = mem₀.lookup root (vpage va) := value.trans (dying.lookup _)
      simp only [entry] at ran
      split at ran
      · rename_i set
        exact step _ ran (dying.frees sane₀ here gone (all va List.mem_cons_self) set)
      · exact step same ran (dying.mono fun v there => there.1)

theorem freeSections_dying {σ : Type} (files : Files σ) {fs fs' : σ} (sections : List Section)
    (dying : Dying holes zero mem₀ mem roots d root todo) (sane₀ : Sane holes zero mem₀ roots₀)
    (here : roots₀ d = some root) (gone : roots d = none)
    (nodup : (sections.flatMap fun st => st.pages.map vpage).Nodup)
    (all : ∀ st ∈ sections, ∀ va ∈ st.pages, todo (vpage va))
    (ran : freeSections files (some root) sections mem fs = .ok (mem',fs')) :
    ∃ todo', Dying holes zero mem₀ mem' roots d root todo' := by
  induction sections generalizing mem fs todo with
  | nil =>
    cases ran
    exact ⟨todo,dying⟩
  | cons st rest ih =>
    obtain ⟨pages,loop,ran⟩ := Runs.bind_ok.mp ran
    obtain ⟨middle,freed,ran⟩ := Runs.bind_ok.mp ran
    obtain ⟨fs₁,_,ran⟩ := Runs.bind_ok.mp ran
    rw [List.flatMap_cons,List.nodup_append] at nodup
    have isPages : pages = st.pages := by
      unfold pageLoop at loop
      split at loop
      · cases loop
      · exact (Except.ok.inj loop).symm
    rw [isPages] at freed
    have dying' := freePages_dying st.pages dying sane₀ here gone nodup.1 (all st List.mem_cons_self) freed
    refine ih dying' nodup.2.1 ?_ ran
    intro st' member va inside
    refine ⟨all st' (List.mem_cons_of_mem _ member) va inside,?_⟩
    intro both
    exact nodup.2.2 _ both _ (List.mem_flatMap.mpr ⟨st',member,List.mem_map_of_mem inside⟩) rfl

end Release

-- The tables of the page table at `root`: those at a way in `left` are still there.
structure Razing {D : Type*} (holes : Holes) (zero : Frame) (mem₀ mem : Mem) (roots : D → Option Frame) (root : Frame) (left : List Index → Prop) : Prop where
  sane : Sane holes zero mem roots
  tables : ∀ way t, way.length ≤ 3 → mem₀.table root way = some t → left way → Loose holes zero mem roots t ∧
      mem.pages t = mem₀.pages t

section Tables
variable {D : Type*} {holes : Holes} {zero : Frame} {mem₀ mem : Mem} {roots : D → Option Frame} {root p : Frame}
  {left left' : List Index → Prop} {way : List Index}

theorem Razing.mono (razing : Razing holes zero mem₀ mem roots root left) (fewer : ∀ w, left' w → left w) :
    Razing holes zero mem₀ mem roots root left' :=
  ⟨razing.sane,fun way t short reached there => razing.tables way t short reached (fewer way there)⟩

theorem Razing.frees (razing : Razing holes zero mem₀ mem roots root left)
    (distinct : RadixTree.Distinct (child mem₀) root 3) (short : way.length ≤ 3)
    (reached : mem₀.table root way = some p) (there : left way) :
    Razing holes zero mem₀ (mem.kfreePage p) roots root (fun w => left w ∧ w ≠ way) := by
  obtain ⟨loose,_⟩ := razing.tables way p short reached there
  refine ⟨razing.sane.frees loose,?_⟩
  intro w t short' reached' rest
  obtain ⟨kept,same⟩ := razing.tables w t short' reached' rest.1
  have apart : t ≠ p := by
    rintro rfl
    exact rest.2 (distinct w way t short' short reached' reached)
  exact ⟨kept.frees loose apart,by rw [kfreePage_pages mem apart]; exact same⟩

theorem branches {i j : Index} {w : List Index} (one : way++[i] <+: w) (two : way++[j] <+: w) : i = j := by
  obtain ⟨rest,rfl⟩ := one
  obtain ⟨rest',same⟩ := two
  simp only [List.append_assoc,List.singleton_append] at same
  exact ((List.cons.inj (List.append_cancel_left same)).1).symm

theorem not_below (way : List Index) (i : Index) : ¬ way++[i] <+: way := by
  intro below
  have length := below.length_le
  simp at length

-- The loop over the entries of a table, when the tables below are razed by `raze`.
theorem entries_razes (raze : Frame → Mem → Mem) (indices : List Index) (nodup : indices.Nodup) (short : way.length < 3)
    (reached : mem₀.table root way = some p) (razing : Razing holes zero mem₀ mem roots root left) (here : left way)
    (below : ∀ i ∈ indices, ∀ w, way++[i] <+: w → left w)
    (one : ∀ i q mem left, mem₀.table root (way++[i]) = some q → (∀ w, way++[i] <+: w → left w) →
    Razing holes zero mem₀ mem roots root left →
      Razing holes zero mem₀ (raze q mem) roots root (fun w => left w ∧ ¬ way++[i] <+: w)) :
    Razing holes zero mem₀ (indices.foldl (fun mem i => if valid (mem.entry p i) then raze
        (frameOf (mem.entry p i)) mem else mem) mem) roots root
      (fun w => left w ∧ ∀ i ∈ indices, ¬ way++[i] <+: w) := by
  induction indices generalizing mem left with
  | nil => exact razing.mono fun w there => there.1
  | cons i rest ih =>
    rw [List.nodup_cons] at nodup
    have entry : mem.entry p i = mem₀.entry p i := by
      unfold Mem.entry
      rw [(razing.tables way p (by omega) reached here).2]
    have step : Razing holes zero mem₀ (if valid (mem.entry p i) then raze (frameOf (mem.entry p i)) mem else mem) roots root
        (fun w => left w ∧ ¬ way++[i] <+: w) := by
      rw [entry]
      split
      · rename_i set
        refine one i _ mem left ?_ (below i List.mem_cons_self) razing
        rw [Mem.table] at reached ⊢
        rw [RadixTree.node_snoc,reached]
        simp only [Option.bind_some,child,if_pos set]
      · exact razing.mono fun w there => there.1
    rw [List.foldl_cons]
    refine (ih nodup.2 step ⟨here,not_below way i⟩ ?_).mono ?_
    · intro j member w under
      refine ⟨below j (List.mem_cons_of_mem _ member) w under,?_⟩
      intro both
      exact nodup.1 (branches both under ▸ member)
    · intro w there
      refine ⟨⟨there.1,there.2 i List.mem_cons_self⟩,?_⟩
      intro j member
      exact there.2 j (List.mem_cons_of_mem _ member)

theorem freeTable_razes (level : Nat) (depth : way.length+level = 3) (distinct : RadixTree.Distinct (child mem₀) root 3)
    (reached : mem₀.table root way = some p) (below : ∀ w, way <+: w → left w)
    (razing : Razing holes zero mem₀ mem roots root left) :
    Razing holes zero mem₀ (freeTable level p mem) roots root (fun w => left w ∧ ¬ way <+: w) := by
  induction level generalizing way p mem left with
  | zero =>
    refine (razing.frees distinct (by omega) reached (below way (List.prefix_refl way))).mono ?_
    intro w there
    refine ⟨there.1,?_⟩
    rintro rfl
    exact there.2 (List.prefix_refl w)
  | succ level ih =>
    have children := entries_razes (freeTable level) (List.finRange 512) (List.nodup_finRange 512) (by omega) reached razing
      (below way (List.prefix_refl way)) (fun i _ w under => below w ((List.prefix_append way [i]).trans under))
      (fun i q mem left found under razing => ih (by rw [List.length_append,List.length_singleton]; omega) found under razing)
    refine (children.frees distinct (by omega) reached ⟨below way (List.prefix_refl way),fun i _ => not_below way i⟩).mono ?_
    intro w there
    refine ⟨⟨there.1,?_⟩,?_⟩
    · intro i _ under
      exact there.2 ((List.prefix_append way [i]).trans under)
    · rintro rfl
      exact there.2 (List.prefix_refl w)

end Tables

theorem freePgdir_sane {D : Type*} [DecidableEq D] {holes : Holes} {zero : Frame} {mem mem' : Mem}
    {roots : D → Option Frame} {d : D} {root : Frame} {σ : Type} (files : Files σ) {fs fs' : σ} {dir dir' : PgDir}
    (sane : Sane holes zero mem roots) (here : roots d = some root) (table : dir.pt = some root)
    (nodup : (dir.sections.flatMap fun st => st.pages.map vpage).Nodup)
    (ran : freePgdir files dir mem fs = .ok (dir',mem',fs')) :
    Sane holes zero mem' (Function.update roots d none) ∧ dir' = ⟨none,[]⟩ := by
  unfold freePgdir at ran
  rw [table] at ran
  obtain ⟨⟨middle,fs₁⟩,freed,ran⟩ := Runs.bind_ok.mp ran
  cases ran
  obtain ⟨todo,dying⟩ := freeSections_dying files dir.sections (Dying.start sane here) sane here (Function.update_self ..) nodup
    (fun _ _ _ _ => trivial) freed
  have razing : Razing holes zero mem middle (Function.update roots d none) root (fun _ => True) :=
    ⟨dying.sane,fun way t short reached _ => dying.tables way t short reached⟩
  have start : mem.table root [] = some root := rfl
  exact ⟨(freeTable_razes 3 rfl (sane.toFresh.distinct here) start (fun _ _ => trivial) razing).sane,rfl⟩

end PageTable
