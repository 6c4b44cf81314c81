import HonorKernel.PageRelease

-- What the calls do to the pages in use: fork, execve, page faults and stores, and the
-- ends of sections that sbrk and munmap cut off.
namespace PageTable
open DiskFormat BitSlice

section Building
variable {D : Type*} {holes : Holes} {zero : Frame} {mem mem' : Mem} {roots : D → Option Frame} {d d' : D}
  {root rp q : Frame} {va : U64} {pt : Option Frame}

theorem Sane.target_data (sane : Sane holes zero mem roots) (here : roots d = some root) (v : VPage) (d' : D)
    (way : List Index) :
    ¬ IsTable mem roots d' way (frameOf (mem.lookup root v)) := by
  by_cases set : valid (mem.lookup root v)
  · exact sane.page_data d v _ ⟨root,here,rfl,set⟩ d' way
  · rw [sane.plain d root v here set,show frameOf 0#64 = 0#36 by decide]
    exact sane.hole_data _ holes.null d' way

theorem copyoutLoop_sane (fuel : Nat) {src : List Byte} (sane : Sane holes zero mem roots) (here : roots d = some root)
    (ran : copyoutLoop fuel va src (some root) mem = .ok (pt,mem')) : pt = some root ∧ Sane holes zero mem' roots := by
  induction fuel generalizing va src mem with
  | zero =>
    cases ran
    exact ⟨rfl,sane⟩
  | succ fuel ih =>
    unfold copyoutLoop at ran
    split at ran
    · cases ran
      exact ⟨rfl,sane⟩
    · obtain ⟨⟨slot,pt',middle⟩,got,ran⟩ := Runs.bind_ok.mp ran
      obtain ⟨grows,rfl,t,rfl,_,value⟩ := getPte_grows sane.toFresh here got
      obtain ⟨_,found,ran⟩ := Runs.bind_ok.mp ran
      cases found
      have sane' := sane.grows grows
      have entry : middle.at ⟨t,part 3 va⟩ = middle.lookup root (vpage va) := by
        rw [grows.lookups d root _ here]
        exact value
      simp only [entry] at ran
      exact ih (sane'.setPage (sane'.target_data here _) _).1 ran

theorem copyout_sane {src : List Byte} (sane : Sane holes zero mem roots) (here : roots d = some root)
    (ran : copyout va src (some root) mem = .ok (pt,mem')) : pt = some root ∧ Sane holes zero mem' roots :=
  copyoutLoop_sane src.length sane here ran

theorem forkPage_sane (sane : Sane holes zero mem roots) (here : roots d = some root)
    (ran : forkPage (some rp) va (some root) mem = .ok (pt,mem')) :
    pt = some root ∧ Sane holes zero mem' roots := by
  obtain ⟨⟨old,_,same⟩,got,ran⟩ := Runs.bind_ok.mp ran
  obtain ⟨rfl,_,⟨rfl,_⟩ | ⟨t,rfl,_,_⟩⟩ := getPte_reads got
  · cases ran
    exact ⟨rfl,sane⟩
  · simp only at ran
    split at ran
    · rename_i set
      obtain ⟨⟨page,taken⟩,took,ran⟩ := Runs.bind_ok.mp ran
      obtain ⟨⟨pt₁,mapped⟩,made,ran⟩ := Runs.bind_ok.mp ran
      obtain ⟨_,pages,_,_⟩ := kallocPage_cases took
      obtain ⟨sane₁,loose⟩ := sane.takes took
      have entry : taken.at ⟨t,part 3 va⟩ = same.at ⟨t,part 3 va⟩ := entry_of_pages pages t (part 3 va)
      obtain ⟨rfl,sane₂,_⟩ := vmmap_loose sane₁ here loose (flagsOf_masked _) ((valid_flagsOf _).mpr (by rw [entry]; exact set)) made
      exact copyout_sane sane₂ here ran
    · cases ran
      exact ⟨rfl,sane⟩

theorem forkPages_sane (pages : List U64) (sane : Sane holes zero mem roots) (here : roots d = some root)
    (ran : forkPages (some rp) pages (some root) mem = .ok (pt,mem')) :
    pt = some root ∧ Sane holes zero mem' roots := by
  induction pages generalizing mem with
  | nil =>
    cases ran
    exact ⟨rfl,sane⟩
  | cons va rest ih =>
    obtain ⟨⟨pt₁,middle⟩,first,ran⟩ := Runs.bind_ok.mp ran
    obtain ⟨rfl,sane'⟩ := forkPage_sane sane here first
    exact ih sane' ran

theorem forkSections_sane (sections : List Section) (sane : Sane holes zero mem roots) (here : roots d = some root)
    (ran : forkSections (some rp) sections (some root) mem = .ok (pt,mem')) :
    pt = some root ∧ Sane holes zero mem' roots := by
  induction sections generalizing mem with
  | nil =>
    cases ran
    exact ⟨rfl,sane⟩
  | cons st rest ih =>
    obtain ⟨pages,_,ran⟩ := Runs.bind_ok.mp ran
    obtain ⟨⟨pt₁,middle⟩,first,ran⟩ := Runs.bind_ok.mp ran
    obtain ⟨rfl,sane'⟩ := forkPages_sane pages sane here first
    exact ih sane' ran

theorem slab_sane (n : Nat) (sane : Sane holes zero mem roots) (ran : slab n mem = .ok mem') :
    Sane holes zero mem' roots := by
  induction n generalizing mem with
  | zero =>
    cases ran
    exact sane
  | succ n ih =>
    obtain ⟨⟨q,middle⟩,took,ran⟩ := Runs.bind_ok.mp ran
    exact ih (sane.takes took).1 ran

theorem kzallocPage_sane (sane : Sane holes zero mem roots) (ran : mem.kzallocPage = .ok (q,mem')) :
    Sane holes zero mem' roots ∧ Loose holes zero mem' roots q ∧ mem'.pages q = 0#32768 := by
  obtain ⟨⟨p,middle⟩,took,ran⟩ := Runs.bind_ok.mp ran
  cases ran
  obtain ⟨sane₁,loose⟩ := sane.takes took
  obtain ⟨sane₂,keeps,_⟩ := sane₁.setPage loose.data 0#32768
  exact ⟨sane₂,keeps q loose,Function.update_self ..⟩

theorem initPgdir_sane [DecidableEq D] {fp : Option Nat} {dir : PgDir} (sane : Sane holes zero mem roots) (d : D)
    (ran : initPgdir fp mem = .ok (dir,mem')) :
    ∃ c, dir.pt = some c ∧ dir.sections = initSections fp ∧
    Sane holes zero mem' (Function.update roots d (some c)) := by
  obtain ⟨⟨c,middle⟩,took,ran⟩ := Runs.bind_ok.mp ran
  cases ran
  obtain ⟨sane₁,loose,bare⟩ := kzallocPage_sane sane took
  exact ⟨c,rfl,rfl,sane₁.root loose bare d⟩

theorem fork_sane [DecidableEq D] {slab₀ slab₁ : Nat} {fp : Option Nat} {parent new : PgDir}
    (sane : Sane holes zero mem roots) (d : D) (table : parent.pt = some rp)
    (ran : fork slab₀ slab₁ fp parent mem = .ok (new,mem')) :
    ∃ c, new.pt = some c ∧ new.sections = parent.sections.reverse++initSections fp ∧
    Sane holes zero mem' (Function.update roots d (some c)) := by
  obtain ⟨mem₁,small,ran⟩ := Runs.bind_ok.mp ran
  obtain ⟨⟨kstack,mem₂⟩,stack,ran⟩ := Runs.bind_ok.mp ran
  obtain ⟨⟨child,mem₃⟩,init,ran⟩ := Runs.bind_ok.mp ran
  obtain ⟨⟨pt,mem₄⟩,copied,ran⟩ := Runs.bind_ok.mp ran
  obtain ⟨mem₅,small',ran⟩ := Runs.bind_ok.mp ran
  cases ran
  obtain ⟨c,isRoot,list,sane₃⟩ := initPgdir_sane (kzallocPage_sane (slab_sane slab₀ sane small) stack).1 d init
  rw [isRoot,table] at copied
  obtain ⟨rfl,sane₄⟩ := forkSections_sane parent.sections sane₃ (Function.update_self ..) copied
  exact ⟨c,rfl,by rw [list]; rfl,slab_sane slab₁ sane₄ small'⟩

theorem loadPage_sane {flags : U64} {bytes : List Byte} (sane : Sane holes zero mem roots) (here : roots d = some root)
    (masked : flags &&& flagMask = flags) (set : valid flags)
    (ran : loadPage flags va bytes (some root) mem = .ok (pt,mem')) :
    pt = some root ∧ Sane holes zero mem' roots := by
  obtain ⟨⟨page,taken⟩,took,ran⟩ := Runs.bind_ok.mp ran
  obtain ⟨⟨pt₁,mapped⟩,made,ran⟩ := Runs.bind_ok.mp ran
  cases ran
  obtain ⟨sane₁,loose,_⟩ := kzallocPage_sane sane took
  obtain ⟨rfl,sane₂,entry⟩ := vmmap_loose sane₁ here loose masked set made
  have data := sane₂.target_data here (vpage (pageBase va))
  rw [entry,frameOf_entryFor masked] at data
  exact ⟨rfl,(sane₂.setPage data _).1⟩

theorem loadPages_sane {flags : U64} (fuel : Nat) {bytes : List Byte} (sane : Sane holes zero mem roots)
    (here : roots d = some root) (masked : flags &&& flagMask = flags) (set : valid flags)
    (ran : loadPages flags fuel va bytes (some root) mem = .ok (pt,mem')) :
    pt = some root ∧ Sane holes zero mem' roots := by
  induction fuel generalizing va bytes mem with
  | zero =>
    cases ran
    exact ⟨rfl,sane⟩
  | succ fuel ih =>
    unfold loadPages at ran
    split at ran
    · cases ran
      exact ⟨rfl,sane⟩
    · obtain ⟨⟨pt₁,middle⟩,first,ran⟩ := Runs.bind_ok.mp ran
      obtain ⟨rfl,sane'⟩ := loadPage_sane sane here masked set first
      exact ih sane' ran

theorem mapZero_sane (pages : List U64) (sane : Sane holes zero mem roots) (here : roots d = some root)
    (ran : mapZero zero pages (some root) mem = .ok (pt,mem')) : pt = some root ∧ Sane holes zero mem' roots := by
  induction pages generalizing mem with
  | nil =>
    cases ran
    exact ⟨rfl,sane⟩
  | cons va rest ih =>
    obtain ⟨⟨pt₁,middle⟩,first,ran⟩ := Runs.bind_ok.mp ran
    obtain ⟨rfl,sane'⟩ := vmmap_zero sane here (by decide) (by decide) first
    exact ih sane' ran

theorem loadSegment_sane {seg : Segment} {dir dir' : PgDir} (sane : Sane holes zero mem roots)
    (here : roots d = some root) (table : dir.pt = some root) (ran : loadSegment zero seg dir mem = .ok (dir',mem')) :
    dir'.pt = some root ∧ dir'.sections = seg.made::dir.sections ∧ Sane holes zero mem' roots := by
  obtain ⟨⟨pt₁,middle⟩,loaded,ran⟩ := Runs.bind_ok.mp ran
  obtain ⟨⟨pt₂,middle'⟩,zeroed,ran⟩ := Runs.bind_ok.mp ran
  cases ran
  rw [table] at loaded
  have flags : ∀ text : Bool, (if text then pteUserData ||| pteRo else pteUserData) &&& flagMask =
      (if text then pteUserData ||| pteRo else pteUserData) ∧
      valid (if text then pteUserData ||| pteRo else pteUserData) := by decide
  obtain ⟨rfl,sane₁⟩ := loadPages_sane _ sane here (flags seg.text).1 (flags seg.text).2 loaded
  obtain ⟨rfl,sane₂⟩ := mapZero_sane _ sane₁ here zeroed
  exact ⟨rfl,rfl,sane₂⟩

theorem loadSegments_sane (segs : List Segment) {dir dir' : PgDir} (sane : Sane holes zero mem roots)
    (here : roots d = some root) (table : dir.pt = some root) (ran : loadSegments zero segs dir mem = .ok (dir',mem')) :
    dir'.pt = some root ∧ dir'.sections = (segs.map Segment.made).reverse++dir.sections ∧
    Sane holes zero mem' roots := by
  induction segs generalizing dir mem with
  | nil =>
    cases ran
    exact ⟨table,rfl,sane⟩
  | cons seg rest ih =>
    obtain ⟨⟨dir₁,middle⟩,first,ran⟩ := Runs.bind_ok.mp ran
    obtain ⟨table₁,list,sane₁⟩ := loadSegment_sane sane here table first
    obtain ⟨table₂,list',sane₂⟩ := ih sane₁ table₁ ran
    refine ⟨table₂,?_,sane₂⟩
    rw [list',list]
    simp

theorem mapStack_sane {sp : U64} (steps : List Nat) (sane : Sane holes zero mem roots) (here : roots d = some root)
    (ran : mapStack sp steps (some root) mem = .ok (pt,mem')) : pt = some root ∧ Sane holes zero mem' roots := by
  induction steps generalizing mem with
  | nil =>
    cases ran
    exact ⟨rfl,sane⟩
  | cons i rest ih =>
    obtain ⟨⟨page,taken⟩,took,ran⟩ := Runs.bind_ok.mp ran
    obtain ⟨⟨pt₁,middle⟩,made,ran⟩ := Runs.bind_ok.mp ran
    obtain ⟨sane₁,loose,_⟩ := kzallocPage_sane sane took
    obtain ⟨rfl,sane₂,_⟩ := vmmap_loose sane₁ here loose (by decide) (by decide) made
    exact ih sane₂ ran

theorem copyouts_sane (args : List (U64 × List Byte)) (sane : Sane holes zero mem roots) (here : roots d = some root)
    (ran : copyouts args (some root) mem = .ok (pt,mem')) : pt = some root ∧ Sane holes zero mem' roots := by
  induction args generalizing mem with
  | nil =>
    cases ran
    exact ⟨rfl,sane⟩
  | cons arg rest ih =>
    obtain ⟨⟨pt₁,middle⟩,first,ran⟩ := Runs.bind_ok.mp ran
    obtain ⟨rfl,sane'⟩ := copyout_sane sane here first
    exact ih sane' ran

-- The sections of the image.
def imageSections (fp : Option Nat) (segs : List Segment) : List Section :=
  stackSection segs::((segs.map Segment.made).reverse++initSections fp)

theorem loadImage_sane [DecidableEq D] {fp : Option Nat} {segs : List Segment} {args : List (U64 × List Byte)}
    {dir : PgDir} (sane : Sane holes zero mem roots) (d : D) (ran : loadImage zero fp segs args mem = .ok (dir,mem')) :
    ∃ c, dir.pt = some c ∧ dir.sections = imageSections fp segs ∧
    Sane holes zero mem' (Function.update roots d (some c)) := by
  obtain ⟨⟨dir₀,mem₀⟩,init,ran⟩ := Runs.bind_ok.mp ran
  obtain ⟨⟨dir₁,mem₁⟩,loaded,ran⟩ := Runs.bind_ok.mp ran
  obtain ⟨⟨pt₂,mem₂⟩,stacked,ran⟩ := Runs.bind_ok.mp ran
  obtain ⟨⟨pt₃,mem₃⟩,filled,ran⟩ := Runs.bind_ok.mp ran
  cases ran
  obtain ⟨c,table,list,sane₀⟩ := initPgdir_sane sane d init
  have here : Function.update roots d (some c) d = some c := Function.update_self ..
  obtain ⟨table₁,list₁,sane₁⟩ := loadSegments_sane segs sane₀ here table loaded
  rw [table₁] at stacked
  obtain ⟨rfl,sane₂⟩ := mapStack_sane _ sane₁ here stacked
  obtain ⟨rfl,sane₃⟩ := copyouts_sane args sane₂ here filled
  refine ⟨c,rfl,?_,sane₃⟩
  rw [list₁,list]
  rfl

end Building

section Using
variable {D : Type*} {holes : Holes} {zero : Frame} {mem mem' : Mem} {roots : D → Option Frame} {d : D}
  {root : Frame} {va : U64} {dir dir' : PgDir} {σ : Type} {files : Files σ} {fs fs' : σ}

theorem pgfaultHandler_sane (sane : Sane holes zero mem roots) (here : roots d = some root) (table : dir.pt = some root)
    (ran : pgfaultHandler va dir mem = .ok (dir',mem')) : dir' = dir ∧ Sane holes zero mem' roots := by
  unfold pgfaultHandler at ran
  split at ran
  · cases ran
  · obtain ⟨⟨slot,pt,middle⟩,got,ran⟩ := Runs.bind_ok.mp ran
    rw [table] at got
    obtain ⟨grows,rfl,t,rfl,reached,value⟩ := getPte_grows sane.toFresh here got
    obtain ⟨_,found,ran⟩ := Runs.bind_ok.mp ran
    cases found
    obtain ⟨⟨pt₁,last⟩,handled,finish⟩ := Runs.bind_ok.mp ran
    have sane₁ := sane.grows grows
    have entry : middle.at ⟨t,part 3 va⟩ = middle.lookup root (vpage va) := by
      rw [grows.lookups d root _ here]
      exact value
    have result : pt₁ = some root ∧ Sane holes zero last roots := by
      simp only [entry] at handled
      split at handled
      · obtain ⟨⟨page,taken⟩,took,handled⟩ := Runs.bind_ok.mp handled
        obtain ⟨sane₂,loose⟩ := sane₁.takes took
        obtain ⟨rfl,sane₃,_⟩ := vmmap_loose sane₂ here loose (by decide) (by decide) handled
        exact ⟨rfl,sane₃⟩
      · rename_i nonzero
        -- A nonzero entry is valid, so that there is a page to copy.
        have set : valid (middle.lookup root (vpage va)) := by
          by_cases set : valid (middle.lookup root (vpage va))
          · exact set
          · exact absurd (sane₁.plain d root _ here set) nonzero
        split at handled
        · obtain ⟨⟨page,taken⟩,took,handled⟩ := Runs.bind_ok.mp handled
          obtain ⟨_,pages,_,_⟩ := kallocPage_cases took
          have entry' : taken.at ⟨t,part 3 va⟩ = middle.lookup root (vpage va) := (entry_of_pages pages t (part 3 va)).trans entry
          simp only [entry'] at handled
          exact copyOnWrite_sane sane₁ here reached set took _ handled
        · cases handled
          exact ⟨rfl,sane₁⟩
    obtain ⟨rfl,sane₂⟩ := result
    simp only at finish
    split at finish
    · cases finish
      refine ⟨?_,sane₂⟩
      rw [← table]
    · cases finish

theorem userStore_sane {bytes : List Byte} (sane : Sane holes zero mem roots) (here : roots d = some root)
    (table : dir.pt = some root) (ran : userStore va bytes dir mem = .ok (dir',mem')) :
    dir' = dir ∧ Sane holes zero mem' roots := by
  unfold userStore at ran
  split at ran
  · cases ran
  · obtain ⟨⟨slot,pt,same⟩,_,ran⟩ := Runs.bind_ok.mp ran
    obtain ⟨⟨dir₁,middle⟩,present,ran⟩ := Runs.bind_ok.mp ran
    obtain ⟨⟨slot',pt',same'⟩,got,finish⟩ := Runs.bind_ok.mp ran
    have result : dir₁ = dir ∧ Sane holes zero middle roots := by
      split at present
      · cases present
        exact ⟨rfl,sane⟩
      · exact pgfaultHandler_sane sane here table present
    obtain ⟨rfl,sane₁⟩ := result
    rw [table] at got
    obtain ⟨_,found,finish⟩ := Runs.bind_ok.mp finish
    obtain ⟨rfl,_,⟨rfl,_⟩ | ⟨t,rfl,_,value⟩⟩ := getPte_reads got
    · cases found
    · cases found
      have entry : same'.at ⟨t,part 3 va⟩ = same'.lookup root (vpage va) := value
      cases finish
      rw [entry]
      exact ⟨rfl,(sane₁.setPage (sane₁.target_data here _) _).1⟩

theorem userCopy_sane (fuel : Nat) {src : List Byte} (sane : Sane holes zero mem roots) (here : roots d = some root)
    (table : dir.pt = some root) (ran : userCopy fuel va src dir mem = .ok (dir',mem')) :
    dir' = dir ∧ Sane holes zero mem' roots := by
  induction fuel generalizing va src mem with
  | zero =>
    cases ran
    exact ⟨rfl,sane⟩
  | succ fuel ih =>
    unfold userCopy at ran
    split at ran
    · cases ran
      exact ⟨rfl,sane⟩
    · obtain ⟨⟨dir₁,middle⟩,first,rest⟩ := Runs.bind_ok.mp ran
      obtain ⟨rfl,sane'⟩ := userStore_sane sane here table first
      exact ih sane' rest

theorem freeSectionPage_sane {st : Section} (sane : Sane holes zero mem roots) (here : roots d = some root)
    (ran : freeSectionPage files st (some root) va mem fs = .ok (mem',fs')) : Sane holes zero mem' roots := by
  obtain ⟨⟨slot,_,same⟩,got,ran⟩ := Runs.bind_ok.mp ran
  obtain ⟨rfl,_,⟨rfl,_⟩ | ⟨t,rfl,reached,value⟩⟩ := getPte_reads got
  · cases ran
    exact sane
  · have entry : same.at ⟨t,part 3 va⟩ = same.lookup root (vpage va) := value
    simp only [entry] at ran
    split at ran
    · rename_i set
      obtain ⟨fs₁,_,ran⟩ := Runs.bind_ok.mp ran
      cases ran
      exact sane.dropped here reached set
    · cases ran
      exact sane

theorem freeSectionPages_sane {st : Section} (pages : List U64) (sane : Sane holes zero mem roots)
    (here : roots d = some root) (ran : freeSectionPages files st (some root) pages mem fs = .ok (mem',fs')) :
    Sane holes zero mem' roots := by
  induction pages generalizing mem fs with
  | nil =>
    cases ran
    exact sane
  | cons va rest ih =>
    obtain ⟨⟨middle,fs₁⟩,first,ran⟩ := Runs.bind_ok.mp ran
    exact ih (freeSectionPage_sane sane here first) ran

theorem dropped_lookup {t : Frame} {v w : VPage} (sane : Sane holes zero mem roots) (here : roots d = some root)
    (reached : mem.table root (tableWay v) = some t) (set : valid (mem.lookup root v)) (other : w ≠ v) :
    ((mem.kfreePage (frameOf (mem.lookup root v))).setEntry t v.2.2.2 0#64).lookup root w = mem.lookup root w := by
  have mine : Maps mem roots d v (mem.lookup root v) := ⟨root,here,rfl,set⟩
  have table : IsTable mem roots d (tableWay v) t := ⟨root,here,Nat.le_refl 3,reached⟩
  have apart : t ≠ frameOf (mem.lookup root v) := by
    rintro same
    exact sane.page_data _ _ _ mine _ _ (same ▸ table)
  have cleared := setAt_mapped sane here reached 0#64 (fun valid => absurd valid (by decide))
  have data : ∀ way, ¬ IsTable (mem.setEntry t v.2.2.2 0#64) roots d way (frameOf (mem.lookup root v)) := by
    intro way there
    rcases cleared.added d way _ there with old | ⟨_,new⟩
    · exact sane.page_data _ _ _ mine _ _ old
    · exact sane.page_used _ _ _ mine new
  rw [kfreePage_setEntry mem apart,data_lookup data (fun x j differs => kfreePage_entry _ differs j) here w]
  exact cleared.lookups d root w here fun _ => other

theorem cutPages_sane {st : Section} {last : U64} (pages : List U64) (sane : Sane holes zero mem roots)
    (here : roots d = some root) (nodup : (pages.map vpage).Nodup)
    (present : ∀ va ∈ pages, valid (mem.lookup root (vpage va)))
    (ran : cutPages files st last (some root) pages mem fs = .ok (mem',fs')) : Sane holes zero mem' roots := by
  induction pages generalizing mem fs with
  | nil =>
    cases ran
    exact sane
  | cons va rest ih =>
    obtain ⟨⟨middle,fs₁⟩,first,ran⟩ := Runs.bind_ok.mp ran
    obtain ⟨⟨slot,_,same⟩,got,first⟩ := Runs.bind_ok.mp first
    obtain ⟨_,found,first⟩ := Runs.bind_ok.mp first
    obtain ⟨fs₂,_,first⟩ := Runs.bind_ok.mp first
    rw [List.map_cons,List.nodup_cons] at nodup
    obtain ⟨rfl,_,⟨rfl,_⟩ | ⟨t,rfl,reached,value⟩⟩ := getPte_reads got
    · cases found
    · cases found
      have entry : same.at ⟨t,part 3 va⟩ = same.lookup root (vpage va) := value
      have set := present va List.mem_cons_self
      cases first
      rw [entry] at ran
      refine ih (sane.dropped here reached set) nodup.2 ?_ ran
      intro va' member
      have other : vpage va' ≠ vpage va := by
        intro equal
        exact nodup.1 (equal ▸ List.mem_map_of_mem member)
      have kept := dropped_lookup sane here reached set other
      exact kept ▸ present va' (List.mem_cons_of_mem _ member)

end Using

end PageTable
