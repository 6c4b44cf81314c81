import HonorKernel.ForkCopy

-- Who has a page: the queue, one table of one process, or the entries that map it. Only
-- the zero page is mapped more than once, and its reference count keeps it.
namespace PageTable
open DiskFormat BitSlice

-- Frames that are not in the hands of kalloc_page, with what their counters hold. Frame
-- 0 is one of them: it is what an entry of 0 points to.
structure Holes where
  frames : Frame → Prop
  refs : Frame → Int
  null : frames 0#36

structure Sane {D : Type*} (holes : Holes) (zero : Frame) (mem : Mem) (roots : D → Option Frame) : Prop extends Fresh mem roots where
  clean : mem.clean = true
  page_once : ∀ d d' v v' e e', Maps mem roots d v e → Maps mem roots d' v' e' → frameOf e = frameOf e' → d = d' ∧
      v = v' ∨ frameOf e = zero
  zero_used : zero ∉ mem.free
  zero_data : ∀ d way, ¬ IsTable mem roots d way zero
  zero_count : ∃ S : Finset (D × VPage), (∀ d v e, Maps mem roots d v e → frameOf e = zero → (d,v) ∈ S) ∧
      (S.card : Int) < mem.refs zero
  zero_real : ¬ holes.frames zero
  hole : ∀ h, holes.frames h → h ∉ mem.free
  hole_data : ∀ h, holes.frames h → ∀ d way, ¬ IsTable mem roots d way h
  hole_page : ∀ d v e, Maps mem roots d v e → ¬ holes.frames (frameOf e)
  hole_refs : ∀ h, holes.frames h → mem.refs h = holes.refs h
  plain : ∀ d root v, roots d = some root → ¬ valid (mem.lookup root v) → mem.lookup root v = 0#64

-- A page that has been handed out and is in no use yet.
structure Loose {D : Type*} (holes : Holes) (zero : Frame) (mem : Mem) (roots : D → Option Frame) (q : Frame) : Prop where
  used : q ∉ mem.free
  data : ∀ d way, ¬ IsTable mem roots d way q
  apart : ∀ d v e, Maps mem roots d v e → frameOf e ≠ q
  notZero : q ≠ zero
  notHole : ¬ holes.frames q

section Owners
variable {D : Type*} {holes : Holes} {zero : Frame} {mem mem' : Mem} {roots : D → Option Frame} {d : D}
  {root p q t : Frame} {v : VPage} {e : U64}

theorem Grows.maps (grows : Grows roots d mem mem') {d' : D} : Maps mem' roots d' v e ↔ Maps mem roots d' v e := by
  constructor
  · rintro ⟨root,found,value,set⟩
    rw [grows.lookups _ _ _ found] at value
    exact ⟨root,found,value,set⟩
  · rintro ⟨root,found,value,set⟩
    exact ⟨root,found,by rw [grows.lookups _ _ _ found]; exact value,set⟩

theorem Sane.grows (sane : Sane holes zero mem roots) (grows : Grows roots d mem mem') :
    Sane holes zero mem' roots := by
  refine ⟨grows.fresh,by rw [grows.clean]; exact sane.clean,?_,grows.kept sane.zero_used,?_,?_,?_,fun h is => grows.kept (sane.hole h is),?_,?_,?_,?_⟩
  · intro d d' v v' e e' one two
    exact sane.page_once d d' v v' e e' (grows.maps.mp one) (grows.maps.mp two)
  · intro d' way there
    rcases grows.added d' way zero there with old | ⟨_,new⟩
    · exact sane.zero_data d' way old
    · exact sane.zero_used new
  · obtain ⟨S,all,count⟩ := sane.zero_count
    exact ⟨S,fun d v e mapped => all d v e (grows.maps.mp mapped),by rw [grows.refs zero sane.zero_used]; exact count⟩
  · exact sane.zero_real
  · intro h is d' way there
    rcases grows.added d' way h there with old | ⟨_,new⟩
    · exact sane.hole_data h is d' way old
    · exact sane.hole h is new
  · intro d v e mapped
    exact sane.hole_page d v e (grows.maps.mp mapped)
  · intro h is
    rw [grows.refs h (sane.hole h is)]
    exact sane.hole_refs h is
  · intro d root v found
    rw [grows.lookups d root v found]
    exact sane.plain d root v found

theorem Grows.loose (grows : Grows roots d mem mem') (loose : Loose holes zero mem roots q) :
    Loose holes zero mem' roots q := by
  refine ⟨grows.kept loose.used,?_,?_,loose.notZero,loose.notHole⟩
  · intro d' way there
    rcases grows.added d' way q there with old | ⟨_,new⟩
    · exact loose.data d' way old
    · exact loose.used new
  · intro d v e mapped
    exact loose.apart d v e (grows.maps.mp mapped)

theorem Sane.takes (sane : Sane holes zero mem roots) (ran : mem.kallocPage = .ok (q,mem')) :
    Sane holes zero mem' roots ∧ Loose holes zero mem' roots q := by
  obtain ⟨queue,pages,refs,clean⟩ := kallocPage_cases ran
  obtain ⟨fresh,used,data,apart⟩ := sane.toFresh.takes ran
  have inQueue : q ∈ mem.free := by
    rw [queue]
    exact List.mem_cons_self
  have kept : ∀ p, p ∉ mem.free → p ∉ mem'.free := by
    intro p notFree there
    exact notFree (by rw [queue]; exact List.mem_cons_of_mem _ there)
  have notZero : q ≠ zero := by
    rintro rfl
    exact sane.zero_used inQueue
  have notHole : ¬ holes.frames q := fun is => sane.hole q is inQueue
  refine ⟨⟨fresh,clean.trans sane.clean,?_,kept _ sane.zero_used,?_,?_,sane.zero_real,fun h is => kept h
      (sane.hole h is),?_,?_,?_,?_⟩,used,data,apart,notZero,notHole⟩
  · intro d d' v v' e e' one two
    exact sane.page_once d d' v v' e e' ((maps_of_pages pages).mp one) ((maps_of_pages pages).mp two)
  · intro d way there
    exact sane.zero_data d way ((isTable_of_pages pages).mp there)
  · obtain ⟨S,all,count⟩ := sane.zero_count
    refine ⟨S,fun d v e mapped => all d v e ((maps_of_pages pages).mp mapped),?_⟩
    rw [refs,Function.update_of_ne (Ne.symm notZero)]
    exact count
  · intro h is d way there
    exact sane.hole_data h is d way ((isTable_of_pages pages).mp there)
  · intro d v e mapped
    exact sane.hole_page d v e ((maps_of_pages pages).mp mapped)
  · intro h is
    have other : h ≠ q := by
      rintro rfl
      exact notHole is
    rw [refs,Function.update_of_ne other]
    exact sane.hole_refs h is
  · intro d root v found
    rw [lookup_of_pages pages]
    exact sane.plain d root v found

theorem Sane.mapped_count (sane : Sane holes zero mem roots) (mapped : Mapped roots d v e mem mem')
    (target : valid e → frameOf e = zero ∨ Loose holes zero mem roots (frameOf e)) (plain : ¬ valid e → e = 0#64)
    (others : ∀ h, holes.frames h → mem'.refs h = mem.refs h)
    (count : ∃ S : Finset (D × VPage), (∀ d v e, Maps mem' roots d v e → frameOf e = zero → (d,v) ∈ S) ∧
    (S.card : Int) < mem'.refs zero) :
    Sane holes zero mem' roots := by
  have kept : ∀ p, p ∉ mem.free → p ∉ mem'.free := by
    intro p notFree there
    obtain ⟨front,parts⟩ := mapped.taken
    exact notFree (by rw [parts]; exact List.mem_append_right _ there)
  refine ⟨mapped.fresh,mapped.clean.trans sane.clean,?_,kept _ sane.zero_used,?_,count,sane.zero_real,fun h is =>
      kept h (sane.hole h is),?_,?_,fun h is => (others h is).trans (sane.hole_refs h is),?_⟩
  · intro d₁ d₂ v₁ v₂ e₁ e₂ one two same
    rcases mapped.maps one with ⟨old₁,_⟩ | ⟨rfl,rfl,rfl⟩
    · rcases mapped.maps two with ⟨old₂,_⟩ | ⟨rfl,rfl,rfl⟩
      · exact sane.page_once _ _ _ _ _ _ old₁ old₂ same
      · obtain ⟨_,_,_,set⟩ := two
        rcases target set with isZero | loose
        · exact .inr (same.trans isZero)
        · exact absurd same (loose.apart _ _ _ old₁)
    · rcases mapped.maps two with ⟨old₂,_⟩ | ⟨rfl,rfl,_⟩
      · obtain ⟨_,_,_,set⟩ := one
        rcases target set with isZero | loose
        · exact .inr isZero
        · exact absurd same.symm (loose.apart _ _ _ old₂)
      · exact .inl ⟨rfl,rfl⟩
  · intro d' way there
    rcases mapped.added d' way zero there with old | ⟨_,new⟩
    · exact sane.zero_data d' way old
    · exact sane.zero_used new
  · intro h is d' way there
    rcases mapped.added d' way h there with old | ⟨_,new⟩
    · exact sane.hole_data h is d' way old
    · exact sane.hole h is new
  · intro d' v' e' maps
    rcases mapped.maps maps with ⟨old,_⟩ | ⟨rfl,rfl,rfl⟩
    · exact sane.hole_page _ _ _ old
    · obtain ⟨_,_,_,set⟩ := maps
      rcases target set with isZero | loose
      · rw [isZero]
        exact sane.zero_real
      · exact loose.notHole
  · intro d' root' v' found vacant
    by_cases same : d' = d ∧ v' = v
    · obtain ⟨rfl,rfl⟩ := same
      rw [mapped.here root' found] at vacant ⊢
      exact plain vacant
    · rw [mapped.lookups d' root' v' found (fun one two => same ⟨one,two⟩)] at vacant ⊢
      exact sane.plain d' root' v' found vacant

theorem Sane.mapped (sane : Sane holes zero mem roots) (mapped : Mapped roots d v e mem mem')
    (refs : ∀ h, h = zero ∨ holes.frames h → mem'.refs h = mem.refs h)
    (target : valid e → Loose holes zero mem roots (frameOf e)) (plain : ¬ valid e → e = 0#64) :
    Sane holes zero mem' roots := by
  refine sane.mapped_count mapped (fun set => .inr (target set)) plain (fun h is => refs h (.inr is)) ?_
  obtain ⟨S,all,more⟩ := sane.zero_count
  refine ⟨S,?_,by rw [refs zero (.inl rfl)]; exact more⟩
  intro d' v' e' maps isZero
  rcases mapped.maps maps with ⟨old,_⟩ | ⟨rfl,rfl,rfl⟩
  · exact all _ _ _ old isZero
  · obtain ⟨_,_,_,set⟩ := maps
    exact absurd isZero (target set).notZero

theorem Sane.mapped_zero (sane : Sane holes zero mem roots) (mapped : Mapped roots d v e mem mem')
    (refs : mem'.refs zero = mem.refs zero+1) (others : ∀ h, holes.frames h → mem'.refs h = mem.refs h)
    (target : frameOf e = zero) (plain : ¬ valid e → e = 0#64) : Sane holes zero mem' roots := by
  classical
  refine sane.mapped_count mapped (fun _ => .inl target) plain others ?_
  obtain ⟨S,all,more⟩ := sane.zero_count
  refine ⟨insert (d,v) S,?_,?_⟩
  · intro d' v' e' maps isZero
    rcases mapped.maps maps with ⟨old,_⟩ | ⟨rfl,rfl,_⟩
    · exact Finset.mem_insert_of_mem (all _ _ _ old isZero)
    · exact Finset.mem_insert_self _ _
  · have bound := Finset.card_insert_le (d,v) S
    omega

theorem Sane.unmapped_zero (sane : Sane holes zero mem roots) (old : Maps mem roots d v e) (was : frameOf e = zero)
    (mapped : Mapped roots d v 0#64 mem mem') (refs : mem'.refs zero = mem.refs zero-1)
    (others : ∀ h, holes.frames h → mem'.refs h = mem.refs h) : Sane holes zero mem' roots := by
  classical
  refine sane.mapped_count mapped (fun set => absurd set (by decide)) (fun _ => rfl) others ?_
  obtain ⟨S,all,more⟩ := sane.zero_count
  refine ⟨S.erase (d,v),?_,?_⟩
  · intro d' v' e' maps isZero
    rcases mapped.maps maps with ⟨before,other⟩ | ⟨rfl,rfl,rfl⟩
    · refine Finset.mem_erase.mpr ⟨?_,all _ _ _ before isZero⟩
      intro same
      obtain ⟨rfl,rfl⟩ := Prod.mk.inj same
      exact other rfl rfl
    · obtain ⟨_,_,_,set⟩ := maps
      exact absurd set (by decide)
  · rw [Finset.card_erase_of_mem (all _ _ _ old was)]
    have positive : 0 < S.card := Finset.card_pos.mpr ⟨_,all _ _ _ old was⟩
    omega

theorem Sane.setPage (sane : Sane holes zero mem roots) (data : ∀ d way, ¬ IsTable mem roots d way q) (page : Page) :
    Sane holes zero (mem.setPage q page) roots ∧
    (∀ p, Loose holes zero mem roots p → Loose holes zero (mem.setPage q page) roots p) ∧
      ∀ d root v, roots d = some root → (mem.setPage q page).lookup root v = mem.lookup root v := by
  obtain ⟨fresh,tables,lookups⟩ := setPage_fresh sane.toFresh data page
  have maps : ∀ d v e, Maps (mem.setPage q page) roots d v e → Maps mem roots d v e := by
    rintro d v e ⟨root,found,value,set⟩
    rw [lookups d root v found] at value
    exact ⟨root,found,value,set⟩
  refine ⟨⟨fresh,sane.clean,?_,sane.zero_used,?_,?_,sane.zero_real,sane.hole,?_,?_,sane.hole_refs,?_⟩,?_,lookups⟩
  · intro d d' v v' e e' one two
    exact sane.page_once d d' v v' e e' (maps _ _ _ one) (maps _ _ _ two)
  · intro d way there
    exact sane.zero_data d way ((tables _ _ _).mp there)
  · obtain ⟨S,all,count⟩ := sane.zero_count
    exact ⟨S,fun d v e mapped => all d v e (maps _ _ _ mapped),count⟩
  · intro h is d way there
    exact sane.hole_data h is d way ((tables _ _ _).mp there)
  · intro d v e mapped
    exact sane.hole_page d v e (maps _ _ _ mapped)
  · intro d root v found
    rw [lookups d root v found]
    exact sane.plain d root v found
  · intro p loose
    exact ⟨loose.used,fun d way there => loose.data d way ((tables _ _ _).mp there),fun d v e mapped =>
        loose.apart d v e (maps _ _ _ mapped),
      loose.notZero,loose.notHole⟩

theorem kfreePage_refs (mem : Mem) (p : Frame) :
    (mem.kfreePage p).refs = Function.update mem.refs p (mem.refs p-1) := by
  unfold Mem.kfreePage
  simp only
  split <;> rfl

theorem kfreePage_pages (mem : Mem) (other : q ≠ p) : (mem.kfreePage p).pages q = mem.pages q := by
  unfold Mem.kfreePage
  simp only
  split
  · simp only [Mem.addToQueue,Mem.setEntry,Mem.setPage]
    rw [Function.update_of_ne other]
  · rfl

theorem kfreePage_entry (mem : Mem) (other : q ≠ p) (i : Index) : (mem.kfreePage p).entry q i = mem.entry q i := by
  unfold Mem.entry
  rw [kfreePage_pages mem other]

theorem kfreePage_free (mem : Mem) (p : Frame) : (mem.kfreePage p).free = p::mem.free ∧
    (mem.kfreePage p).clean = (mem.clean && decide (p ∉ mem.free)) ∨
    0 < mem.refs p-1 ∧ (mem.kfreePage p).free = mem.free ∧ (mem.kfreePage p).clean = mem.clean ∧
    (mem.kfreePage p).pages = mem.pages := by
  unfold Mem.kfreePage
  simp only [Function.update_self]
  split
  · exact .inl ⟨rfl,rfl⟩
  · rename_i more
    exact .inr ⟨by omega,rfl,rfl,rfl⟩

-- The link is written into the page itself, so that an entry of another page may be set
-- before or after.
theorem kfreePage_setEntry (mem : Mem) (other : t ≠ p) (i : Index) (e : U64) :
    (mem.kfreePage p).setEntry t i e = (mem.setEntry t i e).kfreePage p := by
  unfold Mem.kfreePage
  by_cases low : mem.refs p-1 ≤ 0
  · simp only [Mem.addToQueue,Mem.setEntry,Mem.setPage,Function.update_self,if_pos low]
    rw [Function.update_of_ne other,Function.update_of_ne (Ne.symm other),Function.update_comm other]
    rfl
  · simp only [Mem.setEntry,Mem.setPage,Function.update_self,if_neg low]

theorem put_put (pos : Nat) (v u : BitVec w) (d : BitVec n) : put pos v (put pos u d) = put pos v d := by
  apply BitVec.eq_of_getLsbD_eq
  intro i _
  simp only [put_bit]
  split <;> rfl

theorem setEntry_setEntry (mem : Mem) (t : Frame) (i : Index) (a b : U64) :
    (mem.setEntry t i a).setEntry t i b = mem.setEntry t i b := by
  unfold Mem.setEntry Mem.setPage
  simp only [Function.update_self,Function.update_idem,put_put]

theorem Sane.frees (sane : Sane holes zero mem roots) (loose : Loose holes zero mem roots p) :
    Sane holes zero (mem.kfreePage p) roots := by
  have entries : ∀ q j, q ≠ p → (mem.kfreePage p).entry q j = mem.entry q j := fun q j other => kfreePage_entry mem other j
  have tables : ∀ d way t, IsTable (mem.kfreePage p) roots d way t → IsTable mem roots d way t := by
    rintro d way t ⟨root,found,short,there⟩
    rw [data_tables (loose.data d) entries found short] at there
    exact ⟨root,found,short,there⟩
  have maps : ∀ d v e, Maps (mem.kfreePage p) roots d v e → Maps mem roots d v e := by
    rintro d v e ⟨root,found,value,set⟩
    rw [data_lookup (loose.data d) entries found v] at value
    exact ⟨root,found,value,set⟩
  have queue : (mem.kfreePage p).free = p::mem.free ∨ (mem.kfreePage p).free = mem.free :=
    (kfreePage_free mem p).imp And.left fun more => more.2.1
  have kept : ∀ q, q ∉ mem.free → q ≠ p → q ∉ (mem.kfreePage p).free := by
    intro q notFree other there
    rcases queue with longer | same
    · rw [longer] at there
      rcases List.mem_cons.mp there with here | there
      · exact other here
      · exact notFree there
    · rw [same] at there
      exact notFree there
  have other : ∀ h, holes.frames h → h ≠ p := by
    rintro h is rfl
    exact loose.notHole is
  refine ⟨⟨?_,?_,?_,?_,?_⟩,?_,?_,kept _ sane.zero_used (Ne.symm loose.notZero),?_,?_,sane.zero_real,?_,?_,?_,?_,?_⟩
  · rcases queue with longer | same
    · rw [longer,List.nodup_cons]
      exact ⟨loose.used,sane.nodup⟩
    · rw [same]
      exact sane.nodup
  · intro d d' way way' t one two
    exact sane.table_once _ _ _ _ _ (tables _ _ _ one) (tables _ _ _ two)
  · intro d way t there
    refine kept t (sane.table_used _ _ _ (tables _ _ _ there)) ?_
    rintro rfl
    exact loose.data _ _ (tables _ _ _ there)
  · intro d v e mapped
    exact kept _ (sane.page_used _ _ _ (maps _ _ _ mapped)) (loose.apart _ _ _ (maps _ _ _ mapped))
  · intro d v e mapped d' way there
    exact sane.page_data _ _ _ (maps _ _ _ mapped) _ _ (tables _ _ _ there)
  · rcases kfreePage_free mem p with ⟨_,clean⟩ | ⟨_,_,clean,_⟩
    · rw [clean,sane.clean]
      simp [loose.used]
    · rw [clean,sane.clean]
  · intro d d' v v' e e' one two
    exact sane.page_once _ _ _ _ _ _ (maps _ _ _ one) (maps _ _ _ two)
  · intro d way there
    exact sane.zero_data _ _ (tables _ _ _ there)
  · obtain ⟨S,all,count⟩ := sane.zero_count
    refine ⟨S,fun d v e mapped => all _ _ _ (maps _ _ _ mapped),?_⟩
    rw [kfreePage_refs,Function.update_of_ne (Ne.symm loose.notZero)]
    exact count
  · intro h is
    exact kept h (sane.hole h is) (other h is)
  · intro h is d way there
    exact sane.hole_data h is _ _ (tables _ _ _ there)
  · intro d v e mapped
    exact sane.hole_page _ _ _ (maps _ _ _ mapped)
  · intro h is
    rw [kfreePage_refs,Function.update_of_ne (other h is)]
    exact sane.hole_refs h is
  · intro d root v found
    rw [data_lookup (loose.data d) entries found v]
    exact sane.plain d root v found

theorem setAt_mapped (sane : Sane holes zero mem roots) (here : roots d = some root)
    (reached : mem.table root (tableWay v) = some t) (e : U64) (unused : valid e → frameOf e ∉ mem.free ∧ ∀ d way,
    ¬ IsTable mem roots d way (frameOf e)) :
    Mapped roots d v e mem (mem.setEntry t v.2.2.2 e) := by
  refine setEntry_mapped sane.toFresh here reached (fun q j => entry_setEntry mem t _ e q j) rfl ?_ rfl unused
  intro p other
  simp only [Mem.setEntry,Mem.setPage]
  rw [Function.update_of_ne other]

theorem Sane.dropped (sane : Sane holes zero mem roots) (here : roots d = some root)
    (reached : mem.table root (tableWay v) = some t) (set : valid (mem.lookup root v)) :
    Sane holes zero ((mem.kfreePage (frameOf (mem.lookup root v))).setEntry t v.2.2.2 0#64) roots := by
  have old : Maps mem roots d v (mem.lookup root v) := ⟨root,here,rfl,set⟩
  have table : IsTable mem roots d (tableWay v) t := ⟨root,here,Nat.le_refl 3,reached⟩
  have other : t ≠ frameOf (mem.lookup root v) := by
    rintro same
    exact sane.page_data _ _ _ old _ _ (same ▸ table)
  have cleared := setAt_mapped sane here reached 0#64 (fun valid => absurd valid (by decide))
  by_cases isZero : frameOf (mem.lookup root v) = zero
  · obtain ⟨S,all,count⟩ := sane.zero_count
    have positive : 0 < S.card := Finset.card_pos.mpr ⟨_,all _ _ _ old isZero⟩
    rcases kfreePage_free mem (frameOf (mem.lookup root v)) with ⟨longer,_⟩ | ⟨_,queue,clean,pages⟩
    · have more : ¬ mem.refs zero-1 ≤ 0 := by omega
      have kept : (mem.kfreePage zero).free = mem.free := by
        unfold Mem.kfreePage
        simp only [Function.update_self,if_neg more]
      rw [isZero,kept] at longer
      have lengths := congrArg List.length longer
      simp at lengths
    · have mapped : Mapped roots d v 0#64 mem ((mem.kfreePage (frameOf (mem.lookup root v))).setEntry t v.2.2.2 0#64) := by
        refine setEntry_mapped sane.toFresh here reached ?_ queue ?_ clean (fun valid => absurd valid (by decide))
        · intro q j
          rw [entry_setEntry,entry_of_pages pages]
        · intro p apart
          simp only [Mem.setEntry,Mem.setPage]
          rw [Function.update_of_ne apart,pages]
      refine sane.unmapped_zero old isZero mapped ?_ ?_
      · simp only [Mem.setEntry,Mem.setPage]
        rw [kfreePage_refs,isZero,Function.update_self]
      · intro h is
        have apart : h ≠ zero := by
          rintro rfl
          exact sane.zero_real is
        simp only [Mem.setEntry,Mem.setPage]
        rw [kfreePage_refs,isZero,Function.update_of_ne apart]
  · rw [kfreePage_setEntry mem other]
    refine (sane.mapped cleared (fun _ _ => rfl) (fun valid => absurd valid (by decide)) (fun _ => rfl)).frees
        ⟨?_,?_,?_,isZero,sane.hole_page _ _ _ old⟩
    · exact sane.page_used _ _ _ old
    · intro d' way there
      rcases cleared.added d' way _ there with old' | ⟨_,new⟩
      · exact sane.page_data _ _ _ old _ _ old'
      · exact sane.page_used _ _ _ old new
    · intro d' v' e' maps same
      rcases cleared.maps maps with ⟨old',apart⟩ | ⟨rfl,rfl,rfl⟩
      · rcases sane.page_once _ _ _ _ _ _ old' old same with ⟨rfl,rfl⟩ | isZero'
        · exact apart rfl rfl
        · exact isZero (same.symm.trans isZero')
      · obtain ⟨_,_,_,set'⟩ := maps
        exact absurd set' (by decide)

theorem dropped_tables (sane : Sane holes zero mem roots) (here : roots d = some root)
    (reached : mem.table root (tableWay v) = some t) (set : valid (mem.lookup root v)) {d' : D} {root' : Frame}
    (found : roots d' = some root') {way : List Index} (short : way.length ≤ 3) :
    ((mem.kfreePage (frameOf (mem.lookup root v))).setEntry t v.2.2.2 0#64).table root' way = mem.table root' way := by
  have old : Maps mem roots d v (mem.lookup root v) := ⟨root,here,rfl,set⟩
  have table : IsTable mem roots d (tableWay v) t := ⟨root,here,Nat.le_refl 3,reached⟩
  have other : t ≠ frameOf (mem.lookup root v) := by
    rintro same
    exact sane.page_data _ _ _ old _ _ (same ▸ table)
  have cleared := setAt_mapped sane here reached 0#64 (fun valid => absurd valid (by decide))
  have data : ∀ way, ¬ IsTable (mem.setEntry t v.2.2.2 0#64) roots d' way (frameOf (mem.lookup root v)) := by
    intro way there
    rcases cleared.added d' way _ there with old' | ⟨_,new⟩
    · exact sane.page_data _ _ _ old _ _ old'
    · exact sane.page_used _ _ _ old new
  rw [kfreePage_setEntry mem other,data_tables data (fun x j differs => kfreePage_entry _ differs j) found short]
  exact set_tables sane.toFresh.tables here reached (entry_setEntry mem t _ 0#64) found short

theorem Loose.dropped (loose : Loose holes zero mem roots q) (sane : Sane holes zero mem roots)
    (here : roots d = some root) (reached : mem.table root (tableWay v) = some t) (set : valid (mem.lookup root v)) :
    Loose holes zero ((mem.kfreePage (frameOf (mem.lookup root v))).setEntry t v.2.2.2 0#64) roots q := by
  have old : Maps mem roots d v (mem.lookup root v) := ⟨root,here,rfl,set⟩
  have table : IsTable mem roots d (tableWay v) t := ⟨root,here,Nat.le_refl 3,reached⟩
  have apart : q ≠ frameOf (mem.lookup root v) := Ne.symm (loose.apart _ _ _ old)
  have cleared := setAt_mapped sane here reached 0#64 (fun valid => absurd valid (by decide))
  have other : t ≠ frameOf (mem.lookup root v) := by
    rintro same
    exact sane.page_data _ _ _ old _ _ (same ▸ table)
  have entries : ∀ x j, x ≠ frameOf (mem.lookup root v) →
      ((mem.setEntry t v.2.2.2 0#64).kfreePage (frameOf (mem.lookup root v))).entry x j =
      (mem.setEntry t v.2.2.2 0#64).entry x j := fun x j differs => kfreePage_entry _ differs j
  have data : ∀ d' way, ¬ IsTable (mem.setEntry t v.2.2.2 0#64) roots d' way (frameOf (mem.lookup root v)) := by
    intro d' way there
    rcases cleared.added d' way _ there with old' | ⟨_,new⟩
    · exact sane.page_data _ _ _ old _ _ old'
    · exact sane.page_used _ _ _ old new
  rw [kfreePage_setEntry mem other]
  refine ⟨?_,?_,?_,loose.notZero,loose.notHole⟩
  · intro there
    rcases kfreePage_free (mem.setEntry t v.2.2.2 0#64) (frameOf (mem.lookup root v)) with ⟨longer,_⟩ | ⟨_,queue,_⟩
    · rw [longer] at there
      rcases List.mem_cons.mp there with same | there
      · exact apart same
      · exact loose.used there
    · rw [queue] at there
      exact loose.used there
  · rintro d' way ⟨root',found,short,there⟩
    rw [data_tables (data d') entries found short] at there
    rcases cleared.added d' way q ⟨root',found,short,there⟩ with old' | ⟨_,new⟩
    · exact loose.data _ _ old'
    · exact loose.used new
  · rintro d' v' e' ⟨root',found,value,set'⟩ same
    rw [data_lookup (data d') entries found v'] at value
    rcases cleared.maps ⟨root',found,value,set'⟩ with ⟨old',_⟩ | ⟨_,_,rfl⟩
    · exact loose.apart _ _ _ old' same
    · exact absurd set' (by decide)

end Owners

section Operations
variable {D : Type*} {holes : Holes} {zero : Frame} {mem mem' : Mem} {roots : D → Option Frame} {d : D}
  {root : Frame} {va : U64} {pt : Option Frame}

theorem dropPage_sane (sane : Sane holes zero mem roots) (here : roots d = some root)
    (ran : dropPage (some root) va mem = .ok mem') :
    Sane holes zero mem' roots := by
  obtain ⟨⟨slot,_,same⟩,got,ran⟩ := Runs.bind_ok.mp ran
  obtain ⟨rfl,_,⟨rfl,_⟩ | ⟨t,rfl,reached,value⟩⟩ := getPte_reads got
  · cases ran
    exact sane
  · have entry : same.at ⟨t,part 3 va⟩ = same.lookup root (vpage va) := value
    simp only [entry] at ran
    split at ran
    · rename_i set
      cases ran
      exact sane.dropped here reached set
    · cases ran
      exact sane

theorem dropPages_sane (pages : List U64) (sane : Sane holes zero mem roots) (here : roots d = some root)
    (ran : dropPages (some root) pages mem = .ok mem') : Sane holes zero mem' roots := by
  induction pages generalizing mem with
  | nil =>
    cases ran
    exact sane
  | cons va rest ih =>
    obtain ⟨middle,first,ran⟩ := Runs.bind_ok.mp ran
    exact ih (dropPage_sane sane here first) ran

theorem walk_existing (rest : List Index) (above : mem.table root way = some p)
    (reached : mem.table root (way++rest) = some t) (alloc : Bool) :
    mem.walk alloc rest p = .ok (some t,mem) := by
  induction rest generalizing way p with
  | nil =>
    rw [List.append_nil,above] at reached
    cases reached
    rfl
  | cons i rest ih =>
    have parts : way++i::rest = (way++[i])++rest := by simp
    rw [parts] at reached
    obtain ⟨q,next⟩ := RadixTree.node_prefix reached
    have below : child mem p i = some q := by
      rw [Mem.table] at above
      rw [RadixTree.node_snoc,above] at next
      exact next
    have set : valid (mem.entry p i) := by
      by_cases vacant : valid (mem.entry p i)
      · exact vacant
      · rw [child,if_neg vacant] at below
        cases below
    rw [child,if_pos set] at below
    simp only [Mem.walk,Mem.descend,if_pos set,bind,Except.bind,below]
    exact ih next reached

theorem getPte_existing (reached : mem.table root (tableWay (vpage va)) = some t) (alloc : Bool) :
    getPte alloc va (some root) mem = .ok (some ⟨t,part 3 va⟩,some root,mem) := by
  have start : mem.table root [] = some root := rfl
  have walked := walk_existing [part 0 va,part 1 va,part 2 va] start reached alloc
  unfold getPte
  simp only [bind,Except.bind,walked]
  rfl

theorem vmmap_loose (sane : Sane holes zero mem roots) (here : roots d = some root)
    (loose : Loose holes zero mem roots q) (masked : flags &&& flagMask = flags) (set : valid flags)
    (ran : vmmap va q flags (some root) mem = .ok (pt,mem')) :
    pt = some root ∧ Sane holes zero mem' roots ∧ mem'.lookup root (vpage va) = entryFor q flags := by
  obtain ⟨rfl,mapped,refs⟩ := vmmap_mapped sane.toFresh here masked loose.used loose.data ran
  refine ⟨rfl,sane.mapped mapped ?_ ?_ (absurd ((valid_entryFor masked).mpr set)),mapped.here root here⟩
  · rintro h (rfl | is)
    · rw [refs h sane.zero_used,if_neg (Ne.symm loose.notZero)]
    · rw [refs h (sane.hole h is),if_neg (by rintro rfl; exact loose.notHole is)]
  · intro _
    rw [frameOf_entryFor masked]
    exact loose

theorem vmmap_zero (sane : Sane holes zero mem roots) (here : roots d = some root)
    (masked : flags &&& flagMask = flags) (set : valid flags)
    (ran : vmmap va zero flags (some root) mem = .ok (pt,mem')) : pt = some root ∧ Sane holes zero mem' roots := by
  obtain ⟨rfl,mapped,refs⟩ := vmmap_mapped sane.toFresh here masked sane.zero_used sane.zero_data ran
  refine ⟨rfl,sane.mapped_zero mapped ?_ ?_ (frameOf_entryFor masked) (absurd ((valid_entryFor masked).mpr set))⟩
  · rw [refs zero sane.zero_used,if_pos rfl]
  · intro h is
    rw [refs h (sane.hole h is),if_neg (by rintro rfl; exact sane.zero_real is)]

-- kfree_page comes before vmmap, when the old page is still mapped; the table is there,
-- so that vmmap takes nothing from the queue.
theorem copyOnWrite_sane (sane : Sane holes zero mem roots) (here : roots d = some root)
    (reached : mem.table root (tableWay (vpage va)) = some t) (set : valid (mem.lookup root (vpage va)))
    (took : mem.kallocPage = .ok (q,mem₁)) (page : Page)
    (ran : vmmap va q pteUserData (some root)
        ((mem₁.setPage q page).kfreePage (frameOf (mem.lookup root (vpage va)))) = .ok (pt,mem')) :
    pt = some root ∧ Sane holes zero mem' roots := by
  have short : (tableWay (vpage va)).length ≤ 3 := Nat.le_refl 3
  obtain ⟨_,pages₁,_,_⟩ := kallocPage_cases took
  obtain ⟨sane₁,loose₁⟩ := sane.takes took
  obtain ⟨sane₂,keeps,lookups⟩ := sane₁.setPage loose₁.data page
  have loose₂ := keeps q loose₁
  obtain ⟨mem₂,is⟩ : ∃ mem₂, mem₂ = mem₁.setPage q page := ⟨_,rfl⟩
  rw [← is] at ran sane₂ lookups loose₂
  have value : mem₂.lookup root (vpage va) = mem.lookup root (vpage va) := by rw [lookups d root _ here,lookup_of_pages pages₁]
  have reached₂ : mem₂.table root (tableWay (vpage va)) = some t := by
    rw [is,← reached,← table_of_pages pages₁ root short]
    exact data_tables (loose₁.data d) (fun x j other => by rw [entry_setPage,if_neg other]) here (Nat.le_refl 3)
  rw [← value] at ran set
  have old : Maps mem₂ roots d (vpage va) (mem₂.lookup root (vpage va)) := ⟨root,here,rfl,set⟩
  have reached₃ : (mem₂.kfreePage (frameOf (mem₂.lookup root (vpage va)))).table root (tableWay (vpage va)) = some t := by
    rw [← reached₂]
    exact data_tables (sane₂.page_data _ _ _ old d) (fun x j other => kfreePage_entry mem₂ other j) here (Nat.le_refl 3)
  obtain ⟨⟨slot,pt',mem₃⟩,got,ran⟩ := Runs.bind_ok.mp ran
  rw [getPte_existing reached₃ true] at got
  cases got
  cases ran
  have dropped := sane₂.dropped here reached₂ set
  have loose := loose₂.dropped sane₂ here reached₂ set
  have cleared := dropped_tables sane₂ here reached₂ set here short
  rw [reached₂] at cleared
  obtain ⟨kept,isKept⟩ : ∃ kept, kept = mem₂.kfreePage (frameOf (mem₂.lookup root (vpage va))) := ⟨_,rfl⟩
  rw [← isKept] at dropped loose cleared ⊢
  have mapped : Mapped roots d (vpage va) (entryFor q pteUserData) (kept.setEntry t (part 3 va) 0#64)
      { kept.setEntry t (part 3 va) (entryFor q pteUserData) with refs := Function.update kept.refs q (kept.refs q+1) } := by
    refine setEntry_mapped dropped.toFresh here cleared ?_ rfl ?_ rfl ?_
    · intro x j
      have twice := entry_setEntry (kept.setEntry t (part 3 va) 0#64) t (part 3 va) (entryFor q pteUserData) x j
      rw [setEntry_setEntry] at twice
      exact twice
    · intro p other
      simp only [Mem.setEntry,Mem.setPage]
      rw [Function.update_of_ne other,Function.update_of_ne other]
    · intro _
      rw [frameOf_entryFor (by decide)]
      exact ⟨loose.used,loose.data⟩
  refine ⟨rfl,dropped.mapped mapped ?_ ?_ (absurd ((valid_entryFor (by decide)).mpr (by decide)))⟩
  · intro h which
    have other : h ≠ q := by
      rintro rfl
      exact which.elim loose.notZero loose.notHole
    simp only
    rw [Function.update_of_ne other]
    rfl
  · intro _
    rw [frameOf_entryFor (by decide)]
    exact loose

end Operations

end PageTable
