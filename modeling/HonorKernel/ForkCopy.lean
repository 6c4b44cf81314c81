import HonorKernel.AddressSpace
import HonorKernel.PageWalk

-- The memory of the new process: the pages of the sections of the old one, each in a
-- page of its own.
namespace PageTable
open DiskFormat BitSlice

section Alignment
variable {va : U64}

theorem pageBase_shift (va : U64) : pageBase va = va >>> 12 <<< 12 := by
  apply BitVec.eq_of_getLsbD_eq
  intro i small
  have ones : (4095#64).getLsbD i = decide (i < 12) := by
    rw [BitVec.getLsbD_ofNat,show 4095 = 2^12-1 from rfl,Nat.testBit_two_pow_sub_one]
    simp [small]
  unfold pageBase
  rw [BitVec.getLsbD_and,BitVec.getLsbD_not,ones,BitVec.getLsbD_shiftLeft,BitVec.getLsbD_ushiftRight]
  by_cases low : i < 12
  · simp [low]
  · have place : 12+(i-12) = i := by omega
    simp [low,small,place]

theorem pageBase_toNat (va : U64) : (pageBase va).toNat = va.toNat/pageSize*pageSize := by
  have bound := va.isLt
  have size : pageSize = 4096 := rfl
  rw [pageBase_shift,BitVec.toNat_shiftLeft,BitVec.toNat_ushiftRight,Nat.shiftRight_eq_div_pow,Nat.shiftLeft_eq,size]
  omega

theorem pageOffset_step (k : Nat) : pageOffset (pageBase va+BitVec.ofNat 64 (pageSize*k)) = 0 := by
  have size : pageSize = 4096 := rfl
  unfold pageOffset
  rw [BitVec.toNat_add,BitVec.toNat_ofNat,pageBase_toNat,size]
  omega

theorem pagesOf_aligned {first last : U64} (member : va ∈ pagesOf first last) : pageOffset va = 0 := by
  obtain ⟨k,_,rfl⟩ := List.mem_map.mp member
  exact pageOffset_step k

end Alignment

theorem setBytes_page (d d' : Page) : setBytes d 0 (getBytes d' 0 pageSize) = d' := setBytes_getBytes d d' (by decide)

section Allocation
variable {D : Type*} {roots : D → Option Frame} {mem mem' : Mem} {d : D} {p q root : Frame}

theorem kallocPage_cases (ran : mem.kallocPage = .ok (q,mem')) :
    mem.free = q::mem'.free ∧ mem'.pages = mem.pages ∧ mem'.refs = Function.update mem.refs q 0 ∧
    mem'.clean = mem.clean := by
  unfold Mem.kallocPage at ran
  split at ran
  · cases ran
  · rename_i p rest queue
    cases ran
    exact ⟨queue,rfl,rfl,rfl⟩

theorem entry_of_pages (pages : mem'.pages = mem.pages) (p : Frame) (i : Index) : mem'.entry p i = mem.entry p i := by
  unfold Mem.entry
  rw [pages]

theorem lookup_of_pages (pages : mem'.pages = mem.pages) (root : Frame) (v : VPage) :
    mem'.lookup root v = mem.lookup root v :=
  lookup_frame (fun _ t _ _ i => entry_of_pages pages t i) v

theorem table_of_pages (pages : mem'.pages = mem.pages) (root : Frame) {way : List Index} (short : way.length ≤ 3) :
    mem'.table root way = mem.table root way :=
  table_frame (fun _ t _ _ i => entry_of_pages pages t i) short

theorem isTable_of_pages (pages : mem'.pages = mem.pages) {way : List Index} :
    IsTable mem' roots d way p ↔ IsTable mem roots d way p := by
  constructor
  · rintro ⟨root,found,short,there⟩
    rw [table_of_pages pages root short] at there
    exact ⟨root,found,short,there⟩
  · rintro ⟨root,found,short,there⟩
    exact ⟨root,found,short,by rw [table_of_pages pages root short]; exact there⟩

theorem maps_of_pages (pages : mem'.pages = mem.pages) {v : VPage} {e : U64} :
    Maps mem' roots d v e ↔ Maps mem roots d v e := by
  unfold Maps
  simp only [lookup_of_pages pages]

theorem Fresh.of_pages (fresh : Fresh mem roots) (pages : mem'.pages = mem.pages)
    (shorter : mem'.free.Sublist mem.free) : Fresh mem' roots :=
  fresh.remap (fun _ _ _ there => (isTable_of_pages pages).mp there) shorter
      (fun _ _ _ mapped => .inl ((maps_of_pages pages).mp mapped))

theorem Fresh.takes (fresh : Fresh mem roots) (ran : mem.kallocPage = .ok (q,mem')) :
    Fresh mem' roots ∧ q ∉ mem'.free ∧ (∀ d way, ¬ IsTable mem' roots d way q) ∧ ∀ d v e, Maps mem' roots d v e →
    frameOf e ≠ q := by
  obtain ⟨queue,pages,_,_⟩ := kallocPage_cases ran
  have nodup := fresh.nodup
  rw [queue,List.nodup_cons] at nodup
  have inQueue : q ∈ mem.free := by
    rw [queue]
    exact List.mem_cons_self
  refine ⟨fresh.of_pages pages (by rw [queue]; exact List.sublist_cons_self _ _),nodup.1,?_,?_⟩
  · intro d way there
    exact fresh.table_used _ _ _ ((isTable_of_pages pages).mp there) inQueue
  · rintro d v e mapped rfl
    exact fresh.page_used _ _ _ ((maps_of_pages pages).mp mapped) inQueue

end Allocation

theorem setPage_fresh {D : Type*} {roots : D → Option Frame} {mem : Mem} {q : Frame} (fresh : Fresh mem roots)
    (data : ∀ d way, ¬ IsTable mem roots d way q) (page : Page) :
    Fresh (mem.setPage q page) roots ∧ (∀ d way t, IsTable (mem.setPage q page) roots d way t ↔
    IsTable mem roots d way t) ∧
      ∀ d root v, roots d = some root → (mem.setPage q page).lookup root v = mem.lookup root v := by
  have entries : ∀ x j, x ≠ q → (mem.setPage q page).entry x j = mem.entry x j := by
    intro x j other
    rw [entry_setPage,if_neg other]
  have tables : ∀ d way t, IsTable (mem.setPage q page) roots d way t ↔ IsTable mem roots d way t := by
    intro d way t
    constructor
    · rintro ⟨root,found,short,there⟩
      rw [data_tables (data d) entries found short] at there
      exact ⟨root,found,short,there⟩
    · rintro ⟨root,found,short,there⟩
      exact ⟨root,found,short,by rw [data_tables (data d) entries found short]; exact there⟩
  have lookups : ∀ d root v, roots d = some root → (mem.setPage q page).lookup root v = mem.lookup root v :=
    fun d root v found => data_lookup (data d) entries found v
  refine ⟨fresh.remap (fun d way t => (tables d way t).mp) (List.Sublist.refl _) ?_,tables,lookups⟩
  rintro d v e ⟨root,found,value,set⟩
  rw [lookups d root v found] at value
  exact .inl ⟨root,found,value,set⟩

theorem copyout_page {D : Type*} {roots : D → Option Frame} {mem mem' : Mem} {d : D} {root : Frame} {va : U64}
    {pt : Option Frame} {page : Page} (fresh : Fresh mem roots) (here : roots d = some root)
    (aligned : pageOffset va = 0) (ran : copyout va (getBytes page 0 pageSize) (some root) mem = .ok (pt,mem')) :
    pt = some root ∧ ∃ middle, Grows roots d mem middle ∧
    mem' = middle.setPage (frameOf (mem.lookup root (vpage va))) page := by
  have length := getBytes_length page 0 pageSize
  obtain ⟨fuel,positive⟩ : ∃ fuel, pageSize = fuel+1 := ⟨4095,rfl⟩
  have more : getBytes page 0 pageSize ≠ [] := by
    intro empty
    rw [empty,positive] at length
    cases length
  unfold copyout at ran
  rw [length.trans positive] at ran
  simp only [copyoutLoop,if_neg more] at ran
  obtain ⟨⟨slot,pt',middle⟩,got,ran⟩ := Runs.bind_ok.mp ran
  obtain ⟨grows,rfl,t,rfl,_,value⟩ := getPte_grows fresh here got
  obtain ⟨_,same,ran⟩ := Runs.bind_ok.mp ran
  cases same
  have whole : min (getBytes page 0 pageSize).length (pageSize-pageOffset va) = pageSize := by
    rw [length,aligned,Nat.sub_zero,Nat.min_self]
  have target : middle.at ⟨t,part 3 va⟩ = mem.lookup root (vpage va) := value
  have taken : (getBytes page 0 pageSize).take pageSize = getBytes page 0 pageSize :=
    List.take_of_length_le (by rw [length])
  have nothing : (getBytes page 0 pageSize).drop pageSize = [] := List.drop_of_length_le (by rw [length])
  simp only [whole] at ran
  simp only [target,taken,nothing,aligned,setBytes_page] at ran
  have last : ∀ fuel va pt mem, copyoutLoop fuel va [] pt mem = .ok (pt,mem) := by
    intro fuel va pt mem
    cases fuel with
    | zero => rfl
    | succ fuel => simp [copyoutLoop]
  rw [last] at ran
  cases ran
  exact ⟨rfl,middle,grows,rfl⟩

-- `mem₀` is memory when fork starts, `rp` and `c` are the roots of the old and the new
-- process, and `done` are the pages that have been looked at.
structure Copying {D : Type*} (mem₀ mem : Mem) (roots : D → Option Frame) (d : D) (rp c : Frame) (done : VPage → Prop) : Prop where
  fresh : Fresh mem roots
  kept : ∀ p, p ∉ mem₀.free → mem.pages p = mem₀.pages p
  queue : ∀ p, p ∈ mem.free → p ∈ mem₀.free
  tables : ∀ way t, IsTable mem roots d way t → t ∈ mem₀.free
  frames : ∀ v e, Maps mem roots d v e → frameOf e ∈ mem₀.free
  once : ∀ v v' e e', Maps mem roots d v e → Maps mem roots d v' e' → frameOf e = frameOf e' → v = v'
  copied : ∀ v, done v → valid (mem₀.lookup rp v) → valid (mem.lookup c v) ∧ flagsOf (mem.lookup c v) = flagsOf (mem₀.lookup rp v) ∧
    mem.pages (frameOf (mem.lookup c v)) = mem₀.pages (frameOf (mem₀.lookup rp v))
  rest : ∀ v, ¬ (done v ∧ valid (mem₀.lookup rp v)) → mem.lookup c v = 0#64

-- What the old process has is not in the queue.
structure Settled (mem₀ : Mem) (rp : Frame) : Prop where
  tables : ∀ way t, way.length ≤ 3 → mem₀.table rp way = some t → t ∉ mem₀.free
  frames : ∀ v, valid (mem₀.lookup rp v) → frameOf (mem₀.lookup rp v) ∉ mem₀.free

section Copies
variable {D : Type*} {mem₀ mem mem' : Mem} {roots : D → Option Frame} {d : D} {rp c : Frame} {done : VPage → Prop}
  {va : U64}

theorem Settled.lookup (settled : Settled mem₀ rp) (kept : ∀ p, p ∉ mem₀.free → mem.pages p = mem₀.pages p)
    (v : VPage) :
    mem.lookup rp v = mem₀.lookup rp v := by
  refine lookup_frame ?_ v
  intro way t short reached i
  unfold Mem.entry
  rw [kept t (settled.tables way t short reached)]

theorem Copying.skip (copying : Copying mem₀ mem roots d rp c done) (invalid : ¬ valid (mem₀.lookup rp v')) :
    Copying mem₀ mem roots d rp c fun v => done v ∨ v = v' := by
  refine ⟨copying.fresh,copying.kept,copying.queue,copying.tables,copying.frames,copying.once,?_,?_⟩
  · rintro v (before | rfl) set
    · exact copying.copied v before set
    · exact absurd set invalid
  · intro v none
    exact copying.rest v fun both => none ⟨.inl both.1,both.2⟩

theorem Copying.copy (copying : Copying mem₀ mem roots d rp c done) (here : roots d = some c)
    (settled : Settled mem₀ rp) (set : valid (mem₀.lookup rp (vpage va))) (aligned : pageOffset va = 0)
    (took : mem.kallocPage = .ok (q,mem₁))
    (mapped : vmmap va q (flagsOf (mem₀.lookup rp (vpage va))) (some c) mem₁ = .ok (pt,mem₂))
    (moved : copyout va (getBytes (mem₂.pages (frameOf (mem₀.lookup rp (vpage va)))) 0 pageSize) pt mem₂ = .ok (pt',mem')) :
    pt' = some c ∧ Copying mem₀ mem' roots d rp c fun v => done v ∨ v = vpage va := by
  obtain ⟨queue,pages₁,_,_⟩ := kallocPage_cases took
  obtain ⟨fresh₁,used,data,apart⟩ := copying.fresh.takes took
  have origin : q ∈ mem₀.free := copying.queue q (by rw [queue]; exact List.mem_cons_self)
  have queue₁ : ∀ p, p ∈ mem₁.free → p ∈ mem₀.free := fun p there => copying.queue p
      (by rw [queue]; exact List.mem_cons_of_mem _ there)
  have masked := flagsOf_masked (mem₀.lookup rp (vpage va))
  obtain ⟨rfl,maps₂,_⟩ := vmmap_mapped fresh₁ here masked used data mapped
  obtain ⟨rfl,mem₃,grows,rfl⟩ := copyout_page maps₂.fresh here aligned moved
  have target : frameOf (mem₂.lookup c (vpage va)) = q := by
    rw [maps₂.here c here,frameOf_entryFor masked]
  rw [target]
  have tables₁ : ∀ way t, IsTable mem₁ roots d way t → t ∈ mem₀.free := fun way t there =>
    copying.tables way t ((isTable_of_pages pages₁).mp there)
  have queue₂ : ∀ p, p ∈ mem₂.free → p ∈ mem₀.free := by
    intro p there
    obtain ⟨front,parts⟩ := maps₂.taken
    exact queue₁ p (by rw [parts]; exact List.mem_append_right _ there)
  have tables₂ : ∀ way t, IsTable mem₂ roots d way t → t ∈ mem₀.free := by
    intro way t there
    rcases maps₂.added d way t there with old | ⟨_,new⟩
    · exact tables₁ way t old
    · exact queue₁ t new
  have kept₂ : ∀ p, p ∉ mem₀.free → mem₂.pages p = mem₀.pages p := by
    intro p kept
    rw [maps₂.pages p (fun there => kept (queue₁ p there)) (fun way there => kept (tables₁ way p there)),pages₁,copying.kept p kept]
  have used₂ : q ∉ mem₂.free := by
    intro there
    obtain ⟨front,parts⟩ := maps₂.taken
    exact used (by rw [parts]; exact List.mem_append_right _ there)
  have data₃ : ∀ d way, ¬ IsTable mem₃ roots d way q := by
    intro d' way there
    rcases grows.added d' way q there with there | ⟨_,new⟩
    · rcases maps₂.added d' way q there with old | ⟨_,new⟩
      · exact data d' way old
      · exact used new
    · exact used₂ new
  obtain ⟨fresh',tables',lookups'⟩ := setPage_fresh grows.fresh data₃ (mem₂.pages (frameOf (mem₀.lookup rp (vpage va))))
  have lookups : ∀ v, (mem₃.setPage q (mem₂.pages (frameOf (mem₀.lookup rp (vpage va))))).lookup c v = mem₂.lookup c v := by
    intro v
    rw [lookups' d c v here,grows.lookups d c v here]
  have older : ∀ v, v ≠ vpage va → mem₂.lookup c v = mem.lookup c v := by
    intro v other
    rw [maps₂.lookups d c v here (fun _ => other),lookup_of_pages pages₁]
  have cases' : ∀ v e, Maps (mem₃.setPage q (mem₂.pages (frameOf (mem₀.lookup rp (vpage va))))) roots d v e →
      Maps mem roots d v e ∨ v = vpage va ∧ frameOf e = q := by
    rintro v e ⟨root,found,value,set⟩
    rw [here] at found
    cases found
    rw [lookups] at value
    rcases maps₂.maps ⟨c,here,value,set⟩ with ⟨old,_⟩ | ⟨_,new,entry⟩
    · exact .inl ((maps_of_pages pages₁).mp old)
    · exact .inr ⟨new,by rw [entry,frameOf_entryFor masked]⟩
  have apart' : ∀ v e, Maps mem roots d v e → frameOf e ≠ q := fun v e old => apart d v e ((maps_of_pages pages₁).mpr old)
  refine ⟨rfl,fresh',?_,?_,?_,?_,?_,?_,?_⟩
  · intro p kept
    have other : p ≠ q := by
      rintro rfl
      exact kept origin
    simp only [Mem.setPage]
    rw [Function.update_of_ne other,grows.pages p (fun there => kept (queue₂ p there)) (fun way there => kept (tables₂ way p there)),
      kept₂ p kept]
  · intro p there
    obtain ⟨front,parts⟩ := grows.taken
    exact queue₂ p (by rw [parts]; exact List.mem_append_right _ there)
  · intro way t there
    rcases grows.added d way t ((tables' d way t).mp there) with old | ⟨_,new⟩
    · exact tables₂ way t old
    · exact queue₂ t new
  · intro v e there
    rcases cases' v e there with old | ⟨_,new⟩
    · exact copying.frames v e old
    · rw [new]
      exact origin
  · intro v v' e e' one two same
    rcases cases' v e one with one | ⟨one,frame⟩
    · rcases cases' v' e' two with two | ⟨_,frame⟩
      · exact copying.once v v' e e' one two same
      · exact absurd (same.trans frame) (apart' v e one)
    · rcases cases' v' e' two with two | ⟨two,_⟩
      · exact absurd (same.symm.trans frame) (apart' v' e' two)
      · rw [one,two]
  · intro v which old
    rw [lookups]
    by_cases same : v = vpage va
    · subst same
      rw [maps₂.here c here,frameOf_entryFor masked,flagsOf_entryFor masked]
      refine ⟨(valid_entryFor masked).mpr ((valid_flagsOf _).mpr old),rfl,?_⟩
      simp only [Mem.setPage,Function.update_self]
      exact kept₂ _ (settled.frames _ old)
    · obtain ⟨set',flags,bytes⟩ := copying.copied v (which.resolve_right same) old
      rw [older v same]
      refine ⟨set',flags,?_⟩
      have mapped : Maps mem roots d v (mem.lookup c v) := ⟨c,here,rfl,set'⟩
      have mapped₁ : Maps mem₁ roots d v (mem.lookup c v) := (maps_of_pages pages₁).mpr mapped
      have mapped₂ : Maps mem₂ roots d v (mem.lookup c v) := ⟨c,here,older v same,set'⟩
      simp only [Mem.setPage]
      rw [Function.update_of_ne (apart' _ _ mapped),grows.pages _ (maps₂.fresh.page_used _ _ _ mapped₂)
          (maps₂.fresh.page_data _ _ _ mapped₂ d),
        maps₂.pages _ (fresh₁.page_used _ _ _ mapped₁) (fresh₁.page_data _ _ _ mapped₁ d),pages₁,bytes]
  · intro v none
    have other : v ≠ vpage va := by
      rintro rfl
      exact none ⟨.inr rfl,set⟩
    rw [lookups,older v other]
    exact copying.rest v fun both => none ⟨.inl both.1,both.2⟩

theorem forkPage_copies (copying : Copying mem₀ mem roots d rp c done) (here : roots d = some c)
    (settled : Settled mem₀ rp) (aligned : pageOffset va = 0)
    (ran : forkPage (some rp) va (some c) mem = .ok (pt,mem')) :
    pt = some c ∧ Copying mem₀ mem' roots d rp c fun v => done v ∨ v = vpage va := by
  obtain ⟨⟨slot,_,same⟩,got,ran⟩ := Runs.bind_ok.mp ran
  have parent := settled.lookup copying.kept
  obtain ⟨rfl,_,⟨rfl,zero⟩ | ⟨t,rfl,reached,value⟩⟩ := getPte_reads got
  · cases ran
    rw [parent] at zero
    exact ⟨rfl,copying.skip (by rw [zero]; decide)⟩
  · have entry : same.at ⟨t,part 3 va⟩ = mem₀.lookup rp (vpage va) := by
      rw [← parent]
      exact value
    simp only [entry] at ran
    split at ran
    · rename_i set
      obtain ⟨⟨q,mem₁⟩,took,ran⟩ := Runs.bind_ok.mp ran
      obtain ⟨queue,pages₁,_,_⟩ := kallocPage_cases took
      have entry₁ : mem₁.at ⟨t,part 3 va⟩ = mem₀.lookup rp (vpage va) := by
        rw [← entry]
        exact entry_of_pages pages₁ t (part 3 va)
      simp only [entry₁] at ran
      obtain ⟨⟨pt₂,mem₂⟩,mapped,ran⟩ := Runs.bind_ok.mp ran
      -- The old entry is read again; its table is none of the new process's.
      have outside : t ∉ mem₀.free := by
        have length : (tableWay (vpage va)).length ≤ 3 := Nat.le_refl 3
        have reached₀ : mem₀.table rp (tableWay (vpage va)) = some t := by
          rw [← reached]
          refine (table_frame ?_ length).symm
          intro way x short found i
          unfold Mem.entry
          rw [copying.kept x (settled.tables way x (by omega) found)]
        exact settled.tables _ t length reached₀
      have entry₂ : mem₂.at ⟨t,part 3 va⟩ = mem₀.lookup rp (vpage va) := by
        obtain ⟨fresh₁,used,data,_⟩ := copying.fresh.takes took
        obtain ⟨_,maps₂,_⟩ := vmmap_mapped fresh₁ here (flagsOf_masked _) used data mapped
        have kept := maps₂.pages t (fun there => outside (copying.queue t (by rw [queue]; exact List.mem_cons_of_mem _ there)))
          (fun way there => outside (copying.tables way t ((isTable_of_pages pages₁).mp there)))
        rw [← entry₁]
        unfold Mem.at Mem.entry
        rw [kept]
      simp only [entry₂] at ran
      exact copying.copy here settled set aligned took mapped ran
    · rename_i invalid
      cases ran
      exact ⟨rfl,copying.skip invalid⟩

theorem Copying.congr (copying : Copying mem₀ mem roots d rp c done) {done' : VPage → Prop}
    (same : ∀ v, done v ↔ done' v) :
    Copying mem₀ mem roots d rp c done' := by
  obtain rfl : done = done' := funext fun v => propext (same v)
  exact copying

theorem forkPages_copies (pages : List U64) (copying : Copying mem₀ mem roots d rp c done) (here : roots d = some c)
    (settled : Settled mem₀ rp) (aligned : ∀ va ∈ pages, pageOffset va = 0)
    (ran : forkPages (some rp) pages (some c) mem = .ok (pt,mem')) :
    pt = some c ∧ Copying mem₀ mem' roots d rp c fun v => done v ∨ ∃ va ∈ pages, v = vpage va := by
  induction pages generalizing mem done with
  | nil =>
    cases ran
    exact ⟨rfl,copying.congr (by simp)⟩
  | cons va rest ih =>
    obtain ⟨⟨pt₁,mem₁⟩,first,ran⟩ := Runs.bind_ok.mp ran
    obtain ⟨rfl,copying₁⟩ := forkPage_copies copying here settled (aligned va List.mem_cons_self) first
    obtain ⟨rfl,copying₂⟩ := ih copying₁ (fun x member => aligned x (List.mem_cons_of_mem _ member)) ran
    exact ⟨rfl,copying₂.congr (by simp [or_assoc])⟩

theorem forkSections_copies (sections : List Section) (copying : Copying mem₀ mem roots d rp c done)
    (here : roots d = some c) (settled : Settled mem₀ rp)
    (ran : forkSections (some rp) sections (some c) mem = .ok (pt,mem')) :
    pt = some c ∧ Copying mem₀ mem' roots d rp c fun v => done v ∨ ∃ st ∈ sections, ∃ va ∈ st.pages, v = vpage va := by
  induction sections generalizing mem done with
  | nil =>
    cases ran
    exact ⟨rfl,copying.congr (by simp)⟩
  | cons st rest ih =>
    obtain ⟨pages,looped,ran⟩ := Runs.bind_ok.mp ran
    obtain ⟨⟨pt₁,mem₁⟩,first,ran⟩ := Runs.bind_ok.mp ran
    have listed : pages = st.pages := by
      unfold pageLoop at looped
      split at looped
      · cases looped
      · cases looped
        rfl
    subst listed
    obtain ⟨rfl,copying₁⟩ := forkPages_copies st.pages copying here settled (fun _ member => pagesOf_aligned member) first
    obtain ⟨rfl,copying₂⟩ := ih copying₁ ran
    exact ⟨rfl,copying₂.congr (by simp [or_assoc])⟩

end Copies

section Creation
variable {D : Type*} {mem₀ mem mem' : Mem} {roots : D → Option Frame} {q c rp : Frame}

-- Memory in which only pages from the queue have been handed out and filled.
structure Since (mem₀ mem : Mem) : Prop where
  kept : ∀ p, p ∉ mem₀.free → mem.pages p = mem₀.pages p
  queue : mem.free.Sublist mem₀.free

theorem Since.trans {mem₁ : Mem} (first : Since mem₀ mem₁) (second : Since mem₁ mem) : Since mem₀ mem := by
  refine ⟨?_,second.queue.trans first.queue⟩
  intro p kept
  rw [second.kept p (fun there => kept (first.queue.subset there)),first.kept p kept]

theorem kzallocPage_since (fresh : Fresh mem roots) (ran : mem.kzallocPage = .ok (q,mem')) :
    Since mem mem' ∧ Fresh mem' roots ∧ q ∈ mem.free ∧ q ∉ mem'.free ∧ mem'.pages q = 0#32768 ∧
    (∀ d way, ¬ IsTable mem' roots d way q) ∧
      ∀ d v e, Maps mem' roots d v e → frameOf e ≠ q := by
  obtain ⟨⟨p,middle⟩,took,ran⟩ := Runs.bind_ok.mp ran
  cases ran
  obtain ⟨queue,pages,_,_⟩ := kallocPage_cases took
  obtain ⟨fresh₁,used,data,apart⟩ := fresh.takes took
  obtain ⟨fresh₂,tables,lookups⟩ := setPage_fresh fresh₁ data 0#32768
  have inQueue : q ∈ mem.free := by
    rw [queue]
    exact List.mem_cons_self
  refine ⟨⟨?_,?_⟩,fresh₂,inQueue,used,?_,?_,?_⟩
  · intro p kept
    have other : p ≠ q := by
      rintro rfl
      exact kept inQueue
    simp only [Mem.setPage]
    rw [Function.update_of_ne other,pages]
  · rw [queue]
    exact List.sublist_cons_self _ _
  · simp [Mem.setPage]
  · intro d way there
    exact data d way ((tables d way q).mp there)
  · rintro d v e ⟨root,found,value,set⟩
    rw [lookups d root v found] at value
    exact apart d v e ⟨root,found,value,set⟩

theorem slab_since (n : Nat) (fresh : Fresh mem roots) (ran : slab n mem = .ok mem') :
    Since mem mem' ∧ Fresh mem' roots ∧ mem'.pages = mem.pages := by
  induction n generalizing mem with
  | zero =>
    cases ran
    exact ⟨⟨fun _ _ => rfl,List.Sublist.refl _⟩,fresh,rfl⟩
  | succ n ih =>
    obtain ⟨⟨q,middle⟩,took,ran⟩ := Runs.bind_ok.mp ran
    obtain ⟨queue,pages,_,_⟩ := kallocPage_cases took
    obtain ⟨since,fresh',pages'⟩ := ih (fresh.takes took).1 ran
    have first : Since mem middle := ⟨fun p _ => by rw [pages],by rw [queue]; exact List.sublist_cons_self _ _⟩
    exact ⟨first.trans since,fresh',pages'.trans pages⟩

theorem zero_table (zero : mem.pages c = 0#32768) (way : List Index) :
    mem.table c way = if way = [] then some c else none := by
  cases way with
  | nil => rfl
  | cons i rest =>
    have invalid : ¬ valid (mem.entry c i) := by
      unfold Mem.entry
      rw [zero,get_zero]
      decide
    rw [Mem.table,RadixTree.node_cons]
    simp [child,invalid]

theorem zero_lookup (zero : mem.pages c = 0#32768) (v : VPage) : mem.lookup c v = 0#64 := by
  unfold Mem.lookup
  rw [zero_table zero,if_neg (by simp [tableWay])]

variable [DecidableEq D] {d : D}

theorem isTable_update {mem : Mem} {d d' : D} {way : List Index} {t : Frame} (zero : mem.pages c = 0#32768)
    (there : IsTable mem (Function.update roots d (some c)) d' way t) : IsTable mem roots d' way t ∨ d' = d ∧
    way = [] ∧ t = c := by
  obtain ⟨root,found,short,reached⟩ := there
  by_cases same : d' = d
  · subst same
    rw [Function.update_self] at found
    cases found
    rw [zero_table zero] at reached
    split at reached
    · rename_i empty
      exact .inr ⟨rfl,empty,(Option.some.inj reached).symm⟩
    · cases reached
  · rw [Function.update_of_ne same] at found
    exact .inl ⟨root,found,short,reached⟩

theorem maps_update {mem : Mem} {d d' : D} {v : VPage} {e : U64} (zero : mem.pages c = 0#32768)
    (there : Maps mem (Function.update roots d (some c)) d' v e) : Maps mem roots d' v e := by
  obtain ⟨root,found,value,set⟩ := there
  by_cases same : d' = d
  · subst same
    rw [Function.update_self] at found
    cases found
    rw [zero_lookup zero] at value
    rw [← value] at set
    exact absurd set (by decide)
  · rw [Function.update_of_ne same] at found
    exact ⟨root,found,value,set⟩

theorem Tables.root (own : Tables mem roots) (used : c ∉ mem.free) (zero : mem.pages c = 0#32768)
    (data : ∀ d way, ¬ IsTable mem roots d way c) (d : D) : Tables mem (Function.update roots d (some c)) := by
  refine ⟨own.nodup,?_,?_⟩
  · intro d₁ d₂ way way' t one two
    rcases isTable_update zero one with old | ⟨rfl,rfl,rfl⟩
    · rcases isTable_update zero two with old' | ⟨rfl,rfl,rfl⟩
      · exact own.once _ _ _ _ _ old old'
      · exact absurd old (data _ _)
    · rcases isTable_update zero two with old' | ⟨rfl,rfl,_⟩
      · exact absurd old' (data _ _)
      · exact ⟨rfl,rfl⟩
  · intro d' way t there
    rcases isTable_update zero there with old | ⟨_,_,rfl⟩
    · exact own.used _ _ _ old
    · exact used

theorem Fresh.root (fresh : Fresh mem roots) (used : c ∉ mem.free) (zero : mem.pages c = 0#32768)
    (data : ∀ d way, ¬ IsTable mem roots d way c) (apart : ∀ d v e, Maps mem roots d v e → frameOf e ≠ c) (d : D) :
    Fresh mem (Function.update roots d (some c)) := by
  obtain ⟨nodup,once,unused⟩ := fresh.tables.root used zero data d
  refine ⟨nodup,once,unused,?_,?_⟩
  · intro d' v e mapped
    exact fresh.page_used _ _ _ (maps_update zero mapped)
  · intro d' v e mapped d₁ way there
    rcases isTable_update zero there with old | ⟨_,_,same⟩
    · exact fresh.page_data _ _ _ (maps_update zero mapped) _ _ old
    · exact apart _ _ _ (maps_update zero mapped) same

end Creation

-- A store of user code, where the entry lets it through.
def Mem.store (mem : Mem) (root : Frame) (va : U64) (b : Byte) : Mem :=
  let e := mem.lookup root (vpage va)
  if valid e ∧ ¬ readOnly e then mem.setPage (frameOf e) (setBytes (mem.pages (frameOf e)) (pageOffset va) [b]) else mem

def Mem.stores (mem : Mem) (root : Frame) (list : List (U64 × Byte)) : Mem := list.foldl (fun mem x => mem.store root x.1 x.2) mem

-- Stores of one process change no byte of another whose pages are different ones.
theorem stores_apart {D : Type*} {roots : D → Option Frame} {mem : Mem} {d d' : D} {r r' : Frame}
    (fresh : Fresh mem roots) (one : roots d = some r) (two : roots d' = some r')
    (apart : ∀ v v', valid (mem.lookup r v) → valid (mem.lookup r' v') →
    frameOf (mem.lookup r v) ≠ frameOf (mem.lookup r' v'))
    (list : List (U64 × Byte)) (v : VPage) :
    (mem.stores r list).lookup r' v = mem.lookup r' v ∧
      (valid (mem.lookup r' v) →
      (mem.stores r list).pages (frameOf (mem.lookup r' v)) = mem.pages (frameOf (mem.lookup r' v))) := by
  induction list generalizing mem with
  | nil => exact ⟨rfl,fun _ => rfl⟩
  | cons x rest ih =>
    have step : Fresh (mem.store r x.1 x.2) roots ∧ (∀ v, (mem.store r x.1 x.2).lookup r v = mem.lookup r v) ∧
        (∀ v, (mem.store r x.1 x.2).lookup r' v = mem.lookup r' v) ∧
        (valid (mem.lookup r' v) → (mem.store r x.1 x.2).pages (frameOf (mem.lookup r' v)) = mem.pages
            (frameOf (mem.lookup r' v))) := by
      simp only [Mem.store]
      split
      · rename_i writable
        have mapped : Maps mem roots d (vpage x.1) (mem.lookup r (vpage x.1)) := ⟨r,one,rfl,writable.1⟩
        obtain ⟨fresh',_,lookups⟩ := setPage_fresh fresh (fresh.page_data _ _ _ mapped)
          (setBytes (mem.pages (frameOf (mem.lookup r (vpage x.1)))) (pageOffset x.1) [x.2])
        refine ⟨fresh',fun v => lookups d r v one,fun v => lookups d' r' v two,?_⟩
        intro set
        simp only [Mem.setPage]
        rw [Function.update_of_ne (Ne.symm (apart _ _ writable.1 set))]
      · exact ⟨fresh,fun _ => rfl,fun _ => rfl,fun _ => rfl⟩
    obtain ⟨fresh',mine,other,bytes⟩ := step
    have tail := ih fresh' (by simpa only [mine,other] using apart)
    rw [other] at tail
    refine ⟨tail.1,fun set => ?_⟩
    have later := tail.2 set
    rw [bytes set] at later
    exact later

-- The new process has the pages of the old one's sections, with the same flags and bytes
-- and each in a page of its own, and nothing of the old one has changed; what one of them
-- stores from then on the other does not see.
theorem fork_copies {D : Type*} [DecidableEq D] {roots : D → Option Frame} {mem mem' : Mem} {d d' : D} {rp : Frame}
    {parent new : PgDir} {slab₀ slab₁ : Nat} {fp : Option Nat} (fresh : Fresh mem roots) (here : roots d = some rp)
    (root : parent.pt = some rp) (vacant : roots d' = none) (ran : fork slab₀ slab₁ fp parent mem = .ok (new,mem')) :
    ∃ c, new.pt = some c ∧
      (∀ st ∈ parent.sections, ∀ va ∈ st.pages,
        (valid (mem'.lookup c (vpage va)) ↔ valid (mem.lookup rp (vpage va))) ∧
        (valid (mem.lookup rp (vpage va)) → flagsOf (mem'.lookup c (vpage va)) = flagsOf (mem.lookup rp (vpage va)) ∧
          mem'.pages (frameOf (mem'.lookup c (vpage va))) = mem.pages (frameOf (mem.lookup rp (vpage va))))) ∧
      (∀ v v', valid (mem'.lookup c v) → valid (mem'.lookup c v') →
      frameOf (mem'.lookup c v) = frameOf (mem'.lookup c v') → v = v') ∧
      (∀ v v', valid (mem'.lookup c v) → valid (mem.lookup rp v') →
      frameOf (mem'.lookup c v) ≠ frameOf (mem.lookup rp v')) ∧
      (∀ v, mem'.lookup rp v = mem.lookup rp v ∧
        (valid (mem.lookup rp v) → mem'.pages (frameOf (mem.lookup rp v)) = mem.pages (frameOf (mem.lookup rp v)))) ∧
      (∀ list v, (mem'.stores c list).lookup rp v = mem'.lookup rp v ∧ (valid (mem'.lookup rp v) →
        (mem'.stores c list).pages (frameOf (mem'.lookup rp v)) = mem'.pages (frameOf (mem'.lookup rp v)))) ∧
      ∀ list v, (mem'.stores rp list).lookup c v = mem'.lookup c v ∧ (valid (mem'.lookup c v) →
        (mem'.stores rp list).pages (frameOf (mem'.lookup c v)) = mem'.pages (frameOf (mem'.lookup c v))) := by
  obtain ⟨mem₁,slabbed,ran⟩ := Runs.bind_ok.mp ran
  obtain ⟨⟨stack,mem₂⟩,stacked,ran⟩ := Runs.bind_ok.mp ran
  obtain ⟨⟨made,mem₃⟩,started,ran⟩ := Runs.bind_ok.mp ran
  obtain ⟨⟨pt,mem₄⟩,copied,ran⟩ := Runs.bind_ok.mp ran
  obtain ⟨mem₅,slabbed',ran⟩ := Runs.bind_ok.mp ran
  cases ran
  obtain ⟨since₁,fresh₁,_⟩ := slab_since slab₀ fresh slabbed
  obtain ⟨since₂,fresh₂,_⟩ := kzallocPage_since fresh₁ stacked
  obtain ⟨⟨c,_⟩,took,started⟩ := Runs.bind_ok.mp started
  cases started
  obtain ⟨since₃,fresh₃,inQueue,used,zero,data,apart⟩ := kzallocPage_since fresh₂ took
  have since := (since₁.trans since₂).trans since₃
  have settled : Settled mem rp := by
    refine ⟨?_,?_⟩
    · intro way t short reached
      exact fresh.table_used d way t ⟨rp,here,short,reached⟩
    · intro v set
      exact fresh.page_used d v _ ⟨rp,here,rfl,set⟩
  have origin : c ∈ mem.free := (since₁.trans since₂).queue.subset inQueue
  have mine : Function.update roots d' (some c) d' = some c := Function.update_self _ _ _
  have theirs : Function.update roots d' (some c) d = some rp := by
    rw [Function.update_of_ne]
    · exact here
    · rintro rfl
      rw [here] at vacant
      cases vacant
  have begin : Copying mem mem₃ (Function.update roots d' (some c)) d' rp c fun _ => False := by
    have none : ∀ v e, ¬ Maps mem₃ (Function.update roots d' (some c)) d' v e := by
      rintro v e mapped
      obtain ⟨root,found,_⟩ := maps_update zero mapped
      rw [vacant] at found
      cases found
    refine ⟨fresh₃.root used zero data apart d',since.kept,fun p there => since.queue.subset there,?_,?_,?_,?_,?_⟩
    · intro way t there
      rcases isTable_update zero there with ⟨root,found,_⟩ | ⟨_,_,rfl⟩
      · rw [vacant] at found
        cases found
      · exact origin
    · intro v e mapped
      exact absurd mapped (none v e)
    · intro v _ e _ mapped
      exact absurd mapped (none v e)
    · intro v nothing
      cases nothing
    · intro v _
      exact zero_lookup zero v
  rw [root] at copied
  obtain ⟨rfl,copying⟩ := forkSections_copies parent.sections begin mine settled copied
  obtain ⟨_,fresh',pages⟩ := slab_since slab₁ copying.fresh slabbed'
  have lookups : ∀ r v, mem'.lookup r v = mem₄.lookup r v := lookup_of_pages pages
  have parent' : ∀ v, mem'.lookup rp v = mem.lookup rp v := fun v => (lookups rp v).trans (settled.lookup copying.kept v)
  have frames : ∀ v, valid (mem'.lookup c v) → frameOf (mem'.lookup c v) ∈ mem.free := by
    intro v set
    rw [lookups] at set ⊢
    exact copying.frames v _ ⟨c,mine,rfl,set⟩
  have different : ∀ v v', valid (mem'.lookup c v) → valid (mem.lookup rp v') → frameOf (mem'.lookup c v) ≠ frameOf
      (mem.lookup rp v') := by
    intro v v' set set' same
    exact settled.frames v' set' (same ▸ frames v set)
  refine ⟨c,rfl,?_,?_,different,?_,?_,?_⟩
  · intro st member va inside
    have done : False ∨ ∃ st ∈ parent.sections, ∃ va' ∈ st.pages, vpage va = vpage va' := .inr ⟨st,member,va,inside,rfl⟩
    rw [lookups,pages]
    by_cases set : valid (mem.lookup rp (vpage va))
    · obtain ⟨set',flags,bytes⟩ := copying.copied _ done set
      exact ⟨⟨fun _ => set,fun _ => set'⟩,fun _ => ⟨flags,bytes⟩⟩
    · have zero := copying.rest (vpage va) fun both => set both.2
      refine ⟨⟨fun set' => ?_,fun set' => absurd set' set⟩,fun set' => absurd set' set⟩
      rw [zero] at set'
      exact absurd set' (by decide)
  · intro v v' set set' same
    rw [lookups] at set set'
    rw [lookups,lookups] at same
    exact copying.once v v' _ _ ⟨c,mine,rfl,set⟩ ⟨c,mine,rfl,set'⟩ same
  · intro v
    refine ⟨parent' v,fun set => ?_⟩
    rw [pages,copying.kept _ (settled.frames v set)]
  · intro list v
    refine stores_apart fresh' mine theirs ?_ list v
    intro v v' set set'
    rw [parent'] at set' ⊢
    exact different v v' set set'
  · intro list v
    refine stores_apart fresh' theirs mine ?_ list v
    intro v v' set set'
    rw [parent'] at set ⊢
    exact Ne.symm (different v' v set' set)

-- Twenty free pages, and a process with one page of text.
def idle : Mem := ⟨fun _ => 0#32768,(List.range 20).map fun k => BitVec.ofNat 36 (0x40100+k),fun _ => 0,0,20,true⟩
def text : Section := ⟨stText,0x400000#64,0x400200#64,none,0#64,0#64⟩
def textProcess : Except Trap (PgDir × Mem) := do
  let (dir,mem) ← initPgdir none idle
  let (p,mem) ← mem.kzallocPage
  let (pt,mem) ← vmmap 0x400000#64 p (pteUserData ||| pteRo) dir.pt mem
  .ok (⟨pt,text::dir.sections⟩,mem)

theorem idle_fresh (D : Type*) : Fresh idle fun _ : D => none := by
  refine ⟨by decide +kernel,?_,?_,?_,?_⟩
  · rintro _ _ _ _ _ ⟨_,found,_⟩
    cases found
  · rintro _ _ _ ⟨_,found,_⟩
    cases found
  · rintro _ _ _ ⟨_,found,_⟩
    cases found
  · rintro _ _ _ ⟨_,found,_⟩
    cases found

theorem textProcess_fresh {dir : PgDir} {mem : Mem} (ran : textProcess = .ok (dir,mem)) :
    ∃ root, dir.pt = some root ∧ dir.sections = text::initSections none ∧
      Fresh mem (Function.update (fun _ : Bool => none) true (some root)) := by
  obtain ⟨⟨empty,mem₁⟩,started,ran⟩ := Runs.bind_ok.mp ran
  obtain ⟨⟨p,mem₂⟩,took,ran⟩ := Runs.bind_ok.mp ran
  obtain ⟨⟨pt,mem₃⟩,mapped,ran⟩ := Runs.bind_ok.mp ran
  cases ran
  obtain ⟨⟨root,_⟩,rooted,started⟩ := Runs.bind_ok.mp started
  cases started
  obtain ⟨_,fresh₁,_,used,zero,data,apart⟩ := kzallocPage_since (idle_fresh Bool) rooted
  have fresh₁ := fresh₁.root used zero data apart true
  obtain ⟨_,fresh₂,_,used,_,data,_⟩ := kzallocPage_since fresh₁ took
  obtain ⟨rfl,maps,_⟩ := vmmap_mapped fresh₂ (Function.update_self _ _ _) (by decide) used data mapped
  exact ⟨root,rfl,rfl,maps.fresh⟩

set_option maxRecDepth 100000 in
theorem fork_copies_text : ∃ (mem mem' : Mem) (rp c : Frame), valid (mem.lookup rp (vpage 0x400000#64)) ∧
    valid (mem'.lookup c (vpage 0x400000#64)) ∧
    frameOf (mem'.lookup c (vpage 0x400000#64)) ≠ frameOf (mem.lookup rp (vpage 0x400000#64)) ∧
    mem'.pages (frameOf (mem'.lookup c (vpage 0x400000#64))) = mem.pages (frameOf (mem.lookup rp (vpage 0x400000#64))) := by
  obtain ⟨⟨parent,mem⟩,made,facts⟩ := Runs.ok_such (x := textProcess)
    (p := fun r => (r.1.pt.any fun root => valid (r.2.lookup root (vpage 0x400000#64))) &&
      (fork 1 1 none r.1 r.2).toOption.any fun _ => true) (by decide +kernel)
  obtain ⟨root,pt,sections,fresh⟩ := textProcess_fresh made
  obtain ⟨set,forked⟩ := Bool.and_eq_true_iff.mp facts
  obtain ⟨⟨new,mem'⟩,forked,_⟩ := Runs.some_such forked
  have set : valid (mem.lookup root (vpage 0x400000#64)) := by
    simp only [pt,Option.any_some,decide_eq_true_eq] at set
    exact set
  have vacant : Function.update (fun _ : Bool => none) true (some root) false = none := Function.update_of_ne (by decide) _ _
  obtain ⟨c,_,copies,_,apart,_⟩ := fork_copies fresh (Function.update_self _ _ _) pt vacant (Runs.toOption_some forked)
  obtain ⟨same,contents⟩ := copies text (by rw [sections]; exact List.mem_cons_self) 0x400000#64 (by decide)
  have set' := same.mpr set
  exact ⟨mem,mem',root,c,set,set',apart _ _ set' set,(contents set).2⟩

end PageTable
