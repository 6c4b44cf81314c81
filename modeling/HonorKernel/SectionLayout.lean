import HonorKernel.SpaceOperations

-- Where the sections of a process lie: in pages of their own, by the numbers of the pages.
namespace PageTable
open DiskFormat BitSlice

def Section.covers (st : Section) (n : Nat) : Prop := st.first.toNat/pageSize ≤ n ∧ n*pageSize < st.last.toNat

-- Without a page, or inside the 48 bits that the tables tell apart.
def Section.Laid (st : Section) : Prop := st.last.toNat ≤ st.first.toNat/pageSize*pageSize ∨ st.last.toNat ≤ 2^48
def Section.Apart (a b : Section) : Prop := ∀ n, a.covers n → ¬ b.covers n

-- mmap cannot make a section of the heap, and init_sections begins it at 0.
structure Layout (sections : List Section) : Prop where
  laid : ∀ st ∈ sections, st.Laid
  apart : sections.Pairwise Section.Apart
  heap : ∃ st ∈ sections, st.flags &&& stHeap ≠ 0#64
  heap_first : ∀ st ∈ sections, st.flags &&& stHeap ≠ 0#64 → st.first = 0#64

section Pages
variable {a b : U64} {st : Section}

theorem vpage_number (same : vpage a = vpage b) (low : a.toNat < 2^48) (low' : b.toNat < 2^48) :
    a.toNat/pageSize = b.toNat/pageSize := by
  simp only [vpage,part,Prod.mk.injEq,Fin.mk.injEq] at same
  obtain ⟨p₀,p₁,p₂,p₃⟩ := same
  rw [show pageSize = 4096 from rfl]
  simp only [Nat.reduceMul,Nat.reduceSub,Nat.reducePow] at p₀ p₁ p₂ p₃
  omega

theorem Section.Apart.symm {st st' : Section} (apart : st.Apart st') : st'.Apart st := fun n there here => apart n here there

theorem page_of_pages (laid : st.Laid) (member : a ∈ st.pages) : st.covers (a.toNat/pageSize) ∧ a.toNat < 2^48 ∧
    a.toNat%pageSize = 0 := by
  obtain ⟨k,inside,rfl⟩ := List.mem_map.mp member
  rw [List.mem_range,pageCount,pageBase_toNat] at inside
  have size : pageSize = 4096 := rfl
  have bound := st.last.isLt
  unfold Section.Laid at laid
  rw [BitVec.toNat_add,BitVec.toNat_ofNat,pageBase_toNat]
  unfold Section.covers
  rw [size] at laid inside ⊢
  omega

theorem pages_nodup (laid : st.Laid) : (st.pages.map vpage).Nodup := by
  have size : pageSize = 4096 := rfl
  rw [Section.pages,pagesOf,List.map_map]
  refine List.Nodup.map_on ?_ List.nodup_range
  intro j small k small' same
  have first := page_of_pages laid (List.mem_map.mpr ⟨j,small,rfl⟩)
  have second := page_of_pages laid (List.mem_map.mpr ⟨k,small',rfl⟩)
  have number := vpage_number same first.2.1 second.2.1
  have bound := st.last.isLt
  rw [List.mem_range,pageCount,pageBase_toNat] at small small'
  rw [BitVec.toNat_add,BitVec.toNat_add,BitVec.toNat_ofNat,BitVec.toNat_ofNat,pageBase_toNat] at number
  rw [size] at number small small'
  omega

theorem sections_nodup {sections : List Section} (laid : ∀ st ∈ sections, st.Laid)
    (apart : sections.Pairwise Section.Apart) :
    (sections.flatMap fun st => st.pages.map vpage).Nodup := by
  rw [List.nodup_flatMap]
  refine ⟨fun st member => pages_nodup (laid st member),?_⟩
  refine apart.imp_of_mem ?_
  intro st st' member member' apart v here there
  obtain ⟨va,inside,rfl⟩ := List.mem_map.mp here
  obtain ⟨va',inside',same⟩ := List.mem_map.mp there
  obtain ⟨covers,low,_⟩ := page_of_pages (laid st member) inside
  obtain ⟨covers',low',_⟩ := page_of_pages (laid st' member') inside'
  rw [vpage_number same low' low] at covers'
  exact apart _ covers covers'

theorem Layout.nodup {sections : List Section} (layout : Layout sections) :
    (sections.flatMap fun st => st.pages.map vpage).Nodup :=
  sections_nodup layout.laid layout.apart

end Pages

section Lists
variable {sections sections' before after : List Section} {st st' : Section}

theorem Layout.perm (layout : Layout sections) (perm : sections.Perm sections') : Layout sections' := by
  obtain ⟨heap,member,flag⟩ := layout.heap
  refine ⟨fun st there => layout.laid st (perm.mem_iff.mpr there),?_,⟨heap,perm.mem_iff.mp member,flag⟩,
    fun st there => layout.heap_first st (perm.mem_iff.mpr there)⟩
  exact (perm.pairwise_iff fun apart => apart.symm).mp layout.apart

theorem Layout.cons (layout : Layout sections) (laid : st.Laid) (apart : ∀ st' ∈ sections, st.Apart st')
    (plain : st.flags &&& stHeap = 0#64) : Layout (st::sections) := by
  obtain ⟨heap,member,flag⟩ := layout.heap
  refine ⟨?_,List.pairwise_cons.mpr ⟨apart,layout.apart⟩,⟨heap,List.mem_cons_of_mem _ member,flag⟩,?_⟩
  · intro x there
    rcases List.mem_cons.mp there with rfl | there
    · exact laid
    · exact layout.laid x there
  · intro x there set
    rcases List.mem_cons.mp there with rfl | there
    · exact absurd plain set
    · exact layout.heap_first x there set

theorem Layout.tail (layout : Layout (st::sections)) (plain : st.flags &&& stHeap = 0#64) : Layout sections := by
  obtain ⟨heap,member,flag⟩ := layout.heap
  refine ⟨fun x there => layout.laid x (List.mem_cons_of_mem _ there),(List.pairwise_cons.mp layout.apart).2,⟨heap,?_,flag⟩,
    fun x there => layout.heap_first x (List.mem_cons_of_mem _ there)⟩
  rcases List.mem_cons.mp member with rfl | there
  · exact absurd plain flag
  · exact there

theorem Layout.move (layout : Layout (st::sections)) (laid : st'.Laid) (apart : ∀ x ∈ sections, st'.Apart x)
    (flags : st'.flags = st.flags) (first : st.flags &&& stHeap ≠ 0#64 → st'.first = st.first) :
    Layout (st'::sections) := by
  obtain ⟨heap,member,flag⟩ := layout.heap
  refine ⟨?_,List.pairwise_cons.mpr ⟨apart,(List.pairwise_cons.mp layout.apart).2⟩,?_,?_⟩
  · intro x there
    rcases List.mem_cons.mp there with rfl | there
    · exact laid
    · exact layout.laid x (List.mem_cons_of_mem _ there)
  · rcases List.mem_cons.mp member with rfl | there
    · exact ⟨st',List.mem_cons_self,by rw [flags]; exact flag⟩
    · exact ⟨heap,List.mem_cons_of_mem _ there,flag⟩
  · intro x there set
    rcases List.mem_cons.mp there with rfl | there
    · rw [flags] at set
      rw [first set]
      exact layout.heap_first st List.mem_cons_self set
    · exact layout.heap_first x (List.mem_cons_of_mem _ there) set

theorem Layout.shrink (layout : Layout (st::sections)) (laid : st'.Laid) (fewer : ∀ n, st'.covers n → st.covers n)
    (flags : st'.flags = st.flags) (first : st.flags &&& stHeap ≠ 0#64 → st'.first = st.first) :
    Layout (st'::sections) := by
  refine layout.move laid ?_ flags first
  intro x there n here
  exact (List.pairwise_cons.mp layout.apart).1 x there n (fewer n here)

theorem initSections_layout (fp : Option Nat) : Layout (initSections fp) := by
  refine ⟨?_,List.pairwise_singleton _ _,⟨_,List.mem_singleton_self _,by simp [stHeap]⟩,?_⟩
  · intro st there
    rw [initSections,List.mem_singleton] at there
    subst there
    exact .inl (Nat.zero_le _)
  · intro st there _
    rw [initSections,List.mem_singleton] at there
    subst there
    rfl

theorem Layout.fork (layout : Layout sections) (fp : Option Nat) : Layout (sections.reverse++initSections fp) := by
  have empty : ∀ st ∈ initSections fp, st.Laid ∧ (∀ n, ¬ st.covers n) ∧ st.first = 0#64 := by
    intro st there
    rw [initSections,List.mem_singleton] at there
    subst there
    refine ⟨.inl (Nat.zero_le _),?_,rfl⟩
    rintro n ⟨_,low⟩
    exact absurd low (Nat.not_lt_zero _)
  obtain ⟨heap,member,flag⟩ := layout.heap
  have perm : (sections.reverse++initSections fp).Perm (sections++initSections fp) := sections.reverse_perm.append_right _
  refine Layout.perm ?_ perm.symm
  refine ⟨?_,List.pairwise_append.mpr ⟨layout.apart,List.pairwise_singleton _ _,?_⟩,⟨heap,List.mem_append_left _ member,flag⟩,?_⟩
  · intro st there
    rcases List.mem_append.mp there with old | new
    · exact layout.laid st old
    · exact (empty st new).1
  · intro st _ st' new n _ covers
    exact (empty st' new).2.1 n covers
  · intro st there set
    rcases List.mem_append.mp there with old | new
    · exact layout.heap_first st old set
    · exact (empty st new).2.2

theorem heapOf_parts (found : heapOf sections = some (before,st,after)) : sections = before++st::after := by
  induction sections generalizing before with
  | nil => cases found
  | cons x rest ih =>
    cases rest with
    | nil =>
      cases found
      rfl
    | cons y rest =>
      simp only [heapOf] at found
      split at found
      · cases found
        rfl
      · obtain ⟨⟨b,f,a⟩,deeper,same⟩ := Option.map_eq_some_iff.mp found
        cases same
        rw [ih deeper]
        rfl

theorem heapOf_heap (heap : ∃ st ∈ sections, st.flags &&& stHeap ≠ 0#64)
    (found : heapOf sections = some (before,st,after)) :
    st.flags &&& stHeap ≠ 0#64 := by
  induction sections generalizing before with
  | nil => cases found
  | cons x rest ih =>
    obtain ⟨h,member,flag⟩ := heap
    cases rest with
    | nil =>
      cases found
      rw [List.mem_singleton] at member
      exact member ▸ flag
    | cons y rest =>
      simp only [heapOf] at found
      split at found
      · rename_i set
        cases found
        exact set
      · rename_i clear
        obtain ⟨⟨b,f,a⟩,deeper,same⟩ := Option.map_eq_some_iff.mp found
        cases same
        rcases List.mem_cons.mp member with rfl | there
        · exact absurd flag clear
        · exact ih ⟨h,there,flag⟩ deeper

theorem splitAt_parts {va : U64} (found : splitAt va sections = some (before,st,after)) :
    sections = before++st::after ∧ st.first = va := by
  induction sections generalizing before with
  | nil => cases found
  | cons x rest ih =>
    simp only [splitAt] at found
    split at found
    · rename_i here
      cases found
      exact ⟨rfl,here.symm⟩
    · obtain ⟨⟨b,f,a⟩,deeper,same⟩ := Option.map_eq_some_iff.mp found
      cases same
      obtain ⟨parts,first⟩ := ih deeper
      exact ⟨by rw [parts]; rfl,first⟩

theorem freeEnd_below (layout : Layout sections) :
    (freeEnd sections).toNat ≤ 2^31 ∧ (freeEnd sections).toNat%pageSize = 0 ∧
    ∀ st ∈ sections, ∀ n, st.covers n → (freeEnd sections).toNat ≤ n*pageSize := by
  have size : pageSize = 4096 := rfl
  have general : ∀ (sections : List Section) (last : U64), (∀ st ∈ sections, st.Laid) → last.toNat ≤ 2^31 → last.toNat%pageSize = 0 →
      let result := sections.foldl (fun last st =>
        if kspaceMask ≤ st.first ∨ kspaceMask ≤ st.last then last
        else if st.first = 0#64 ∧ st.last = 0#64 then last
        else if st.first < last then pageBase st.first else last) last
      result.toNat ≤ last.toNat ∧ result.toNat%pageSize = 0 ∧ ∀ st ∈ sections, ∀ n, st.covers n → result.toNat ≤ n*pageSize := by
    intro sections
    induction sections with
    | nil => exact fun last _ _ aligned => ⟨Nat.le_refl _,aligned,by simp⟩
    | cons st rest ih =>
      intro last laid low aligned
      obtain ⟨next,is⟩ : ∃ next, next = (if kspaceMask ≤ st.first ∨ kspaceMask ≤ st.last then last
        else if st.first = 0#64 ∧ st.last = 0#64 then last
        else if st.first < last then pageBase st.first else last) := ⟨_,rfl⟩
      have step : next.toNat ≤ last.toNat ∧ next.toNat%pageSize = 0 ∧ ∀ n, st.covers n → next.toNat ≤ n*pageSize := by
        have mask : kspaceMask.toNat = 0xFFFF000000000000 := rfl
        have laid := laid st List.mem_cons_self
        unfold Section.Laid at laid
        unfold Section.covers
        rw [is]
        split
        · rename_i kernel
          refine ⟨Nat.le_refl _,aligned,?_⟩
          rintro n ⟨lower,upper⟩
          rw [BitVec.le_def,BitVec.le_def,mask] at kernel
          rw [size] at *
          omega
        · split
          · rename_i empty
            refine ⟨Nat.le_refl _,aligned,?_⟩
            rintro n ⟨_,upper⟩
            rw [empty.2] at upper
            exact absurd upper (Nat.not_lt_zero _)
          · split
            · rename_i below
              rw [BitVec.lt_def] at below
              rw [pageBase_toNat,size]
              refine ⟨by omega,by omega,?_⟩
              rintro n ⟨lower,_⟩
              omega
            · rename_i above
              rw [BitVec.lt_def] at above
              refine ⟨Nat.le_refl _,aligned,?_⟩
              rintro n ⟨lower,_⟩
              rw [size] at *
              omega
      rw [List.foldl_cons,← is]
      obtain ⟨less,multiple,all⟩ := ih next (fun x there => laid x (List.mem_cons_of_mem _ there)) (by omega) step.2.1
      refine ⟨by omega,multiple,?_⟩
      intro x there n covers
      rcases List.mem_cons.mp there with rfl | there
      · exact Nat.le_trans less (step.2.2 n covers)
      · exact all x there n covers
  exact general sections 0x80000000#64 layout.laid (by decide) (by decide)

end Lists

end PageTable
