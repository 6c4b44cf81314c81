import HonorKernel.PageMap

-- The pages that free_pgdir gives back, one after the other.
namespace PageTable
open DiskFormat BitSlice

def Mem.frees (mem : Mem) (frames : List Frame) : Mem := frames.foldl Mem.kfreePage mem

-- The page that is mapped at a virtual page.
def mappedFrame (mem : Mem) (root : Frame) (v : VPage) : Option Frame :=
  if valid (mem.lookup root v) then some (frameOf (mem.lookup root v)) else none

def tableFrames (mem : Mem) (level : Nat) (p : Frame) : List Frame := RadixTree.postorder (List.finRange 512) (child mem) level p

def pageFrames (mem : Mem) (root : Frame) (pages : List U64) : List Frame := pages.filterMap fun va => mappedFrame mem root (vpage va)
def sectionFrames (mem : Mem) (root : Frame) (sections : List Section) : List Frame := pageFrames mem root (sections.flatMap Section.pages)

section Frees
variable {mem mem₀ : Mem} {frames : List Frame} {p q root : Frame}

theorem frees_append (mem : Mem) (one two : List Frame) : mem.frees (one++two) = (mem.frees one).frees two := List.foldl_append

theorem frees_pages (frames : List Frame) (mem : Mem) (other : q ∉ frames) :
    (mem.frees frames).pages q = mem.pages q := by
  induction frames generalizing mem with
  | nil => rfl
  | cons p rest ih =>
    rw [List.mem_cons,not_or] at other
    rw [Mem.frees,List.foldl_cons]
    exact (ih _ other.2).trans (kfreePage_pages mem other.1)

theorem kfreePage_queues (few : mem.refs p ≤ 1) : (mem.kfreePage p).free = p::mem.free ∧
    (mem.kfreePage p).leftPageCnt = mem.leftPageCnt+1 ∧ (mem.kfreePage p).kallocPageCnt = mem.kallocPageCnt-1 := by
  have queued : mem.refs p-1 ≤ 0 := by omega
  simp [Mem.kfreePage,queued,Mem.addToQueue,Mem.setEntry,Mem.setPage]

theorem kfreePage_keeps (many : ¬ mem.refs p ≤ 1) :
    (mem.kfreePage p).free = mem.free ∧ (mem.kfreePage p).pages = mem.pages ∧
    (mem.kfreePage p).leftPageCnt = mem.leftPageCnt ∧ (mem.kfreePage p).kallocPageCnt = mem.kallocPageCnt-1 := by
  have kept : ¬ Function.update mem.refs p (mem.refs p-1) p ≤ 0 := by
    rw [Function.update_self]
    omega
  unfold Mem.kfreePage
  simp only [if_neg kept]
  exact ⟨trivial,trivial,trivial,trivial⟩

theorem frees_queue (frames : List Frame) (mem : Mem) (nodup : frames.Nodup) (few : ∀ p ∈ frames, mem.refs p ≤ 1) :
    (mem.frees frames).free = frames.reverse++mem.free ∧
    (mem.frees frames).leftPageCnt = mem.leftPageCnt+frames.length ∧
      (mem.frees frames).kallocPageCnt = mem.kallocPageCnt-frames.length := by
  induction frames generalizing mem with
  | nil => simp [Mem.frees]
  | cons p rest ih =>
    rw [List.nodup_cons] at nodup
    obtain ⟨queue,left,count⟩ := kfreePage_queues (few p List.mem_cons_self)
    have few' : ∀ q ∈ rest, (mem.kfreePage p).refs q ≤ 1 := by
      intro q member
      have other : q ≠ p := by
        rintro rfl
        exact nodup.1 member
      rw [kfreePage_refs,Function.update_of_ne other]
      exact few q (List.mem_cons_of_mem _ member)
    obtain ⟨queue',left',count'⟩ := ih (mem.kfreePage p) nodup.2 few'
    refine ⟨?_,?_,?_⟩
    · change ((mem.kfreePage p).frees rest).free = _
      rw [queue',queue]
      simp
    · change ((mem.kfreePage p).frees rest).leftPageCnt = _
      rw [left',left,List.length_cons]
      push_cast
      omega
    · change ((mem.kfreePage p).frees rest).kallocPageCnt = _
      rw [count',count,List.length_cons]
      push_cast
      omega

-- The loops over the tables: what they read is still as it was, because a page is written
-- only when it is freed.
theorem freeTable_frees (level : Nat) (p : Frame) (mem : Mem) (nodup : (tableFrames mem₀ level p).Nodup)
    (same : ∀ x ∈ tableFrames mem₀ level p, mem.pages x = mem₀.pages x) :
    freeTable level p mem = mem.frees (tableFrames mem₀ level p) := by
  induction level generalizing p mem with
  | zero => rfl
  | succ level ih =>
    have entries : ∀ (indices : List Index) (mem : Mem), ((indices.filterMap (child mem₀ p)).flatMap (tableFrames mem₀ level)).Nodup →
        mem.pages p = mem₀.pages p → p ∉ (indices.filterMap (child mem₀ p)).flatMap (tableFrames mem₀ level) →
        (∀ x ∈ (indices.filterMap (child mem₀ p)).flatMap (tableFrames mem₀ level), mem.pages x = mem₀.pages x) →
        indices.foldl (fun mem i => if valid (mem.entry p i) then freeTable level (frameOf (mem.entry p i)) mem else mem) mem =
          mem.frees ((indices.filterMap (child mem₀ p)).flatMap (tableFrames mem₀ level)) := by
      intro indices
      induction indices with
      | nil => exact fun _ _ _ _ _ => rfl
      | cons i rest inner =>
        intro mem nodup parent apart same
        have entry : mem.entry p i = mem₀.entry p i := by
          unfold Mem.entry
          rw [parent]
        rw [List.foldl_cons,entry]
        by_cases set : valid (mem₀.entry p i)
        · have below : child mem₀ p i = some (frameOf (mem₀.entry p i)) := if_pos set
          rw [List.filterMap_cons_some below,List.flatMap_cons] at nodup apart same ⊢
          rw [List.nodup_append] at nodup
          rw [List.mem_append,not_or] at apart
          rw [if_pos set,ih _ mem nodup.1 (fun x member => same x (List.mem_append_left _ member)),frees_append]
          refine inner _ nodup.2.1 ((frees_pages _ mem apart.1).trans parent) apart.2 fun x member => ?_
          have later : x ∉ tableFrames mem₀ level (frameOf (mem₀.entry p i)) := fun there => nodup.2.2 x there x member rfl
          exact (frees_pages _ mem later).trans (same x (List.mem_append_right _ member))
        · have none : child mem₀ p i = none := if_neg set
          rw [List.filterMap_cons_none none] at nodup apart same ⊢
          rw [if_neg set]
          exact inner mem nodup parent apart same
    have parts : tableFrames mem₀ (level+1) p = ((List.finRange 512).filterMap (child mem₀ p)).flatMap
        (tableFrames mem₀ level)++[p] := by
      unfold tableFrames
      rw [RadixTree.postorder]
    rw [parts] at nodup same ⊢
    rw [List.nodup_append] at nodup
    have apart : p ∉ ((List.finRange 512).filterMap (child mem₀ p)).flatMap (tableFrames mem₀ level) :=
      fun there => nodup.2.2 p there p (List.mem_singleton_self p) rfl
    have loop := entries (List.finRange 512) mem nodup.1 (same p (List.mem_append_right _ (List.mem_singleton_self p))) apart
      fun x member => same x (List.mem_append_left _ member)
    rw [frees_append,← loop,freeTable]
    rfl

-- Tables of the directory that are still as they were.
def Standing (mem₀ mem : Mem) (root : Frame) : Prop := ∀ way t, way.length ≤ 3 → mem₀.table root way = some t → mem.pages t = mem₀.pages t

theorem Standing.lookup (standing : Standing mem₀ mem root) (v : VPage) : mem.lookup root v = mem₀.lookup root v := by
  refine lookup_frame ?_ v
  intro way t short reached i
  unfold Mem.entry
  rw [standing way t short reached]

theorem Standing.frees (standing : Standing mem₀ mem root)
    (data : ∀ way t, way.length ≤ 3 → mem₀.table root way = some t → t ∉ frames) :
    Standing mem₀ (mem.frees frames) root :=
  fun way t short reached => (frees_pages _ mem (data way t short reached)).trans (standing way t short reached)

theorem freePages_frees (pages : List U64) (mem : Mem) (standing : Standing mem₀ mem root)
    (data : ∀ way t, way.length ≤ 3 → mem₀.table root way = some t → t ∉ pageFrames mem₀ root pages) :
    freePages (some root) pages mem = .ok (mem.frees (pageFrames mem₀ root pages)) := by
  induction pages generalizing mem with
  | nil => rfl
  | cons va rest ih =>
    obtain ⟨slot,got⟩ := getPte_looks va (some root) mem
    have one : ∃ front, pageFrames mem₀ root (va::rest) = front++pageFrames mem₀ root rest ∧
        freePages (some root) (va::rest) mem = freePages (some root) rest (mem.frees front) := by
      rw [freePages,got]
      obtain ⟨_,_,⟨rfl,value⟩ | ⟨t,rfl,_,value⟩⟩ := getPte_reads got
      · rw [standing.lookup] at value
        refine ⟨[],List.filterMap_cons_none ?_,rfl⟩
        rw [mappedFrame,value]
        rfl
      · have entry : mem.at ⟨t,part 3 va⟩ = mem₀.lookup root (vpage va) := value.trans (standing.lookup _)
        by_cases set : valid (mem₀.lookup root (vpage va))
        · refine ⟨[frameOf (mem₀.lookup root (vpage va))],List.filterMap_cons_some (if_pos set),?_⟩
          simp only [bind,Except.bind,entry,if_pos set]
          rfl
        · refine ⟨[],List.filterMap_cons_none (if_neg set),?_⟩
          simp only [bind,Except.bind,entry,if_neg set]
          rfl
    obtain ⟨front,parts,first⟩ := one
    rw [parts] at data
    rw [first,parts,frees_append]
    refine ih _ (standing.frees fun way t short reached there => ?_) fun way t short reached there => ?_
    · exact data way t short reached (List.mem_append_left _ there)
    · exact data way t short reached (List.mem_append_right _ there)

theorem freeSections_frees {σ : Type} (files : Files σ) (fs : σ) (sections : List Section) (mem : Mem)
    (standing : Standing mem₀ mem root) (ending : Ending sections) (bare : ∀ st ∈ sections, st.fp = none)
    (data : ∀ way t, way.length ≤ 3 → mem₀.table root way = some t → t ∉ sectionFrames mem₀ root sections) :
    freeSections files (some root) sections mem fs = .ok (mem.frees (sectionFrames mem₀ root sections),fs) := by
  induction sections generalizing mem with
  | nil => rfl
  | cons st rest ih =>
    have parts : sectionFrames mem₀ root (st::rest) = pageFrames mem₀ root st.pages++sectionFrames mem₀ root rest := by
      rw [sectionFrames,List.flatMap_cons,pageFrames,List.filterMap_append]
      rfl
    rw [parts] at data ⊢
    have first := freePages_frees st.pages mem standing fun way t short reached there => data way t short reached
        (List.mem_append_left _ there)
    have left := ih (mem.frees (pageFrames mem₀ root st.pages))
      (standing.frees fun way t short reached there => data way t short reached (List.mem_append_left _ there))
      (fun st member => ending st (List.mem_cons_of_mem _ member)) (fun st member => bare st (List.mem_cons_of_mem _ member))
      fun way t short reached there => data way t short reached (List.mem_append_right _ there)
    rw [freeSections,ending st List.mem_cons_self]
    simp only [bind,Except.bind,first,bare st List.mem_cons_self]
    rw [left,frees_append]

theorem mem_tableFrames : q ∈ tableFrames mem 3 root ↔ ∃ way, way.length ≤ 3 ∧ mem.table root way = some q :=
  RadixTree.mem_postorder List.mem_finRange

theorem mappedFrame_eq_some {v : VPage} : mappedFrame mem root v = some q ↔ valid (mem.lookup root v) ∧
    frameOf (mem.lookup root v) = q := by
  unfold mappedFrame
  split
  · rename_i set
    rw [Option.some.injEq]
    exact (and_iff_right set).symm
  · rename_i clear
    exact ⟨fun none => (by cases none),fun both => absurd both.1 clear⟩

theorem freePgdir_frees {σ : Type} (files : Files σ) (fs : σ) (sections : List Section) (mem : Mem) (root : Frame)
    (distinct : RadixTree.Distinct (child mem) root 3) (ending : Ending sections) (bare : ∀ st ∈ sections, st.fp = none)
    (data : ∀ way t, way.length ≤ 3 → mem.table root way = some t → t ∉ sectionFrames mem root sections) :
    freePgdir files ⟨some root,sections⟩ mem fs = .ok
        (⟨none,[]⟩,mem.frees (sectionFrames mem root sections++tableFrames mem 3 root),fs) := by
  have nodup : (tableFrames mem 3 root).Nodup := RadixTree.postorder_nodup List.mem_finRange (List.nodup_finRange 512) distinct
  have sectioned := freeSections_frees files fs sections mem (fun _ _ _ _ => rfl) ending bare data
  unfold freePgdir
  simp only [bind,Except.bind,sectioned]
  rw [frees_append,freeTable_frees 3 root _ nodup]
  intro x member
  obtain ⟨way,short,reached⟩ := mem_tableFrames.mp member
  exact frees_pages _ mem (data way x short reached)

end Frees

end PageTable
