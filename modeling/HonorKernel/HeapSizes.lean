import HonorKernel.KernelHeap

-- kalloc and kfree for every size that goes into a page: a block of 256 units gets the
-- header 256, and free[] ends at 255.
namespace KernelHeap
open DiskFormat BitSlice Tiling

-- The calls of KernelHeap.next, and those of kalloc that take a whole page.
def nextAll (s : State) : Action → Option State
  | .kalloc size page =>
    if size+8 ≤ 4096 ∧ Fresh s.heap page then
      (kalloc size page s.heap).toOption.map fun (ptr,heap) => ⟨heap,⟨ptr,size⟩::s.live⟩
    else none
  | .kfree ptr => next s (.kfree ptr)
  | .store ptr j w => next s (.store ptr j w)

-- What kalloc writes in front of a block.
def headerFor (size : Nat) : Nat := if unitsFor size = 256 then 256 else unitsFor size-1

structure KeptAll (s : State) (lists : Fin 256 → List Piece) : Prop where
  shape : Shape s.heap (s.live.map Live.piece) lists
  bounded : ∀ b ∈ s.live, 8 ≤ b.ptr ∧ b.size+8 ≤ 4096
  headers : ∀ b ∈ s.live, header s.heap.mem (b.ptr-8) = headerFor b.size

-- kfree puts a block of `length` bytes on the list of this length, from where the next
-- kalloc of the same size takes it.
def Freed (h : Heap) (ptr size length : Nat) : Prop :=
  ∃ i : Fin 256, (i.val+1)*16 = length ∧ kfree ptr h = .ok (h.addToQueue i (ptr-8)) ∧
    ∀ page, ∃ h', kalloc size page (h.addToQueue i (ptr-8)) = .ok (ptr,h')

theorem unitsFor_small {size : Nat} (small : size+8 ≤ 4096) : (unitsFor size = 256 ↔ ¬ size+8 ≤ 255*16) ∧
    unitsFor size ≤ 256 := by
  unfold unitsFor
  split <;> omega

theorem kalloc_all {h : Heap} {held : List Piece} {lists : Fin 256 → List Piece} {size page : Nat}
    (shape : Shape h held lists) (small : size+8 ≤ 4096) (fresh : Fresh h page) :
    ∃ node h' lists', kalloc size page h = .ok (node+8,h') ∧ Shape h' ((node,16*unitsFor size)::held) lists' ∧
      header h'.mem node = headerFor size ∧ ∀ p ∈ held, h'.mem p.1 = h.mem p.1 := by
  obtain ⟨whole,_⟩ := unitsFor_small small
  unfold headerFor
  by_cases part : size+8 ≤ 255*16
  · rw [if_neg fun equal => whole.mp equal part]
    exact kalloc_spec shape part fresh
  · have units := whole.mpr part
    have carved := shape.carve fresh
    rw [if_pos units,units]
    refine ⟨page,(h.kallocPage page).setHeader page 256,lists,?_,?_,header_setHeader _ page 256 (by decide),?_⟩
    · unfold kalloc
      rw [if_pos units]
    · exact carved.write page _ fun p member => carved.first p (List.mem_append_right _ member)
    · intro p member
      exact Function.update_of_ne (carved.first p (List.mem_append_left _ member)) _ _

section Steps
variable {s s' : State} {lists : Fin 256 → List Piece} {b : Live}

theorem KeptAll.payload (kept : KeptAll s lists) (member : b ∈ s.live) (inside : j < b.size) :
    ∀ p ∈ s.live.map Live.piece++gather lists, p.1 ≠ b.ptr+8*(j/8) := by
  have bounds := kept.bounded b member
  have units := unitsFor_bounds b.size
  have there : b.piece ∈ s.live.map Live.piece++gather lists := List.mem_append_left _ (List.mem_map.mpr ⟨b,member,rfl⟩)
  refine kept.shape.inner there ?_
  unfold Live.piece
  simp only
  omega

theorem kfree_header {h : Heap} {ptr size : Nat} (recorded : header h.mem (ptr-8) = headerFor size)
    (small : size+8 ≤ 4096) :
    (size+8 ≤ 255*16 → ∃ i : Fin 256, i.val+1 = unitsFor size ∧ kfree ptr h = .ok (h.addToQueue i (ptr-8))) ∧
      (¬ size+8 ≤ 255*16 → kfree ptr h = .error .outOfBounds) := by
  obtain ⟨whole,_⟩ := unitsFor_small small
  obtain ⟨positive,above,below⟩ := unitsFor_bounds size
  unfold kfree
  rw [recorded]
  unfold headerFor
  constructor
  · intro part
    obtain ⟨i,index,value⟩ := freeIndex_ok (k := ((unitsFor size-1 : Nat) : Int)) (by omega)
    rw [if_neg fun equal => whole.mp equal part,index]
    exact ⟨i,by omega,rfl⟩
  · intro large
    rw [if_pos (whole.mpr large)]
    rfl

theorem kalloc_again (h : Heap) {ptr size : Nat} (i : Fin 256) (units : i.val+1 = unitsFor size)
    (part : size+8 ≤ 255*16) (start : 8 < ptr) (page : Nat) :
    ∃ h', kalloc size page (h.addToQueue i (ptr-8)) = .ok (ptr,h') := by
  have below := (unitsFor_bounds size).2.2
  have head : (h.addToQueue i (ptr-8)).free i = ptr-8 := Function.update_self _ _ _
  have fit : firstFit (h.addToQueue i (ptr-8)).free (unitsFor size-1) = some i := by
    refine List.find?_eq_some_iff_getElem.mpr ⟨?_,i.val,?_,?_,?_⟩
    · rw [head]
      exact decide_eq_true ⟨by omega,by omega⟩
    · simp
    · simp
    · intro j before
      simp only [List.getElem_finRange,Bool.not_eq_true',decide_eq_false_iff_not]
      rintro ⟨late,_⟩
      simp at late
      omega
  unfold kalloc
  rw [if_neg (by omega),fit]
  have fetched : ((h.addToQueue i (ptr-8)).fetchFromQueue i).1 = ptr-8 := by
    unfold Heap.fetchFromQueue
    rw [head,if_neg (by omega)]
  simp only
  rw [if_pos (by omega),fetched,Nat.sub_add_cancel (by omega)]
  exact ⟨_,rfl⟩

theorem freed_iff {h : Heap} {ptr size : Nat} (recorded : header h.mem (ptr-8) = headerFor size)
    (small : size+8 ≤ 4096) (start : 8 < ptr) :
    Freed h ptr size (16*unitsFor size) ↔ size+8 ≤ 255*16 := by
  obtain ⟨parts,pages⟩ := kfree_header recorded small
  constructor
  · rintro ⟨i,_,returned,_⟩
    by_contra large
    rw [pages large] at returned
    cases returned
  · intro part
    obtain ⟨i,units,returned⟩ := parts part
    exact ⟨i,by rw [units,Nat.mul_comm],returned,kalloc_again h i units part start⟩

theorem KeptAll.remove (kept : KeptAll s lists) (member : b ∈ s.live) (i : Fin 256)
    (units : i.val+1 = unitsFor b.size) :
    ∃ lists', KeptAll ⟨s.heap.addToQueue i (b.ptr-8),s.live.erase b⟩ lists' := by
  have order : (s.live.map Live.piece).Perm ((b.ptr-8,16*(i.val+1))::(s.live.erase b).map Live.piece) := by
    rw [units]
    exact (List.perm_cons_erase member).map Live.piece
  have shape := kept.shape.swap order
  refine ⟨_,shape.add,?_,?_⟩
  · intro c listed
    exact kept.bounded c (List.mem_of_mem_erase listed)
  · intro c listed
    have other : c.ptr-8 ≠ b.ptr-8 := shape.first c.piece (List.mem_append_left _ (List.mem_map.mpr ⟨c,listed,rfl⟩))
    unfold header Heap.addToQueue
    simp only
    rw [Function.update_of_ne other]
    exact kept.headers c (List.mem_of_mem_erase listed)

theorem KeptAll.step (kept : KeptAll s lists) (a : Action) (ran : nextAll s a = some s') :
    ∃ lists', KeptAll s' lists' := by
  cases a with
  | kalloc size page =>
    simp only [nextAll] at ran
    split at ran
    · rename_i asked
      obtain ⟨node,h',lists',returned,shape,recorded,same⟩ := kalloc_all kept.shape asked.1 asked.2
      rw [returned] at ran
      cases ran
      have piece : Live.piece ⟨node+8,size⟩ = (node,16*unitsFor size) := rfl
      refine ⟨lists',?_,?_,?_⟩
      · simp only [List.map_cons,piece]
        exact shape
      · intro b member
        rcases List.mem_cons.mp member with rfl | member
        · exact ⟨by simp only; omega,asked.1⟩
        · exact kept.bounded b member
      · intro b member
        rcases List.mem_cons.mp member with rfl | member
        · exact recorded
        · unfold header
          rw [show h'.mem (b.ptr-8) = s.heap.mem (b.ptr-8) from same b.piece (List.mem_map.mpr ⟨b,member,rfl⟩)]
          exact kept.headers b member
    · cases ran
  | kfree ptr =>
    obtain ⟨b,found,ran⟩ := Option.bind_eq_some_iff.mp ran
    obtain ⟨heap,freed,ran⟩ := Option.bind_eq_some_iff.mp ran
    have member := List.mem_of_find?_eq_some found
    have same : b.ptr = ptr := by simpa using List.find?_some found
    subst same
    obtain ⟨parts,pages⟩ := kfree_header (kept.headers b member) (kept.bounded b member).2
    by_cases part : b.size+8 ≤ 255*16
    · obtain ⟨i,units,returned⟩ := parts part
      rw [returned] at freed
      cases freed
      cases ran
      exact kept.remove member i units
    · rw [pages part] at freed
      cases freed
  | store ptr j w =>
    obtain ⟨b,found,ran⟩ := Option.bind_eq_some_iff.mp ran
    have member := List.mem_of_find?_eq_some found
    have same : b.ptr = ptr := by simpa using List.find?_some found
    subst same
    split at ran
    · rename_i inside
      cases ran
      have other := kept.payload member inside
      refine ⟨lists,kept.shape.write _ _ fun p listed => other p (List.mem_append_right _ listed),kept.bounded,?_⟩
      intro c listed
      have apart : c.ptr-8 ≠ b.ptr+8*(j/8) := other c.piece (List.mem_append_left _ (List.mem_map.mpr ⟨c,listed,rfl⟩))
      unfold header Heap.write
      simp only
      rw [Function.update_of_ne apart]
      exact kept.headers c listed
    · cases ran

end Steps

theorem boot_keptAll (mem : Nat → BitVec 64) : KeptAll (boot mem) fun _ => [] :=
  ⟨(boot_kept mem).shape,fun _ member => absurd member List.not_mem_nil,fun _ member => absurd member List.not_mem_nil⟩

-- The blocks cut the pages into pieces; those of 4080 bytes and less come back.
theorem sizes_freed {mem : Nat → BitVec 64} {s : State} (run : Runs.Reached nextAll (boot mem) s) :
    (∃ lists : Fin 256 → List Piece, (∀ i, Linked s.heap.mem (s.heap.free i) (lists i) ∧ ∀ p ∈ lists i,
    p.2 = (i.val+1)*16) ∧
      Tiles (s.heap.pages.map fun page => (page,4096)) (s.live.map Live.piece++gather lists)) ∧
    (∀ b ∈ s.live, Freed s.heap b.ptr b.size b.piece.2 ↔ b.size+8 ≤ 255*16) ∧
    ∀ size page, size+8 ≤ 4096 → Fresh s.heap page → ∃ ptr heap, kalloc size page s.heap = .ok (ptr,heap) ∧
      (Freed heap ptr size (16*unitsFor size) ↔ size+8 ≤ 255*16) := by
  have kept : ∃ lists, KeptAll s lists := by
    refine run.invariant (fun s => ∃ lists, KeptAll s lists) ⟨_,boot_keptAll mem⟩ ?_
    intro s a s' ⟨lists,kept⟩ _ ran
    exact kept.step a ran
  obtain ⟨lists,kept⟩ := kept
  have starts : ∀ {h : Heap} {held : List Piece} {lists : Fin 256 → List Piece} {p : Piece}, Shape h (p::held) lists → 0 < p.1 :=
    fun shape => (shape.bounds List.mem_cons_self).1
  refine ⟨⟨lists,fun i => ⟨kept.shape.linked i,?_⟩,kept.shape.tiles⟩,?_,?_⟩
  · intro p member
    rw [kept.shape.sizes i p member,Nat.mul_comm]
  · intro b member
    have bounds := kept.shape.bounds (List.mem_append_left _ (List.mem_map.mpr ⟨b,member,rfl⟩))
    have start : 8 < b.ptr := by
      have low : 0 < b.ptr-8 := bounds.1
      omega
    exact freed_iff (kept.headers b member) (kept.bounded b member).2 start
  · intro size page small fresh
    obtain ⟨node,heap,lists',returned,shape,recorded,_⟩ := kalloc_all kept.shape small fresh
    have low : 0 < node := starts shape
    refine ⟨node+8,heap,returned,freed_iff ?_ small (by omega)⟩
    rw [Nat.add_sub_cancel]
    exact recorded

-- A block of a whole page is live, and one of 4072 bytes comes and goes.
theorem sizes_freed_page : ∃ s, Runs.Reached nextAll (boot fun _ => 0#64) s ∧ s.live.map Live.size = [4088] ∧
    (∀ b ∈ s.live, Freed s.heap b.ptr b.size b.piece.2 ↔ b.size+8 ≤ 255*16) := by
  obtain ⟨s,ran,facts⟩ := Runs.some_such
    (x := Runs.exec nextAll (boot fun _ => 0#64) [.kalloc 4072 4096,.kalloc 4088 8192,.kfree 4104])
    (p := fun s => decide (s.live.map Live.size = [4088])) (by decide +kernel)
  have path := Runs.exec_reached .start ran
  exact ⟨s,path,of_decide_eq_true facts,(sizes_freed path).2.1⟩

-- kfree of a block of 4073 bytes stores to free[256].
theorem page_not_freed : ¬ ∀ (s : State), Runs.Reached nextAll (boot fun _ => 0#64) s → ∀ size page, size+8 ≤ 4096 →
    Fresh s.heap page →
    ∃ ptr heap, kalloc size page s.heap = .ok (ptr,heap) ∧ Freed heap ptr size (16*unitsFor size) := by
  intro freed
  have fresh : Fresh (boot fun _ => 0#64).heap 4096 := by decide
  obtain ⟨ptr,heap,returned,freed⟩ := freed _ .start 4073 4096 (by decide) fresh
  obtain ⟨ptr',heap',returned',sizes⟩ :=
      (sizes_freed (show Runs.Reached nextAll (boot fun _ => 0#64) _ from .start)).2.2 4073 4096 (by decide) fresh
  rw [returned] at returned'
  cases returned'
  exact absurd (sizes.mp freed) (by decide)

end KernelHeap
