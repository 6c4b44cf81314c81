import HonorKernel.ForkBudget

-- The heap of a process and of the processes that it forks.
namespace PageTable
open DiskFormat BitSlice

def isHeap (st : Section) : Bool := decide (st.flags &&& stHeap ≠ 0#64)

-- Where the first section with ST_HEAP begins and ends.
def heapBounds (sections : List Section) : Option (U64 × U64) := (sections.find? isHeap).map fun st => (st.first,st.last)

-- Every sbrk gives the same value and the same bounds in both, or fails in both.
structure SameHeap (parent child : PgDir) : Prop where
  value : ∀ mem mem', ∃ v p m c m', sbrk 0 parent mem = .ok (v,p,m) ∧ sbrk 0 child mem' = .ok (v,c,m')
  moved : ∀ size mem mem', Runs.Agrees (fun p c => p.1 = c.1 ∧ heapBounds p.2.1.sections = heapBounds c.2.1.sections)
    (sbrk size parent mem) (sbrk size child mem')

-- The first and the last heap section have the same bounds.
def OneHeap (sections : List Section) : Prop := heapBounds sections = heapBounds sections.reverse

instance (sections : List Section) : Decidable (OneHeap sections) := inferInstanceAs (Decidable (_ = _))

section Sbrk
variable {sections before after : List Section} {st : Section} {dir : PgDir} {mem : Mem}

theorem heapOf_find (found : sections.find? isHeap = some st) :
    ∃ before after, heapOf sections = some (before,st,after) ∧ before.find? isHeap = none := by
  induction sections with
  | nil => cases found
  | cons x rest ih =>
    rw [List.find?_cons] at found
    cases rest with
    | nil =>
      split at found
      · cases found
        exact ⟨[],[],rfl,rfl⟩
      · cases found
    | cons y rest =>
      simp only [heapOf]
      split at found
      · rename_i set
        cases found
        exact ⟨[],y::rest,if_pos (of_decide_eq_true set),rfl⟩
      · rename_i clear
        obtain ⟨before,after,parts,none⟩ := ih found
        refine ⟨x::before,after,?_,?_⟩
        · rw [if_neg (of_decide_eq_false clear),parts]
          rfl
        · rw [List.find?_cons_of_neg (by rw [clear]; decide)]
          exact none

theorem dropPages_returns (pt : Option Frame) (pages : List U64) (mem : Mem) :
    ∃ mem', dropPages pt pages mem = .ok mem' := by
  induction pages generalizing mem with
  | nil => exact ⟨mem,rfl⟩
  | cons va rest ih =>
    obtain ⟨slot,got⟩ := getPte_looks va pt mem
    have one : ∃ mem', dropPage pt va mem = .ok mem' := by
      unfold dropPage
      simp only [bind,Except.bind,got]
      split
      · exact ⟨_,rfl⟩
      · split
        · exact ⟨_,rfl⟩
        · exact ⟨_,rfl⟩
    obtain ⟨middle,dropped⟩ := one
    obtain ⟨last,left⟩ := ih middle
    exact ⟨last,by rw [dropPages,dropped]; exact left⟩

theorem sbrk_heap (found : dir.sections.find? isHeap = some st) (size : Int) (mem : Mem) :
    (size < 0 ∧ st.last-st.first < BitVec.ofInt 64 (-size)*BitVec.ofNat 64 pageSize ∧
    sbrk size dir mem = .error .assertion) ∨
    (¬ (size < 0 ∧ st.last-st.first < BitVec.ofInt 64 (-size)*BitVec.ofNat 64 pageSize) ∧ ∃ dir' mem',
    sbrk size dir mem = .ok (st.last,dir',mem') ∧
      heapBounds dir'.sections = some (st.first,st.last+BitVec.ofInt 64 (size*pageSize))) := by
  obtain ⟨before,after,parts,clear⟩ := heapOf_find found
  have flag : isHeap st = true := List.find?_some found
  have bounds : heapBounds (before++{ st with last := st.last+BitVec.ofInt 64 (size*pageSize) }::after) =
      some (st.first,st.last+BitVec.ofInt 64 (size*pageSize)) := by
    have set : isHeap { st with last := st.last+BitVec.ofInt 64 (size*pageSize) } = true := flag
    rw [heapBounds,List.find?_append,clear,Option.none_or,List.find?_cons_of_pos set]
    rfl
  unfold sbrk
  simp only [parts]
  by_cases grows : 0 ≤ size
  · rw [if_pos grows]
    exact .inr ⟨fun both => absurd both.1 (by omega),_,mem,rfl,bounds⟩
  · rw [if_neg grows]
    by_cases short : st.last-st.first < BitVec.ofInt 64 (-size)*BitVec.ofNat 64 pageSize
    · rw [if_pos short]
      exact .inl ⟨by omega,short,rfl⟩
    · rw [if_neg short]
      obtain ⟨mem',dropped⟩ := dropPages_returns dir.pt (shrunk (st.last+BitVec.ofInt 64 (size*pageSize)) (-size).toNat) mem
      exact .inr ⟨fun both => short both.2,_,mem',by rw [dropped]; rfl,bounds⟩

theorem sameHeap_iff {parent child : PgDir} (heap : (parent.sections.find? isHeap).isSome)
    (heap' : (child.sections.find? isHeap).isSome) :
    SameHeap parent child ↔ heapBounds parent.sections = heapBounds child.sections := by
  obtain ⟨st,found⟩ := Option.isSome_iff_exists.mp heap
  obtain ⟨st',found'⟩ := Option.isSome_iff_exists.mp heap'
  have bounds : heapBounds parent.sections = some (st.first,st.last) := by rw [heapBounds,found]; rfl
  have bounds' : heapBounds child.sections = some (st'.first,st'.last) := by rw [heapBounds,found']; rfl
  have unmoved : ∀ x : U64, x+BitVec.ofInt 64 (0*pageSize) = x := by
    intro x
    rw [Int.zero_mul]
    exact BitVec.add_zero x
  constructor
  · intro same
    have still := same.moved 0 booted.mem booted.mem
    rcases sbrk_heap found 0 booted.mem with ⟨down,_⟩ | ⟨_,dir,mem,ran,after⟩
    · omega
    · rcases sbrk_heap found' 0 booted.mem with ⟨down,_⟩ | ⟨_,dir',mem',ran',after'⟩
      · omega
      · rw [ran,ran'] at still
        have equal : heapBounds dir.sections = heapBounds dir'.sections := still.2
        rw [after,after',unmoved,unmoved] at equal
        rw [bounds,bounds',equal]
  · intro equal
    rw [bounds,bounds'] at equal
    obtain ⟨first,last⟩ := Prod.mk.inj (Option.some.inj equal)
    have first : st.first = st'.first := first
    have last : st.last = st'.last := last
    constructor
    · intro mem mem'
      rcases sbrk_heap found 0 mem with ⟨down,_⟩ | ⟨_,dir,_,ran,_⟩
      · omega
      · rcases sbrk_heap found' 0 mem' with ⟨down,_⟩ | ⟨_,dir',_,ran',_⟩
        · omega
        · rw [← last] at ran'
          exact ⟨st.last,dir,_,dir',_,ran,ran'⟩
    · intro size mem mem'
      rcases sbrk_heap found size mem with ⟨down,short,ran⟩ | ⟨fits,dir,middle,ran,after⟩
      · rcases sbrk_heap found' size mem' with ⟨_,_,ran'⟩ | ⟨fits',_⟩
        · rw [ran,ran']
          trivial
        · exact absurd ⟨down,by rw [← first,← last]; exact short⟩ fits'
      · rcases sbrk_heap found' size mem' with ⟨down,short,_⟩ | ⟨_,dir',middle',ran',after'⟩
        · exact absurd ⟨down,by rw [first,last]; exact short⟩ fits
        · rw [ran,ran']
          refine ⟨last,?_⟩
          rw [after,after',first,last]

end Sbrk

section Lists
variable {sections : List Section} {dir dir' : PgDir} {mem mem' : Mem} {va : U64} {σ : Type} {files : Files σ}
  {fs fs' : σ}

theorem pgfaultHandler_sections (ran : pgfaultHandler va dir mem = .ok (dir',mem')) : dir'.sections = dir.sections := by
  unfold pgfaultHandler at ran
  split at ran
  · cases ran
  · obtain ⟨⟨slot,pt,middle⟩,_,ran⟩ := Runs.bind_ok.mp ran
    obtain ⟨slot,_,ran⟩ := Runs.bind_ok.mp ran
    obtain ⟨⟨pt,last⟩,_,ran⟩ := Runs.bind_ok.mp ran
    simp only at ran
    split at ran
    · cases ran
      rfl
    · cases ran

theorem userStore_sections {bytes : List Byte} (ran : userStore va bytes dir mem = .ok (dir',mem')) :
    dir'.sections = dir.sections := by
  unfold userStore at ran
  split at ran
  · cases ran
  · obtain ⟨⟨slot,_,_⟩,_,ran⟩ := Runs.bind_ok.mp ran
    obtain ⟨⟨dir₁,middle⟩,present,ran⟩ := Runs.bind_ok.mp ran
    obtain ⟨⟨slot',_,last⟩,_,ran⟩ := Runs.bind_ok.mp ran
    obtain ⟨_,_,ran⟩ := Runs.bind_ok.mp ran
    cases ran
    split at present
    · cases present
      rfl
    · exact pgfaultHandler_sections present

theorem userCopy_sections (fuel : Nat) {src : List Byte} (ran : userCopy fuel va src dir mem = .ok (dir',mem')) :
    dir'.sections = dir.sections := by
  induction fuel generalizing va src dir mem with
  | zero =>
    cases ran
    rfl
  | succ fuel ih =>
    unfold userCopy at ran
    split at ran
    · cases ran
      rfl
    · obtain ⟨⟨middle,_⟩,first,rest⟩ := Runs.bind_ok.mp ran
      exact (ih rest).trans (userStore_sections first)

theorem loadSegments_sections {zero : Frame} (segs : List Segment)
    (ran : loadSegments zero segs dir mem = .ok (dir',mem')) :
    ∃ made, dir'.sections = made++dir.sections := by
  induction segs generalizing dir mem with
  | nil =>
    cases ran
    exact ⟨[],rfl⟩
  | cons seg rest ih =>
    obtain ⟨⟨middle,mem₁⟩,first,ran⟩ := Runs.bind_ok.mp ran
    obtain ⟨made,list⟩ := ih ran
    obtain ⟨⟨pt₁,mem₂⟩,_,first⟩ := Runs.bind_ok.mp first
    obtain ⟨⟨pt₂,mem₃⟩,_,first⟩ := Runs.bind_ok.mp first
    cases first
    exact ⟨made++[seg.made],by rw [list,List.append_assoc]; rfl⟩

def HasHeap (sections : List Section) : Prop := ∃ st ∈ sections, isHeap st = true

theorem HasHeap.found (heap : HasHeap sections) : (sections.find? isHeap).isSome := by
  obtain ⟨st,member,set⟩ := heap
  exact List.find?_isSome.mpr ⟨st,member,set⟩

theorem HasHeap.append (heap : HasHeap sections) (before : List Section) : HasHeap (before++sections) := by
  obtain ⟨st,member,set⟩ := heap
  exact ⟨st,List.mem_append_right _ member,set⟩

theorem initSections_heap (fp : Option Nat) : HasHeap (initSections fp) := ⟨_,List.mem_singleton_self _,decide_eq_true (by decide : stHeap &&& stHeap ≠ 0#64)⟩

theorem initPgdir_heap {fp : Option Nat} (ran : initPgdir fp mem = .ok (dir,mem')) : HasHeap dir.sections := by
  obtain ⟨⟨p,_⟩,_,ran⟩ := Runs.bind_ok.mp ran
  cases ran
  exact initSections_heap fp

theorem loadImage_heap {zero : Frame} {fp : Option Nat} {segs : List Segment} {args : List (U64 × List Byte)}
    (ran : loadImage zero fp segs args mem = .ok (dir,mem')) : HasHeap dir.sections := by
  obtain ⟨⟨dir₀,mem₀⟩,init,ran⟩ := Runs.bind_ok.mp ran
  obtain ⟨⟨dir₁,mem₁⟩,loaded,ran⟩ := Runs.bind_ok.mp ran
  obtain ⟨⟨pt₂,mem₂⟩,_,ran⟩ := Runs.bind_ok.mp ran
  obtain ⟨⟨pt₃,mem₃⟩,_,ran⟩ := Runs.bind_ok.mp ran
  cases ran
  obtain ⟨made,list⟩ := loadSegments_sections segs loaded
  rw [list]
  exact ((initPgdir_heap init).append made).append [stackSection segs]

theorem HasHeap.change {before after : List Section} {st st' : Section} (heap : HasHeap (before++st::after))
    (flags : st'.flags = st.flags) :
    HasHeap (before++st'::after) := by
  obtain ⟨h,member,set⟩ := heap
  rw [List.mem_append,List.mem_cons] at member
  rcases member with there | rfl | there
  · exact ⟨h,List.mem_append_left _ there,set⟩
  · exact ⟨st',List.mem_append_right _ List.mem_cons_self,by rw [isHeap,flags]; exact set⟩
  · exact ⟨h,List.mem_append_right _ (List.mem_cons_of_mem _ there),set⟩

theorem HasHeap.remove {before after : List Section} {st : Section} (heap : HasHeap (before++st::after))
    (plain : isHeap st = false) :
    HasHeap (before++after) := by
  obtain ⟨h,member,set⟩ := heap
  rw [List.mem_append,List.mem_cons] at member
  rcases member with there | rfl | there
  · exact ⟨h,List.mem_append_left _ there,set⟩
  · rw [plain] at set
    cases set
  · exact ⟨h,List.mem_append_right _ there,set⟩

theorem sbrk_keeps_heap {size : Int} {v : U64} (heap : HasHeap dir.sections)
    (ran : sbrk size dir mem = .ok (v,dir',mem')) : HasHeap dir'.sections := by
  obtain ⟨st,found⟩ := Option.isSome_iff_exists.mp heap.found
  rcases sbrk_heap found size mem with ⟨_,_,failed⟩ | ⟨_,last,memory,done,bounds⟩
  · rw [failed] at ran
    cases ran
  · rw [done] at ran
    cases ran
    obtain ⟨st',first,_⟩ := Option.map_eq_some_iff.mp bounds
    exact ⟨st',List.mem_of_find?_eq_some first,List.find?_some first⟩

theorem mmap_heap {length : U64} {shared : Bool} {prot : U64} {fp : Nat} {offset : U64} {v : Option U64}
    (heap : HasHeap dir.sections)
    (ran : mmap files length shared prot fp offset dir mem fs = .ok (v,dir',mem',fs')) : HasHeap dir'.sections := by
  unfold mmap at ran
  simp only at ran
  split at ran
  · cases ran
    exact heap
  · obtain ⟨⟨bytes,fs₁⟩,_,ran⟩ := Runs.bind_ok.mp ran
    obtain ⟨⟨dir₁,mem₁⟩,copied,ran⟩ := Runs.bind_ok.mp ran
    cases ran
    rw [userCopy_sections _ copied]
    exact heap.append [_]

theorem mapping_plain {st : Section} (mapping : st.flags = stMmapPrivate ∨ st.flags = stMmapShared) :
    isHeap st = false := by
  unfold isHeap
  rcases mapping with flags | flags <;> rw [flags] <;> decide

theorem munmap_heap {length : U64} (heap : HasHeap dir.sections)
    (ran : munmap files va length dir mem fs = .ok (dir',mem',fs')) :
    HasHeap dir'.sections := by
  unfold munmap at ran
  split at ran
  · cases ran
    exact heap
  · rename_i before st after parts
    rw [(splitAt_parts parts).1] at heap
    split at ran
    · cases ran
    · rename_i mapping
      have plain := mapping_plain (not_not.mp mapping)
      split at ran
      · obtain ⟨⟨dir₁,mem₁⟩,_,ran⟩ := Runs.bind_ok.mp ran
        obtain ⟨pages,_,ran⟩ := Runs.bind_ok.mp ran
        obtain ⟨⟨mem₂,fs₁⟩,_,ran⟩ := Runs.bind_ok.mp ran
        obtain ⟨fs₂,_,ran⟩ := Runs.bind_ok.mp ran
        cases ran
        exact heap.remove plain
      · obtain ⟨pages,_,ran⟩ := Runs.bind_ok.mp ran
        obtain ⟨⟨mem₁,fs₁⟩,_,ran⟩ := Runs.bind_ok.mp ran
        cases ran
        exact heap.change rfl

theorem fork_sections {slab₀ slab₁ : Nat} {fp : Option Nat} {parent : PgDir}
    (ran : fork slab₀ slab₁ fp parent mem = .ok (dir,mem')) :
    dir.sections = parent.sections.reverse++initSections fp := by
  obtain ⟨mem₁,_,ran⟩ := Runs.bind_ok.mp ran
  obtain ⟨⟨_,mem₂⟩,_,ran⟩ := Runs.bind_ok.mp ran
  obtain ⟨⟨child,mem₃⟩,init,ran⟩ := Runs.bind_ok.mp ran
  obtain ⟨⟨pt,mem₄⟩,_,ran⟩ := Runs.bind_ok.mp ran
  obtain ⟨mem₅,_,ran⟩ := Runs.bind_ok.mp ran
  cases ran
  obtain ⟨⟨p,_⟩,_,init⟩ := Runs.bind_ok.mp init
  cases init
  rfl

end Lists

section Forks
variable {σ : Type} {files : Files σ} {zero : Frame} {start s s' : Space σ}

def Heaps (s : Space σ) : Prop := ∀ pid dir, s.dirs pid = some dir → HasHeap dir.sections

theorem Heaps.put (heaps : Heaps s) {mem : Mem} {fs : σ} {pid : Nat} {dir : PgDir} (heap : HasHeap dir.sections) :
    Heaps (⟨mem,Function.update s.dirs pid (some dir),fs⟩ : Space σ) := by
  intro other dir' found
  by_cases here : other = pid
  · subst here
    simp only [Function.update_self] at found
    cases found
    exact heap
  · exact heaps other dir' ((Function.update_of_ne here _ _).symm.trans found)

theorem Heaps.step (heaps : Heaps s) {call : Call} (ran : s.run files zero call = .ok s') : Heaps s' := by
  cases call with
  | start pid fp =>
    simp only [Space.run] at ran
    split at ran
    · cases ran
    · obtain ⟨⟨dir,mem⟩,init,ran⟩ := Runs.bind_ok.mp ran
      cases ran
      exact heaps.put (initPgdir_heap init)
  | execve pid small fp segs args =>
    obtain ⟨old,_,ran⟩ := Runs.bind_ok.mp ran
    obtain ⟨mem₁,_,ran⟩ := Runs.bind_ok.mp ran
    obtain ⟨⟨dir,mem₂⟩,loaded,ran⟩ := Runs.bind_ok.mp ran
    obtain ⟨⟨_,mem₃,fs⟩,_,ran⟩ := Runs.bind_ok.mp ran
    cases ran
    exact heaps.put (loadImage_heap loaded)
  | execveFails pid small fp segs broken =>
    obtain ⟨_,_,ran⟩ := Runs.bind_ok.mp ran
    obtain ⟨mem₁,_,ran⟩ := Runs.bind_ok.mp ran
    obtain ⟨⟨dir,mem₂⟩,_,ran⟩ := Runs.bind_ok.mp ran
    obtain ⟨⟨_,mem₃,fs⟩,_,ran⟩ := Runs.bind_ok.mp ran
    cases ran
    exact heaps
  | sbrk pid size =>
    obtain ⟨dir,found,ran⟩ := Runs.bind_ok.mp ran
    obtain ⟨⟨v,dir',mem⟩,moved,ran⟩ := Runs.bind_ok.mp ran
    cases ran
    exact heaps.put (sbrk_keeps_heap (heaps pid dir (Space.dir_ok found)) moved)
  | mmap pid small length shared prot fp offset =>
    obtain ⟨dir,found,ran⟩ := Runs.bind_ok.mp ran
    obtain ⟨mem₁,_,ran⟩ := Runs.bind_ok.mp ran
    obtain ⟨⟨v,dir',mem₂,fs⟩,mapped,ran⟩ := Runs.bind_ok.mp ran
    cases ran
    exact heaps.put (mmap_heap (heaps pid dir (Space.dir_ok found)) mapped)
  | munmap pid va length =>
    obtain ⟨dir,found,ran⟩ := Runs.bind_ok.mp ran
    obtain ⟨⟨dir',mem₁,fs⟩,unmapped,ran⟩ := Runs.bind_ok.mp ran
    cases ran
    exact heaps.put (munmap_heap (heaps pid dir (Space.dir_ok found)) unmapped)
  | fault pid va =>
    obtain ⟨dir,found,ran⟩ := Runs.bind_ok.mp ran
    obtain ⟨⟨dir',mem₁⟩,handled,ran⟩ := Runs.bind_ok.mp ran
    cases ran
    exact heaps.put (by rw [pgfaultHandler_sections handled]; exact heaps pid dir (Space.dir_ok found))
  | store pid va bytes =>
    obtain ⟨dir,found,ran⟩ := Runs.bind_ok.mp ran
    obtain ⟨⟨dir',mem₁⟩,stored,ran⟩ := Runs.bind_ok.mp ran
    cases ran
    exact heaps.put (by rw [userStore_sections stored]; exact heaps pid dir (Space.dir_ok found))
  | fork pid child slab₀ slab₁ fp =>
    simp only [Space.run] at ran
    split at ran
    · cases ran
    · obtain ⟨parent,_,ran⟩ := Runs.bind_ok.mp ran
      obtain ⟨⟨new,mem₁⟩,forked,ran⟩ := Runs.bind_ok.mp ran
      cases ran
      exact heaps.put (by rw [fork_sections forked]; exact (initSections_heap fp).append _)
  | exit pid =>
    obtain ⟨old,_,ran⟩ := Runs.bind_ok.mp ran
    obtain ⟨⟨_,mem₁,fs⟩,_,ran⟩ := Runs.bind_ok.mp ran
    cases ran
    intro other dir found
    by_cases here : other = pid
    · subst here
      simp only [Function.update_self] at found
      cases found
    · exact heaps other dir ((Function.update_of_ne here _ _).symm.trans found)

-- A fork in which the child has the heap of its parent, and one that OneHeap allows.
def KeepsHeap (files : Files σ) (zero : Frame) (s : Space σ) (call : Call) : Prop :=
  ∀ pid child slab₀ slab₁ fp, call = .fork pid child slab₀ slab₁ fp → ∀ s', s.next files zero call = some s' →
    ∃ parent new, s.dirs pid = some parent ∧ s'.dirs child = some new ∧ SameHeap parent new

def ForksOneHeap (s : Space σ) (call : Call) : Prop :=
  ∀ pid child slab₀ slab₁ fp, call = .fork pid child slab₀ slab₁ fp → ∀ parent, s.dirs pid = some parent → OneHeap parent.sections

theorem fork_heap (heaps : Heaps s) {pid child slab₀ slab₁ : Nat} {fp : Option Nat}
    (ran : s.next files zero (.fork pid child slab₀ slab₁ fp) = some s') :
    ∃ parent new, s.dirs pid = some parent ∧ s'.dirs child = some new ∧
    (SameHeap parent new ↔ OneHeap parent.sections) := by
  have ran := Runs.toOption_some ran
  simp only [Space.run] at ran
  split at ran
  · cases ran
  · obtain ⟨parent,found,ran⟩ := Runs.bind_ok.mp ran
    obtain ⟨⟨new,mem⟩,forked,ran⟩ := Runs.bind_ok.mp ran
    cases ran
    have found := Space.dir_ok found
    have heap := heaps pid parent found
    have list := fork_sections forked
    refine ⟨parent,new,found,Function.update_self ..,?_⟩
    have heap' : HasHeap new.sections := by
      rw [list]
      exact (initSections_heap fp).append _
    have back : HasHeap parent.sections.reverse := by
      obtain ⟨st,member,set⟩ := heap
      exact ⟨st,List.mem_reverse.mpr member,set⟩
    have bounds : heapBounds new.sections = heapBounds parent.sections.reverse := by
      obtain ⟨st,first⟩ := Option.isSome_iff_exists.mp back.found
      rw [list,heapBounds,heapBounds,List.find?_append,first]
      rfl
    rw [sameHeap_iff heap.found heap'.found,bounds]
    rfl

theorem Heaps.of_booted (booted : Space.Booted zero start) (path : Runs.Reached (Space.next files zero) start s) :
    Heaps s := by
  refine path.invariant Heaps ?_ fun _ _ _ heaps _ ran => heaps.step (Runs.toOption_some ran)
  intro pid dir found
  rw [booted.unused pid] at found
  cases found

-- Every fork of a run keeps the heap exactly if every fork of it finds one heap.
theorem heaps_kept {calls : List Call} (booted : Space.Booted zero start)
    (ran : Runs.exec (Space.next files zero) start calls = some s) :
    Runs.Meets (Space.next files zero) (KeepsHeap files zero) start calls ↔
    Runs.Meets (Space.next files zero) ForksOneHeap start calls := by
  refine Runs.meets_iff .start ran fun s call s' reached moved => ?_
  constructor
  · rintro keeps pid child slab₀ slab₁ fp rfl parent found
    obtain ⟨p,new,there,here,iff⟩ := fork_heap (Heaps.of_booted booted reached) moved
    obtain ⟨p',new',there',here',same⟩ := keeps pid child slab₀ slab₁ fp rfl s' moved
    cases there.symm.trans found
    cases there'.symm.trans found
    cases here'.symm.trans here
    exact iff.mp same
  · rintro one pid child slab₀ slab₁ fp rfl s' moved
    obtain ⟨parent,new,found,made,iff⟩ := fork_heap (Heaps.of_booted booted reached) moved
    exact ⟨parent,new,found,made,iff.mpr (one pid child slab₀ slab₁ fp rfl parent found)⟩

end Forks

theorem fork_enabled {σ : Type} (files : Files σ) (zero : Frame) {s : Space σ} {pid child : Nat} {parent : PgDir}
    (found : s.dirs pid = some parent) (vacant : s.dirs child = none)
    (low : ∀ st ∈ parent.sections, st.last.toNat ≤ 2^64-pageSize)
    (enough : forkPagesNeeded 0 0 parent ≤ s.mem.free.length) :
    ∃ s' new, s.next files zero (.fork pid child 0 0 none) = some s' ∧
    s'.dirs = Function.update s.dirs child (some new) ∧
      new.sections = parent.sections.reverse++initSections none ∧
      s.mem.free.length ≤ s'.mem.free.length+forkPagesNeeded 0 0 parent := by
  have ending : Ending parent.sections := fun st member => if_neg fun both => by have := low st member; omega
  obtain ⟨⟨new,mem⟩,forked,list,left⟩ := fork_affords 0 0 none parent ending s.mem enough
  have here : s.dir pid = .ok parent := by
    unfold Space.dir
    rw [found]
  refine ⟨⟨mem,Function.update s.dirs child (some new),dupSections files parent.sections s.fs⟩,new,?_,rfl,list,left⟩
  unfold Space.next Space.run
  simp only [vacant,Option.isSome_none,Bool.false_eq_true,if_false,here,forked,bind,Except.bind,Except.toOption]

-- More pages than in `booted`.
def roomy : Space Unit :=
  { booted with mem := { booted.mem with free := (List.range 400).map fun k => BitVec.ofNat 36 (0x40101+k), leftPageCnt := 400 } }

theorem roomy_boots : Space.Booted zeroPage roomy := by
  refine ⟨?_,rfl,by decide +kernel,by decide,?_,by decide +kernel,fun _ => rfl⟩
  · refine List.Nodup.map_on ?_ List.nodup_range
    intro j small k small' same
    rw [List.mem_range] at small small'
    have values := congrArg BitVec.toNat same
    rw [BitVec.toNat_ofNat,BitVec.toNat_ofNat] at values
    omega
  · simp [roomy,booted]

def heapCalls : List Call := [.start 1 none,.execve 1 0 none [lowText] [],.sbrk 1 1]
def grownSections : List Section := [stackSection [lowText],lowText.made,⟨stHeap,0#64,0x1000#64,none,0#64,0#64⟩]

set_option maxRecDepth 20000 in
theorem first_fork : ∃ s s' :
    Space Unit, ∃ parent new, Runs.exec (Space.next noFiles zeroPage) roomy heapCalls = some s ∧
    s.next noFiles zeroPage (.fork 1 2 0 0 none) = some s' ∧ s.dirs 1 = some parent ∧ parent.sections = grownSections ∧
    s'.dirs 2 = some new ∧ s'.dirs 3 = none ∧ new.sections = grownSections.reverse++initSections none ∧
    200 ≤ s'.mem.free.length := by
  obtain ⟨s,ran,facts⟩ := Runs.some_such (x := Runs.exec (Space.next noFiles zeroPage) roomy heapCalls)
    (p := fun s => (s.dirs 1).any (fun dir : PgDir => decide (dir.sections = grownSections)) && (s.dirs 2).isNone &&
        (s.dirs 3).isNone &&
      decide (300 ≤ s.mem.free.length)) (by decide +kernel)
  simp only [Bool.and_eq_true,decide_eq_true_eq,Option.isNone_iff_eq_none] at facts
  obtain ⟨⟨⟨one,vacant⟩,third⟩,free⟩ := facts
  obtain ⟨parent,found,list⟩ := Runs.some_such one
  have list : parent.sections = grownSections := of_decide_eq_true list
  have needed : forkPagesNeeded 0 0 parent = 86 := by
    rw [forkPagesNeeded,list]
    decide
  obtain ⟨s',new,forked,dirs,copied,left⟩ := fork_enabled noFiles zeroPage found vacant (by rw [list]; decide) (by omega)
  refine ⟨s,s',parent,new,ran,forked,found,list,?_,?_,by rw [copied,list],by omega⟩
  · rw [dirs,Function.update_self]
  · rw [dirs,Function.update_of_ne (by decide)]
    exact third

theorem heaps_kept_once : ∃ s :
    Space Unit, Runs.exec (Space.next noFiles zeroPage) roomy (heapCalls++[.fork 1 2 0 0 none]) = some s ∧
    Runs.Meets (Space.next noFiles zeroPage) (KeepsHeap noFiles zeroPage) roomy (heapCalls++[.fork 1 2 0 0 none]) ∧
    (s.dirs 2).map (fun dir => heapBounds dir.sections) = some (some (0#64,0x1000#64)) := by
  obtain ⟨s,s',parent,new,ran,forked,found,list,made,_,copied,_⟩ := first_fork
  have whole : Runs.exec (Space.next noFiles zeroPage) roomy (heapCalls++[.fork 1 2 0 0 none]) = some s' := by
    rw [Runs.exec_append ran]
    simp only [Runs.exec,forked,Option.bind_some]
  have before : Runs.Meets (Space.next noFiles zeroPage) ForksOneHeap roomy heapCalls := by
    refine Runs.meets_always fun call member s => ?_
    rintro pid child slab₀ slab₁ fp rfl
    simp [heapCalls] at member
  refine ⟨s',whole,(heaps_kept roomy_boots whole).mpr ((Runs.meets_append before ran).mpr ⟨?_,fun _ _ => trivial⟩),?_⟩
  · rintro _ _ _ _ _ call parent' found'
    cases call
    cases found'.symm.trans found
    rw [list]
    decide
  · rw [made,Option.map_some,copied]
    decide

-- The child forks again: sbrk works on the empty heap section of its first list.
theorem grandchild_heap_lost : ∃ (s s' : Space Unit) (parent new : PgDir),
    Runs.exec (Space.next noFiles zeroPage) roomy (heapCalls++[.fork 1 2 0 0 none]) = some s ∧
    s.next noFiles zeroPage (.fork 2 3 0 0 none) = some s' ∧ s.dirs 2 = some parent ∧ s'.dirs 3 = some new ∧
    ¬ SameHeap parent new ∧
    ¬ KeepsHeap noFiles zeroPage s (.fork 2 3 0 0 none) := by
  obtain ⟨s₀,s,_,parent,ran,forked,_,_,found,vacant,list,free⟩ := first_fork
  have needed : forkPagesNeeded 0 0 parent = 86 := by
    rw [forkPagesNeeded,list]
    decide
  obtain ⟨s',new,again,dirs,_⟩ := fork_enabled noFiles zeroPage found vacant (by rw [list]; decide) (by omega)
  have whole : Runs.exec (Space.next noFiles zeroPage) roomy (heapCalls++[.fork 1 2 0 0 none]) = some s := by
    rw [Runs.exec_append ran]
    simp only [Runs.exec,forked,Option.bind_some]
  have made : s'.dirs 3 = some new := by
    rw [dirs]
    exact Function.update_self ..
  obtain ⟨parent',new',found',made',iff⟩ := fork_heap (Heaps.of_booted roomy_boots (Runs.exec_reached .start whole)) again
  cases found'.symm.trans found
  cases made'.symm.trans made
  have differ : ¬ SameHeap parent new := by
    intro same
    have one := iff.mp same
    rw [list] at one
    exact absurd one (by decide)
  refine ⟨s,s',parent,new,whole,again,found,made,differ,fun keeps => ?_⟩
  obtain ⟨parent'',new'',found'',made'',same⟩ := keeps 2 3 0 0 none rfl s' again
  cases found''.symm.trans found
  cases made''.symm.trans made
  exact differ same

end PageTable
