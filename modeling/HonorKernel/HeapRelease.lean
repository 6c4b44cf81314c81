import HonorKernel.HeapForks
import HonorKernel.PageFaults
import HonorKernel.PageMap
import HonorKernel.PgdirPages

-- sbrk downwards: which pages its loop comes to, and what a page that is touched again
-- shows.
namespace PageTable
open DiskFormat BitSlice

-- for (int i = 0; i < (-size); i++). The bound has 64 bits, `i*PAGE_SIZE` has 32.
def dropLoop : Nat → BitVec 32 → Int → U64 → Option Frame → Mem → Except Trap Mem
  | 0,_,_,_,_,_ => .error .endless
  | fuel+1,i,count,last,pt,mem =>
    if i.toInt < count then do
      let mem ← dropPage pt (last+(i*BitVec.ofNat 32 pageSize).signExtend 64) mem
      dropLoop fuel (i+1#32) count last pt mem
    else .ok mem

-- sbrk with this loop; it is the sbrk above where the counter does not overflow.
def sbrkLoop (fuel : Nat) (size : Int) (dir : PgDir) (mem : Mem) : Except Trap (U64 × PgDir × Mem) :=
  match heapOf dir.sections with
  | none => .error .assertion
  | some (before,st,after) =>
    let last := st.last+BitVec.ofInt 64 (size*pageSize)
    let dir' := { dir with sections := before++{ st with last := last }::after }
    if 0 ≤ size then .ok (st.last,dir',mem)
    else if st.last-st.first < BitVec.ofInt 64 (-size)*BitVec.ofNat 64 pageSize then .error .assertion
    else do
      let mem ← dropLoop fuel 0#32 (-size) last dir.pt mem
      .ok (st.last,dir',mem)

def heapPage (a : Nat) : U64 := BitVec.ofNat 64 (a*pageSize)

-- A heap of `n` pages.
structure HeapPages (dir : PgDir) (n : Nat) : Prop where
  found : ∃ before st after, heapOf dir.sections = some (before,st,after) ∧ st.first = 0#64 ∧ st.last = heapPage n
  fits : n*pageSize < 2^64

-- The `k` pages behind the new end, and those that the loop comes to.
def droppedPages (n k : Nat) : Finset VPage := (Finset.range k).image fun j => vpage (heapPage (n-k+j))
def visitedPages (n k : Nat) : Finset VPage := (Finset.range k).image fun i => vpage (heapPage (n-k)+(BitVec.ofNat 32 (i*pageSize)).signExtend 64)

def mappedFrames (mem : Mem) (root : Frame) (pages : Finset VPage) : Multiset Frame :=
  (pages.filter fun v => valid (mem.lookup root v)).val.map fun v => frameOf (mem.lookup root v)

-- The heap grows again, and `va` is touched.
def regrown (fuel k m : Nat) (va : U64) (dir : PgDir) (mem : Mem) : Except Trap (Option Byte) := do
  let (_,dir,mem) ← sbrkLoop fuel (-k) dir mem
  let (_,dir,mem) ← sbrkLoop fuel m dir mem
  let (dir,mem) ← pgfaultHandler va dir mem
  .ok (dir.pt.bind fun root => userByte mem root va)

-- The same but for what the pages of `F` hold.
structure Differ (F : Frame → Prop) (mem mem' : Mem) : Prop where
  pages : ∀ p, ¬ F p → mem'.pages p = mem.pages p
  free : mem'.free = mem.free
  refs : mem'.refs = mem.refs
  kalloc : mem'.kallocPageCnt = mem.kallocPageCnt
  left : mem'.leftPageCnt = mem.leftPageCnt

-- sbrk(-k): what it returns; the entries of the pages; one kfree_page for each page that
-- is mapped there, and the tables apart no other effect; and that no first touch behind
-- it tells what those pages held.
structure Released {D : Type*} (roots : D → Option Frame) (d : D) (root : Frame) (dir : PgDir) (mem : Mem) (n k : Nat) (dir' : PgDir) (mem' : Mem) : Prop where
  returns : ∀ fuel > k, sbrkLoop fuel (-k) dir mem = .ok (heapPage n,dir',mem')
  shorter : HeapPages dir' (n-k)
  unmapped : ∀ v ∈ droppedPages n k, ¬ valid (mem'.lookup root v)
  freed : ∃ frames : List Frame, (frames : Multiset Frame) = mappedFrames mem root (droppedPages n k) ∧
    Differ (fun t => ∃ d way, IsTable mem roots d way t) (mem.frees frames) mem'
  others : ∀ d' root' v, roots d' = some root' → ¬ (d' = d ∧ v ∈ droppedPages n k) → mem'.lookup root' v = mem.lookup root' v
  hidden : ∀ other, Differ (· ∈ mappedFrames mem root (droppedPages n k)) mem other → ∀ fuel > k, ∀ m > 0, ∀ va : U64,
    (n-k)*pageSize ≤ va.toNat → va.toNat < (n-k+m)*pageSize → mem'.lookup root (vpage va) = 0#64 →
      Runs.Agrees Eq (regrown fuel k m va dir mem) (regrown fuel k m va dir other)

-- The loop ends and comes to the mapped pages that it should, and all of them are mapped
-- somewhere else, too.
structure Releasable (root : Frame) (mem : Mem) (n k : Nat) : Prop where
  counter : k < 2^31
  reached : ∀ v, valid (mem.lookup root v) → (v ∈ droppedPages n k ↔ v ∈ visitedPages n k)
  shared : ∀ p ∈ mappedFrames mem root (droppedPages n k), ((mappedFrames mem root (droppedPages n k)).count p : Int) < mem.refs p

section Loop
variable {pt : Option Frame} {mem : Mem} {count fuel i : Nat} {last : U64}

theorem dropPage_returns (pt : Option Frame) (va : U64) (mem : Mem) : ∃ mem', dropPage pt va mem = .ok mem' := by
  obtain ⟨mem',ran⟩ := dropPages_returns pt [va] mem
  obtain ⟨middle,first,_⟩ := Runs.bind_ok.mp ran
  exact ⟨middle,first⟩

theorem counter_toInt (small : i < 2^31) : (BitVec.ofNat 32 i).toInt = i := by
  rw [BitVec.toInt_ofNat']
  exact Int.bmod_eq_of_le (by omega) (by omega)

theorem dropLoop_pages (small : count < 2^31) (below : i ≤ count) (enough : count-i < fuel) (mem : Mem) :
    dropLoop fuel (BitVec.ofNat 32 i) count last pt mem =
      dropPages pt ((List.range' i (count-i)).map fun i => last+(BitVec.ofNat 32 (i*pageSize)).signExtend 64) mem := by
  induction fuel generalizing i mem with
  | zero => omega
  | succ fuel ih =>
    rw [dropLoop,counter_toInt (by omega)]
    by_cases more : i < count
    · have length : count-i = count-(i+1)+1 := by omega
      have product : BitVec.ofNat 32 i*BitVec.ofNat 32 pageSize = BitVec.ofNat 32 (i*pageSize) := (BitVec.ofNat_mul ..).symm
      have next : BitVec.ofNat 32 i+1#32 = BitVec.ofNat 32 (i+1) := (BitVec.ofNat_add ..).symm
      rw [if_pos (by omega),length,List.range'_succ,List.map_cons,dropPages,product,next]
      congr 1
      funext middle
      exact ih (by omega) (by omega) middle
    · have done : count-i = 0 := by omega
      rw [if_neg (by omega),done]
      rfl

theorem dropLoop_endless {count : Int} (large : 2^31 ≤ count) (fuel : Nat) (i : BitVec 32) (mem : Mem) :
    dropLoop fuel i count last pt mem = .error .endless := by
  induction fuel generalizing i mem with
  | zero => rfl
  | succ fuel ih =>
    have below := BitVec.toInt_lt (x := i)
    obtain ⟨middle,dropped⟩ := dropPage_returns pt (last+(i*BitVec.ofNat 32 pageSize).signExtend 64) mem
    rw [dropLoop,if_pos (by omega),dropped]
    exact ih _ _

end Loop

section Differ
variable {F : Frame → Prop} {mem mem' : Mem} {p t : Frame} {i : Index} {e : U64}

theorem Differ.refl (F : Frame → Prop) (mem : Mem) : Differ F mem mem := ⟨fun _ _ => rfl,rfl,rfl,rfl,rfl⟩

theorem Differ.trans (first : Differ F mem mem') (second : Differ F mem' mem'') : Differ F mem mem'' :=
  ⟨fun p out => (second.pages p out).trans (first.pages p out),second.free.trans first.free,second.refs.trans first.refs,
    second.kalloc.trans first.kalloc,second.left.trans first.left⟩

theorem Differ.entry (differ : Differ F mem mem') (out : ¬ F p) (i : Index) : mem'.entry p i = mem.entry p i := by
  unfold Mem.entry
  rw [differ.pages p out]

theorem Differ.setPage (differ : Differ F mem mem') (p : Frame) {d d' : Page} (same : ¬ F p → d' = d) :
    Differ F (mem.setPage p d) (mem'.setPage p d') := by
  refine ⟨fun q out => ?_,differ.free,differ.refs,differ.kalloc,differ.left⟩
  unfold Mem.setPage
  simp only
  by_cases here : q = p
  · subst here
    rw [Function.update_self,Function.update_self,same out]
  · rw [Function.update_of_ne here,Function.update_of_ne here,differ.pages q out]

theorem Differ.setEntry (differ : Differ F mem mem') (p : Frame) (i : Index) (e : U64) :
    Differ F (mem.setEntry p i e) (mem'.setEntry p i e) :=
  differ.setPage p fun out => by rw [differ.pages p out]

theorem Differ.alter (differ : Differ F mem mem') (inside : F t) (i : Index) (e : U64) :
    Differ F mem (mem'.setEntry t i e) := by
  refine ⟨fun q out => ?_,differ.free,differ.refs,differ.kalloc,differ.left⟩
  have other : q ≠ t := by
    rintro rfl
    exact out inside
  exact (Function.update_of_ne other _ _).trans (differ.pages q out)

theorem Differ.kfreePage (differ : Differ F mem mem') (p : Frame) : Differ F (mem.kfreePage p) (mem'.kfreePage p) := by
  have refs : mem'.refs p = mem.refs p := by rw [differ.refs]
  unfold Mem.kfreePage
  simp only [Function.update_self,refs]
  have less : Differ F { mem with kallocPageCnt := mem.kallocPageCnt-1, refs := Function.update mem.refs p (mem.refs p-1) }
      { mem' with kallocPageCnt := mem'.kallocPageCnt-1, refs := Function.update mem'.refs p (mem.refs p-1) } :=
    ⟨differ.pages,differ.free,by rw [differ.refs],by rw [differ.kalloc],differ.left⟩
  split
  · unfold Mem.addToQueue
    have linked := less.setEntry p 0 (Mem.link mem.free)
    rw [differ.free]
    exact ⟨linked.pages,rfl,linked.refs,linked.kalloc,by simp only [differ.left]⟩
  · exact less

theorem Differ.frees (differ : Differ F mem mem') (frames : List Frame) :
    Differ F (mem.frees frames) (mem'.frees frames) := by
  induction frames generalizing mem mem' with
  | nil => exact differ
  | cons p rest ih => exact ih (differ.kfreePage p)

end Differ

-- What is asked of the tables while pages are dropped, the queue apart.
structure Trees {D : Type*} (mem : Mem) (roots : D → Option Frame) : Prop where
  once : ∀ d d' way way' t, IsTable mem roots d way t → IsTable mem roots d' way' t → d = d' ∧ way = way'
  data : ∀ d v e, Maps mem roots d v e → ∀ d' way, ¬ IsTable mem roots d' way (frameOf e)

section Drop
variable {D : Type*} [DecidableEq D] {mem mem' : Mem} {roots : D → Option Frame} {d : D} {root p t : Frame}
  {va : U64} {v : VPage}

omit [DecidableEq D] in
theorem Trees.tables (trees : Trees mem roots) : Tables { mem with free := [] } roots :=
  ⟨List.nodup_nil,trees.once,fun _ _ _ _ => List.not_mem_nil⟩

omit [DecidableEq D] in
theorem Fresh.trees (fresh : Fresh mem roots) : Trees mem roots := ⟨fresh.table_once,fresh.page_data⟩

theorem dropPage_cases (root : Frame) (va : U64) (mem : Mem) :
    (¬ valid (mem.lookup root (vpage va)) ∧ dropPage (some root) va mem = .ok mem) ∨
    (valid (mem.lookup root (vpage va)) ∧ ∃ t, mem.table root (tableWay (vpage va)) = some t ∧
    mem.lookup root (vpage va) = mem.entry t (part 3 va) ∧
      dropPage (some root) va mem = .ok ((mem.kfreePage (frameOf (mem.lookup root (vpage va)))).setEntry t (part 3 va) 0#64)) := by
  unfold dropPage
  rw [getPte_slot]
  cases found : mem.table root (tableWay (vpage va)) with
  | none =>
    have absent : mem.lookup root (vpage va) = 0#64 := by
      unfold Mem.lookup
      rw [found]
    refine .inl ⟨?_,rfl⟩
    rw [absent]
    decide
  | some t =>
    have value : mem.lookup root (vpage va) = mem.entry t (part 3 va) := by
      unfold Mem.lookup
      rw [found]
      rfl
    rw [value]
    by_cases set : valid (mem.entry t (part 3 va))
    · exact .inr ⟨set,t,rfl,rfl,if_pos set⟩
    · exact .inl ⟨set,if_neg set⟩

-- What dropping the pages of `vs` does.
structure Dropped (roots : D → Option Frame) (d : D) (root : Frame) (vs : List VPage) (frames : List Frame) (mem mem' : Mem) : Prop where
  trees : Trees mem' roots
  tables : ∀ d' root' way, roots d' = some root' → way.length ≤ 3 → mem'.table root' way = mem.table root' way
  lookups : ∀ d' root' v, roots d' = some root' →
    mem'.lookup root' v = if d' = d ∧ v ∈ vs ∧ valid (mem.lookup root' v) then 0#64 else mem.lookup root' v
  differ : Differ (fun t => ∃ d' way, IsTable mem roots d' way t) (mem.frees frames) mem'
  frames : (frames : Multiset Frame) = (vs.toFinset.filter fun v => valid (mem.lookup root v)).val.map fun v =>
      frameOf (mem.lookup root v)

theorem dropPage_dropped (va : U64) (trees : Trees mem roots) (here : roots d = some root) :
    ∃ mem' frames, dropPage (some root) va mem = .ok mem' ∧ Dropped roots d root [vpage va] frames mem mem' := by
  rcases dropPage_cases root va mem with ⟨clear,ran⟩ | ⟨set,t,reached,value,ran⟩
  · refine ⟨mem,[],ran,trees,fun _ _ _ _ _ => rfl,?_,.refl _ mem,?_⟩
    · intro d' root' v found
      rw [if_neg]
      rintro ⟨rfl,same,set⟩
      rw [here] at found
      cases found
      rw [List.mem_singleton.mp same] at set
      exact clear set
    · rw [Finset.filter_eq_empty_iff.mpr]
      · rfl
      · intro v member set
        rw [List.mem_toFinset,List.mem_singleton] at member
        rw [member] at set
        exact clear set
  · obtain ⟨p,is⟩ : ∃ p, p = frameOf (mem.lookup root (vpage va)) := ⟨_,rfl⟩
    rw [← is] at ran
    have table : IsTable mem roots d (tableWay (vpage va)) t := ⟨root,here,Nat.le_refl 3,reached⟩
    have data : ∀ d' way, ¬ IsTable mem roots d' way p := by
      rw [is]
      exact trees.data d (vpage va) _ ⟨root,here,rfl,set⟩
    have entries₁ : ∀ q j, q ≠ p → (mem.kfreePage p).entry q j = mem.entry q j := fun q j other => kfreePage_entry mem other j
    have tables₁ : ∀ d' root' way, roots d' = some root' → way.length ≤ 3 → (mem.kfreePage p).table root' way = mem.table root' way :=
      fun d' root' way found short => data_tables (data d') entries₁ found short
    have lookups₁ : ∀ d' root' v, roots d' = some root' → (mem.kfreePage p).lookup root' v = mem.lookup root' v :=
      fun d' root' v found => data_lookup (data d') entries₁ found v
    have isTable₁ : ∀ d' way t, IsTable (mem.kfreePage p) roots d' way t → IsTable mem roots d' way t := by
      rintro d' way t ⟨root',found,short,there⟩
      rw [tables₁ d' root' way found short] at there
      exact ⟨root',found,short,there⟩
    have trees₁ : Trees (mem.kfreePage p) roots := by
      refine ⟨fun d d' way way' t one two => trees.once d d' way way' t (isTable₁ _ _ _ one) (isTable₁ _ _ _ two),?_⟩
      rintro d' v e ⟨root',found,value,set⟩ d'' way there
      rw [lookups₁ d' root' v found] at value
      exact trees.data d' v e ⟨root',found,value,set⟩ d'' way (isTable₁ _ _ _ there)
    have reached₁ := (tables₁ d root (tableWay (vpage va)) here (Nat.le_refl 3)).trans reached
    have entries₂ := fun q j => entry_setEntry (mem.kfreePage p) t (part 3 va) 0#64 q j
    have tables₂ : ∀ d' root' way, roots d' = some root' → way.length ≤ 3 →
        ((mem.kfreePage p).setEntry t (part 3 va) 0#64).table root' way = (mem.kfreePage p).table root' way :=
      fun d' root' way found short => set_tables trees₁.tables here reached₁ entries₂ found short
    have lookups₂ : ∀ d' root' v, roots d' = some root' → ((mem.kfreePage p).setEntry t (part 3 va) 0#64).lookup root' v =
        if d' = d ∧ v = vpage va then 0#64 else (mem.kfreePage p).lookup root' v :=
      fun d' root' v found => set_lookup trees₁.tables here reached₁ entries₂ found v
    have isTable₂ : ∀ d' way x, IsTable ((mem.kfreePage p).setEntry t (part 3 va) 0#64) roots d' way x → IsTable
        (mem.kfreePage p) roots d' way x := by
      rintro d' way x ⟨root',found,short,there⟩
      rw [tables₂ d' root' way found short] at there
      exact ⟨root',found,short,there⟩
    refine ⟨_,[p],ran,⟨?_,?_⟩,?_,?_,?_,?_⟩
    · exact fun d d' way way' t one two => trees₁.once d d' way way' t (isTable₂ _ _ _ one) (isTable₂ _ _ _ two)
    · rintro d' v e ⟨root',found,value,set⟩ d'' way there
      rw [lookups₂ d' root' v found] at value
      split at value
      · rw [← value] at set
        exact absurd set (by decide)
      · exact trees₁.data d' v e ⟨root',found,value,set⟩ d'' way (isTable₂ _ _ _ there)
    · intro d' root' way found short
      exact (tables₂ d' root' way found short).trans (tables₁ d' root' way found short)
    · intro d' root' v found
      rw [lookups₂ d' root' v found,lookups₁ d' root' v found]
      by_cases same : d' = d ∧ v = vpage va
      · obtain ⟨rfl,rfl⟩ := same
        rw [here] at found
        cases found
        rw [if_pos ⟨rfl,rfl⟩,if_pos ⟨rfl,List.mem_singleton_self _,set⟩]
      · rw [if_neg same,if_neg fun all => same ⟨all.1,List.mem_singleton.mp all.2.1⟩]
    · exact (Differ.refl _ _).alter ⟨d,_,table⟩ (part 3 va) 0#64
    · have one : ([vpage va].toFinset.filter fun v => valid (mem.lookup root v)) = {vpage va} := by
        ext v
        simp only [Finset.mem_filter,List.mem_toFinset,List.mem_singleton,Finset.mem_singleton]
        constructor
        · exact fun both => both.1
        · rintro rfl
          exact ⟨rfl,set⟩
      rw [one,is]
      rfl

theorem Dropped.isTable {vs : List VPage} {frames : List Frame} (dropped : Dropped roots d root vs frames mem mem')
    {d' : D} {way : List Index} :
    IsTable mem' roots d' way t ↔ IsTable mem roots d' way t := by
  constructor
  · rintro ⟨root',found,short,there⟩
    exact ⟨root',found,short,(dropped.tables d' root' way found short).symm.trans there⟩
  · rintro ⟨root',found,short,there⟩
    exact ⟨root',found,short,(dropped.tables d' root' way found short).trans there⟩

theorem Dropped.valid_iff {vs : List VPage} {frames : List Frame} (here : roots d = some root)
    (dropped : Dropped roots d root vs frames mem mem') :
    valid (mem'.lookup root v) ↔ valid (mem.lookup root v) ∧ v ∉ vs := by
  rw [dropped.lookups d root v here]
  by_cases hit : d = d ∧ v ∈ vs ∧ valid (mem.lookup root v)
  · rw [if_pos hit]
    exact ⟨fun zero => absurd zero (by decide),fun both => absurd hit.2.1 both.2⟩
  · rw [if_neg hit]
    exact ⟨fun set => ⟨set,fun member => hit ⟨rfl,member,set⟩⟩,And.left⟩

theorem Dropped.append {middle : Mem} {one two : List VPage} {frames₁ frames₂ : List Frame} (here : roots d = some root)
    (first : Dropped roots d root one frames₁ mem middle) (second : Dropped roots d root two frames₂ middle mem') :
    Dropped roots d root (one++two) (frames₁++frames₂) mem mem' := by
  refine ⟨second.trees,?_,?_,?_,?_⟩
  · intro d' root' way found short
    exact (second.tables d' root' way found short).trans (first.tables d' root' way found short)
  · intro d' root' v found
    rw [second.lookups d' root' v found,first.lookups d' root' v found]
    by_cases before : d' = d ∧ v ∈ one ∧ valid (mem.lookup root' v)
    · rw [if_pos (show d' = d ∧ v ∈ one++two ∧ valid (mem.lookup root' v) from
        ⟨before.1,List.mem_append_left _ before.2.1,before.2.2⟩),if_pos before]
      exact ite_self _
    · rw [if_neg before]
      by_cases after : d' = d ∧ v ∈ two ∧ valid (mem.lookup root' v)
      · rw [if_pos after,if_pos ⟨after.1,List.mem_append_right _ after.2.1,after.2.2⟩]
      · rw [if_neg after,if_neg]
        rintro ⟨same,member,set⟩
        rcases List.mem_append.mp member with left | right
        · exact before ⟨same,left,set⟩
        · exact after ⟨same,right,set⟩
  · have lifted : Differ (fun t => ∃ d' way, IsTable mem roots d' way t) (middle.frees frames₂) mem' :=
      ⟨fun p out => second.differ.pages p fun ⟨d',way,there⟩ => out ⟨d',way,first.isTable.mp there⟩,
        second.differ.free,second.differ.refs,second.differ.kalloc,second.differ.left⟩
    rw [frees_append]
    exact (first.differ.frees frames₂).trans lifted
  · have apart : Disjoint (one.toFinset.filter fun v => valid (mem.lookup root v))
      (two.toFinset.filter fun v => valid (middle.lookup root v)) := by
      refine Finset.disjoint_left.mpr fun v left right => ?_
      exact ((first.valid_iff here).mp (Finset.mem_filter.mp right).2).2 (List.mem_toFinset.mp (Finset.mem_filter.mp left).1)
    have all : ((one++two).toFinset.filter fun v => valid (mem.lookup root v)) =
        (one.toFinset.filter fun v => valid (mem.lookup root v)).disjUnion
            (two.toFinset.filter fun v => valid (middle.lookup root v)) apart := by
      ext v
      simp only [Finset.mem_disjUnion,Finset.mem_filter,List.mem_toFinset,List.mem_append,first.valid_iff here]
      by_cases left : v ∈ one
      · simp [left]
      · simp [left]
    rw [all,Finset.disjUnion_val,Multiset.map_add,← Multiset.coe_add,first.frames,second.frames]
    congr 1
    refine Multiset.map_congr rfl fun v member => ?_
    have off := ((first.valid_iff here).mp (Finset.mem_filter.mp (Finset.mem_val.mp member)).2).2
    rw [first.lookups d root v here,if_neg fun all => off all.2.1]

theorem dropPages_dropped (vas : List U64) (trees : Trees mem roots) (here : roots d = some root) :
    ∃ mem' frames, dropPages (some root) vas mem = .ok mem' ∧ Dropped roots d root (vas.map vpage) frames mem mem' := by
  induction vas generalizing mem with
  | nil =>
    refine ⟨mem,[],rfl,trees,fun _ _ _ _ _ => rfl,fun d' root' v _ => ?_,.refl _ mem,?_⟩
    · rw [if_neg fun all => absurd all.2.1 List.not_mem_nil]
    · simp
  | cons va rest ih =>
    obtain ⟨middle,frames₁,first,dropped₁⟩ := dropPage_dropped va trees here
    obtain ⟨mem',frames₂,later,dropped₂⟩ := ih dropped₁.trees
    refine ⟨mem',frames₁++frames₂,?_,dropped₁.append here dropped₂⟩
    rw [dropPages,first]
    exact later

end Drop

section Frees
variable {mem : Mem} {p : Frame}

-- A page goes to the queue with the kfree_page that takes its last reference.
theorem frees_cases (frames : List Frame) (mem : Mem) : ∃ front, (mem.frees frames).free = front++mem.free ∧
    (∀ p ∈ front, p ∈ frames) ∧
    (front = [] ↔ ∀ p ∈ frames, (frames.count p : Int) < mem.refs p) := by
  induction frames generalizing mem with
  | nil => exact ⟨[],rfl,fun _ none => none,fun _ _ none => absurd none List.not_mem_nil,fun _ => rfl⟩
  | cons p rest ih =>
    obtain ⟨front,queue,inside,empty⟩ := ih (mem.kfreePage p)
    have refs := kfreePage_refs mem p
    by_cases few : mem.refs p ≤ 1
    · have added := (kfreePage_queues few).1
      refine ⟨front++[p],?_,?_,?_⟩
      · rw [List.append_assoc]
        exact queue.trans (by rw [added]; rfl)
      · intro q member
        rcases List.mem_append.mp member with old | new
        · exact List.mem_cons_of_mem _ (inside q old)
        · rw [List.mem_singleton.mp new]
          exact List.mem_cons_self
      · constructor
        · intro none
          exact absurd none (by simp)
        · intro many
          have above := many p List.mem_cons_self
          rw [List.count_cons_self] at above
          push_cast at above
          omega
    · have still := (kfreePage_keeps few).1
      refine ⟨front,queue.trans (by rw [still]),fun q member => List.mem_cons_of_mem _ (inside q member),?_⟩
      rw [empty,refs]
      constructor
      · intro below q member
        by_cases here : q = p
        · subst here
          rw [List.count_cons_self]
          by_cases again : q ∈ rest
          · have one := below q again
            rw [Function.update_self] at one
            push_cast
            omega
          · rw [List.count_eq_zero_of_not_mem again]
            push_cast
            omega
        · have one := below q ((List.mem_cons.mp member).resolve_left here)
          rw [Function.update_of_ne here] at one
          rwa [List.count_cons_of_ne (Ne.symm here)]
      · intro below q member
        have one := below q (List.mem_cons_of_mem _ member)
        by_cases here : q = p
        · subst here
          rw [List.count_cons_self] at one
          rw [Function.update_self]
          push_cast at one
          omega
        · rw [List.count_cons_of_ne (Ne.symm here)] at one
          rwa [Function.update_of_ne here]

theorem kfreePage_bytes (mem : Mem) (p q : Frame) {k : Nat} (behind : 8 ≤ k) :
    byteAt ((mem.kfreePage p).pages q) k = byteAt (mem.pages q) k := by
  by_cases few : mem.refs p ≤ 1
  · have queued : mem.refs p-1 ≤ 0 := by omega
    unfold Mem.kfreePage
    simp only [Function.update_self,if_pos queued,Mem.addToQueue,Mem.setEntry,Mem.setPage]
    by_cases here : q = p
    · subst here
      rw [Function.update_self]
      exact get_put_apart _ _ _ _ _ (.inl (by simp; omega))
    · rw [Function.update_of_ne here]
  · rw [(kfreePage_keeps few).2.1]

theorem frees_bytes (frames : List Frame) (mem : Mem) (q : Frame) {k : Nat} (behind : 8 ≤ k) :
    byteAt ((mem.frees frames).pages q) k = byteAt (mem.pages q) k := by
  induction frames generalizing mem with
  | nil => rfl
  | cons p rest ih => exact (ih (mem.kfreePage p)).trans (kfreePage_bytes mem p q behind)

end Frees

-- Two runs from memories that differ only in pages that hold no table and are not on the
-- queue.
section TwoRuns
variable {D : Type*} [DecidableEq D] {F : Frame → Prop} {mem mem' other middle : Mem} {roots : D → Option Frame}
  {d : D} {root p q t : Frame} {i : Index} {va : U64} {dir : PgDir} {way rest : List Index}

structure Clear (F : Frame → Prop) (roots : D → Option Frame) (d : D) (mem : Mem) : Prop where
  own : Tables mem roots
  tables : ∀ way t, IsTable mem roots d way t → ¬ F t
  free : ∀ p ∈ mem.free, ¬ F p

omit [DecidableEq D] in
theorem Clear.widens (clear : Clear F roots d mem) (widens : Widens roots d mem mem') : Clear F roots d mem' := by
  obtain ⟨front,queue⟩ := widens.taken
  refine ⟨widens.own,?_,fun p member => clear.free p (by rw [queue]; exact List.mem_append_right _ member)⟩
  intro way t there
  rcases widens.added d way t there with old | ⟨_,new⟩
  · exact clear.tables way t old
  · exact clear.free t new

omit [DecidableEq D] in
theorem Differ.lookup (differ : Differ F mem other) (here : roots d = some root)
    (tables : ∀ way t, IsTable mem roots d way t → ¬ F t) (v : VPage) :
    other.lookup root v = mem.lookup root v :=
  lookup_frame (fun way t short there i => differ.entry (tables way t ⟨root,here,short,there⟩) i) v

omit [DecidableEq D] in
theorem Differ.table (differ : Differ F mem other) (here : roots d = some root)
    (tables : ∀ way t, IsTable mem roots d way t → ¬ F t) (short : way.length ≤ 3) :
    other.table root way = mem.table root way :=
  table_frame (fun way t less there i => differ.entry (tables way t ⟨root,here,by omega,there⟩) i) short

omit [DecidableEq D] in
theorem dropPage_differ (differ : Differ F mem other) (here : roots d = some root)
    (tables : ∀ way t, IsTable mem roots d way t → ¬ F t) (ran : dropPage (some root) va mem = .ok mem') :
    ∃ other', dropPage (some root) va other = .ok other' ∧ Differ F mem' other' := by
  have value := differ.lookup here tables (vpage va)
  rcases dropPage_cases root va mem with ⟨clear,ran'⟩ | ⟨set,t,reached,_,ran'⟩
  · cases ran.symm.trans ran'
    rcases dropPage_cases root va other with ⟨_,same⟩ | ⟨set,_⟩
    · exact ⟨other,same,differ⟩
    · rw [value] at set
      exact absurd set clear
  · cases ran.symm.trans ran'
    rcases dropPage_cases root va other with ⟨clear,_⟩ | ⟨_,t',reached',_,same⟩
    · rw [value] at clear
      exact absurd set clear
    · rw [differ.table here tables (show (tableWay (vpage va)).length ≤ 3 from Nat.le_refl 3),reached] at reached'
      cases reached'
      rw [value] at same
      exact ⟨_,same,(differ.kfreePage _).setEntry _ _ _⟩

theorem dropPages_differ (vas : List U64) (differ : Differ F mem other) (trees : Trees mem roots)
    (here : roots d = some root) (tables : ∀ way t, IsTable mem roots d way t → ¬ F t)
    (ran : dropPages (some root) vas mem = .ok mem') :
    ∃ other', dropPages (some root) vas other = .ok other' ∧ Differ F mem' other' := by
  induction vas generalizing mem other with
  | nil =>
    cases ran
    exact ⟨other,rfl,differ⟩
  | cons va rest ih =>
    obtain ⟨middle,frames,first,dropped⟩ := dropPage_dropped va trees here
    obtain ⟨other₁,first',differ₁⟩ := dropPage_differ differ here tables first
    rw [dropPages,first] at ran
    obtain ⟨other',later,differ'⟩ := ih differ₁ dropped.trees (fun way t there => tables way t (dropped.isTable.mp there)) ran
    refine ⟨other',?_,differ'⟩
    rw [dropPages,first']
    exact later

theorem Differ.kallocPage (differ : Differ F mem other) :
    Runs.Agrees (fun r r' => r.1 = r'.1 ∧ Differ F r.2 r'.2) mem.kallocPage other.kallocPage := by
  unfold Mem.kallocPage
  rw [differ.free]
  split
  · trivial
  · exact ⟨rfl,differ.pages,rfl,by simp only [differ.refs],by simp only [differ.kalloc],by simp only [differ.left]⟩

theorem Differ.descend (differ : Differ F mem other) (out : ¬ F p) :
    Runs.Agrees (fun r r' => r.1 = r'.1 ∧ Differ F r.2 r'.2) (mem.descend true i p) (other.descend true i p) := by
  unfold Mem.descend
  rw [differ.entry out i]
  split
  · exact ⟨rfl,differ⟩
  · rw [if_neg (by decide),if_neg (by decide)]
    unfold Mem.kzallocPage
    refine Runs.Agrees.bind (R := fun r r' => r.1 = r'.1 ∧ Differ F r.2 r'.2) (differ.kallocPage.bind ?_) ?_
    · rintro ⟨q,middle⟩ ⟨_,middle'⟩ ⟨rfl,between⟩
      exact ⟨rfl,between.setPage q fun _ => rfl⟩
    · rintro ⟨q,middle⟩ ⟨_,middle'⟩ ⟨rfl,between⟩
      exact ⟨rfl,between.setEntry p i _⟩

omit [DecidableEq D] in
theorem Differ.walk (rest : List Index) (differ : Differ F mem other) (clear : Clear F roots d mem)
    (here : roots d = some root) (length : way.length+rest.length ≤ 3) (above : mem.table root way = some p) :
    Runs.Agrees (fun r r' => r.1 = r'.1 ∧ Differ F r.2 r'.2) (mem.walk true rest p) (other.walk true rest p) := by
  induction rest generalizing mem other way p with
  | nil => exact ⟨rfl,differ⟩
  | cons i rest ih =>
    rw [List.length_cons] at length
    have step := differ.descend (i := i) (clear.tables way p ⟨root,here,by omega,above⟩)
    unfold Mem.walk
    cases ran : mem.descend true i p with
    | error trap =>
      rw [ran] at step
      cases ran' : other.descend true i p with
      | error _ => trivial
      | ok _ =>
        rw [ran'] at step
        exact step.elim
    | ok r =>
      rw [ran] at step
      obtain ⟨r',ran',same,differ'⟩ := step.ok_left
      obtain ⟨found,middle⟩ := r
      obtain ⟨_,middle'⟩ := r'
      cases same
      obtain ⟨widens,q,rfl,reached⟩ := descend_widens clear.own here (by omega) above ran
      rw [ran']
      exact ih differ' (clear.widens widens) (by rw [List.length_append,List.length_singleton]; omega) reached

omit [DecidableEq D] in
theorem Differ.getPte (differ : Differ F mem other) (clear : Clear F roots d mem) (here : roots d = some root)
    (va : U64) :
    Runs.Agrees (fun r r' => r.1 = r'.1 ∧ r.2.1 = r'.2.1 ∧ Differ F r.2.2 r'.2.2) (getPte true va (some root) mem)
    (getPte true va (some root) other) := by
  have start : mem.table root [] = some root := rfl
  refine (differ.walk [part 0 va,part 1 va,part 2 va] clear here (by simp) start).bind ?_
  rintro ⟨table,middle⟩ ⟨_,middle'⟩ ⟨same,differ'⟩
  cases same
  exact ⟨rfl,rfl,differ'⟩

theorem lone_tables (distinct : RadixTree.Distinct (child mem) root 3) : Tables { mem with free := [] } (alone (some root)) := by
  refine ⟨List.nodup_nil,?_,fun _ _ _ _ => List.not_mem_nil⟩
  rintro ⟨⟩ ⟨⟩ way way' t ⟨_,found,short,there⟩ ⟨_,found',short',there'⟩
  cases found
  cases found'
  exact ⟨rfl,distinct way way' t short short' there there'⟩

theorem fault_takes (distinct : RadixTree.Distinct (child middle) root 3) (table : dir.pt = some root)
    (inside : ∃ st ∈ dir.sections, st.has va)
    (got : getPte true va (some root) mem = .ok (some ⟨t,part 3 va⟩,some root,middle))
    (reached : middle.table root (tableWay (vpage va)) = some t) (vacant : middle.entry t (part 3 va) = 0#64)
    (took : middle.kallocPage = .ok (q,other)) (apart : q ≠ t) :
    ∃ dir' mem', pgfaultHandler va dir mem = .ok (dir',mem') ∧ dir'.pt = some root ∧
      userByte mem' root va = some (byteAt (middle.pages q) (pageOffset va)) := by
  obtain ⟨_,pages,_,_⟩ := kallocPage_cases took
  have short : (tableWay (vpage va)).length ≤ 3 := Nat.le_refl 3
  have reached' : other.table root (tableWay (vpage va)) = some t := by
    rw [table_of_pages pages root short]
    exact reached
  obtain ⟨last,is⟩ : ∃ last : Mem,
      last = { other.setAt ⟨t,part 3 va⟩ (entryFor q pteUserData) with refs := Function.update other.refs q (other.refs q+1) } := ⟨_,rfl⟩
  have mapped : vmmap va q pteUserData (some root) other = .ok (some root,last) := by
    unfold vmmap
    rw [getPte_existing reached' true,is]
    rfl
  have entries : ∀ x j, last.entry x j = if x = t ∧ j = (vpage va).2.2.2 then entryFor q pteUserData else middle.entry x j := by
    intro x j
    rw [is]
    refine (entry_setEntry other t (part 3 va) (entryFor q pteUserData) x j).trans ?_
    unfold Mem.entry
    rw [pages]
    rfl
  have shown : last.lookup root (vpage va) = entryFor q pteUserData := by
    have only : alone (some root) () = some root := rfl
    rw [set_lookup (lone_tables distinct) only reached entries only (vpage va),if_pos ⟨rfl,rfl⟩]
  have entry : last.at ⟨t,part 3 va⟩ = entryFor q pteUserData := (entries t (part 3 va)).trans (if_pos ⟨rfl,rfl⟩)
  have set : valid (entryFor q pteUserData) := (valid_entryFor (by decide)).mpr (by decide)
  refine ⟨{ dir with pt := some root },last,?_,rfl,?_⟩
  · unfold pgfaultHandler
    have vacant' : middle.at ⟨t,part 3 va⟩ = 0#64 := vacant
    rw [if_neg (not_not_intro inside),table,got]
    simp only [bind,Except.bind,notNull,if_pos vacant',took,mapped,entry,if_pos set]
  · unfold userByte
    rw [shown,if_pos set,frameOf_entryFor (by decide),is]
    congr 2
    exact (Function.update_of_ne apart _ _).trans (by rw [pages])

omit [DecidableEq D] in
theorem Differ.fault (differ : Differ F mem other) (clear : Clear F roots d mem) (here : roots d = some root)
    (table : dir.pt = some root) (vacant : mem.lookup root (vpage va) = 0#64) :
    Runs.Agrees (fun r r' => r.1.pt = some root ∧ r'.1.pt = some root ∧ userByte r.2 root va = userByte r'.2 root va)
      (pgfaultHandler va dir mem) (pgfaultHandler va dir other) := by
  by_cases inside : ∃ st ∈ dir.sections, st.has va
  · have both := differ.getPte clear here va
    cases got : PageTable.getPte true va (some root) mem with
    | error trap =>
      rw [got] at both
      cases got' : PageTable.getPte true va (some root) other with
      | ok _ =>
        rw [got'] at both
        exact both.elim
      | error trap' =>
        unfold pgfaultHandler
        rw [if_neg (not_not_intro inside),if_neg (not_not_intro inside),table,got,got']
        trivial
    | ok r =>
      rw [got] at both
      obtain ⟨r',got',same,same',differ₁⟩ := both.ok_left
      obtain ⟨slot,pt,mem₁⟩ := r
      obtain ⟨_,_,other₁⟩ := r'
      cases same
      cases same'
      obtain ⟨widens,rfl,t,rfl,reached,value⟩ := getPte_widens clear.own here got
      have clear₁ := clear.widens widens
      have isTable : IsTable mem₁ roots d (tableWay (vpage va)) t := ⟨root,here,Nat.le_refl 3,reached⟩
      have reached' : other₁.table root (tableWay (vpage va)) = some t := by
        rw [differ₁.table here clear₁.tables (show (tableWay (vpage va)).length ≤ 3 from Nat.le_refl 3),reached]
      have vacant₁ : mem₁.entry t (part 3 va) = 0#64 := value.trans vacant
      have vacant₁' : other₁.entry t (part 3 va) = 0#64 := (differ₁.entry (clear₁.tables _ t isTable) _).trans vacant₁
      have took := differ₁.kallocPage
      cases ran : mem₁.kallocPage with
      | error trap =>
        rw [ran] at took
        cases ran' : other₁.kallocPage with
        | ok _ =>
          rw [ran'] at took
          exact took.elim
        | error trap' =>
          unfold pgfaultHandler
          have vacant₂ : mem₁.at ⟨t,part 3 va⟩ = 0#64 := vacant₁
          have vacant₂' : other₁.at ⟨t,part 3 va⟩ = 0#64 := vacant₁'
          rw [if_neg (not_not_intro inside),if_neg (not_not_intro inside),table,got,got']
          simp only [bind,Except.bind,notNull,if_pos vacant₂,if_pos vacant₂',ran,ran']
          trivial
      | ok r =>
        rw [ran] at took
        obtain ⟨⟨q,other₂⟩,ran',same,_⟩ := took.ok_left
        obtain ⟨_,mem₂⟩ := r
        cases same
        have front : q ∈ mem₁.free := by
          rw [(kallocPage_cases ran).1]
          exact List.mem_cons_self
        have apart : q ≠ t := by
          rintro rfl
          exact clear₁.own.used _ _ _ isTable front
        have distinct := clear₁.own.distinct here
        have distinct' : RadixTree.Distinct (child other₁) root 3 := by
          intro way way' t short short' there there'
          have first := differ₁.table here clear₁.tables short
          have second := differ₁.table here clear₁.tables short'
          exact distinct way way' t short short' (first.symm.trans there) (second.symm.trans there')
        obtain ⟨dir₁,last,handled,pt,byte⟩ := fault_takes distinct table inside got reached vacant₁ ran apart
        obtain ⟨dir₁',last',handled',pt',byte'⟩ := fault_takes distinct' table inside got' reached' vacant₁' ran' apart
        rw [handled,handled']
        refine ⟨pt,pt',?_⟩
        rw [byte,byte',differ₁.pages q (clear₁.free q front)]
  · unfold pgfaultHandler
    rw [if_pos inside,if_pos inside]
    trivial

end TwoRuns

section Heap
variable {dir : PgDir} {mem mem' : Mem} {n k m : Nat} {sections before after : List Section} {st st' : Section}

theorem heapPage_toNat {a : Nat} (fits : a*pageSize < 2^64) : (heapPage a).toNat = a*pageSize := by
  rw [heapPage,BitVec.toNat_ofNat,Nat.mod_eq_of_lt fits]

theorem heapPage_inside {a : Nat} (fits : a*pageSize+8 < 2^64) :
    (heapPage a+8#64).toNat = a*pageSize+8 ∧ vpage (heapPage a+8#64) = vpage (heapPage a) ∧
    pageOffset (heapPage a+8#64) = 8 := by
  have size : pageSize = 4096 := rfl
  have start : (heapPage a).toNat = a*pageSize := heapPage_toNat (by omega)
  have number : (heapPage a+8#64).toNat = a*pageSize+8 := by
    rw [BitVec.toNat_add,start,BitVec.toNat_ofNat]
    omega
  refine ⟨number,vpage_page ?_,?_⟩
  · rw [number,start,size]
    omega
  · rw [pageOffset,number,size]
    omega

theorem page_below {j : Nat} (le : k ≤ n) (below : j < k) : (n-k+j)*pageSize+8 < n*pageSize := by
  rw [show pageSize = 4096 from rfl]
  omega

theorem heapOf_replace (found : heapOf sections = some (before,st,after)) (same : st'.flags = st.flags) :
    heapOf (before++st'::after) = some (before,st',after) := by
  induction sections generalizing before with
  | nil => cases found
  | cons x rest ih =>
    cases rest with
    | nil =>
      cases found
      rfl
    | cons y rest =>
      simp only [heapOf] at found
      split at found
      · rename_i set
        cases found
        simp only [List.nil_append,heapOf]
        rw [if_pos (by rw [same]; exact set)]
      · rename_i clear
        obtain ⟨⟨before',st₁,after₁⟩,found',parts⟩ := Option.map_eq_some_iff.mp found
        obtain ⟨rfl,two⟩ := Prod.mk.inj parts
        obtain ⟨one,two⟩ := Prod.mk.inj two
        have one : st₁ = st := one
        have two : after₁ = after := two
        rw [one,two] at found'
        have tail := ih found'
        rw [List.cons_append]
        cases front : before'++st'::after with
        | nil => exact absurd front (by simp)
        | cons z more =>
          rw [front] at tail
          simp only [heapOf]
          rw [if_neg clear,tail]
          rfl

theorem heapPage_move {n : Nat} {size : Int} (above : 0 ≤ n+size) :
    heapPage n+BitVec.ofInt 64 (size*pageSize) = heapPage (n+size).toNat := by
  unfold heapPage
  rw [← BitVec.ofInt_natCast,← BitVec.ofInt_natCast,← BitVec.ofInt_add]
  congr 1
  push_cast
  rw [Int.toNat_of_nonneg above,Int.add_mul]

theorem HeapPages.moves (heap : HeapPages dir n) {size : Int} (above : 0 ≤ n+size)
    (fits : (n+size).toNat*pageSize < 2^64) :
    ∃ before st after, heapOf dir.sections = some (before,st,after) ∧ st.first = 0#64 ∧ st.last = heapPage n ∧
      HeapPages ⟨dir.pt,before++{ st with last := st.last+BitVec.ofInt 64 (size*pageSize) }::after⟩ (n+size).toNat := by
  obtain ⟨before,st,after,parts,first,last⟩ := heap.found
  refine ⟨before,st,after,parts,first,last,⟨before,_,after,heapOf_replace parts rfl,first,?_⟩,fits⟩
  simp only [last]
  exact heapPage_move above

theorem HeapPages.shrinks (heap : HeapPages dir n) (pos : 0 < k) (le : k ≤ n) :
    ∃ sections, HeapPages ⟨dir.pt,sections⟩ (n-k) ∧
    ∀ fuel mem, sbrkLoop fuel (-k) dir mem = (do
      let mem ← dropLoop fuel 0#32 k (heapPage (n-k)) dir.pt mem
      .ok (heapPage n,⟨dir.pt,sections⟩,mem)) := by
  have size : pageSize = 4096 := rfl
  have fits := heap.fits
  have less : ((n : Int)+(-k : Int)).toNat = n-k := by omega
  have whole : (heapPage n).toNat = n*pageSize := heapPage_toNat fits
  have room : (n-k)*pageSize < 2^64 := lt_of_le_of_lt (Nat.mul_le_mul_right _ (Nat.sub_le n k)) fits
  rw [size] at fits whole
  obtain ⟨before,st,after,parts,first,last,shorter⟩ := heap.moves (show 0 ≤ (n : Int)+(-k : Int) by omega) (by rw [less]; exact room)
  rw [less] at shorter
  refine ⟨_,shorter,fun fuel mem => ?_⟩
  have enough : ¬ st.last-st.first < BitVec.ofInt 64 (- -(k : Int))*BitVec.ofNat 64 pageSize := by
    have product : (BitVec.ofNat 64 k*BitVec.ofNat 64 pageSize).toNat = k*4096 := by
      rw [BitVec.toNat_mul,BitVec.toNat_ofNat,BitVec.toNat_ofNat,size]
      omega
    rw [first,last,Int.neg_neg,BitVec.ofInt_natCast,BitVec.sub_zero,BitVec.lt_def,product,whole]
    omega
  have ends : st.last+BitVec.ofInt 64 (-(k : Int)*pageSize) = heapPage (n-k) := by
    rw [last,heapPage_move (by omega),less]
  unfold sbrkLoop
  simp only [parts]
  rw [if_neg (by omega),if_neg enough,ends,Int.neg_neg,last]

theorem HeapPages.grows (heap : HeapPages dir n) (m : Nat) :
    ∃ sections, (∃ st ∈ sections, st.first = 0#64 ∧ st.last = heapPage (n+m)) ∧
    ∀ fuel mem, sbrkLoop fuel m dir mem = .ok (heapPage n,⟨dir.pt,sections⟩,mem) := by
  obtain ⟨before,st,after,parts,first,last⟩ := heap.found
  refine ⟨before++{ st with last := st.last+BitVec.ofInt 64 ((m : Int)*pageSize) }::after,
      ⟨_,List.mem_append_right _ List.mem_cons_self,first,?_⟩,fun fuel mem => ?_⟩
  · simp only [last]
    exact heapPage_move (by omega)
  · unfold sbrkLoop
    simp only [parts]
    rw [if_pos (by omega),last]

theorem HeapPages.runs (heap : HeapPages dir n) (pos : 0 < k) (le : k ≤ n) (small : k < 2^31) :
    ∃ sections, HeapPages ⟨dir.pt,sections⟩ (n-k) ∧
    ∀ fuel > k, ∀ mem mem', dropPages dir.pt (shrunk (heapPage (n-k)) k) mem = .ok mem' →
      sbrkLoop fuel (-k) dir mem = .ok (heapPage n,⟨dir.pt,sections⟩,mem') := by
  obtain ⟨sections,shorter,runs⟩ := heap.shrinks pos le
  refine ⟨sections,shorter,fun fuel enough mem mem' dropped => ?_⟩
  have loop : dropLoop fuel (BitVec.ofNat 32 0) (k : Nat) (heapPage (n-k)) dir.pt mem = _ := dropLoop_pages small
      (Nat.zero_le k) (by omega) mem
  rw [Nat.sub_zero,← List.range_eq_range'] at loop
  rw [runs,show (0#32 : BitVec 32) = BitVec.ofNat 32 0 from rfl,loop]
  unfold shrunk at dropped
  rw [dropped]
  rfl

theorem mem_visited {v : VPage} : v ∈ visitedPages n k ↔ v ∈ (shrunk (heapPage (n-k)) k).map vpage := by
  unfold visitedPages shrunk
  simp only [Finset.mem_image,Finset.mem_range,List.map_map,List.mem_map,List.mem_range,Function.comp_apply]

theorem visitedPages_list : visitedPages n k = ((shrunk (heapPage (n-k)) k).map vpage).toFinset := by
  ext v
  rw [List.mem_toFinset,mem_visited]

theorem visited_offset {a i : Nat} (small : i < 2^19) :
    heapPage a+(BitVec.ofNat 32 (i*pageSize)).signExtend 64 = heapPage (a+i) := by
  have size : pageSize = 4096 := rfl
  have offset : (BitVec.ofNat 32 (i*pageSize)).signExtend 64 = BitVec.ofNat 64 (i*pageSize) := by
    rw [size,BitVec.signExtend_eq_setWidth_of_msb_false]
    · apply BitVec.eq_of_toNat_eq
      rw [BitVec.toNat_setWidth,BitVec.toNat_ofNat,BitVec.toNat_ofNat]
      omega
    · rw [BitVec.msb_eq_decide,BitVec.toNat_ofNat]
      exact decide_eq_false (by omega)
  rw [offset,heapPage,heapPage,← BitVec.ofNat_add,Nat.add_mul]

theorem visited_small (small : k ≤ 2^19) : visitedPages n k = droppedPages n k := by
  refine Finset.image_congr fun i member => ?_
  have below : i < k := Finset.mem_range.mp member
  exact congrArg vpage (visited_offset (by omega))

theorem mappedFrames_congr {root : Frame} {one two : Finset VPage}
    (same : ∀ v, valid (mem.lookup root v) → (v ∈ one ↔ v ∈ two)) :
    mappedFrames mem root one = mappedFrames mem root two := by
  have pages : (one.filter fun v => valid (mem.lookup root v)) = two.filter fun v => valid (mem.lookup root v) := by
    ext v
    simp only [Finset.mem_filter]
    exact ⟨fun both => ⟨(same v both.2).mp both.1,both.2⟩,fun both => ⟨(same v both.2).mpr both.1,both.2⟩⟩
  unfold mappedFrames
  rw [pages]

theorem mem_mappedFrames {root p : Frame} {pages : Finset VPage} :
    p ∈ mappedFrames mem root pages ↔ ∃ v ∈ pages, valid (mem.lookup root v) ∧ frameOf (mem.lookup root v) = p := by
  simp only [mappedFrames,Multiset.mem_map,Finset.mem_val,Finset.mem_filter,and_assoc]

end Heap

section Release
variable {D : Type*} [DecidableEq D] {mem mem' : Mem} {roots : D → Option Frame} {d : D} {root f : Frame}
  {dir : PgDir} {n k m : Nat} {va : U64} {vs : List VPage} {frames : List Frame}

omit [DecidableEq D] in
theorem Trees.setPage (trees : Trees mem roots) (data : ∀ d way, ¬ IsTable mem roots d way f) (page : Page) :
    Trees (mem.setPage f page) roots := by
  have entries : ∀ q j, q ≠ f → (mem.setPage f page).entry q j = mem.entry q j := by
    intro q j other
    rw [entry_setPage,if_neg other]
  have back : ∀ d way t, IsTable (mem.setPage f page) roots d way t → IsTable mem roots d way t := by
    rintro d way t ⟨root,found,short,there⟩
    rw [data_tables (data d) entries found short] at there
    exact ⟨root,found,short,there⟩
  refine ⟨fun d d' way way' t one two => trees.once d d' way way' t (back _ _ _ one) (back _ _ _ two),?_⟩
  rintro d v e ⟨root,found,value,set⟩ d' way there
  rw [data_lookup (data d) entries found v] at value
  exact trees.data d v e ⟨root,found,value,set⟩ d' way (back _ _ _ there)

-- Behind the loop a first touch shows the page that went to the queue last.
theorem Dropped.exposes (dropped : Dropped roots d root vs frames mem mem') (here : roots d = some root)
    (table : dir.pt = some root) (inside : ∃ st ∈ dir.sections, st.has va) (hit : vpage va ∈ vs)
    (set : valid (mem.lookup root (vpage va))) (queue : mem'.free = f::rest)
    (data : ∀ d' way, ¬ IsTable mem roots d' way f) (behind : 8 ≤ pageOffset va) :
    ∃ dir₁ mem₁, pgfaultHandler va dir mem' = .ok (dir₁,mem₁) ∧ dir₁.pt = some root ∧
    userByte mem₁ root va = some (byteAt (mem.pages f) (pageOffset va)) := by
  have short : (tableWay (vpage va)).length ≤ 3 := Nat.le_refl 3
  obtain ⟨t,reached⟩ : ∃ t, mem.table root (tableWay (vpage va)) = some t := by
    rcases dropPage_cases root va mem with ⟨clear,_⟩ | ⟨_,t,reached,_⟩
    · exact absurd set clear
    · exact ⟨t,reached⟩
  have reached' := (dropped.tables d root (tableWay (vpage va)) here short).trans reached
  have apart : f ≠ t := by
    rintro rfl
    exact data d _ ⟨root,here,short,reached⟩
  have value : mem'.lookup root (vpage va) = 0#64 := by
    rw [dropped.lookups d root _ here,if_pos ⟨rfl,hit,set⟩]
  have vacant : mem'.entry t (part 3 va) = 0#64 := by
    rw [← value]
    unfold Mem.lookup
    rw [reached']
    rfl
  have distinct : RadixTree.Distinct (child mem') root 3 := dropped.trees.tables.distinct here
  have took : mem'.kallocPage = .ok (f,{ mem' with
      free := rest
      refs := Function.update mem'.refs f 0
      kallocPageCnt := mem'.kallocPageCnt+1
      leftPageCnt := mem'.leftPageCnt-1 }) := by
    unfold Mem.kallocPage
    rw [queue]
  obtain ⟨dir₁,mem₁,ran,pt,byte⟩ := fault_takes distinct table inside (getPte_existing reached' true) reached' vacant took apart
  refine ⟨dir₁,mem₁,ran,pt,?_⟩
  rw [byte,dropped.differ.pages f (fun ⟨d',way,there⟩ => data d' way there),frees_bytes frames mem f behind]

theorem Differ.regrown_agrees {F : Frame → Prop} {sections : List Section} (differ : Differ F mem' other')
    (fresh : Fresh mem roots) (here : roots d = some root) (table : dir.pt = some root)
    (longer : HeapPages ⟨dir.pt,sections⟩ (n-k)) (tables : ∀ way t, IsTable mem roots d way t → ¬ F t)
    (off : ∀ p ∈ mem.free, ¬ F p) (dropped : Dropped roots d root vs frames mem mem') (still : mem'.free = mem.free)
    (ran : sbrkLoop fuel (-k) dir mem = .ok (heapPage n,⟨dir.pt,sections⟩,mem'))
    (ran' : sbrkLoop fuel (-k) dir other = .ok (heapPage n,⟨dir.pt,sections⟩,other'))
    (vacant : mem'.lookup root (vpage va) = 0#64) :
    Runs.Agrees Eq (regrown fuel k m va dir mem) (regrown fuel k m va dir other) := by
  have clear : Clear F roots d mem' := by
    refine ⟨⟨by rw [still]; exact fresh.nodup,dropped.trees.once,fun d' way t there => ?_⟩,fun way t there =>
        tables way t (dropped.isTable.mp there),?_⟩
    · rw [still]
      exact fresh.table_used d' way t (dropped.isTable.mp there)
    · rw [still]
      exact off
  obtain ⟨sections',_,grows⟩ := longer.grows m
  unfold regrown
  simp only [ran,ran',bind,Except.bind,grows]
  have touched := differ.fault clear here (show (PgDir.mk dir.pt sections').pt = some root from table) vacant
  refine touched.bind ?_
  rintro ⟨dir₁,mem₁⟩ ⟨dir₂,mem₂⟩ ⟨pt,pt',same⟩
  have pt : dir₁.pt = some root := pt
  have pt' : dir₂.pt = some root := pt'
  change dir₁.pt.bind _ = dir₂.pt.bind _
  rw [pt,pt']
  exact same

theorem Dropped.regrown_byte {sections : List Section} (dropped : Dropped roots d root vs frames mem mem')
    (here : roots d = some root) (table : dir.pt = some root) (longer : HeapPages ⟨dir.pt,sections⟩ (n-k))
    (ran : sbrkLoop fuel (-k) dir mem = .ok (heapPage n,⟨dir.pt,sections⟩,mem'))
    (below : va.toNat < (n-k+m)*pageSize) (fits : (n-k+m)*pageSize < 2^64) (hit : vpage va ∈ vs)
    (set : valid (mem.lookup root (vpage va))) (queue : mem'.free = f::rest)
    (data : ∀ d' way, ¬ IsTable mem roots d' way f) (behind : 8 ≤ pageOffset va) :
    regrown fuel k m va dir mem = .ok (some (byteAt (mem.pages f) (pageOffset va))) := by
  obtain ⟨sections',⟨st,member,first,last⟩,grows⟩ := longer.grows m
  have inside : ∃ st ∈ (PgDir.mk dir.pt sections').sections, st.has va := by
    refine ⟨st,member,?_,?_⟩
    · rw [first,BitVec.le_def]
      exact Nat.zero_le _
    · rw [last,BitVec.lt_def,heapPage_toNat fits]
      exact below
  obtain ⟨dir₁,mem₁,handled,pt,byte⟩ := dropped.exposes here
      (show (PgDir.mk dir.pt sections').pt = some root from table) inside hit set queue data behind
  unfold regrown
  simp only [ran,bind,Except.bind,grows,handled,pt,Option.bind_some,byte]

-- What is known of the state behind the loop, of `mem` and of a memory that differs in
-- pages that are no tables.
theorem HeapPages.dropped (heap : HeapPages dir n) (fresh : Fresh mem roots) (here : roots d = some root)
    (table : dir.pt = some root) (pos : 0 < k) (le : k ≤ n) (small : k < 2^31) :
    ∃ sections mem' frames, HeapPages ⟨dir.pt,sections⟩ (n-k) ∧
    (∀ fuel > k, sbrkLoop fuel (-k) dir mem = .ok (heapPage n,⟨dir.pt,sections⟩,mem')) ∧
    Dropped roots d root ((shrunk (heapPage (n-k)) k).map vpage) frames mem mem' ∧
    ∀ F other, Differ F mem other → (∀ way t, IsTable mem roots d way t → ¬ F t) → ∃ other', Differ F mem' other' ∧
      dropPages (some root) (shrunk (heapPage (n-k)) k) other = .ok other' ∧
      ∀ fuel > k, sbrkLoop fuel (-k) dir other = .ok (heapPage n,⟨dir.pt,sections⟩,other') := by
  obtain ⟨sections,shorter,runs⟩ := heap.runs pos le small
  rw [table] at runs
  obtain ⟨mem',frames,ran,dropped⟩ := dropPages_dropped (shrunk (heapPage (n-k)) k) fresh.trees here
  refine ⟨sections,mem',frames,shorter,?_,dropped,?_⟩
  · intro fuel enough
    rw [table]
    exact runs fuel enough mem mem' ran
  · intro F other differ tables
    obtain ⟨other',ran',differ'⟩ := dropPages_differ _ differ fresh.trees here tables ran
    refine ⟨other',differ',ran',fun fuel enough => ?_⟩
    rw [table]
    exact runs fuel enough other other' ran'

omit [DecidableEq D] in
theorem Fresh.dropped_data (fresh : Fresh mem roots) (here : roots d = some root) (n k : Nat) :
    ∀ p ∈ mappedFrames mem root (droppedPages n k), ∀ d' way, ¬ IsTable mem roots d' way p := by
  intro p member
  obtain ⟨v,_,set,rfl⟩ := mem_mappedFrames.mp member
  exact fresh.page_data d v _ ⟨root,here,rfl,set⟩

theorem Dropped.reached (dropped : Dropped roots d root vs frames mem mem') (here : roots d = some root)
    {pages : Finset VPage} (unmapped : ∀ v ∈ pages, ¬ valid (mem'.lookup root v))
    (others : ∀ v, v ∉ pages → mem'.lookup root v = mem.lookup root v) (v : VPage)
    (set : valid (mem.lookup root v)) : v ∈ pages ↔ v ∈ vs := by
  constructor
  · intro inside
    by_contra missed
    exact unmapped v inside ((dropped.valid_iff here).mpr ⟨set,missed⟩)
  · intro hit
    by_contra outside
    rw [← others v outside] at set
    exact ((dropped.valid_iff here).mp set).2 hit

-- A page that went to the queue is told by a first touch, where the heap has its old
-- size again: `other` has another byte in it.
theorem Dropped.told {frames : List Frame} {sections : List Section}
    (dropped : Dropped roots d root ((shrunk (heapPage (n-k)) k).map vpage) frames mem mem')
    (fresh : Fresh mem roots) (here : roots d = some root) (table : dir.pt = some root) (heap : HeapPages dir n)
    (pos : 0 < k) (le : k ≤ n) (counter : k < 2^31) (shorter : HeapPages ⟨dir.pt,sections⟩ (n-k))
    (ran : sbrkLoop (k+1) (-k) dir mem = .ok (heapPage n,⟨dir.pt,sections⟩,mem'))
    (reached : ∀ v, valid (mem.lookup root v) → (v ∈ droppedPages n k ↔ v ∈ (shrunk (heapPage (n-k)) k).map vpage))
    (queue : mem'.free = f::rest) (member : f ∈ mappedFrames mem root (droppedPages n k)) :
    ∃ (other : Mem) (va : U64), Differ (· ∈ mappedFrames mem root (droppedPages n k)) mem other ∧
    (n-k)*pageSize ≤ va.toNat ∧
      va.toNat < (n-k+k)*pageSize ∧ mem'.lookup root (vpage va) = 0#64 ∧
      ¬ Runs.Agrees Eq (regrown (k+1) k k va dir mem) (regrown (k+1) k k va dir other) := by
  have data := fresh.dropped_data here n k
  have off := data f member
  have tables : ∀ way t, IsTable mem roots d way t → t ∉ mappedFrames mem root (droppedPages n k) :=
      fun way t there member => data t member d way there
  obtain ⟨v,page,set,_⟩ := mem_mappedFrames.mp member
  obtain ⟨j,small,is⟩ := Finset.mem_image.mp page
  have under : (n-k+j)*pageSize+8 < n*pageSize := page_below le (Finset.mem_range.mp small)
  have fits := heap.fits
  obtain ⟨number,same,offset⟩ := heapPage_inside (under.trans fits)
  obtain ⟨va,isVa⟩ : ∃ va, va = heapPage (n-k+j)+8#64 := ⟨_,rfl⟩
  rw [← isVa] at number same offset
  replace same : vpage va = v := same.trans is
  have whole : n-k+k = n := Nat.sub_add_cancel le
  have above : (n-k)*pageSize ≤ va.toNat := by
    rw [number]
    exact le_trans (Nat.mul_le_mul_right _ (Nat.le_add_right _ j)) (Nat.le_add_right _ 8)
  have below : va.toNat < (n-k+k)*pageSize := by
    rw [number,whole]
    exact under
  have total : (n-k+k)*pageSize < 2^64 := by
    rw [whole]
    exact fits
  obtain ⟨other,isOther⟩ : ∃ other, other = mem.setPage f (put 64 (~~~byteAt (mem.pages f) 8) (mem.pages f)) := ⟨_,rfl⟩
  have differ : Differ (· ∈ mappedFrames mem root (droppedPages n k)) mem other := by
    rw [isOther]
    refine ⟨fun p out => Function.update_of_ne ?_ _ _,rfl,rfl,rfl,rfl⟩
    rintro rfl
    exact out member
  have trees : Trees other roots := by
    rw [isOther]
    exact fresh.trees.setPage off _
  have off' : ∀ d' way, ¬ IsTable other roots d' way f := by
    rintro d' way ⟨root',found,short,there⟩
    refine off d' way ⟨root',found,short,?_⟩
    rw [← there,isOther]
    exact (data_tables (off d') (fun q j other => by rw [entry_setPage,if_neg other]) found short).symm
  obtain ⟨sections',mem₁,_,_,runs,_,differs⟩ := heap.dropped fresh here table pos le counter
  cases (runs (k+1) (Nat.lt_succ_self k)).symm.trans ran
  obtain ⟨other',differ',ran',runs'⟩ := differs _ other differ tables
  obtain ⟨other₁,frames',again,dropped'⟩ := dropPages_dropped (shrunk (heapPage (n-k)) k) trees here
  cases ran'.symm.trans again
  have set' : valid (other.lookup root v) := by
    rw [differ.lookup here tables]
    exact set
  have hit := (reached v set).mp page
  rw [← same] at hit set set'
  have shown := dropped.regrown_byte here table shorter ran below total hit set queue off (Nat.le_of_eq offset.symm)
  have shown' := dropped'.regrown_byte here table shorter (runs' (k+1) (Nat.lt_succ_self k)) below total hit set'
      (differ'.free.trans queue) off'
    (Nat.le_of_eq offset.symm)
  refine ⟨other,va,differ,above,below,?_,fun agrees => ?_⟩
  · rw [dropped.lookups d root _ here,if_pos ⟨rfl,hit,set⟩]
  · rw [shown,shown',offset] at agrees
    have equal : byteAt (mem.pages f) 8 = byteAt (other.pages f) 8 := Option.some.inj agrees
    have new : byteAt (other.pages f) 8 = ~~~byteAt (mem.pages f) 8 := by
      rw [isOther,Mem.setPage]
      simp only [Function.update_self]
      exact get_put 64 _ _ (by decide)
    rw [new] at equal
    generalize byteAt (mem.pages f) 8 = b at equal
    revert b
    decide

end Release

-- sbrk(-k), for every heap of `n` pages and whatever is mapped in it.
theorem shrink_releases {D : Type*} [DecidableEq D] {mem : Mem} {roots : D → Option Frame} {d : D} {root : Frame}
    {dir : PgDir} {n k : Nat} (fresh : Fresh mem roots) (here : roots d = some root) (table : dir.pt = some root)
    (heap : HeapPages dir n) (pos : 0 < k) (le : k ≤ n) :
    (∃ dir' mem', Released roots d root dir mem n k dir' mem') ↔ Releasable root mem n k := by
  have data := fresh.dropped_data here n k
  constructor
  · rintro ⟨dir',mem',released⟩
    have counter : k < 2^31 := by
      by_contra large
      obtain ⟨_,_,shrinks⟩ := heap.shrinks pos le
      have returns := released.returns (k+1) (Nat.lt_succ_self k)
      rw [shrinks,dropLoop_endless (by omega)] at returns
      cases returns
    obtain ⟨sections,mem₁,frames,shorter,runs,dropped,differs⟩ := heap.dropped fresh here table pos le counter
    cases (runs (k+1) (Nat.lt_succ_self k)).symm.trans (released.returns (k+1) (Nat.lt_succ_self k))
    have reached : ∀ v, valid (mem.lookup root v) → (v ∈ droppedPages n k ↔ v ∈ (shrunk (heapPage (n-k)) k).map vpage) :=
      dropped.reached here released.unmapped fun v outside => released.others d root v here fun both => outside both.2
    have reached' : ∀ v, valid (mem.lookup root v) → (v ∈ droppedPages n k ↔ v ∈ visitedPages n k) :=
      fun v set => (reached v set).trans mem_visited.symm
    have visited : (frames : Multiset Frame) = mappedFrames mem root (droppedPages n k) := by
      rw [mappedFrames_congr reached',visitedPages_list]
      exact dropped.frames
    refine ⟨counter,reached',?_⟩
    -- Otherwise the page that went to the queue last is told by a first touch.
    by_contra few
    obtain ⟨front,queue,inside,empty⟩ := frees_cases frames mem
    cases front with
    | nil =>
      refine few fun p member => ?_
      rw [← visited] at member ⊢
      rw [Multiset.coe_count]
      exact empty.mp rfl p member
    | cons f front =>
      have member : f ∈ mappedFrames mem root (droppedPages n k) := by
        rw [← visited]
        exact inside f List.mem_cons_self
      obtain ⟨other,va,differ,above,below,vacant,told⟩ := dropped.told fresh here table heap pos le counter shorter
        (runs (k+1) (Nat.lt_succ_self k)) reached (dropped.differ.free.trans queue) member
      exact told (released.hidden other differ (k+1) (Nat.lt_succ_self k) k pos va above below vacant)
  · rintro ⟨counter,reached,shared⟩
    obtain ⟨sections,mem',frames,shorter,runs,dropped,differs⟩ := heap.dropped fresh here table pos le counter
    have visited : (frames : Multiset Frame) = mappedFrames mem root (droppedPages n k) := by
      rw [mappedFrames_congr reached,visitedPages_list]
      exact dropped.frames
    refine ⟨⟨dir.pt,sections⟩,mem',runs,shorter,?_,⟨frames,visited,dropped.differ⟩,?_,?_⟩
    · intro v inside set
      obtain ⟨before,missed⟩ := (dropped.valid_iff here).mp set
      exact missed (mem_visited.mp ((reached v before).mp inside))
    · intro d' root' v found outside
      rw [dropped.lookups d' root' v found,if_neg]
      rintro ⟨rfl,hit,set⟩
      rw [here] at found
      cases found
      exact outside ⟨rfl,(reached v set).mpr (mem_visited.mpr hit)⟩
    · intro other differ fuel enough m _ va _ _ vacant
      have tables : ∀ way t, IsTable mem roots d way t → t ∉ mappedFrames mem root (droppedPages n k) :=
          fun way t there member => data t member d way there
      have off : ∀ p ∈ mem.free, p ∉ mappedFrames mem root (droppedPages n k) := by
        intro p free member
        obtain ⟨v,_,set,rfl⟩ := mem_mappedFrames.mp member
        exact fresh.page_used d v _ ⟨root,here,rfl,set⟩ free
      obtain ⟨front,queue,_,empty⟩ := frees_cases frames mem
      have none : front = [] := by
        refine empty.mpr fun p member => ?_
        rw [← Multiset.coe_count,visited]
        exact shared p (by rw [← visited]; exact member)
      have still : mem'.free = mem.free := by
        rw [dropped.differ.free,queue,none]
        rfl
      obtain ⟨other',differ',_,runs'⟩ := differs _ other differ tables
      exact differ'.regrown_agrees fresh here table shorter tables off dropped still (runs fuel enough) (runs' fuel enough) vacant

-- A process whose heap has `n` pages, with one page mapped at each of `vas`.
def mapAll (p : Frame) : List U64 → Option Frame → Mem → Except Trap (Option Frame × Mem)
  | [],pt,mem => .ok (pt,mem)
  | va::rest,pt,mem => do
    let (pt,mem) ← vmmap va p pteUserData pt mem
    mapAll p rest pt mem

def heapProcess (n : Nat) (vas : List U64) : Except Trap (PgDir × Mem) := do
  let (dir,mem) ← initPgdir none idle
  let (p,mem) ← mem.kzallocPage
  let (pt,mem) ← mapAll p vas dir.pt mem
  .ok (⟨pt,[⟨stHeap,0#64,heapPage n,none,0#64,0#64⟩]⟩,mem)

theorem mapAll_fresh {root p : Frame} {vas : List U64} {mem mem' : Mem} (fresh : Fresh mem (alone (some root)))
    (used : p ∉ mem.free) (data : ∀ d way, ¬ IsTable mem (alone (some root)) d way p)
    (ran : mapAll p vas (some root) mem = .ok (pt,mem')) :
    pt = some root ∧ Fresh mem' (alone (some root)) := by
  induction vas generalizing mem with
  | nil =>
    cases ran
    exact ⟨rfl,fresh⟩
  | cons va rest ih =>
    obtain ⟨⟨pt₁,middle⟩,first,ran⟩ := Runs.bind_ok.mp ran
    obtain ⟨rfl,mapped,_⟩ := vmmap_mapped (d := ()) fresh rfl (by decide) used data first
    obtain ⟨front,taken⟩ := mapped.taken
    refine ih mapped.fresh (fun free => used (by rw [taken]; exact List.mem_append_right _ free)) ?_ ran
    intro d way there
    rcases mapped.added d way p there with old | ⟨_,new⟩
    · exact data d way old
    · exact used new

theorem heapProcess_heap {n : Nat} {vas : List U64} {dir : PgDir} {mem : Mem} (fits : n*pageSize < 2^64)
    (ran : heapProcess n vas = .ok (dir,mem)) :
    HeapPages dir n ∧ ∃ root, dir.pt = some root ∧ Fresh mem (alone (some root)) := by
  obtain ⟨⟨empty,mem₁⟩,started,ran⟩ := Runs.bind_ok.mp ran
  obtain ⟨⟨p,mem₂⟩,took,ran⟩ := Runs.bind_ok.mp ran
  obtain ⟨⟨pt,mem₃⟩,mapped,ran⟩ := Runs.bind_ok.mp ran
  cases ran
  obtain ⟨⟨root,_⟩,rooted,started⟩ := Runs.bind_ok.mp started
  cases started
  obtain ⟨_,fresh₁,_,used,zero,data,apart⟩ := kzallocPage_since (idle_fresh Unit) rooted
  have fresh₁ := fresh₁.root used zero data apart ()
  have only : Function.update (fun _ : Unit => none) () (some root) = alone (some root) := funext fun _ => Function.update_self _ _ _
  rw [only] at fresh₁
  obtain ⟨_,fresh₂,_,used,_,data,_⟩ := kzallocPage_since fresh₁ took
  obtain ⟨rfl,fresh₃⟩ := mapAll_fresh fresh₂ used data mapped
  exact ⟨⟨⟨[],_,[],rfl,rfl,rfl⟩,fits⟩,root,rfl,fresh₃⟩

theorem one_page (mem : Mem) (root : Frame) :
    (∀ p, (mappedFrames mem root (droppedPages 1 1)).count p ≤ 1) ∧
      ∀ p, p ∈ mappedFrames mem root (droppedPages 1 1) ↔ valid (mem.lookup root (vpage 0#64)) ∧
      frameOf (mem.lookup root (vpage 0#64)) = p := by
  refine ⟨fun p => ?_,fun p => ?_⟩
  · refine (Multiset.count_le_card p _).trans ?_
    unfold mappedFrames
    rw [Multiset.card_map]
    exact (Finset.card_filter_le _ _).trans (by decide)
  · have page : droppedPages 1 1 = {vpage 0#64} := rfl
    rw [mem_mappedFrames,page]
    simp only [Finset.mem_singleton,exists_eq_left]

-- A page that is mapped at a second place, too.
theorem shrink_releases_shared : ∃ (dir : PgDir) (mem : Mem) (root : Frame), valid (mem.lookup root (vpage 0#64)) ∧
    ∃ dir' mem', Released (alone (some root)) () root dir mem 1 1 dir' mem' := by
  obtain ⟨⟨dir,mem⟩,made,facts⟩ := Runs.ok_such (x := heapProcess 1 [0#64,0x400000#64])
    (p := fun r => r.1.pt.any fun root => decide (valid (r.2.lookup root (vpage 0#64)) ∧ r.2.refs
        (frameOf (r.2.lookup root (vpage 0#64))) = 2)) (by decide +kernel)
  obtain ⟨heap,root,table,fresh⟩ := heapProcess_heap (by decide) made
  rw [table,Option.any_some,decide_eq_true_eq] at facts
  obtain ⟨set,two⟩ := facts
  refine ⟨dir,mem,root,set,(shrink_releases fresh (d := ()) rfl table heap Nat.one_pos (Nat.le_refl 1)).mpr
      ⟨by decide,fun v _ => ?_,fun p member => ?_⟩⟩
  · rw [visited_small (by decide)]
  · obtain ⟨_,rfl⟩ := ((one_page mem root).2 p).mp member
    have one := (one_page mem root).1 (frameOf (mem.lookup root (vpage 0#64)))
    rw [two]
    omega

theorem last_page_missed : vpage (heapPage (2^19)) ∈ droppedPages (2^19+1) (2^19+1) ∧
    vpage (heapPage (2^19)) ∉ visitedPages (2^19+1) (2^19+1) := by
  constructor
  · exact Finset.mem_image.mpr ⟨2^19,Finset.mem_range.mpr (Nat.lt_succ_self _),by rw [Nat.sub_self,Nat.zero_add]⟩
  · intro visited
    obtain ⟨i,small,same⟩ := Finset.mem_image.mp visited
    have below : i < 2^19+1 := Finset.mem_range.mp small
    rw [Nat.sub_self] at same
    rcases Nat.lt_succ_iff_lt_or_eq.mp below with less | rfl
    · rw [visited_offset less,Nat.zero_add] at same
      have size : pageSize = 4096 := rfl
      have page : (heapPage i).toNat = i*pageSize := heapPage_toNat (by rw [size]; omega)
      have last : (heapPage (2^19)).toNat = 2^19*pageSize := heapPage_toNat (by decide)
      have number := vpage_number same (by rw [page,size]; omega) (by rw [last]; decide)
      rw [page,last,size] at number
      omega
    · exact absurd same (by decide)

-- The page goes to the queue and is shown again; and the last page of a heap of 2^19+1
-- pages stays mapped.
theorem shrink_keeps : (∃ (dir : PgDir) (mem : Mem) (root : Frame), heapProcess 1 [0#64] = .ok (dir,mem) ∧
    dir.pt = some root ∧
      ¬ ∃ dir' mem', Released (alone (some root)) () root dir mem 1 1 dir' mem') ∧
    ∃ (dir : PgDir) (mem : Mem) (root : Frame), heapProcess (2^19+1) [heapPage (2^19)] = .ok (dir,mem) ∧
    dir.pt = some root ∧
      ¬ ∃ dir' mem', Released (alone (some root)) () root dir mem (2^19+1) (2^19+1) dir' mem' := by
  constructor
  · obtain ⟨⟨dir,mem⟩,made,facts⟩ := Runs.ok_such (x := heapProcess 1 [0#64])
      (p := fun r => r.1.pt.any fun root => decide (valid (r.2.lookup root (vpage 0#64)) ∧ r.2.refs
          (frameOf (r.2.lookup root (vpage 0#64))) = 1)) (by decide +kernel)
    obtain ⟨heap,root,table,fresh⟩ := heapProcess_heap (by decide) made
    rw [table,Option.any_some,decide_eq_true_eq] at facts
    have set : valid (mem.lookup root (vpage 0#64)) := facts.1
    have one : mem.refs (frameOf (mem.lookup root (vpage 0#64))) = 1 := facts.2
    refine ⟨dir,mem,root,made,table,fun released => ?_⟩
    have shared := ((shrink_releases fresh (d := ()) rfl table heap Nat.one_pos (Nat.le_refl 1)).mp released).shared
    have member := ((one_page mem root).2 _).mpr ⟨set,rfl⟩
    have more := shared _ member
    have there := Multiset.one_le_count_iff_mem.mpr member
    rw [one] at more
    omega
  · obtain ⟨⟨dir,mem⟩,made,facts⟩ := Runs.ok_such (x := heapProcess (2^19+1) [heapPage (2^19)])
      (p := fun r => r.1.pt.any fun root => decide (valid (r.2.lookup root (vpage (heapPage (2^19)))))) (by decide +kernel)
    obtain ⟨heap,root,table,fresh⟩ := heapProcess_heap (by decide) made
    rw [table,Option.any_some,decide_eq_true_eq] at facts
    refine ⟨dir,mem,root,made,table,fun released => ?_⟩
    have reached := ((shrink_releases fresh (d := ()) rfl table heap (Nat.succ_pos _) (Nat.le_refl _)).mp released).reached
    exact last_page_missed.2 ((reached _ facts).mp last_page_missed.1)

end PageTable
