import HonorKernel.CallEffects

-- What the tables, the shared zero page and the reference counts are for: every process
-- has a memory of its own, and a call changes that of its caller only.
namespace PageTable
open DiskFormat BitSlice

abbrev Memory := Nat → Option Byte

def Mem.memory (mem : Mem) (root : Frame) : Memory := fun a => if a < 2^48 then byteOf (mem.contents root) a else none

def Space.memory {σ : Type} (s : Space σ) (pid : Nat) : Option Memory := (s.dirs pid).bind fun dir => dir.pt.map s.mem.memory

namespace Memory

-- `src` is written at `lo`. Pages that were not there may come with it, whole.
structure Writes (old new : Memory) (lo : Nat) (src : List Byte) : Prop where
  inside : ∀ k < src.length, new (lo+k) = src[k]?
  kept : ∀ a, ¬ (lo ≤ a ∧ a < lo+src.length) → old a = none ∨ new a = old a
  beyond : ∀ a, a/pageSize < lo/pageSize ∨ lo/pageSize < a/pageSize ∧ lo+src.length ≤ a/pageSize*pageSize → new a = old a

def without (m : Memory) (pages : List U64) : Memory := fun a => if pages.any fun va => decide (vpage va = pageOf a) then none else m a

def ofImage (segs : List Segment) (args : List (U64 × List Byte)) : Memory := fun a => if a < 2^48 then imageByte segs args a else none

end Memory

-- get_free_vm has nothing for a mapping of this length.
def NoRoom (sections : List Section) (length : U64) : Prop :=
  (getFreeVm sections length).2 = (getFreeVm sections length).1 ∨ pageOffset (getFreeVm sections length).1 ≠ 0

-- The calls on private memories. `sections` are those of the caller.
def Moves {σ : Type} (files : Files σ) (fs : σ) (sections : List Section) (m m' : Nat → Option Memory) : Call → Prop
  | .start pid _ => m pid = none ∧ m' = Function.update m pid (some fun _ => none)
  | .execve pid _ _ segs args => (m pid).isSome ∧ m' = Function.update m pid (some (Memory.ofImage segs args))
  | .execveFails _ _ _ _ _ => m' = m
  | .sbrk pid size => ∃ old before st after, m pid = some old ∧ heapOf sections = some (before,st,after) ∧
      m' = Function.update m pid (some (old.without (shrunk (st.last+BitVec.ofInt 64 (size*pageSize)) (-size).toNat)))
  | .mmap pid _ length _ _ fp offset => NoRoom sections length ∧ m' = m ∨ ¬ NoRoom sections length ∧ ∃ old new src fs', m pid = some old ∧
      files.read fp offset length.toNat (files.dup fp fs) = .ok (src,fs') ∧ m' = Function.update m pid (some new) ∧
      old.Writes new (getFreeVm sections length).1.toNat src
  | .munmap pid va length => splitAt va sections = none ∧ m' = m ∨ ∃ old new before st after, m pid = some old ∧
      splitAt va sections = some (before,st,after) ∧
      (if st.last-st.first ≤ length then old.Writes new va.toNat (List.replicate length.toNat 0#8) ∧
          m' = Function.update m pid (some (new.without st.pages))
        else m' = Function.update m pid (some (old.without (pagesOf va (va+length)))))
  | .fault pid va => ∃ old new, m pid = some old ∧ m' = Function.update m pid (some new) ∧ old.Writes new va.toNat []
  | .store pid va bytes => ∃ old new, m pid = some old ∧ m' = Function.update m pid (some new) ∧ old.Writes new va.toNat bytes
  | .fork pid child _ _ _ => ∃ old, m pid = some old ∧ m child = none ∧ m' = Function.update m child (some old)
  | .exit pid => (m pid).isSome ∧ m' = Function.update m pid none

def Call.pid : Call → Nat
  | .start pid _ => pid
  | .execve pid _ _ _ _ => pid
  | .execveFails pid _ _ _ _ => pid
  | .sbrk pid _ => pid
  | .mmap pid _ _ _ _ _ _ => pid
  | .munmap pid _ _ => pid
  | .fault pid _ => pid
  | .store pid _ _ => pid
  | .fork pid _ _ _ _ => pid
  | .exit pid => pid

def Space.sections {σ : Type} (s : Space σ) (pid : Nat) : List Section := ((s.dirs pid).map PgDir.sections).getD []

-- The segments are what a linker makes of a file that is long enough, the arguments fit
-- on the stack, sbrk moves the heap by 2 GB at most, and a store stays in one page.
def Proper {σ : Type} (s : Space σ) : Call → Prop
  | .execve _ _ _ segs args => PageDisjoint segs ∧ (∀ seg ∈ segs, seg.Formed) ∧ OnStack segs args
  | .sbrk pid size => size.natAbs ≤ 2^19 ∧ ∀ dir, s.dirs pid = some dir → Room size dir
  | .store _ va bytes => pageOffset va+bytes.length ≤ pageSize
  | call => Careful s call

structure Tidy {σ : Type} (holes : Holes) (zero : Frame) (s : Space σ) : Prop where
  sound : Sound holes zero s
  zeroRo : ZeroRo zero s.mem (rootsOf s.dirs)
  clear : s.mem.pages zero = 0#32768
  covered : ∀ pid dir root v, s.dirs pid = some dir → dir.pt = some root → valid (s.mem.lookup root v) → Covered dir.sections v
  heap : ∀ pid dir, s.dirs pid = some dir → ∀ st ∈ dir.sections, st.flags &&& stHeap ≠ 0#64 → st.last.toNat%pageSize = 0

theorem Moves.others {σ : Type} {files : Files σ} {fs : σ} {sections : List Section} {m m' : Nat → Option Memory}
    {call : Call} {pid : Nat} (moves : Moves files fs sections m m' call) (other : pid ≠ call.pid)
    (child : ∀ parent slab₀ slab₁ fp, call ≠ .fork parent pid slab₀ slab₁ fp) :
    m' pid = m pid := by
  cases call with
  | start caller fp =>
    rw [moves.2]
    exact Function.update_of_ne other _ _
  | execve caller small fp segs args =>
    rw [moves.2]
    exact Function.update_of_ne other _ _
  | execveFails caller small fp segs broken => rw [show m' = m from moves]
  | sbrk caller size =>
    obtain ⟨old,before,st,after,_,_,rfl⟩ := moves
    exact Function.update_of_ne other _ _
  | mmap caller small length shared prot fp offset =>
    rcases moves with ⟨_,rfl⟩ | ⟨_,old,new,src,fs',_,_,rfl,_⟩
    · rfl
    · exact Function.update_of_ne other _ _
  | munmap caller va length =>
    rcases moves with ⟨_,rfl⟩ | ⟨old,new,before,st,after,_,_,moved⟩
    · rfl
    · split at moved
      · rw [moved.2]
        exact Function.update_of_ne other _ _
      · rw [moved]
        exact Function.update_of_ne other _ _
  | fault caller va =>
    obtain ⟨old,new,_,rfl,_⟩ := moves
    exact Function.update_of_ne other _ _
  | store caller va bytes =>
    obtain ⟨old,new,_,rfl,_⟩ := moves
    exact Function.update_of_ne other _ _
  | fork caller child' slab₀ slab₁ fp =>
    obtain ⟨old,_,_,rfl⟩ := moves
    refine Function.update_of_ne ?_ _ _
    rintro rfl
    exact child caller slab₀ slab₁ fp rfl
  | exit caller =>
    rw [moves.2]
    exact Function.update_of_ne other _ _

section Pages
variable {st : Section} {va : U64} {n : Nat} {sections : List Section} {v : VPage}

theorem pages_of_covers (covers : st.covers n) : ∃ p ∈ st.pages, p.toNat = n*pageSize := by
  have unit : pageSize = 4096 := rfl
  have bound := st.last.isLt
  have bound' := st.first.isLt
  unfold Section.covers at covers
  rw [unit] at covers
  have inside : n-st.first.toNat/pageSize < pageCount st.first st.last := by
    rw [pageCount,pageBase_toNat,unit]
    omega
  refine ⟨_,List.mem_map.mpr ⟨n-st.first.toNat/pageSize,List.mem_range.mpr inside,rfl⟩,?_⟩
  rw [BitVec.toNat_add,BitVec.toNat_ofNat,pageBase_toNat,unit]
  omega

theorem has_low (laid : st.Laid) (has : st.has va) : va.toNat < 2^48 := by
  obtain ⟨lower,upper⟩ := has
  rw [BitVec.le_def] at lower
  rw [BitVec.lt_def] at upper
  unfold Section.Laid at laid
  have start := Nat.div_mul_le_self st.first.toNat pageSize
  omega

theorem has_covers (has : st.has va) : st.covers (va.toNat/pageSize) := by
  obtain ⟨lower,upper⟩ := has
  rw [BitVec.le_def] at lower
  rw [BitVec.lt_def] at upper
  exact ⟨Nat.div_le_div_right lower,Nat.lt_of_le_of_lt (Nat.div_mul_le_self _ _) upper⟩

theorem covered_iff (laid : ∀ st ∈ sections, st.Laid) : Covered sections v ↔ ∃ st ∈ sections, ∃ n, st.covers n ∧
    n*pageSize < 2^48 ∧ v = pageOf (n*pageSize) := by
  constructor
  · rintro ⟨st,member,p,inside,rfl⟩
    obtain ⟨covers,low,aligned⟩ := page_of_pages (laid st member) inside
    have whole : p.toNat/pageSize*pageSize = p.toNat := Nat.div_mul_cancel (Nat.dvd_of_mod_eq_zero aligned)
    exact ⟨st,member,_,covers,by omega,by rw [whole,pageOf_toNat]⟩
  · rintro ⟨st,member,n,covers,low,rfl⟩
    obtain ⟨p,inside,number⟩ := pages_of_covers covers
    exact ⟨st,member,p,inside,by rw [← number,pageOf_toNat]⟩

theorem covered_of_has (laid : ∀ st ∈ sections, st.Laid) (has : ∃ st ∈ sections, st.has va) :
    Covered sections (vpage va) := by
  obtain ⟨st,member,has⟩ := has
  have low := has_low (laid st member) has
  have down := Nat.div_mul_le_self va.toNat pageSize
  refine (covered_iff laid).mpr ⟨st,member,_,has_covers has,by omega,?_⟩
  rw [← pageOf_toNat va,pageOf_same low (by omega)]
  exact (Nat.mul_div_cancel _ (by decide)).symm

theorem Covered.mono {sections' : List Section} (covered : Covered sections v)
    (more : ∀ st ∈ sections, st ∈ sections') : Covered sections' v := by
  obtain ⟨st,member,rest⟩ := covered
  exact ⟨st,more st member,rest⟩

end Pages

section Memories
variable {D : Type*} {holes : Holes} {zero : Frame} {roots : D → Option Frame} {d d' : D} {mem mem' : Mem}
  {root c : Frame} {lo : Nat} {src : List Byte} {va : U64} {dir dir' : PgDir} {law : VPage → U64 → Prop} {σ : Type}
  {s : Space σ} {fs : σ} {new : PgDir} {pid : Nat} {pages : List U64}

theorem memory_congr (same : mem'.contents c = mem.contents root) : mem'.memory c = mem.memory root := by
  unfold Mem.memory
  rw [same]

theorem Leaves.memory (leaves : Leaves zero roots d mem mem') (other : d' ≠ d) (found : roots d' = some root) :
    mem'.memory root = mem.memory root :=
  memory_congr (funext fun v => leaves.contents d' root v other found)

theorem Leaves.others (leaves : Leaves zero (rootsOf s.dirs) (some pid) s.mem mem') {other : Nat}
    (apart : other ≠ pid) :
    ((s.dirs other).bind fun dir => dir.pt.map mem'.memory) = s.memory other := by
  unfold Space.memory
  cases here : s.dirs other with
  | none => rfl
  | some dir =>
    cases rooted : dir.pt with
    | none => simp only [Option.bind_some,rooted,Option.map_none]
    | some root =>
      have found : rootsOf s.dirs (some other) = some root := by
        rw [rootsOf,here]
        exact rooted
      simp only [Option.bind_some,rooted,Option.map_some]
      rw [leaves.memory (fun equal => apart (Option.some.inj equal)) found]

theorem Leaves.memory_update (leaves : Leaves zero (rootsOf s.dirs) (some pid) s.mem mem') (table : new.pt = some c) :
    Space.memory ⟨mem',Function.update s.dirs pid (some new),fs⟩ = Function.update s.memory pid (some (mem'.memory c)) := by
  funext other
  by_cases same : other = pid
  · subst same
    simp only [Space.memory,Function.update_self,Option.bind_some,table,Option.map_some]
  · rw [Function.update_of_ne same,← leaves.others same]
    simp only [Space.memory,Function.update_of_ne same]

theorem Leaves.memory_remove (leaves : Leaves zero (rootsOf s.dirs) (some pid) s.mem mem') :
    Space.memory ⟨mem',Function.update s.dirs pid none,fs⟩ = Function.update s.memory pid none := by
  funext other
  by_cases same : other = pid
  · subst same
    simp only [Space.memory,Function.update_self,Option.bind_none]
  · rw [Function.update_of_ne same,← leaves.others same]
    simp only [Space.memory,Function.update_of_ne same]

theorem Memory.Writes.nothing (m : Memory) (lo : Nat) : m.Writes m lo [] := ⟨fun k small => absurd small (Nat.not_lt_zero k),fun _ _ => .inr rfl,fun _ _ => rfl⟩

theorem Painted.writes (painted : Painted (mem.contents root) (mem'.contents root) lo src) (low : lo < 2^48)
    (bound : lo+src.length ≤ 2^48) (others : ∀ v, v ≠ pageOf lo → (∀ k < src.length, v ≠ pageOf (lo+k)) →
    mem'.contents root v = mem.contents root v) :
    (mem.memory root).Writes (mem'.memory root) lo src := by
  have unit : pageSize = 4096 := rfl
  refine ⟨fun k small => ?_,fun a away => ?_,fun a away => ?_⟩
  · rw [Mem.memory,if_pos (by omega)]
    exact painted.inside k small
  · unfold Mem.memory
    by_cases small : a < 2^48
    · rw [if_pos small,if_pos small]
      exact painted.outside a small away
    · rw [if_neg small]
      exact .inl rfl
  · unfold Mem.memory
    by_cases small : a < 2^48
    · rw [if_pos small,if_pos small,byteOf,byteOf,others]
      · intro same
        have number := (pageOf_same small low).mp same
        omega
      · intro k inside same
        have number := (pageOf_same small (by omega)).mp same
        rw [unit] at away number
        omega
    · rw [if_neg small,if_neg small]

theorem fault_writes (sane : Sane holes zero mem roots) (here : roots d = some root) (table : dir.pt = some root)
    (low : va.toNat < 2^48) (ran : pgfaultHandler va dir mem = .ok (dir',mem')) :
    (mem.memory root).Writes (mem'.memory root) va.toNat [] := by
  obtain ⟨effect,_,_,kept⟩ : Effect zero roots d (· = vpage va) (fun _ _ => True) mem mem' ∧ _ :=
    pgfaultHandler_effect sane here table rfl (fun _ _ => trivial) ran
  have others : ∀ v, v ≠ vpage va → mem'.contents root v = mem.contents root v :=
    fun v other => (effect.contents d root v here).resolve_right fun both => other both.2
  refine Painted.writes ⟨fun k small => absurd small (Nat.not_lt_zero k),fun a small _ => ?_⟩ low
      (by rw [List.length_nil]; omega) (fun v other _ => ?_)
  · unfold byteOf
    by_cases same : pageOf a = vpage va
    · rw [same]
      rcases kept with none | kept
      · rw [none]
        exact .inl rfl
      · rw [kept]
        exact .inr rfl
    · rw [others _ same]
      exact .inr rfl
  · rw [pageOf_toNat] at other
    exact others v other

theorem copy_writes (fuel : Nat) (enough : src.length ≤ fuel) (sane : Sane holes zero mem roots)
    (ro : ZeroRo zero mem roots) (here : roots d = some root) (table : dir.pt = some root)
    (ran : userCopy fuel va src dir mem = .ok (dir',mem')) :
    (mem.memory root).Writes (mem'.memory root) va.toNat src := by
  obtain ⟨effect,bound,painted⟩ : Effect zero roots d (fun v => ∃ k < src.length, v = vpage (va+BitVec.ofNat 64 k))
      (fun _ _ => True) mem mem' ∧ _ ∧ _ :=
    userCopy_effect fuel enough sane ro here table (fun k small => ⟨k,small,rfl⟩) (fun _ _ _ _ => trivial) ran
  by_cases empty : src = []
  · subst empty
    have same : mem'.contents root = mem.contents root := funext fun v => (effect.contents d root v here).resolve_right fun both => by
      obtain ⟨k,small,_⟩ := both.2
      exact absurd small (Nat.not_lt_zero k)
    rw [memory_congr same]
    exact .nothing _ _
  · have positive : 0 < src.length := List.length_pos_iff.mpr empty
    have bound := bound.resolve_left empty
    refine painted.writes (by omega) bound fun v _ away => (effect.contents d root v here).resolve_right fun both => ?_
    obtain ⟨k,small,is⟩ := both.2
    refine away k small ?_
    rw [is,← pageOf_toNat,BitVec.toNat_add,BitVec.toNat_ofNat]
    congr 1
    omega

theorem store_writes (sane : Sane holes zero mem roots) (ro : ZeroRo zero mem roots) (here : roots d = some root)
    (table : dir.pt = some root) (inside : pageOffset va+src.length ≤ pageSize)
    (ran : userStore va src dir mem = .ok (dir',mem')) :
    (mem.memory root).Writes (mem'.memory root) va.toNat src := by
  obtain ⟨effect,page,old,new⟩ : Effect zero roots d (· = vpage va) (fun _ _ => True) mem mem' ∧ _ :=
    userStore_effect sane ro here table rfl (fun _ _ => trivial) ran
  have low := userStore_low ran
  have unit : pageSize = 4096 := rfl
  have offset : pageOffset va = va.toNat%4096 := rfl
  have others : ∀ v, v ≠ vpage va → mem'.contents root v = mem.contents root v :=
    fun v other => (effect.contents d root v here).resolve_right fun both => other both.2
  refine (painted_page low inside others old new).writes low (by rw [unit,offset] at inside; omega) fun v other _ => ?_
  rw [pageOf_toNat] at other
  exact others v other

theorem Drops.memory (drops : Drops zero roots d root (pages.map vpage) mem mem') (here : roots d = some root) :
    mem'.memory root = (mem.memory root).without pages := by
  funext a
  unfold Mem.memory Memory.without byteOf
  have covers : (pages.any fun va => decide (vpage va = pageOf a)) = true ↔ pageOf a ∈ pages.map vpage := by
    rw [List.any_eq_true,List.mem_map]
    simp only [decide_eq_true_eq]
  by_cases member : pageOf a ∈ pages.map vpage
  · rw [if_pos (covers.mpr member),contents_none.mpr (drops.gone _ member)]
    split <;> rfl
  · rw [if_neg fun there => member (covers.mp there),(drops.effect.contents d root _ here).resolve_right fun both => member both.2]

end Memories

section Coverage
variable {D : Type*} {holes : Holes} {zero : Frame} {roots : D → Option Frame} {d : D} {mem mem' : Mem}
  {root : Frame} {src : List Byte} {va : U64} {dir dir' : PgDir} {C : VPage → Prop}

theorem userStore_covered {bytes : List Byte} (table : dir.pt = some root)
    (mapped : ∀ v, valid (mem.lookup root v) → C v) (sections : ∀ va, (∃ st ∈ dir.sections, st.has va) →
    C (vpage va)) (ran : userStore va bytes dir mem = .ok (dir',mem')) : C (vpage va) := by
  unfold userStore at ran
  split at ran
  · cases ran
  · obtain ⟨⟨slot,pt,same⟩,looked,ran⟩ := Runs.bind_ok.mp ran
    obtain ⟨⟨dir₁,middle⟩,present,_⟩ := Runs.bind_ok.mp ran
    rw [table] at looked
    obtain ⟨rfl,_,seen⟩ := getPte_reads looked
    split at present
    · rename_i writable
      rcases seen with ⟨rfl,_⟩ | ⟨t,rfl,_,value⟩
      · cases writable
      · have entry : same.at ⟨t,part 3 va⟩ = same.lookup root (vpage va) := value
        simp only [Option.any_some,entry,decide_eq_true_eq] at writable
        exact mapped _ writable.1
    · unfold pgfaultHandler at present
      split at present
      · cases present
      · rename_i inside
        exact sections va (not_not.mp inside)

theorem userCopy_covered (fuel : Nat) (enough : src.length ≤ fuel) (sane : Sane holes zero mem roots)
    (ro : ZeroRo zero mem roots) (here : roots d = some root) (table : dir.pt = some root)
    (mapped : ∀ v, valid (mem.lookup root v) → C v) (sections : ∀ va, (∃ st ∈ dir.sections, st.has va) →
    C (vpage va)) (ran : userCopy fuel va src dir mem = .ok (dir',mem')) : ∀ k < src.length,
    C (vpage (va+BitVec.ofNat 64 k)) := by
  induction fuel generalizing va src mem with
  | zero => exact fun k small => absurd small (by omega)
  | succ fuel ih =>
    unfold userCopy at ran
    split at ran
    · rename_i empty
      subst empty
      exact fun k small => absurd small (Nat.not_lt_zero k)
    · rename_i more
      have unit : pageSize = 4096 := rfl
      have offset : pageOffset va = va.toNat%4096 := rfl
      obtain ⟨n,count⟩ : ∃ n, n = min src.length (pageSize-pageOffset va) := ⟨_,rfl⟩
      simp only [← count] at ran
      obtain ⟨⟨dir₁,middle⟩,first,rest⟩ := Runs.bind_ok.mp ran
      have low := userStore_low first
      have start := userStore_covered table mapped sections first
      obtain ⟨effect,_⟩ : Effect zero roots d (· = vpage va) (fun v _ => v = vpage va) mem middle ∧ _ :=
        userStore_effect sane ro here table rfl (fun _ _ => rfl) first
      obtain ⟨rfl,sane'⟩ := userStore_sane sane here table first
      have later := ih (by rw [List.length_drop]; omega) sane' (effect.zeroRo ro) (fun v set => by
        rcases effect.entries d root v here with same | ⟨_,is,_⟩
        · rw [same] at set
          exact mapped v set
        · rw [is]
          exact start) rest
      intro k small
      by_cases early : k < n
      · have same : vpage (va+BitVec.ofNat 64 k) = vpage va := by
          refine vpage_page ?_
          rw [BitVec.toNat_add,BitVec.toNat_ofNat,unit]
          omega
        rw [same]
        exact start
      · have tail := later (k-n) (by rw [List.length_drop]; omega)
        rw [add_of_nat,Nat.add_sub_cancel' (Nat.not_lt.mp early)] at tail
        exact tail

end Coverage

section Keeping
variable {σ : Type} {files : Files σ} {holes : Holes} {zero root : Frame} {s s' : Space σ} {mem' : Mem}
  {dir new : PgDir} {pid : Nat} {fs : σ} {touched C : VPage → Prop}

theorem Tidy.laid (tidy : Tidy holes zero s) (found : s.dirs pid = some dir) : ∀ st ∈ dir.sections, st.Laid := (tidy.sound.layout pid dir found).laid

theorem Tidy.keep (tidy : Tidy holes zero s) (found : s.dirs pid = some dir) (table : dir.pt = some root)
    (same : new.pt = dir.pt) (sound : Sound holes zero ⟨mem',Function.update s.dirs pid (some new),fs⟩)
    (effect : Effect zero (rootsOf s.dirs) (some pid) touched (fun v e => valid e → C v) s.mem mem')
    (old : ∀ v, Covered dir.sections v → C v) (still : ∀ v, C v → valid (mem'.lookup root v) → Covered new.sections v)
    (heap : ∀ st ∈ new.sections, st.flags &&& stHeap ≠ 0#64 → st.last.toNat%pageSize = 0) :
    Tidy holes zero ⟨mem',Function.update s.dirs pid (some new),fs⟩ := by
  obtain ⟨root',table',here,update⟩ := tidy.sound.here found
  obtain rfl : root = root' := Option.some.inj (table.symm.trans table')
  refine ⟨sound,?_,effect.blank.trans tidy.clear,fun other x r v there rooted set => ?_,fun other x there => ?_⟩
  · rw [rootsOf_update s.dirs pid (same.trans table),update]
    exact effect.zeroRo tidy.zeroRo
  · by_cases mine : other = pid
    · subst mine
      simp only [Function.update_self,Option.some.injEq] at there
      subst there
      obtain rfl : root = r := Option.some.inj (table.symm.trans (same.symm.trans rooted))
      rcases effect.entries (some other) root v here with unchanged | ⟨_,holds,_⟩
      · refine still v (old v (tidy.covered other dir root v found table ?_)) set
        rw [← unchanged]
        exact set
      · exact still v (holds set) set
    · simp only [Function.update_of_ne mine] at there
      refine tidy.covered other x r v there rooted ?_
      have unchanged := effect.leaves.entries (some other) r v (fun equal => mine (Option.some.inj equal))
          (by rw [rootsOf,there]; exact rooted)
      rw [← unchanged]
      exact set
  · by_cases mine : other = pid
    · subst mine
      simp only [Function.update_self,Option.some.injEq] at there
      subst there
      exact heap
    · simp only [Function.update_of_ne mine] at there
      exact tidy.heap other x there

theorem Space.memory_of (found : s.dirs pid = some dir) (table : dir.pt = some root) :
    s.memory pid = some (s.mem.memory root) := by
  unfold Space.memory
  rw [found,Option.bind_some,table]
  rfl

theorem Space.sections_of (found : s.dirs pid = some dir) : s.sections pid = dir.sections := by
  unfold Space.sections
  rw [found]
  rfl

theorem Tidy.put {c : Frame} (tidy : Tidy holes zero s) (leaves : Leaves zero (rootsOf s.dirs) (some pid) s.mem mem')
    (table : new.pt = some c) (sound : Sound holes zero ⟨mem',Function.update s.dirs pid (some new),fs⟩)
    (ro : ∀ v, ZeroLaw zero (mem'.lookup c v)) (covered : ∀ v, valid (mem'.lookup c v) → Covered new.sections v)
    (heap : ∀ st ∈ new.sections, st.flags &&& stHeap ≠ 0#64 → st.last.toNat%pageSize = 0) :
    Tidy holes zero ⟨mem',Function.update s.dirs pid (some new),fs⟩ := by
  refine ⟨sound,?_,leaves.blank.trans tidy.clear,fun other x r v there rooted set => ?_,fun other x there => ?_⟩
  · intro d r v found
    rw [rootsOf_update s.dirs pid table] at found
    by_cases mine : d = some pid
    · subst mine
      rw [Function.update_self] at found
      cases found
      exact ro v
    · rw [Function.update_of_ne mine] at found
      rw [leaves.entries d r v mine found]
      exact tidy.zeroRo d r v found
  · by_cases mine : other = pid
    · subst mine
      simp only [Function.update_self,Option.some.injEq] at there
      subst there
      obtain rfl : c = r := Option.some.inj (table.symm.trans rooted)
      exact covered v set
    · simp only [Function.update_of_ne mine] at there
      refine tidy.covered other x r v there rooted ?_
      have unchanged := leaves.entries (some other) r v (fun equal => mine (Option.some.inj equal))
          (by rw [rootsOf,there]; exact rooted)
      rw [← unchanged]
      exact set
  · by_cases mine : other = pid
    · subst mine
      simp only [Function.update_self,Option.some.injEq] at there
      subst there
      exact heap
    · simp only [Function.update_of_ne mine] at there
      exact tidy.heap other x there

theorem Tidy.remove (tidy : Tidy holes zero s) (leaves : Leaves zero (rootsOf s.dirs) (some pid) s.mem mem')
    (sound : Sound holes zero ⟨mem',Function.update s.dirs pid none,fs⟩) :
    Tidy holes zero ⟨mem',Function.update s.dirs pid none,fs⟩ := by
  have others : ∀ other x, Function.update s.dirs pid none other = some x → other ≠ pid ∧ s.dirs other = some x := by
    intro other x there
    by_cases mine : other = pid
    · subst mine
      rw [Function.update_self] at there
      cases there
    · rw [Function.update_of_ne mine] at there
      exact ⟨mine,there⟩
  refine ⟨sound,?_,leaves.blank.trans tidy.clear,fun other x r v there rooted set => ?_,fun other x there =>
      tidy.heap other x (others other x there).2⟩
  · intro d r v found
    rw [rootsOf_remove] at found
    by_cases mine : d = some pid
    · subst mine
      rw [Function.update_self] at found
      cases found
    · rw [Function.update_of_ne mine] at found
      rw [leaves.entries d r v mine found]
      exact tidy.zeroRo d r v found
  · obtain ⟨mine,there⟩ := others other x there
    refine tidy.covered other x r v there rooted ?_
    rw [← leaves.entries (some other) r v (fun equal => mine (Option.some.inj equal)) (by rw [rootsOf,there]; exact rooted)]
    exact set

theorem Leaves.of_none {dirs : Nat → Option PgDir} {mem : Mem} {d : Option Nat}
    (leaves : Leaves zero (rootsOf dirs) none mem mem') :
    Leaves zero (rootsOf dirs) d mem mem' := by
  have named : ∀ d' r, rootsOf dirs d' = some r → d' ≠ none := by
    rintro d' r found rfl
    cases found
  exact ⟨leaves.blank,fun d' r v _ found => leaves.entries d' r v (named d' r found) found,fun d' r v _ found =>
      leaves.contents d' r v (named d' r found) found⟩

end Keeping

section Calls
variable {σ : Type} {files : Files σ} {holes : Holes} {zero : Frame} {s s' : Space σ} {pid : Nat}

theorem fault_moves (tidy : Tidy holes zero s) {va : U64} (ran : s.run files zero (.fault pid va) = .ok s') :
    Tidy holes zero s' ∧ Moves files s.fs (s.sections pid) s.memory s'.memory (.fault pid va) := by
  have sound := fault_sound tidy.sound ran
  obtain ⟨dir,found,ran⟩ := Runs.bind_ok.mp ran
  obtain ⟨⟨dir',mem₁⟩,handled,ran⟩ := Runs.bind_ok.mp ran
  cases ran
  have found := Space.dir_ok found
  obtain ⟨root,table,here,_⟩ := tidy.sound.here found
  have has : ∃ st ∈ dir.sections, st.has va := by
    unfold pgfaultHandler at handled
    split at handled
    · cases handled
    · rename_i inside
      exact not_not.mp inside
  have covered := covered_of_has (tidy.laid found) has
  have low : va.toNat < 2^48 := by
    obtain ⟨st,member,inside⟩ := has
    exact has_low (tidy.laid found st member) inside
  obtain ⟨effect,_⟩ : Effect zero (rootsOf s.dirs) (some pid) (· = vpage va)
      (fun v e => valid e → Covered dir.sections v) s.mem mem₁ ∧ _ :=
    pgfaultHandler_effect tidy.sound.sane here table rfl (fun _ _ _ => covered) handled
  have written := fault_writes tidy.sound.sane here table low handled
  obtain ⟨rfl,_⟩ := pgfaultHandler_sane tidy.sound.sane here table handled
  exact ⟨tidy.keep found table rfl sound effect (fun _ covers => covers) (fun _ covers _ => covers)
      (tidy.heap pid _ found),_,_,Space.memory_of found table,
    effect.leaves.memory_update table,written⟩

theorem store_moves (tidy : Tidy holes zero s) {va : U64} {bytes : List Byte}
    (inside : pageOffset va+bytes.length ≤ pageSize) (ran : s.run files zero (.store pid va bytes) = .ok s') :
    Tidy holes zero s' ∧ Moves files s.fs (s.sections pid) s.memory s'.memory (.store pid va bytes) := by
  have sound := store_sound tidy.sound ran
  obtain ⟨dir,found,ran⟩ := Runs.bind_ok.mp ran
  obtain ⟨⟨dir',mem₁⟩,stored,ran⟩ := Runs.bind_ok.mp ran
  cases ran
  have found := Space.dir_ok found
  obtain ⟨root,table,here,_⟩ := tidy.sound.here found
  have covered := userStore_covered table (tidy.covered pid dir root · found table)
      (fun va has => covered_of_has (tidy.laid found) has) stored
  obtain ⟨effect,_⟩ : Effect zero (rootsOf s.dirs) (some pid) (· = vpage va)
      (fun v e => valid e → Covered dir.sections v) s.mem mem₁ ∧ _ :=
    userStore_effect tidy.sound.sane tidy.zeroRo here table rfl (fun _ _ _ => covered) stored
  have written := store_writes tidy.sound.sane tidy.zeroRo here table inside stored
  obtain ⟨rfl,_⟩ := userStore_sane tidy.sound.sane here table stored
  exact ⟨tidy.keep found table rfl sound effect (fun _ covers => covers) (fun _ covers _ => covers)
      (tidy.heap pid _ found),_,_,Space.memory_of found table,
    effect.leaves.memory_update table,written⟩

theorem exit_moves (tidy : Tidy holes zero s) (ran : s.run files zero (.exit pid) = .ok s') :
    Tidy holes zero s' ∧ Moves files s.fs (s.sections pid) s.memory s'.memory (.exit pid) := by
  have sound := exit_sound tidy.sound ran
  obtain ⟨old,found,ran⟩ := Runs.bind_ok.mp ran
  obtain ⟨⟨gone,mem₁,fs⟩,freed,ran⟩ := Runs.bind_ok.mp ran
  cases ran
  have found := Space.dir_ok found
  obtain ⟨root,table,here,_⟩ := tidy.sound.here found
  have leaves := freePgdir_leaves tidy.sound.sane here table (tidy.sound.layout pid old found).nodup freed
  exact ⟨tidy.remove leaves sound,by rw [Space.memory_of found table]; rfl,leaves.memory_remove⟩

theorem initSections_aligned (fp : Option Nat) : ∀ st ∈ initSections fp, st.flags &&& stHeap ≠ 0#64 →
    st.last.toNat%pageSize = 0 := by
  intro st member _
  rw [initSections,List.mem_singleton] at member
  rw [member]
  rfl

theorem start_moves (tidy : Tidy holes zero s) {fp : Option Nat} (ran : s.run files zero (.start pid fp) = .ok s') :
    Tidy holes zero s' ∧ Moves files s.fs (s.sections pid) s.memory s'.memory (.start pid fp) := by
  have sound := start_sound tidy.sound ran
  simp only [Space.run] at ran
  split at ran
  · cases ran
  · rename_i vacant
    obtain ⟨⟨new,mem₁⟩,init,ran⟩ := Runs.bind_ok.mp ran
    cases ran
    obtain ⟨c,rfl,bare,builds⟩ : ∃ c, new = ⟨some c,initSections fp⟩ ∧ mem₁.pages c = 0#32768 ∧
        Builds holes zero (rootsOf s.dirs) (some pid) c (fun _ _ => True) s.mem mem₁ :=
            initPgdir_builds tidy.sound.sane (some pid) init
    have nothing : ∀ v, mem₁.lookup c v = 0#64 := zero_lookup bare
    have blank : mem₁.memory c = fun _ => none := by
      funext a
      unfold Mem.memory byteOf
      rw [contents_none.mpr (by rw [nothing]; decide)]
      split <;> rfl
    refine ⟨tidy.put builds.leaves rfl sound (fun v => by rw [nothing]; exact zeroLaw_nothing)
        (fun v set => absurd set (by rw [nothing]; decide))
      (initSections_aligned fp),?_,?_⟩
    · unfold Space.memory
      rw [Option.not_isSome_iff_eq_none.mp vacant]
      rfl
    · rw [← blank]
      exact builds.leaves.memory_update rfl

theorem fork_moves (tidy : Tidy holes zero s) {child slab₀ slab₁ : Nat} {fp : Option Nat}
    (ran : s.run files zero (.fork pid child slab₀ slab₁ fp) = .ok s') :
    Tidy holes zero s' ∧ Moves files s.fs (s.sections pid) s.memory s'.memory (.fork pid child slab₀ slab₁ fp) := by
  have sound := fork_sound tidy.sound ran
  simp only [Space.run] at ran
  split at ran
  · cases ran
  · rename_i vacant
    have vacant := Option.not_isSome_iff_eq_none.mp vacant
    obtain ⟨parent,found,ran⟩ := Runs.bind_ok.mp ran
    obtain ⟨⟨new,mem₁⟩,copied,ran⟩ := Runs.bind_ok.mp ran
    cases ran
    have found := Space.dir_ok found
    obtain ⟨root,table,here,_⟩ := tidy.sound.here found
    have unnamed : rootsOf s.dirs (some child) = none := by
      rw [rootsOf,vacant]
      rfl
    obtain ⟨c,rfl,builds,same,bare⟩ := fork_builds tidy.sound.sane here unnamed table copied
    have more : ∀ st ∈ parent.sections, st ∈ parent.sections.reverse++initSections fp :=
      fun st member => List.mem_append_left _ (List.mem_reverse.mpr member)
    have contents : mem₁.contents c = s.mem.contents root := by
      funext v
      by_cases covered : Covered parent.sections v
      · exact (same v covered).1
      · rw [contents_none.mpr (by rw [bare v covered]; decide),contents_none.mpr fun set => covered
          (tidy.covered pid parent root v found table set)]
    refine ⟨tidy.put builds.leaves rfl sound (fun v => ?_) (fun v set => ?_) (fun st member heap => ?_),_,
        Space.memory_of found table,?_,?_⟩
    · rcases builds.entries v with zeroed | ⟨_,ro⟩
      · rw [zeroed]
        exact zeroLaw_nothing
      · exact ro
    · by_cases covered : Covered parent.sections v
      · exact covered.mono more
      · rw [bare v covered] at set
        exact absurd set (by decide)
    · rcases List.mem_append.mp member with old | init
      · exact tidy.heap pid parent found st (List.mem_reverse.mp old) heap
      · exact initSections_aligned fp st init heap
    · unfold Space.memory
      rw [vacant]
      rfl
    · rw [← memory_congr contents]
      exact builds.leaves.memory_update rfl

theorem segment_covered {segs : List Segment} {seg : Segment} (fp : Option Nat)
    (laid : ∀ st ∈ imageSections fp segs, st.Laid) (member : seg ∈ segs) (formed : seg.Formed) {x : Nat}
    (low : seg.vaddr.toNat ≤ x) (high : x < seg.vaddr.toNat+seg.size) : Covered (imageSections fp segs) (pageOf x) := by
  have last := formed.last
  have bound := formed.low
  have place : (BitVec.ofNat 64 x).toNat = x := by
    rw [BitVec.toNat_ofNat]
    omega
  refine covered_of_has laid ⟨seg.made,?_,?_⟩
  · exact List.mem_cons_of_mem _ (List.mem_append_left _ (List.mem_reverse.mpr (List.mem_map_of_mem member)))
  · simp only [Section.has,Segment.made]
    rw [BitVec.le_def,BitVec.lt_def,place]
    omega

theorem Segment.Formed.in_section {segs : List Segment} {seg : Segment} (formed : seg.Formed) (fp : Option Nat)
    (laid : ∀ st ∈ imageSections fp segs, st.Laid) (member : seg ∈ segs) :
    seg.Obeys zero fun v e => valid e → Covered (imageSections fp segs) v := by
  have last := formed.last
  have bound := formed.low
  have order := formed.order
  refine ⟨fun k small q _ _ => ?_,fun va inside _ => ?_⟩
  · rw [formed.bytes] at small
    have size : seg.filesz.toNat ≤ seg.size := by
      unfold Segment.size
      split <;> omega
    have place : (seg.vaddr+BitVec.ofNat 64 k).toNat = seg.vaddr.toNat+k := by
      rw [BitVec.toNat_add,BitVec.toNat_ofNat]
      omega
    rw [← pageOf_toNat,place]
    exact segment_covered fp laid member formed (by omega) (by omega)
  · by_cases text : seg.text = false
    · obtain ⟨x,low,high,is⟩ := (formed.bss text (vpage va)).mp (List.mem_map_of_mem inside)
      have start := formed.start text
      rw [is]
      refine segment_covered fp laid member formed (by omega) ?_
      unfold Segment.size
      rw [text]
      exact high
    · unfold Segment.bss at inside
      rw [if_neg fun both => text both.1] at inside
      cases inside

theorem stack_covered {segs : List Segment} (fp : Option Nat) (laid : ∀ st ∈ imageSections fp segs, st.Laid)
    (low : ∀ seg ∈ segs, seg.last.toNat+(stackPages+1)*pageSize ≤ 2^48) {va : U64} (member : va ∈ stackAddrs segs) :
    Covered (imageSections fp segs) (vpage va) := by
  have unit : pageSize = 4096 := rfl
  have count : stackPages = 10 := rfl
  obtain ⟨_,room,_⟩ := stackTop_bounds low
  obtain ⟨i,step,rfl⟩ := List.mem_map.mp member
  obtain ⟨j,small,rfl⟩ := List.mem_map.mp step
  rw [List.mem_range,count] at small
  rw [unit,count] at room
  refine covered_of_has laid ⟨stackSection segs,List.mem_cons_self,?_⟩
  simp only [Section.has,stackSection]
  rw [BitVec.le_def,BitVec.lt_def,unit,count,BitVec.toNat_sub,BitVec.toNat_sub,BitVec.toNat_ofNat,BitVec.toNat_ofNat]
  omega

theorem execve_moves (tidy : Tidy holes zero s) {small : Nat} {fp : Option Nat} {segs : List Segment}
    {args : List (U64 × List Byte)} (disjoint : PageDisjoint segs) (formed : ∀ seg ∈ segs, seg.Formed)
    (onStack : OnStack segs args) (ran : s.run files zero (.execve pid small fp segs args) = .ok s') :
    Tidy holes zero s' ∧ Moves files s.fs (s.sections pid) s.memory s'.memory (.execve pid small fp segs args) := by
  have sound := execve_sound tidy.sound disjoint ran
  obtain ⟨old,found,ran⟩ := Runs.bind_ok.mp ran
  obtain ⟨mem₁,taken,ran⟩ := Runs.bind_ok.mp ran
  obtain ⟨⟨new,mem₂⟩,loaded,ran⟩ := Runs.bind_ok.mp ran
  obtain ⟨⟨gone,mem₃,fs⟩,freed,ran⟩ := Runs.bind_ok.mp ran
  cases ran
  have found := Space.dir_ok found
  obtain ⟨root,table,here,_⟩ := tidy.sound.here found
  have laid : ∀ st ∈ imageSections fp segs, st.Laid := (image_layout fp disjoint).laid
  have begun : Leaves zero (rootsOf s.dirs) (some pid) s.mem mem₁ :=
      (slab_effect small taken : Effect zero _ _ (fun _ => True) (fun _ _ => True) _ _).leaves
  obtain ⟨c,rfl,builds,bytes⟩ : ∃ c, new = ⟨some c,imageSections fp segs⟩ ∧
      Builds holes zero (rootsOf s.dirs) none c (fun v e => valid e → Covered (imageSections fp segs) v) mem₁ mem₂ ∧
      ∀ a < 2^48, byteOf (mem₂.contents c) a = imageByte segs args a :=
    loadImage_builds (slab_sane small tidy.sound.sane taken) (begun.blank.trans tidy.clear) none disjoint.low onStack
      (fun seg member => (formed seg member).in_section fp laid member)
          (fun va member _ _ _ => stack_covered fp laid disjoint.low member) loaded
  have mine : Function.update (rootsOf s.dirs) none (some c) none = some c := Function.update_self ..
  have here' : Function.update (rootsOf s.dirs) none (some c) (some pid) = some root := by
    rw [Function.update_of_ne (by simp)]
    exact here
  have freeing := freePgdir_leaves builds.sane here' table (tidy.sound.layout pid old found).nodup freed
  have others : ∀ d r, rootsOf s.dirs d = some r → Function.update (rootsOf s.dirs) none (some c) d = some r := by
    intro d r named
    rw [Function.update_of_ne]
    · exact named
    · rintro rfl
      cases named
  have freeing' : Leaves zero (rootsOf s.dirs) (some pid) mem₂ mem₃ :=
    ⟨freeing.blank,fun d r v other named => freeing.entries d r v other (others d r named),fun d r v other named =>
        freeing.contents d r v other (others d r named)⟩
  have leaves := (begun.trans builds.leaves.of_none).trans freeing'
  have entries : ∀ v, mem₃.lookup c v = mem₂.lookup c v := fun v => freeing.entries none c v (by simp) mine
  have contents : mem₃.contents c = mem₂.contents c := funext fun v => freeing.contents none c v (by simp) mine
  have image : mem₃.memory c = Memory.ofImage segs args := by
    funext a
    unfold Mem.memory Memory.ofImage
    split
    · rename_i small
      rw [contents,bytes a small]
    · rfl
  refine ⟨tidy.put leaves rfl sound (fun v => ?_) (fun v set => ?_) (fun st member heap => ?_),
      by rw [Space.memory_of found table]; rfl,?_⟩
  · rw [entries]
    rcases builds.entries v with zeroed | ⟨_,ro⟩
    · rw [zeroed]
      exact zeroLaw_nothing
    · exact ro
  · rw [entries] at set
    rcases builds.entries v with zeroed | ⟨covered,_⟩
    · rw [zeroed] at set
      exact absurd set (by decide)
    · exact covered set
  · rcases List.mem_cons.mp member with rfl | rest
    · exact absurd (show (stackSection segs).flags &&& stHeap = 0#64 from by simp only [stackSection]; decide) heap
    · rcases List.mem_append.mp rest with made | init
      · obtain ⟨seg,_,rfl⟩ := List.mem_map.mp (List.mem_reverse.mp made)
        refine absurd ?_ heap
        simp only [Segment.made]
        split <;> decide
      · exact initSections_aligned fp st init heap
  · rw [← image]
    exact leaves.memory_update rfl

theorem execveFails_moves (tidy : Tidy holes zero s) {small : Nat} {fp : Option Nat} {segs : List Segment}
    {broken : Option (Segment × List Byte)} (disjoint : PageDisjoint (segs++(broken.map Prod.fst).toList))
    (ran : s.run files zero (.execveFails pid small fp segs broken) = .ok s') :
    Tidy holes zero s' ∧
    Moves files s.fs (s.sections pid) s.memory s'.memory (.execveFails pid small fp segs broken) := by
  have sound := execveFails_sound tidy.sound disjoint ran
  obtain ⟨old,_,ran⟩ := Runs.bind_ok.mp ran
  obtain ⟨mem₁,taken,ran⟩ := Runs.bind_ok.mp ran
  obtain ⟨⟨new,mem₂⟩,loaded,ran⟩ := Runs.bind_ok.mp ran
  obtain ⟨⟨gone,mem₃,fs⟩,freed,ran⟩ := Runs.bind_ok.mp ran
  cases ran
  have begun : Leaves zero (rootsOf s.dirs) none s.mem mem₁ :=
      (slab_effect small taken : Effect zero _ _ (fun _ => True) (fun _ _ => True) _ _).leaves
  obtain ⟨_,_,list,_⟩ := loadBroken_sane (slab_sane small tidy.sound.sane taken) none loaded
  obtain ⟨c,table,builds⟩ := loadBroken_builds (slab_sane small tidy.sound.sane taken) none loaded
  have layout := segments_layout fp disjoint
  rw [← list] at layout
  have leaves := (begun.trans builds.leaves).trans
      (freePgdir_leaves builds.sane (Function.update_self ..) table layout.nodup freed).of_update
  have entries : ∀ d r v, rootsOf s.dirs d = some r → mem₃.lookup r v = s.mem.lookup r v := by
    intro d r v named
    refine leaves.entries d r v ?_ named
    rintro rfl
    cases named
  refine ⟨⟨sound,fun d r v named => ?_,leaves.blank.trans tidy.clear,fun other x r v there rooted set => ?_,
      tidy.heap⟩,funext fun other => ?_⟩
  · rw [entries d r v named]
    exact tidy.zeroRo d r v named
  · refine tidy.covered other x r v there rooted ?_
    rw [← entries (some other) r v (by rw [rootsOf,there]; exact rooted)]
    exact set
  · exact leaves.of_none.others (Nat.succ_ne_self other).symm

theorem slab_memory {n : Nat} {mem mem' : Mem} (taken : slab n mem = .ok mem') (root : Frame) :
    mem'.memory root = mem.memory root := by
  induction n generalizing mem with
  | zero =>
    cases taken
    rfl
  | succ n ih =>
    obtain ⟨⟨q,middle⟩,took,taken⟩ := Runs.bind_ok.mp taken
    obtain ⟨_,pages,_,_⟩ := kallocPage_cases took
    rw [ih taken]
    exact memory_congr (funext fun v => contents_frame (lookup_of_pages pages root v) fun _ => by rw [pages])

theorem without_nothing (m : Memory) : m.without [] = m := by
  funext a
  exact if_neg Bool.false_ne_true

theorem mmap_moves (tidy : Tidy holes zero s) {small : Nat} {length : U64} {shared : Bool} {prot : U64} {fp : Nat}
    {offset : U64} (ran : s.run files zero (.mmap pid small length shared prot fp offset) = .ok s') :
    Tidy holes zero s' ∧
    Moves files s.fs (s.sections pid) s.memory s'.memory (.mmap pid small length shared prot fp offset) := by
  have sound := mmap_sound tidy.sound ran
  obtain ⟨dir,found,ran⟩ := Runs.bind_ok.mp ran
  obtain ⟨mem₁,taken,ran⟩ := Runs.bind_ok.mp ran
  obtain ⟨⟨result,dir',mem₂,fs⟩,mapped,ran⟩ := Runs.bind_ok.mp ran
  cases ran
  have found := Space.dir_ok found
  obtain ⟨root,table,here,_⟩ := tidy.sound.here found
  have sane₁ := slab_sane small tidy.sound.sane taken
  unfold PageTable.mmap at mapped
  by_cases refused : freeEnd dir.sections = freeEnd dir.sections-length ∨ pageOffset (freeEnd dir.sections-length) ≠ 0
  · simp only [getFreeVm,refused,if_true] at mapped
    cases mapped
    have effect : Effect zero (rootsOf s.dirs) (some pid) (fun _ => True)
        (fun v e => valid e → Covered dir.sections v) s.mem mem₁ := slab_effect small taken
    refine ⟨tidy.keep found table rfl sound effect (fun _ covers => covers) (fun _ covers _ => covers)
        (tidy.heap pid _ found),.inl ⟨?_,?_⟩⟩
    · rw [Space.sections_of found]
      exact refused
    · rw [effect.leaves.memory_update table,slab_memory taken root,← Space.memory_of found table,Function.update_eq_self]
  · simp only [getFreeVm,refused,if_false] at mapped
    obtain ⟨⟨bytes,fs₁⟩,read,mapped⟩ := Runs.bind_ok.mp mapped
    obtain ⟨⟨dir₁,mem₃⟩,copied,mapped⟩ := Runs.bind_ok.mp mapped
    cases mapped
    have begun : Effect zero (rootsOf s.dirs) (some pid) (fun _ => True)
        (fun v e => valid e → Covered dir₁.sections v) s.mem mem₁ := slab_effect small taken
    have ro₁ := begun.zeroRo tidy.zeroRo
    obtain ⟨kept,_⟩ := userCopy_sane _ sane₁ here (by exact table) copied
    have table' : dir₁.pt = dir.pt := by rw [kept]
    have sections : dir₁.sections = ⟨if shared then stMmapShared else stMmapPrivate,freeEnd dir.sections-length,
        freeEnd dir.sections,some fp,offset,prot⟩::dir.sections := by
      rw [kept]
    have laid : ∀ st ∈ dir₁.sections, st.Laid := (sound.layout pid dir₁ (Function.update_self ..)).laid
    have more : ∀ v, Covered dir.sections v → Covered dir₁.sections v := by
      intro v covered
      refine covered.mono fun st member => ?_
      rw [sections]
      exact List.mem_cons_of_mem _ member
    have covers := userCopy_covered _ (Nat.le_refl _) sane₁ ro₁ here (by exact table)
        (fun v set => more v (tidy.covered pid dir root v found table (by
        obtain ⟨_,_,pages⟩ := slab_since small tidy.sound.sane.toFresh taken
        rw [← lookup_of_pages pages root v]
        exact set))) (fun va has => covered_of_has laid (by rw [sections]; exact has)) copied
    obtain ⟨effect,_⟩ : Effect zero (rootsOf s.dirs) (some pid) (fun _ => True)
        (fun v e => valid e → Covered dir₁.sections v) mem₁ mem₃ ∧ _ :=
      userCopy_effect _ (Nat.le_refl _) sane₁ ro₁ here (by exact table) (fun _ _ => trivial)
          (fun k inside _ _ _ => covers k inside) copied
    have written := copy_writes _ (Nat.le_refl _) sane₁ ro₁ here (by exact table) copied
    rw [slab_memory taken root] at written
    refine ⟨tidy.keep found table table' sound (begun.trans effect) more (fun _ covers _ => covers) ?_,
      .inr ⟨?_,_,_,bytes,_,Space.memory_of found table,read,(begun.trans effect).leaves.memory_update (table'.trans table),?_⟩⟩
    · intro st member heap
      rw [sections] at member
      rcases List.mem_cons.mp member with rfl | old
      · refine absurd ?_ heap
        simp only
        split <;> decide
      · exact tidy.heap pid dir found st old heap
    · rw [Space.sections_of found]
      exact refused
    · rw [Space.sections_of found]
      exact written

theorem aligned_move {last : U64} (aligned : last.toNat%pageSize = 0) (size : Int) :
    (last+BitVec.ofInt 64 (size*pageSize)).toNat%pageSize = 0 := by
  have unit : pageSize = 4096 := rfl
  rw [BitVec.toNat_add,BitVec.toNat_ofInt]
  rw [unit] at aligned ⊢
  omega

theorem moved_last {last : U64} {size : Int} (low : last.toNat ≤ 2^48) (few : size.natAbs ≤ 2^19)
    (room : 0 ≤ (last.toNat : Int)+size*pageSize) :
    ((last+BitVec.ofInt 64 (size*pageSize)).toNat : Int) = last.toNat+size*pageSize := by
  have unit : pageSize = 4096 := rfl
  rw [BitVec.toNat_add,BitVec.toNat_ofInt]
  rw [unit] at room ⊢
  omega

theorem shrunk_page {last : U64} {count n : Nat} (few : count ≤ 2^19) (aligned : last.toNat%pageSize = 0)
    (low : last.toNat/pageSize ≤ n) (high : n < last.toNat/pageSize+count) (small : n*pageSize < 2^48) :
    pageOf (n*pageSize) ∈ (shrunk last count).map vpage := by
  have unit : pageSize = 4096 := rfl
  refine List.mem_map.mpr ⟨_,List.mem_map.mpr ⟨n-last.toNat/pageSize,List.mem_range.mpr (by omega),rfl⟩,?_⟩
  have word : (BitVec.ofNat 32 ((n-last.toNat/pageSize)*pageSize)).toNat = (n-last.toNat/pageSize)*pageSize := by
    rw [BitVec.toNat_ofNat,unit]
    rw [unit] at high
    omega
  have positive : (BitVec.ofNat 32 ((n-last.toNat/pageSize)*pageSize)).msb = false := by
    rw [BitVec.msb_eq_false_iff_two_mul_lt,word,unit]
    rw [unit] at high
    omega
  rw [← pageOf_toNat,BitVec.toNat_add,BitVec.toNat_signExtend,positive,BitVec.toNat_setWidth,word]
  simp only [Bool.false_eq_true,if_false]
  congr 1
  rw [unit] at aligned low high small ⊢
  omega

section Sections
variable {before after : List Section} {st moved : Section} {n : Nat} {v : VPage}

theorem covered_split (covered : Covered (before++st::after) v) : Covered (before++after) v ∨ ∃ p ∈ st.pages,
    v = vpage p := by
  obtain ⟨x,there,p,page,rfl⟩ := covered
  rcases List.mem_append.mp there with old | there
  · exact .inl ⟨x,List.mem_append_left _ old,p,page,rfl⟩
  · rcases List.mem_cons.mp there with rfl | old
    · exact .inr ⟨p,page,rfl⟩
    · exact .inl ⟨x,List.mem_append_right _ old,p,page,rfl⟩

theorem covered_insert (covered : Covered (before++after) v) (st : Section) : Covered (before++st::after) v := by
  obtain ⟨x,there,page⟩ := covered
  rcases List.mem_append.mp there with old | old
  · exact ⟨x,List.mem_append_left _ old,page⟩
  · exact ⟨x,List.mem_append_right _ (List.mem_cons_of_mem _ old),page⟩

theorem covered_page (covers : moved.covers n) : Covered (before++moved::after) (pageOf (n*pageSize)) := by
  obtain ⟨q,page,number⟩ := pages_of_covers covers
  exact ⟨moved,List.mem_append_right _ List.mem_cons_self,q,page,by rw [← pageOf_toNat q,number]⟩

theorem vpage_of_pages (laid : st.Laid) {p : U64} (page : p ∈ st.pages) :
    vpage p = pageOf (p.toNat/pageSize*pageSize) := by
  obtain ⟨_,_,multiple⟩ := page_of_pages laid page
  rw [Nat.div_mul_cancel (Nat.dvd_of_mod_eq_zero multiple),pageOf_toNat]

-- A page of the old sections is in one of the new ones, or behind the new end of the
-- heap.
theorem covered_moved (laid : st.Laid) (first : moved.first = st.first) (covered : Covered (before++st::after) v) :
    Covered (before++moved::after) v ∨
    ∃ n, v = pageOf (n*pageSize) ∧ n*pageSize < st.last.toNat ∧ moved.last.toNat ≤ n*pageSize := by
  rcases covered_split covered with rest | ⟨p,page,rfl⟩
  · exact .inl (covered_insert rest moved)
  · obtain ⟨covers,_,_⟩ := page_of_pages laid page
    rw [vpage_of_pages laid page]
    by_cases stays : p.toNat/pageSize*pageSize < moved.last.toNat
    · exact .inl (covered_page ⟨by rw [first]; exact covers.1,stays⟩)
    · exact .inr ⟨p.toNat/pageSize,rfl,covers.2,Nat.not_lt.mp stays⟩

theorem covered_front (laid : st.Laid) {length : U64} (sum : (st.first+length).toNat = st.first.toNat+length.toNat)
    (covered : Covered (before++st::after) v)
    (away : v ∉ (pagesOf st.first (st.first+length)).map vpage) : Covered (before++{ st with first := st.first+length }::after) v := by
  rcases covered_split covered with rest | ⟨p,page,rfl⟩
  · exact covered_insert rest _
  · obtain ⟨⟨lower,upper⟩,_,_⟩ := page_of_pages laid page
    rw [vpage_of_pages laid page] at away ⊢
    by_cases cut : p.toNat/pageSize*pageSize < st.first.toNat+length.toNat
    · have covers : Section.covers { st with last := st.first+length } (p.toNat/pageSize) := ⟨lower,by simp only; rw [sum]; exact cut⟩
      obtain ⟨q,page',number⟩ := pages_of_covers covers
      refine absurd (List.mem_map.mpr ⟨q,page',?_⟩) away
      rw [← pageOf_toNat q,number]
    · have unit : pageSize = 4096 := rfl
      refine covered_page ⟨?_,upper⟩
      simp only
      rw [sum]
      rw [unit] at cut ⊢
      omega

end Sections

theorem sbrk_moves (tidy : Tidy holes zero s) {size : Int} (few : size.natAbs ≤ 2^19)
    (room : ∀ dir, s.dirs pid = some dir → Room size dir) (ran : s.run files zero (.sbrk pid size) = .ok s') :
    Tidy holes zero s' ∧ Moves files s.fs (s.sections pid) s.memory s'.memory (.sbrk pid size) := by
  have sound := sbrk_sound tidy.sound room ran
  obtain ⟨dir,found,ran⟩ := Runs.bind_ok.mp ran
  obtain ⟨⟨value,dir',mem₁⟩,done,ran⟩ := Runs.bind_ok.mp ran
  cases ran
  have found := Space.dir_ok found
  obtain ⟨root,table,here,_⟩ := tidy.sound.here found
  have unit : pageSize = 4096 := rfl
  unfold PageTable.sbrk at done
  split at done
  · cases done
  · rename_i before st after heap
    have parts := heapOf_parts heap
    have isHeap := heapOf_heap (tidy.sound.layout pid dir found).heap heap
    have member : st ∈ dir.sections := by
      rw [parts]
      exact List.mem_append_right _ List.mem_cons_self
    have first : st.first = 0#64 := (tidy.sound.layout pid dir found).heap_first st member isHeap
    have aligned := tidy.heap pid dir found st member isHeap
    have low : st.last.toNat ≤ 2^48 := by
      have laid := tidy.laid found st member
      unfold Section.Laid at laid
      rw [first] at laid
      rcases laid with none | low
      · rw [show (0#64).toNat = 0 from rfl,Nat.zero_div,Nat.zero_mul] at none
        omega
      · exact low
    obtain ⟨moved,is⟩ : ∃ moved : Section, moved = { st with last := st.last+BitVec.ofInt 64 (size*pageSize) } := ⟨_,rfl⟩
    have alignedLast : ∀ x ∈ before++moved::after, x.flags &&& stHeap ≠ 0#64 → x.last.toNat%pageSize = 0 := by
      intro x there flag
      rcases List.mem_append.mp there with old | there
      · exact tidy.heap pid dir found x (by rw [parts]; exact List.mem_append_left _ old) flag
      · rcases List.mem_cons.mp there with rfl | old
        · rw [is]
          exact aligned_move aligned size
        · exact tidy.heap pid dir found x (by rw [parts]; exact List.mem_append_right _ (List.mem_cons_of_mem _ old)) flag
    have firstIs : moved.first = st.first := by rw [is]
    have lastIs : moved.last = st.last+BitVec.ofInt 64 (size*pageSize) := by rw [is]
    simp only [← is] at done
    rw [Space.sections_of found]
    split at done
    · rename_i grows
      cases done
      have effect : Effect zero (rootsOf s.dirs) (some pid) (fun _ => True)
          (fun v e => valid e → Covered dir.sections v) s.mem s.mem := .refl
      have further := moved_last low few (by rw [unit]; omega)
      rw [← lastIs,unit] at further
      refine ⟨tidy.keep found table rfl sound effect (fun _ covers => covers) (fun v covers _ => ?_) alignedLast,_,
          before,st,after,Space.memory_of found table,heap,?_⟩
      · rw [parts] at covers
        rcases covered_moved (tidy.laid found st member) firstIs covers with inside | ⟨n,_,small,beyond⟩
        · exact inside
        · omega
      · have none : (-size).toNat = 0 := by omega
        rw [none,show shrunk (st.last+BitVec.ofInt 64 (size*pageSize)) 0 = [] from rfl,without_nothing]
        exact effect.leaves.memory_update table
    · rename_i shrinks
      split at done
      · cases done
      · rename_i enough
        obtain ⟨mem₂,dropped,done⟩ := Runs.bind_ok.mp done
        cases done
        rw [table] at dropped
        have drops := dropPages_drops _ tidy.sound.sane here dropped
        rw [first,BitVec.sub_zero,BitVec.lt_def,BitVec.toNat_mul,BitVec.toNat_ofInt,
            show (BitVec.ofNat 64 pageSize).toNat = 4096 from rfl] at enough
        have further := moved_last low few (by rw [unit]; omega)
        rw [← lastIs,unit] at further
        have alignedMoved : moved.last.toNat%pageSize = 0 := by
          rw [lastIs]
          exact aligned_move aligned size
        rw [unit] at alignedMoved aligned
        refine ⟨tidy.keep found table rfl sound (drops.effect.mono (fun _ => id) fun v e holds set => absurd set
            (by rw [holds.2]; decide))
          (fun _ covers => covers) (fun v covers set => ?_) alignedLast,_,before,st,after,Space.memory_of found table,heap,?_⟩
        · rw [parts] at covers
          rcases covered_moved (tidy.laid found st member) firstIs covers with inside | ⟨n,number,small,beyond⟩
          · exact inside
          · refine absurd set (drops.gone v ?_)
            rw [number,← lastIs]
            rw [unit] at small beyond
            refine shrunk_page (by omega) (by rw [unit]; exact alignedMoved) (by rw [unit]; omega)
                (by rw [unit]; omega) (by rw [unit]; omega)
        · rw [← drops.memory here]
          exact drops.effect.leaves.memory_update table

theorem munmap_moves (tidy : Tidy holes zero s) {va length : U64}
    (present : ∀ dir, s.dirs pid = some dir → Present va length dir s.mem)
    (ran : s.run files zero (.munmap pid va length) = .ok s') :
    Tidy holes zero s' ∧ Moves files s.fs (s.sections pid) s.memory s'.memory (.munmap pid va length) := by
  have sound := munmap_sound tidy.sound present ran
  obtain ⟨dir,found,ran⟩ := Runs.bind_ok.mp ran
  obtain ⟨⟨dir',mem₁,fs⟩,done,ran⟩ := Runs.bind_ok.mp ran
  cases ran
  have found := Space.dir_ok found
  obtain ⟨root,table,here,_⟩ := tidy.sound.here found
  unfold PageTable.munmap at done
  split at done
  · rename_i outside
    cases done
    have effect : Effect zero (rootsOf s.dirs) (some pid) (fun _ => True)
        (fun v e => valid e → Covered dir.sections v) s.mem s.mem := .refl
    refine ⟨tidy.keep found table rfl sound effect (fun _ covers => covers) (fun _ covers _ => covers) (tidy.heap pid _ found),
      .inl ⟨(Space.sections_of found).symm ▸ outside,?_⟩⟩
    rw [effect.leaves.memory_update table,← Space.memory_of found table,Function.update_eq_self]
  · rename_i before st after split
    obtain ⟨parts,first⟩ := splitAt_parts split
    have member : st ∈ dir.sections := by
      rw [parts]
      exact List.mem_append_right _ List.mem_cons_self
    have alignedLast : ∀ x ∈ before++after, x.flags &&& stHeap ≠ 0#64 → x.last.toNat%pageSize = 0 := by
      intro x there
      refine tidy.heap pid dir found x ?_
      rw [parts]
      rcases List.mem_append.mp there with old | old
      · exact List.mem_append_left _ old
      · exact List.mem_append_right _ (List.mem_cons_of_mem _ old)
    rw [Space.sections_of found]
    split at done
    · cases done
    · rename_i flags
      split at done
      · rename_i whole
        obtain ⟨⟨dir₁,mem₂⟩,zeroed,done⟩ := Runs.bind_ok.mp done
        obtain ⟨pages,loop,done⟩ := Runs.bind_ok.mp done
        obtain ⟨⟨mem₃,fs₁⟩,freed,done⟩ := Runs.bind_ok.mp done
        obtain ⟨fs₂,_,finish⟩ := Runs.bind_ok.mp done
        cases finish
        have enough : (List.replicate length.toNat 0#8).length ≤ length.toNat := by rw [List.length_replicate]
        have covers := userCopy_covered _ enough tidy.sound.sane tidy.zeroRo here table (tidy.covered pid dir root · found table)
          (fun va has => covered_of_has (tidy.laid found) has) zeroed
        obtain ⟨effect,_⟩ : Effect zero (rootsOf s.dirs) (some pid) (fun _ => True)
            (fun v e => valid e → Covered dir.sections v) s.mem mem₂ ∧ _ :=
          userCopy_effect _ enough tidy.sound.sane tidy.zeroRo here table (fun _ _ => trivial)
              (fun k inside _ _ _ => covers k inside) zeroed
        have written := copy_writes _ enough tidy.sound.sane tidy.zeroRo here table zeroed
        obtain ⟨rfl,sane₁⟩ := userCopy_sane length.toNat tidy.sound.sane here table zeroed
        obtain rfl : pages = st.pages := pageLoop_ok loop
        rw [table] at freed
        have drops := freeSectionPages_drops st.pages sane₁ here freed
        have both : Effect zero (rootsOf s.dirs) (some pid) (fun _ => True)
            (fun v e => valid e → Covered dir₁.sections v) s.mem mem₁ :=
          effect.trans (drops.effect.mono (fun _ _ => trivial) fun v e holds set => absurd set (by rw [holds.2]; decide))
        refine ⟨tidy.keep found table rfl sound both (fun _ covers => covers) (fun v covers set => ?_) alignedLast,
          .inr ⟨_,mem₂.memory root,before,st,after,Space.memory_of found table,split,?_⟩⟩
        · rw [parts] at covers
          rcases covered_split covers with rest | ⟨p,page,rfl⟩
          · exact rest
          · exact absurd set (drops.gone _ (List.mem_map_of_mem page))
        · rw [if_pos whole,← drops.memory here]
          exact ⟨written,both.leaves.memory_update table⟩
      · rename_i short
        have shorter : length < st.last-st.first := by
          rw [BitVec.le_def] at short
          rw [BitVec.lt_def]
          omega
        obtain ⟨low,all⟩ := present dir found before st after split shorter
        obtain ⟨pages,loop,done⟩ := Runs.bind_ok.mp done
        obtain ⟨⟨mem₂,fs₁⟩,cut,done⟩ := Runs.bind_ok.mp done
        cases done
        rw [table] at cut
        rw [pageLoop_ok loop,first] at cut
        have sum : (va+length).toNat = va.toNat+length.toNat := by
          rw [BitVec.toNat_add]
          omega
        obtain ⟨part,isPart⟩ : ∃ part : Section, part = { st with first := va, last := va+length } := ⟨_,rfl⟩
        have partPages : part.pages = pagesOf va (va+length) := by rw [isPart]; rfl
        have laid : part.Laid := by
          rw [isPart]
          exact .inr (by simp only; omega)
        have drops := cutPages_drops (pagesOf va (va+length)) tidy.sound.sane here
            (by rw [← partPages]; exact pages_nodup laid) (all root table) cut
        have effect : Effect zero (rootsOf s.dirs) (some pid) (fun _ => True)
            (fun v e => valid e → Covered dir.sections v) s.mem mem₁ :=
          drops.effect.mono (fun _ _ => trivial) fun v e holds set => absurd set (by rw [holds.2]; decide)
        refine ⟨tidy.keep found table rfl sound effect (fun _ covers => covers) (fun v covers set => ?_) (fun x there flag => ?_),
          .inr ⟨_,s.mem.memory root,before,st,after,Space.memory_of found table,split,?_⟩⟩
        · rw [parts] at covers
          have sum' : (st.first+length).toNat = st.first.toNat+length.toNat := by rw [first]; exact sum
          refine covered_front (tidy.laid found st member) sum' covers ?_
          rw [first]
          exact fun dropped => drops.gone v dropped set
        · rcases List.mem_append.mp there with old | there
          · exact alignedLast x (List.mem_append_left _ old) flag
          · rcases List.mem_cons.mp there with rfl | old
            · exact tidy.heap pid dir found st member flag
            · exact alignedLast x (List.mem_append_right _ old) flag
        · rw [if_neg short,← drops.memory here]
          exact effect.leaves.memory_update table

-- One step: what the kernel does to its tables is what the call does to private memories.
theorem Tidy.next (tidy : Tidy holes zero s) {call : Call} (proper : Proper s call)
    (ran : s.run files zero call = .ok s') :
    Tidy holes zero s' ∧ Moves files s.fs (s.sections call.pid) s.memory s'.memory call := by
  cases call with
  | start pid fp => exact start_moves tidy ran
  | execve pid small fp segs args => exact execve_moves tidy proper.1 proper.2.1 proper.2.2 ran
  | execveFails pid small fp segs broken => exact execveFails_moves tidy proper ran
  | sbrk pid size => exact sbrk_moves tidy proper.1 proper.2 ran
  | mmap pid small length shared prot fp offset => exact mmap_moves tidy ran
  | munmap pid va length => exact munmap_moves tidy proper ran
  | fault pid va => exact fault_moves tidy ran
  | store pid va bytes => exact store_moves tidy proper ran
  | fork pid child slab₀ slab₁ fp => exact fork_moves tidy ran
  | exit pid => exact exit_moves tidy ran

theorem Space.Booted.tidy (booted : Space.Booted zero s) (clear : s.mem.pages zero = 0#32768) :
    Tidy ⟨(· = 0#36),s.mem.refs,rfl⟩ zero s := by
  have none : ∀ h : Frame, h = 0#36 → h ∉ s.mem.free := by
    rintro _ rfl
    exact booted.hole
  refine ⟨booted.sound none booted.zero_real fun _ _ => rfl,fun d root v found => ?_,clear,
      fun pid dir root v found => ?_,fun pid dir found => ?_⟩
  · cases d with
    | none => cases found
    | some pid =>
      rw [rootsOf,booted.unused] at found
      cases found
  · rw [booted.unused] at found
    cases found
  · rw [booted.unused] at found
    cases found

end Calls

-- In every run each process has a memory of its own, and every call does to the memories
-- what it says and nothing else.
theorem private_memories {σ : Type} (files : Files σ) {zero : Frame} {start s s' : Space σ}
    (booted : Space.Booted zero start) (clear : start.mem.pages zero = 0#32768)
    (path : Runs.Guarded (Space.next files zero) Proper start s) {call : Call} (proper : Proper s call)
    (ran : s.next files zero call = some s') :
    Moves files s.fs (s.sections call.pid) s.memory s'.memory call ∧ s'.mem.pages zero = 0#32768 ∧
      ∀ pid, pid ≠ call.pid → (∀ parent slab₀ slab₁ fp, call ≠ .fork parent pid slab₀ slab₁ fp) →
      s'.memory pid = s.memory pid := by
  have tidy := path.invariant (Tidy ⟨(· = 0#36),start.mem.refs,rfl⟩ zero) (booted.tidy clear)
    (fun _ _ _ tidy proper ran => (tidy.next proper (Runs.toOption_some ran)).1)
  obtain ⟨tidy',moves⟩ := tidy.next proper (Runs.toOption_some ran)
  exact ⟨moves,tidy'.clear,fun pid other child => moves.others other child⟩

set_option maxRecDepth 20000 in
-- One page of heap, with 7 in it when the process forks. The child stores 9 there.
theorem private_memories_heap : ∃ (s s' : Space Unit) (new : Memory),
    Runs.exec (Space.next noFiles zeroPage) booted [.start 1 none,.sbrk 1 1,.store 1 8#64 [7#8],.fork 1 2 0 0 none] = some s ∧
    s.next noFiles zeroPage (.store 2 8#64 [9#8]) = some s' ∧ s'.memory 1 = s.memory 1 ∧ s'.memory 2 = some new ∧
    new 8 = some 9#8 := by
  obtain ⟨s',ran,_⟩ := Runs.some_such (x := Runs.exec (Space.next noFiles zeroPage) booted
    [.start 1 none,.sbrk 1 1,.store 1 8#64 [7#8],.fork 1 2 0 0 none,.store 2 8#64 [9#8]]) (p := fun _ => true) (by decide +kernel)
  obtain ⟨s₁,first,ran⟩ := Option.bind_eq_some_iff.mp ran
  obtain ⟨s₂,second,ran⟩ := Option.bind_eq_some_iff.mp ran
  obtain ⟨s₃,third,ran⟩ := Option.bind_eq_some_iff.mp ran
  obtain ⟨s₄,fourth,ran⟩ := Option.bind_eq_some_iff.mp ran
  obtain ⟨s₅,fifth,ran⟩ := Option.bind_eq_some_iff.mp ran
  cases ran
  have room : Proper s₁ (.sbrk 1 1) := by
    refine ⟨by decide,fun dir found => ?_⟩
    obtain ⟨s,started,list⟩ := Runs.some_such (x := booted.next noFiles zeroPage (.start 1 none))
      (p := fun s => decide ((s.dirs 1).map PgDir.sections = some (initSections none))) (by decide +kernel)
    rw [first] at started
    cases started
    have list := of_decide_eq_true list
    rw [found,Option.map_some,Option.some.injEq] at list
    intro before st after heap _
    rw [list] at heap
    obtain ⟨rfl,rfl,rfl⟩ : [] = before ∧ (⟨stHeap,0#64,0#64,none,0#64,0#64⟩ : Section) = st ∧ [] = after := by
      have parts : heapOf (initSections none) = some ([],⟨stHeap,0#64,0#64,none,0#64,0#64⟩,[]) := by decide
      rw [parts] at heap
      cases heap
      exact ⟨rfl,rfl,rfl⟩
    exact ⟨by decide,fun x none => absurd none List.not_mem_nil⟩
  have inside : pageOffset 8#64+1 ≤ pageSize := by decide
  have proper : Proper s₄ (.store 2 8#64 [9#8]) := inside
  have path : Runs.Guarded (Space.next noFiles zeroPage) Proper booted s₄ := by
    refine .step (.step (.step (.step .start ?_ first) room second) ?_ third) ?_ fourth
    · exact trivial
    · exact inside
    · exact trivial
  obtain ⟨⟨old,new,_,moved,written⟩,_,others⟩ := private_memories noFiles booted_boots rfl path proper fifth
  refine ⟨s₄,_,new,?_,fifth,others 1 (by decide) ?_,?_,written.inside 0 (by decide)⟩
  · simp only [Runs.exec,first,second,third,fourth,Option.bind_some]
  · rintro parent slab₀ slab₁ fp ⟨⟩
  · rw [moved]
    exact Function.update_self ..

end PageTable
