import HonorKernel.FileOffsets
import HonorKernel.HeapForks

-- Where sys_mmap puts a mapping.
namespace PageTable
open DiskFormat

-- The sections that get_free_vm looks at.
def considered (st : Section) : Prop := st.first < kspaceMask ∧ st.last < kspaceMask ∧ ¬ (st.first = 0#64 ∧ st.last = 0#64)

-- The number of bytes of whole pages around `length`, over the integers.
def wholePages (length : BitVec 32) : Nat := (length.toNat+(pageSize-1))/pageSize*pageSize

structure Placed (length : BitVec 32) (sections : List Section) (st : Section) : Prop where
  order : st.first < st.last
  size : st.last.toNat = st.first.toNat+wholePages length
  user : st.last ≤ kspaceMask
  aligned : pageOffset st.first = 0 ∧ pageOffset st.last = 0
  apart : ∀ other ∈ sections, ∀ va, other.has va → ¬ st.has va

-- What get_free_vm counts on: a length that rounds to less than 2^31, as much room below
-- each section that it looks at, and below a section that it skips another one that it
-- does not.
structure Fitting (length : BitVec 32) (sections : List Section) : Prop where
  whole : wholePages length < 2^31
  room : ∀ st ∈ sections, considered st → wholePages length ≤ st.first.toNat
  shielded : ∀ st ∈ sections, kspaceMask ≤ st.last →
    0x80000000 ≤ st.first.toNat ∨ ∃ other ∈ sections, considered other ∧ (pageBase other.first).toNat ≤ st.first.toNat

section FreeEnd
variable {sections : List Section} {st : Section} {last : U64}

-- One round of the loop of get_free_vm, on *end.
def lowered (last : U64) (st : Section) : U64 :=
  if kspaceMask ≤ st.first ∨ kspaceMask ≤ st.last then last
  else if st.first = 0#64 ∧ st.last = 0#64 then last
  else if st.first < last then pageBase st.first else last

theorem pageBase_aligned (va : U64) : pageOffset (pageBase va) = 0 := by
  rw [pageOffset,pageBase_toNat,Nat.mul_mod_left]

theorem pageBase_le (va : U64) : (pageBase va).toNat ≤ va.toNat := by
  rw [pageBase_toNat]
  exact Nat.div_mul_le_self _ _

theorem lowered_aligned (aligned : pageOffset last = 0) : pageOffset (lowered last st) = 0 := by
  unfold lowered
  split
  · exact aligned
  · split
    · exact aligned
    · split
      · exact pageBase_aligned _
      · exact aligned

theorem lowered_skips (skipped : ¬ considered st) : lowered last st = last := by
  unfold lowered
  split
  · rfl
  · rename_i low
    obtain ⟨first,top⟩ := not_or.mp low
    refine if_pos (not_not.mp fun holds => skipped ⟨BitVec.not_le.mp first,BitVec.not_le.mp top,holds⟩)

theorem lowered_takes (taken : considered st) (aligned : pageOffset last = 0) :
    (lowered last st).toNat = min last.toNat (pageBase st.first).toNat := by
  obtain ⟨first,top,holds⟩ := taken
  unfold lowered
  rw [if_neg (not_or.mpr ⟨BitVec.not_le.mpr first,BitVec.not_le.mpr top⟩),if_neg holds]
  have base := pageBase_le st.first
  split
  · rename_i below
    rw [BitVec.lt_def] at below
    omega
  · rename_i above
    rw [BitVec.lt_def] at above
    have unit : pageSize = 4096 := rfl
    rw [pageOffset,unit] at aligned
    rw [pageBase_toNat,unit]
    omega

theorem lowered_le (aligned : pageOffset last = 0) (bound : Nat) :
    (lowered last st).toNat ≤ bound ↔ last.toNat ≤ bound ∨ considered st ∧ (pageBase st.first).toNat ≤ bound := by
  by_cases taken : considered st
  · rw [lowered_takes taken aligned,min_le_iff]
    exact or_congr_right (and_iff_right taken).symm
  · rw [lowered_skips taken]
    exact (or_iff_left fun both => taken both.1).symm

theorem freeEnd_spec (sections : List Section) : pageOffset (freeEnd sections) = 0 ∧ ∀ bound,
    (freeEnd sections).toNat ≤ bound ↔
    0x80000000 ≤ bound ∨ ∃ st ∈ sections, considered st ∧ (pageBase st.first).toNat ≤ bound := by
  have general : ∀ (sections : List Section) (last : U64), pageOffset last = 0 →
      pageOffset (sections.foldl lowered last) = 0 ∧ ∀ bound, (sections.foldl lowered last).toNat ≤ bound ↔
        last.toNat ≤ bound ∨ ∃ st ∈ sections, considered st ∧ (pageBase st.first).toNat ≤ bound := by
    intro sections
    induction sections with
    | nil => exact fun last aligned => ⟨aligned,fun bound => by simp⟩
    | cons st rest ih =>
      intro last aligned
      obtain ⟨result,least⟩ := ih (lowered last st) (lowered_aligned aligned)
      refine ⟨result,fun bound => ?_⟩
      rw [List.foldl_cons,least bound,lowered_le aligned bound,List.exists_mem_cons_iff,or_assoc]
  exact general sections 0x80000000#64 (by decide)

theorem freeEnd_under (sections : List Section) : (freeEnd sections).toNat ≤ 0x80000000 :=
  ((freeEnd_spec sections).2 _).mpr (.inl (Nat.le_refl _))

end FreeEnd

end PageTable

namespace FileTable
open DiskFormat CacheView InodeLayer SysFile PageTable

section Rounding
variable {length : BitVec 32}

theorem align_mask (x : BitVec 32) : (x &&& ~~~(4095#32)).toNat = x.toNat/4096*4096 := by
  have shifted : x &&& ~~~(4095#32) = x >>> 12 <<< 12 := by
    apply BitVec.eq_of_getLsbD_eq
    intro i small
    have ones : (4095#32).getLsbD i = decide (i < 12) := by
      rw [BitVec.getLsbD_ofNat,show 4095 = 2^12-1 from rfl,Nat.testBit_two_pow_sub_one]
      simp [small]
    rw [BitVec.getLsbD_and,BitVec.getLsbD_not,ones,BitVec.getLsbD_shiftLeft,BitVec.getLsbD_ushiftRight]
    by_cases low : i < 12
    · simp [low]
    · have place : 12+(i-12) = i := by omega
      simp [low,small,place]
  have bound := x.isLt
  rw [shifted,BitVec.toNat_shiftLeft,BitVec.toNat_ushiftRight,Nat.shiftRight_eq_div_pow,Nat.shiftLeft_eq]
  omega

theorem positive_int (positive : ¬ length.toInt ≤ 0) : 0 < length.toNat ∧ length.toNat < 2^31 := by
  rw [BitVec.toInt_eq_toNat_cond] at positive
  split at positive <;> omega

theorem wholePages_bounds (positive : ¬ length.toInt ≤ 0) :
    0 < wholePages length ∧ wholePages length ≤ 2^31 ∧ wholePages length%pageSize = 0 := by
  obtain ⟨some_bytes,small⟩ := positive_int positive
  have unit : pageSize = 4096 := rfl
  rw [wholePages,unit]
  omega

theorem alignInt_toNat (positive : ¬ length.toInt ≤ 0) : (alignInt length).toNat = wholePages length := by
  obtain ⟨_,small⟩ := positive_int positive
  have sum : (length+BitVec.ofNat 32 pageSize-1#32).toNat = length.toNat+4095 := by
    rw [BitVec.toNat_sub,BitVec.toNat_add]
    simp only [BitVec.toNat_ofNat,show pageSize = 4096 from rfl]
    omega
  rw [alignInt,align_mask,sum,wholePages,show pageSize = 4096 from rfl]

theorem aligned_length (positive : ¬ length.toInt ≤ 0) : ((alignInt length).signExtend 64).toNat =
    if wholePages length < 2^31 then wholePages length else 2^64-2^31 := by
  have size := alignInt_toNat positive
  obtain ⟨_,top,_⟩ := wholePages_bounds positive
  have small : wholePages length%2^64 = wholePages length := Nat.mod_eq_of_lt (by omega)
  have sign : (alignInt length).msb = decide (2^31 ≤ wholePages length) := by rw [BitVec.msb_eq_decide,size]
  rw [BitVec.toNat_signExtend,BitVec.toNat_setWidth,size,small,sign]
  by_cases whole : wholePages length < 2^31
  · rw [if_pos whole,decide_eq_false (Nat.not_le.mpr whole),if_neg Bool.false_ne_true]
    exact Nat.add_zero _
  · rw [if_neg whole,decide_eq_true (Nat.not_lt.mp whole),if_pos (Eq.refl true),Nat.le_antisymm top (Nat.not_lt.mp whole)]
    omega

end Rounding

section Region
variable {length : BitVec 32} {sections : List Section} {st : Section}

-- The region of get_free_vm is no longer than the room below its end: then it is found by
-- a subtraction of integers.
theorem region_first (sections : List Section) (positive : ¬ length.toInt ≤ 0) :
    let first := (getFreeVm sections ((alignInt length).signExtend 64)).1
    let last := freeEnd sections
    last.toNat = first.toNat+wholePages length ↔ wholePages length < 2^31 ∧ wholePages length ≤ last.toNat := by
  have top := freeEnd_under sections
  obtain ⟨_,most,_⟩ := wholePages_bounds positive
  have taken := aligned_length positive
  simp only [getFreeVm,BitVec.toNat_sub,taken]
  split <;> omega

theorem placed_fitting (positive : ¬ length.toInt ≤ 0)
    (first : st.first = (getFreeVm sections ((alignInt length).signExtend 64)).1)
    (last : st.last = freeEnd sections) : Placed length sections st ↔ Fitting length sections := by
  have region := region_first sections positive
  simp only [← first,← last] at region
  obtain ⟨aligned,least⟩ := freeEnd_spec sections
  have top := freeEnd_under sections
  rw [← last] at aligned least top
  obtain ⟨some_pages,_,multiple⟩ := wholePages_bounds positive
  have mask : kspaceMask.toNat = 0xFFFF000000000000 := rfl
  have unit : pageSize = 4096 := rfl
  constructor
  · intro placed
    obtain ⟨whole,room⟩ := region.mp placed.size
    refine ⟨whole,fun other member taken => ?_,fun other member high => ?_⟩
    · have under := (least _).mpr (.inr ⟨other,member,taken,Nat.le_refl _⟩)
      have base := pageBase_le other.first
      omega
    · refine (least _).mp (Nat.not_lt.mp fun below => ?_)
      -- The last byte of the region is in both.
      have order := BitVec.lt_def.mp placed.order
      rw [BitVec.le_def,mask] at high
      have byte : (st.last-1#64).toNat = st.last.toNat-1 := by
        rw [BitVec.toNat_sub]
        simp only [BitVec.toNat_ofNat]
        omega
      refine placed.apart other member (st.last-1#64) ⟨BitVec.le_def.mpr ?_,BitVec.lt_def.mpr ?_⟩ ⟨BitVec.le_def.mpr ?_,BitVec.lt_def.mpr ?_⟩ <;> omega
  · intro fitting
    have room : wholePages length ≤ st.last.toNat := by
      rcases (least _).mp (Nat.le_refl _) with free | ⟨other,member,taken,under⟩
      · have whole := fitting.whole
        omega
      · have below := fitting.room other member taken
        rw [unit] at multiple
        rw [pageBase_toNat,unit] at under
        omega
    have size := region.mpr ⟨fitting.whole,room⟩
    refine ⟨BitVec.lt_def.mpr (by omega),size,BitVec.le_def.mpr (by omega),⟨?_,aligned⟩,?_⟩
    · rw [pageOffset,unit] at aligned ⊢
      rw [unit] at multiple
      omega
    · rintro other member va ⟨lower,upper⟩ ⟨_,inside⟩
      rw [BitVec.le_def] at lower
      rw [BitVec.lt_def] at upper inside
      by_cases taken : considered other
      · have under := (least _).mpr (.inr ⟨other,member,taken,Nat.le_refl _⟩)
        have base := pageBase_le other.first
        omega
      · have skipped : kspaceMask ≤ other.first ∨ kspaceMask ≤ other.last ∨ other.last = 0#64 := by
          by_contra all
          simp only [not_or,BitVec.not_le] at all
          exact taken ⟨all.1,all.2.1,fun holds => all.2.2 holds.2⟩
        rcases skipped with high | high | empty
        · rw [BitVec.le_def,mask] at high
          omega
        · have under := (least _).mpr (fitting.shielded other member high)
          omega
        · rw [empty] at upper
          exact Nat.not_lt_zero _ upper

end Region

section Calls
variable {n : Nat} {env : Env} {io io' : Io n} {pid : Fin n} {p : Process}

theorem lift_ok {x : Except Fault α} : lift x = .ok a ↔ x = .ok a := by
  cases x with
  | error e => simp [lift]
  | ok b => simp [lift]

theorem ioRead_procs {f : Nat} {count : Usize} (ran : ioRead env f count io = .ok io') :
    io'.kernel.procs = io.kernel.procs := by
  unfold ioRead at ran
  simp only at ran
  split at ran
  · cases ran
    rfl
  · split at ran
    · obtain ⟨fs₁,_,ran⟩ := Runs.bind_ok.mp ran
      obtain ⟨inode,_,ran⟩ := Runs.bind_ok.mp ran
      split at ran
      · cases ran
      · obtain ⟨⟨nread,bytes,fs₂⟩,_,ran⟩ := Runs.bind_ok.mp ran
        obtain ⟨fs₃,_,ran⟩ := Runs.bind_ok.mp ran
        cases ran
        rfl
    · cases ran

-- When the call has put a section on the list, its bounds are those of get_free_vm.
theorem ioMmap_region {fd : Int} {length prot flags offset : BitVec 32} {st : Section}
    (holds : io.kernel.procs pid = some p) (ran : ioMmap env pid fd length prot flags offset io = .ok io')
    (mapped : (io'.kernel.procs pid).map (·.sections) = some (st::p.sections)) :
    ¬ length.toInt ≤ 0 ∧ st.first = (getFreeVm p.sections ((alignInt length).signExtend 64)).1 ∧
    st.last = freeEnd p.sections := by
  have unchanged : (io.kernel.procs pid).map (·.sections) ≠ some (st::p.sections) := by
    rw [holds]
    intro same
    exact List.ne_cons_self (Option.some.inj same)
  unfold ioMmap at ran
  simp only at ran
  obtain ⟨p',held,ran⟩ := Runs.bind_ok.mp ran
  cases (Kernel.proc_ok (lift_ok.mp held)).symm.trans holds
  split at ran
  · cases ran
    exact absurd mapped unchanged
  · rename_i accepted
    split at ran
    · cases ran
      exact absurd mapped unchanged
    · rename_i f slot
      split at ran
      · cases ran
        exact absurd mapped unchanged
      · split at ran
        · cases ran
          exact absurd mapped unchanged
        · obtain ⟨k,_,ran⟩ := Runs.bind_ok.mp ran
          rw [ioRead_procs ran] at mapped
          simp only [Io.seek,Kernel.setProc,Function.update_self,Option.map_some,Process.setSections,Option.some.injEq,
            List.cons.injEq,and_true] at mapped
          subst mapped
          exact ⟨fun short => accepted (.inr (.inr short)),rfl,rfl⟩

theorem ioRead_fileRead {f : Nat} {count : Usize} (ran : ioRead env f count io = .ok io') : ∃ fs,
    fileRead env (io.kernel.files f) (io.off f) count io.kernel.fs = .ok fs ∧ io'.kernel = { io.kernel with fs := fs } := by
  unfold ioRead at ran
  unfold fileRead
  simp only at ran
  split at ran
  · rename_i ended
    cases ran
    exact ⟨io.kernel.fs,if_pos ended,rfl⟩
  · rename_i readable
    rw [if_neg readable]
    split at ran
    · rename_i inode
      rw [if_pos inode]
      obtain ⟨fs₁,locked,ran⟩ := Runs.bind_ok.mp ran
      obtain ⟨_,_,ran⟩ := Runs.bind_ok.mp ran
      split at ran
      · cases ran
      · obtain ⟨⟨nread,bytes,fs₂⟩,read,ran⟩ := Runs.bind_ok.mp ran
        obtain ⟨fs₃,unlocked,ran⟩ := Runs.bind_ok.mp ran
        cases ran
        refine ⟨fs₃,?_,rfl⟩
        rw [lift_ok.mp locked]
        change (inodeRead env _ _ count fs₁ >>= _) = _
        rw [lift_ok.mp read]
        exact lift_ok.mp unlocked
    · cases ran

-- What the call does to the tables is the same with and without the offsets.
theorem ioMmap_sysMmap {fd : Int} {length prot flags offset : BitVec 32}
    (checked : ¬ ((prot.signExtend 64 : U64) = protNone ∨ (prot.signExtend 64 : U64) &&& protExec ≠ 0#64 ∨
    length.toInt ≤ 0))
    (ran : ioMmap env pid fd length prot flags offset io = .ok io') : ∃ done,
    sysMmap env pid fd ((alignInt length).signExtend 64) flags (prot.signExtend 64)
    (offset.signExtend 64) io.kernel = .ok (done,io'.kernel) := by
  unfold ioMmap at ran
  unfold sysMmap
  simp only at ran
  obtain ⟨p,held,ran⟩ := Runs.bind_ok.mp ran
  rw [lift_ok.mp held]
  simp only [bind,Except.bind]
  rw [if_neg checked] at ran
  cases slot : fd2file p fd with
  | none =>
    rw [slot] at ran
    cases ran
    exact ⟨false,rfl⟩
  | some f =>
    rw [slot] at ran
    simp only at ran ⊢
    split at ran
    · rename_i refused
      cases ran
      exact ⟨false,if_pos refused⟩
    · rename_i writable
      rw [if_neg writable]
      split at ran
      · rename_i full
        cases ran
        exact ⟨false,if_pos full⟩
      · rename_i room
        rw [if_neg room]
        obtain ⟨k,dupped,ran⟩ := Runs.bind_ok.mp ran
        obtain ⟨fs,read,same⟩ := ioRead_fileRead ran
        simp only [Io.seek,Function.update_self] at read
        change fileRead env (k.files f) _ _ k.fs = .ok fs at read
        rw [lift_ok.mp dupped]
        simp only [read,same]
        exact ⟨true,rfl⟩

theorem mmap_sysMmap {σ : Type} {files : Files σ} {fd : Int} {f : Nat} {length prot offset : U64} {flags : BitVec 32}
    {dir dir' : PgDir} {mem mem' : Mem} {fs fs' : σ} {va : Option U64} {k k' : Kernel n} {done : Bool}
    (holds : k.procs pid = some p) (opened : fd2file p fd = some f) (sections : dir.sections = p.sections)
    (writes : prot &&& protWrite ≠ 0#64 → (k.files f).writable = true ∨ flags = mapPrivate)
    (ran : sysMmap env pid fd length flags prot offset k = .ok (done,k'))
    (mapped : PageTable.mmap files length (decide (flags &&& mapShared ≠ 0#32)) prot f offset dir mem fs = .ok (va,dir',mem',fs')) :
    va.isSome = done ∧ (k'.procs pid).map (·.sections) = some dir'.sections := by
  obtain ⟨p',there,ran⟩ := Runs.bind_ok.mp ran
  cases (Kernel.proc_ok there).symm.trans holds
  have passes : ¬ (prot &&& protWrite ≠ 0#64 ∧ (k.files f).writable = false ∧ flags ≠ mapPrivate) := by
    rintro ⟨write,closed,other⟩
    rcases writes write with open_ | mine
    · rw [closed] at open_
      cases open_
    · exact other mine
  unfold PageTable.mmap at mapped
  simp only [opened,if_neg passes] at ran
  simp only [sections] at mapped
  by_cases full : (getFreeVm p.sections length).2 = (getFreeVm p.sections length).1 ∨ pageOffset (getFreeVm p.sections length).1 ≠ 0
  · rw [if_pos full] at ran mapped
    cases ran
    cases mapped
    exact ⟨rfl,by rw [holds,sections]; rfl⟩
  · rw [if_neg full] at ran mapped
    obtain ⟨k₁,dupped,ran⟩ := Runs.bind_ok.mp ran
    obtain ⟨fs₁,_,ran⟩ := Runs.bind_ok.mp ran
    obtain ⟨⟨bytes,fs₂⟩,_,mapped⟩ := Runs.bind_ok.mp mapped
    obtain ⟨⟨dir₁,mem₁⟩,copied,mapped⟩ := Runs.bind_ok.mp mapped
    cases ran
    cases mapped
    refine ⟨rfl,?_⟩
    rw [PageTable.userCopy_sections _ copied]
    simp [Kernel.setProc,Process.setSections]

theorem mmap_placed {fd : Int} {length prot flags offset : BitVec 32} {st : Section}
    (holds : io.kernel.procs pid = some p) (ran : ioMmap env pid fd length prot flags offset io = .ok io')
    (mapped : (io'.kernel.procs pid).map (·.sections) = some (st::p.sections)) :
    Placed length p.sections st ↔ Fitting length p.sections := by
  obtain ⟨positive,first,last⟩ := ioMmap_region holds ran mapped
  exact placed_fitting positive first last

end Calls

-- The file that the process has opened is mapped; `sections` is the list before it.
def mapFirst (sections : List Section) (io : Io 1) : Option (Section × Io 1 × Io 1) := do
  let p ← io.kernel.procs 0
  let io : Io 1 := { io with kernel := io.kernel.setProc 0 (some (p.setSections sections)) }
  let io' ← (ioMmap blankEnv 0 0 1#32 3#32 2#32 0#32 io).toOption
  let p' ← io'.kernel.procs 0
  let st ← p'.sections.head?
  if p'.sections = st::sections then some (st,io,io') else none

theorem mapFirst_maps {sections : List Section} {io io₁ io₂ : Io 1} {st : Section}
    (ran : mapFirst sections io = some (st,io₁,io₂)) :
    (∃ p, io₁.kernel.procs 0 = some p ∧ p.sections = sections) ∧ ioMmap blankEnv 0 0 1#32 3#32 2#32 0#32 io₁ = .ok io₂ ∧
      (io₂.kernel.procs 0).map (·.sections) = some (st::sections) := by
  obtain ⟨p,_,ran⟩ := Option.bind_eq_some_iff.mp ran
  obtain ⟨io',mapped,ran⟩ := Option.bind_eq_some_iff.mp ran
  obtain ⟨p',here,ran⟩ := Option.bind_eq_some_iff.mp ran
  obtain ⟨st',_,ran⟩ := Option.bind_eq_some_iff.mp ran
  split at ran
  · rename_i list
    cases ran
    refine ⟨⟨p.setSections sections,by simp only [Kernel.setProc,Function.update_self],rfl⟩,?_,by rw [here]; exact congrArg some list⟩
    exact Runs.toOption_some mapped
  · cases ran

-- A first mapping of one byte.
theorem mmap_placed_one : ∃ (io io' : Io 1) (p : Process) (st : Section), io.kernel.procs 0 = some p ∧
    ioMmap blankEnv 0 0 1#32 3#32 2#32 0#32 io = .ok io' ∧ Placed 1#32 p.sections st := by
  obtain ⟨⟨st,io,io'⟩,ran,_⟩ := Runs.some_such (x := (ioNext blankEnv firstIo (.openat 0 none false true)).bind
      (mapFirst (initSections none)))
    (p := fun _ => true) (by decide +kernel)
  obtain ⟨io₀,_,ran⟩ := Option.bind_eq_some_iff.mp ran
  obtain ⟨⟨p,holds,list⟩,maps,mapped⟩ := mapFirst_maps ran
  rw [← list] at mapped
  refine ⟨io,io',p,st,holds,maps,(mmap_placed holds maps mapped).mpr ?_⟩
  rw [list]
  exact ⟨by decide,by simp [initSections,considered],by simp [initSections,kspaceMask]⟩

-- sbrk(1) before the mapping: the heap begins at 0 and nothing is below it.
theorem mmap_wraps : ∃ (io io' : Io 1) (p : Process) (st : Section), io.kernel.procs 0 = some p ∧
    (∀ pt mem, sbrk 1 ⟨pt,initSections none⟩ mem = .ok (0#64,⟨pt,p.sections⟩,mem)) ∧
    ioMmap blankEnv 0 0 1#32 3#32 2#32 0#32 io = .ok io' ∧
    (io'.kernel.procs 0).map (·.sections) = some (st::p.sections) ∧
    ¬ Placed 1#32 p.sections st := by
  obtain ⟨⟨st,io,io'⟩,ran,result⟩ := Runs.some_such
    (x := (ioNext blankEnv firstIo (.openat 0 none false true)).bind (mapFirst [⟨stHeap,0#64,0x1000#64,none,0#64,0#64⟩]))
    (p := fun r => decide (r.1.first = 0xFFFFFFFFFFFFF000#64 ∧ r.1.last = 0#64)) (by decide +kernel)
  obtain ⟨io₀,_,ran⟩ := Option.bind_eq_some_iff.mp ran
  obtain ⟨⟨p,holds,list⟩,maps,mapped⟩ := mapFirst_maps ran
  obtain ⟨first,last⟩ := of_decide_eq_true result
  refine ⟨io,io',p,st,holds,?_,maps,by rw [list]; exact mapped,fun placed => ?_⟩
  · rw [list]
    exact fun pt mem => rfl
  · have order := placed.order
    simp only at first last
    rw [first,last] at order
    exact absurd order (by decide)

end FileTable
