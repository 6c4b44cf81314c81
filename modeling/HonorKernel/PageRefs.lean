import HonorKernel.PageCounts
import HonorKernel.MappedFiles

-- get_page_ref and the entries of pages_ref that vmmap and kfree_page count in.
namespace PageTable
open DiskFormat BitSlice

-- The address macros of mmu.h and mem.h.
def p2k (addr : U64) : U64 := addr+kspaceMask
def kspace (addr : U64) : U64 := addr ||| kspaceMask
def extmem : U64 := 0x40000000#64
def pageIndex (base : U64) : U64 := (kspace base-p2k extmem)/BitVec.ofNat 64 pageSize

-- PADDR of a page.
def frameAddr (p : Frame) : U64 := p.setWidth 64 <<< 12

-- The count is an isize and comes back as a usize.
def getPageRef (mem : Mem) (addr : U64) : U64 := BitVec.ofInt 64 (mem.refs ((pageIndex (pageBase addr)).setWidth 36))

theorem frameAddr_toNat (p : Frame) : (frameAddr p).toNat = p.toNat*4096 := by
  have small := p.isLt
  unfold frameAddr
  rw [BitVec.toNat_shiftLeft,BitVec.toNat_setWidth,Nat.shiftLeft_eq]
  omega

theorem p2k_frame (p : Frame) : p2k (frameAddr p) = kspace (frameAddr p) := by
  refine BitVec.add_eq_or_of_and_eq_zero _ _ ?_
  have mask : kspaceMask = 0xFFFF#64 <<< 48 := by decide
  rw [frameAddr,mask]
  ext i inside
  simp only [BitVec.getElem_and,BitVec.getElem_shiftLeft,BitVec.getElem_setWidth,BitVec.getElem_zero]
  by_cases low : i < 48
  · rw [decide_eq_true low,Bool.not_true,Bool.false_and,Bool.and_false]
  · rw [BitVec.getLsbD_of_ge p (i-12) (by omega),Bool.and_false,Bool.false_and]

theorem p2k_toNat (p : Frame) : (p2k (frameAddr p)).toNat = p.toNat*4096+0xFFFF000000000000 := by
  have small := p.isLt
  rw [p2k,BitVec.toNat_add,frameAddr_toNat,show kspaceMask.toNat = 0xFFFF000000000000 from rfl]
  omega

theorem pageIndex_frame {p : Frame} (ram : inRam p) :
    (pageIndex (pageBase (p2k (frameAddr p)))).setWidth 36 = p-0x40000#36 := by
  obtain ⟨lower,upper⟩ := ram
  have base : pageBase (p2k (frameAddr p)) = p2k (frameAddr p) := by
    apply BitVec.eq_of_toNat_eq
    rw [pageBase_toNat,p2k_toNat,show pageSize = 4096 from rfl]
    omega
  have again : kspace (p2k (frameAddr p)) = p2k (frameAddr p) := by
    rw [p2k_frame,kspace,kspace,BitVec.or_assoc,BitVec.or_self]
  have above : (p2k (frameAddr p)-p2k extmem).toNat = (p.toNat-0x40000)*4096 := by
    rw [BitVec.toNat_sub,p2k_toNat,show (p2k extmem).toNat = 0xFFFF000040000000 by decide]
    omega
  have frame : (p-0x40000#36).toNat = p.toNat-0x40000 := by
    rw [BitVec.toNat_sub,show (0x40000#36).toNat = 0x40000 from rfl]
    omega
  apply BitVec.eq_of_toNat_eq
  rw [pageIndex,base,again,BitVec.toNat_setWidth,BitVec.toNat_udiv,above,frame,show (BitVec.ofNat 64 pageSize).toNat = 4096 from rfl,
    Nat.mul_div_cancel _ (by decide)]
  omega

theorem getPageRef_frame {p : Frame} (mem : Mem) (ram : inRam p) :
    getPageRef mem (p2k (frameAddr p)) = BitVec.ofInt 64 (pageRef mem p) := by
  unfold getPageRef pageRef
  rw [pageIndex_frame ram]

namespace Counting

-- What vmmap and kfree_page count since kalloc_page, beside the pages themselves.
structure Tally (D : Type) where
  state : State D
  mappings : Frame → Int

section Tallies
variable {D : Type} [DecidableEq D]

-- A call that traps counts nothing.
def tallied (s : State D) (mappings : Frame → Int) : PageCall D → Frame → Int
  | .kalloc =>
    match kallocPage s.mem with
    | .ok p _ => Function.update mappings p 0
    | .error _ _ => mappings
  | .kfree p => Function.update mappings p (mappings p-1)
  | .vmmap d va ka flags =>
    match Counting.vmmap va ka flags (s.roots d) s.mem with
    | .ok _ _ => Function.update mappings ka (mappings ka+1)
    | .error _ _ => mappings

-- What is mapped is a page of memory.
def mapsPage (pages : List Frame) : PageCall D → Prop
  | .vmmap _ _ ka _ => ka ∈ pages
  | _ => True

instance (pages : List Frame) (call : PageCall D) : Decidable (mapsPage pages call) :=
  match call with
  | .vmmap _ _ ka _ => inferInstanceAs (Decidable (ka ∈ pages))
  | .kalloc | .kfree _ => inferInstanceAs (Decidable True)

def Tally.next (pages : List Frame) (t : Tally D) (call : PageCall D) : Option (Tally D) :=
  if mapsPage pages call then (Counting.next t.state call).map fun s => ⟨s,tallied t.state t.mappings call⟩ else none

end Tallies

section Refs
variable {D : Type} {roots : D → Option Frame} {mem mem' : Mem} {d : D} {root : Frame} {pt : Option Frame}
  {va flags : U64} {ka q : Frame}

theorem vmmap_refs_found (own : Tables mem roots) (here : roots d = some root)
    (ran : PageTable.vmmap va ka flags (some root) mem = .ok (pt,mem')) (off : q ∉ mem.free) :
    mem'.refs q = if q = ka then mem.refs q+1 else mem.refs q := by
  obtain ⟨⟨slot,pt',middle⟩,got,ran⟩ := Runs.bind_ok.mp ran
  obtain ⟨widens,rfl,x,rfl,_,_⟩ := getPte_widens own here got
  obtain ⟨_,same,ran⟩ := Runs.bind_ok.mp ran
  cases same
  obtain ⟨rfl,rfl⟩ := Prod.mk.inj (Except.ok.inj ran)
  have still := widens.refs q off
  change Function.update middle.refs ka (middle.refs ka+1) q = _
  split
  · rename_i same
    subst same
    rw [Function.update_self,still]
  · rename_i other
    rw [Function.update_of_ne other,still]

-- Off the queue vmmap touches the count of the page that it maps and no other.
theorem vmmap_refs [DecidableEq D] (own : Tables mem roots)
    (ran : PageTable.vmmap va ka flags (roots d) mem = .ok (pt,mem')) (off : q ∉ mem.free) :
    mem'.refs q = if q = ka then mem.refs q+1 else mem.refs q := by
  cases here : roots d with
  | some root => exact vmmap_refs_found own here (here ▸ ran) off
  | none =>
    rw [here,vmmap_root] at ran
    obtain ⟨⟨root,middle⟩,took,ran⟩ := Runs.bind_ok.mp ran
    obtain ⟨queue,_,refs,_⟩ := kzallocPage_cases took
    rw [queue,List.mem_cons,not_or] at off
    have still : middle.refs q = mem.refs q := by rw [refs,Function.update_of_ne off.1]
    rw [← still]
    exact vmmap_refs_found (kzallocPage_tables own took d) (Function.update_self ..) ran off.2

end Refs

section Agreement
variable {D : Type} [DecidableEq D] {pages : List Frame} {mem : Mem} {s : State D} {t t' : Tally D} {zero p : Frame}
  {call : PageCall D}

-- Frames outside of memory keep the count that they had when kinit ran; a page that is held
-- has its own count, the zero page one more.
structure Told (pages : List Frame) (zero : Frame) (mem : Mem) (t : Tally D) : Prop where
  inv : Inv pages t.state
  outer : ∀ q, q ∉ pages → t.state.mem.refs q = mem.refs q
  own : ∀ q ∈ t.state.held, q ≠ zero → t.state.mem.refs q = t.mappings q

theorem Told.kalloc (told : Told pages zero mem t) (awake : t.state.halted = false)
    (still : (t.state.run .kalloc).halted = false) :
    Told pages zero mem ⟨t.state.run .kalloc,tallied t.state t.mappings .kalloc⟩ := by
  rcases kallocPage_spends t.state.mem with ⟨p,mem',ran,took,queue,_⟩ | ⟨_,mem',ran,_⟩
  · refine ⟨(told.inv.kalloc awake).inv still,?_,?_⟩
    all_goals simp only [State.run,tallied,ran,(kallocPage_counts took).2.2.1]
    · intro q outer
      rw [Function.update_of_ne]
      · exact told.outer q outer
      · rintro rfl
        exact outer (told.inv.inside q (by rw [queue]; exact List.mem_cons_self))
    · intro q held other
      by_cases fresh : q = p
      · rw [fresh,Function.update_self,Function.update_self]
      · rw [Function.update_of_ne fresh,Function.update_of_ne fresh]
        exact told.own q ((List.mem_cons.mp held).resolve_left fresh) other
  · simp only [State.run,ran] at still
    cases still

theorem Told.kfree (told : Told pages zero mem t) (awake : t.state.halted = false) (mine : p ∈ t.state.held) :
    Told pages zero mem ⟨t.state.run (.kfree p),tallied t.state t.mappings (.kfree p)⟩ := by
  refine ⟨(told.inv.kfree awake mine).inv awake,?_,?_⟩
  all_goals simp only [State.run,tallied,kfreePage_refs]
  · intro q outer
    rw [Function.update_of_ne]
    · exact told.outer q outer
    · rintro rfl
      exact outer (told.inv.held q mine).1
  · intro q held other
    have before := told.own q (List.mem_filter.mp held).1 other
    by_cases same : q = p
    · subst same
      rw [Function.update_self,Function.update_self,before]
    · rw [Function.update_of_ne same,Function.update_of_ne same,before]

theorem Told.vmmap (told : Told pages zero mem t) (awake : t.state.halted = false) {d : D} {va flags : U64}
    {ka : Frame} (paged : ka ∈ pages) (still : (t.state.run (.vmmap d va ka flags)).halted = false) :
    Told pages zero mem ⟨t.state.run (.vmmap d va ka flags),tallied t.state t.mappings (.vmmap d va ka flags)⟩ := by
  rcases vmmap_spends va ka flags told.inv.tables d with ⟨_,root,mem',ran,ran',spent⟩ | ⟨_,mem',ran,_⟩
  · refine ⟨(told.inv.vmmap awake d va ka flags).inv still,?_,?_⟩
    all_goals simp only [State.run,tallied,ran]
    · intro q outer
      have other : q ≠ ka := fun same => outer (same ▸ paged)
      rw [vmmap_refs told.inv.tables ran' fun free => outer (told.inv.inside q free),if_neg other]
      exact told.outer q outer
    · intro q held other
      rw [vmmap_refs told.inv.tables ran' (told.inv.held q held).2.1,Function.update_apply,told.own q held other]
      split
      · rename_i same
        rw [same]
      · rfl
  · simp only [State.run,ran] at still
    cases still

theorem Told.step (told : Told pages zero mem t) (ran : Tally.next pages t call = some t')
    (awake : t'.state.halted = false) :
    Told pages zero mem t' := by
  unfold Tally.next at ran
  split at ran
  · rename_i paged
    obtain ⟨s',called,rfl⟩ := Option.map_eq_some_iff.mp ran
    unfold Counting.next at called
    split at called
    · rename_i may
      cases called
      cases call with
      | kalloc => exact told.kalloc may.1 awake
      | kfree p => exact told.kfree may.1 may.2
      | vmmap d va ka flags => exact told.vmmap may.1 paged awake
    · cases called
  · cases ran

theorem Tally.next_awake (ran : Tally.next pages t call = some t') : t.state.halted = false := by
  unfold Tally.next at ran
  split at ran
  · obtain ⟨s',called,rfl⟩ := Option.map_eq_some_iff.mp ran
    unfold Counting.next at called
    split at called
    · rename_i may
      exact may.1
    · cases called
  · cases ran

theorem initPage_refs (pages : List Frame) (mem : Mem) : (initPage pages mem).refs = mem.refs := by
  induction pages generalizing mem with
  | nil => rfl
  | cons p rest ih => exact ih (mem.addToQueue p)

omit [DecidableEq D] in
theorem boot_told (once : pages.Nodup) (booted : boot pages mem = some s) :
    ∃ zero, Told pages zero mem ⟨s,fun _ => 0⟩ := by
  have inv := (boot_inv once booted).2.1
  obtain ⟨start,zero,middle,is,took,_,rfl⟩ := boot_shape booted
  obtain ⟨_,_,refs,_⟩ := kzallocPage_cases took
  have first := inv.held zero List.mem_cons_self
  refine ⟨zero,inv,?_,fun q held other => absurd (List.mem_singleton.mp held) other⟩
  intro q outer
  have other : q ≠ zero := fun same => outer (same ▸ first.1)
  change Function.update middle.refs zero 1 q = mem.refs q
  rw [Function.update_of_ne other,refs,Function.update_of_ne other,is,initPage_refs]

theorem reached_told (once : pages.Nodup) (booted : boot pages mem = some s)
    (reached : Runs.Reached (Tally.next pages) ⟨s,fun _ => 0⟩ t) :
    ∃ zero, t.state.halted = false → Told pages zero mem t := by
  obtain ⟨zero,told⟩ := boot_told once booted
  refine ⟨zero,reached.invariant (fun t => t.state.halted = false → Told pages zero mem t) (fun _ => told) ?_⟩
  intro t call t' before _ ran awake
  exact (before (Tally.next_awake ran)).step ran awake

end Agreement

-- The writers keep the number, the zero page apart, whose count kinit sets to 1.
theorem refs_counted {D : Type} [DecidableEq D] {pages : List Frame} {mem : Mem} {s : State D} {t : Tally D}
    (once : pages.Nodup) (booted : boot pages mem = some s)
    (reached : Runs.Reached (Tally.next pages) ⟨s,fun _ => 0⟩ t) (awake : t.state.halted = false) :
    ∃ zero, ∀ p ∈ t.state.held, p ≠ zero → t.state.mem.refs p = t.mappings p := by
  obtain ⟨zero,told⟩ := reached_told once booted reached
  exact ⟨zero,(told awake).own⟩

-- The reader looks 0x40000 entries lower, where nothing is ever written.
theorem page_ref_agrees {D : Type} [DecidableEq D] {pages : List Frame} {mem : Mem} {s : State D} {t : Tally D}
    {p : Frame} (once : pages.Nodup) (ram : ∀ p ∈ pages, inRam p) (booted : boot pages mem = some s)
    (reached : Runs.Reached (Tally.next pages) ⟨s,fun _ => 0⟩ t) (awake : t.state.halted = false)
    (held : p ∈ t.state.held) :
    getPageRef t.state.mem (p2k (frameAddr p)) = BitVec.ofInt 64 (t.mappings p) ↔
      BitVec.ofInt 64 (mem.refs (p-0x40000#36)) = BitVec.ofInt 64 (t.mappings p) := by
  obtain ⟨_,told⟩ := reached_told once booted reached
  have inside := ram p ((told awake).inv.held p held).1
  have outer : p-0x40000#36 ∉ pages := by
    intro there
    obtain ⟨lower,_⟩ := ram _ there
    obtain ⟨lower',upper⟩ := inside
    rw [BitVec.toNat_sub,show (0x40000#36).toNat = 0x40000 from rfl] at lower
    omega
  rw [getPageRef_frame _ inside,pageRef,(told awake).outer _ outer]

def bootAndTally (pages : List Frame) (calls : List (PageCall Unit)) : Option (State Unit × Tally Unit) :=
  (boot pages idle).bind fun s => (Runs.exec (Tally.next pages) ⟨s,fun _ => 0⟩ calls).map fun t => (s,t)

theorem bootAndTally_such (pages : List Frame) (calls : List (PageCall Unit)) (test : Tally Unit → Bool)
    (passes : (bootAndTally pages calls).any (fun r => test r.2) = true) :
    ∃ s t, boot pages idle = some s ∧ Runs.Reached (Tally.next pages) ⟨s,fun _ => 0⟩ t ∧ test t = true := by
  obtain ⟨⟨s,t⟩,both,fits⟩ := Runs.some_such passes
  obtain ⟨start,booted,both⟩ := Option.bind_eq_some_iff.mp both
  obtain ⟨last,ran,both⟩ := Option.map_eq_some_iff.mp both
  cases both
  exact ⟨s,t,booted,Runs.exec_reached .start ran,fits⟩

theorem sevenPages_ram : ∀ p ∈ sevenPages, inRam p := by
  simp only [sevenPages,inRam,List.mem_cons,List.not_mem_nil,or_false,forall_eq_or_imp,forall_eq,BitVec.toNat_ofNat]
  omega

theorem page_ref_agrees_unmapped : ∃ (s : State Unit) (t : Tally Unit), boot sevenPages idle = some s ∧
    Runs.Reached (Tally.next sevenPages) ⟨s,fun _ => 0⟩ t ∧
    getPageRef t.state.mem (p2k (frameAddr 0x40105#36)) = BitVec.ofInt 64 (t.mappings 0x40105#36) := by
  obtain ⟨s,t,booted,reached,fits⟩ := bootAndTally_such sevenPages [.kalloc] (fun t => decide
    (t.state.halted = false ∧ 0x40105#36 ∈ t.state.held ∧ t.mappings 0x40105#36 = 0)) (by decide +kernel)
  obtain ⟨awake,held,none⟩ := of_decide_eq_true fits
  refine ⟨s,t,booted,reached,(page_ref_agrees (by decide) sevenPages_ram booted reached awake held).mpr ?_⟩
  rw [none]
  rfl

-- Mapped once, and the answer is 0.
theorem page_ref_misread : ∃ (s : State Unit) (t : Tally Unit), boot sevenPages idle = some s ∧
    Runs.Reached (Tally.next sevenPages) ⟨s,fun _ => 0⟩ t ∧ t.state.halted = false ∧ 0x40105#36 ∈ t.state.held ∧
    t.mappings 0x40105#36 = 1 ∧ getPageRef t.state.mem (p2k (frameAddr 0x40105#36)) = 0#64 := by
  obtain ⟨s,t,booted,reached,fits⟩ :=
      bootAndTally_such sevenPages [.kalloc,.vmmap () 0x1000#64 0x40105#36 pteUserData] (fun t => decide
    (t.state.halted = false ∧ 0x40105#36 ∈ t.state.held ∧ t.mappings 0x40105#36 = 1 ∧
      getPageRef t.state.mem (p2k (frameAddr 0x40105#36)) = 0#64)) (by decide +kernel)
  obtain ⟨awake,held,one,answer⟩ := of_decide_eq_true fits
  exact ⟨s,t,booted,reached,awake,held,one,answer⟩

end Counting

end PageTable
