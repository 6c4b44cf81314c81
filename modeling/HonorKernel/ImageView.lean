import HonorKernel.Overlay
import HonorKernel.SharedMappings

-- What an address space shows while it is built: nothing at a page, the zero page, or a
-- page of its own with certain bytes.
namespace PageTable
open DiskFormat BitSlice

abbrev PageView := VPage → Option (Option Page)

def Mem.view (mem : Mem) (zero root : Frame) : PageView := fun v =>
  if valid (mem.lookup root v) then
    some (if frameOf (mem.lookup root v) = zero then none else some (mem.pages (frameOf (mem.lookup root v))))
  else none

structure Shows {D : Type*} (holes : Holes) (zero : Frame) (blank : Page) (mem : Mem) (roots : D → Option Frame) (root : Frame) (view : PageView) : Prop where
  sane : Sane holes zero mem roots
  clear : mem.pages zero = blank
  view : mem.view zero root = view

-- What is read where the page is `shown`; `blank` is in the zero page.
def shownByte (blank : Page) (shown : Option (Option Page)) (offset : Nat) : Option Byte :=
  shown.map fun page => byteAt (page.getD blank) offset

section Steps
variable {D : Type*} {holes : Holes} {zero : Frame} {mem mem' : Mem} {roots : D → Option Frame} {d : D}
  {root p q t : Frame} {v : VPage} {e va : U64} {pt : Option Frame} {blank : Page} {view : PageView}

theorem Shows.userByte (shows : Shows holes zero blank mem roots root view) (va : U64) :
    userByte mem root va = shownByte blank (view (vpage va)) (pageOffset va) := by
  rw [← shows.view]
  unfold PageTable.userByte Mem.view shownByte
  by_cases set : valid (mem.lookup root (vpage va))
  · rw [if_pos set,if_pos set]
    by_cases shared : frameOf (mem.lookup root (vpage va)) = zero
    · rw [if_pos shared,shared,shows.clear]
      rfl
    · rw [if_neg shared]
      rfl
  · rw [if_neg set,if_neg set]
    rfl

theorem view_frame (entry : mem'.lookup root v = mem.lookup root v)
    (page : valid (mem.lookup root v) → frameOf (mem.lookup root v) ≠ zero →
    mem'.pages (frameOf (mem.lookup root v)) = mem.pages (frameOf (mem.lookup root v))) :
    mem'.view zero root v = mem.view zero root v := by
  unfold Mem.view
  rw [entry]
  by_cases set : valid (mem.lookup root v)
  · rw [if_pos set,if_pos set]
    by_cases shared : frameOf (mem.lookup root v) = zero
    · rw [if_pos shared,if_pos shared]
    · rw [if_neg shared,if_neg shared,page set shared]
  · rw [if_neg set,if_neg set]

theorem Shows.grows (shows : Shows holes zero blank mem roots root view) (here : roots d = some root)
    (grows : Grows roots d mem mem') :
    Shows holes zero blank mem' roots root view := by
  refine ⟨shows.sane.grows grows,?_,?_⟩
  · rw [grows.pages zero shows.sane.zero_used (shows.sane.zero_data d)]
    exact shows.clear
  · rw [← shows.view]
    funext v
    refine view_frame (grows.lookups d root v here) fun set _ => ?_
    have mine : Maps mem roots d v (mem.lookup root v) := ⟨root,here,rfl,set⟩
    exact grows.pages _ (shows.sane.page_used _ _ _ mine) (shows.sane.page_data _ _ _ mine d)

theorem Shows.takes (shows : Shows holes zero blank mem roots root view) (here : roots d = some root)
    (took : mem.kzallocPage = .ok (q,mem')) :
    Shows holes zero blank mem' roots root view ∧ Loose holes zero mem' roots q ∧ mem'.pages q = 0#32768 := by
  obtain ⟨sane,loose,bare⟩ := kzallocPage_sane shows.sane took
  obtain ⟨queue,pages,_,_⟩ := kzallocPage_cases took
  have inQueue : q ∈ mem.free := by
    rw [queue]
    exact List.mem_cons_self
  refine ⟨⟨sane,?_,?_⟩,loose,bare⟩
  · rw [pages,Function.update_of_ne (Ne.symm loose.notZero)]
    exact shows.clear
  · rw [← shows.view]
    funext v
    refine view_frame ?_ fun set _ => ?_
    · refine data_lookup (fun way there => shows.sane.table_used d way q there inQueue) ?_ here v
      intro x j other
      unfold Mem.entry
      rw [pages,Function.update_of_ne other]
    · have mine : Maps mem roots d v (mem.lookup root v) := ⟨root,here,rfl,set⟩
      have other : frameOf (mem.lookup root v) ≠ q := by
        intro same
        exact shows.sane.page_used _ _ _ mine (same ▸ inQueue)
      rw [pages,Function.update_of_ne other]

theorem mapped_view (sane : Sane holes zero mem roots) (here : roots d = some root)
    (mapped : Mapped roots d v e mem mem') (set : valid e) (used : frameOf e ∉ mem.free)
    (data : ∀ d way, ¬ IsTable mem roots d way (frameOf e)) :
    mem'.view zero root = Function.update (mem.view zero root) v
        (some (if frameOf e = zero then none else some (mem.pages (frameOf e)))) := by
  funext w
  by_cases same : w = v
  · subst same
    rw [Function.update_self,Mem.view,mapped.here root here,if_pos set,mapped.pages _ used (data d)]
  · rw [Function.update_of_ne same]
    refine view_frame (mapped.lookups d root w here fun _ => same) fun set _ => ?_
    have mine : Maps mem roots d w (mem.lookup root w) := ⟨root,here,rfl,set⟩
    exact mapped.pages _ (sane.page_used _ _ _ mine) (sane.page_data _ _ _ mine d)

theorem Shows.maps {flags : U64} (shows : Shows holes zero blank mem roots root view) (here : roots d = some root)
    (loose : Loose holes zero mem roots q) (masked : flags &&& flagMask = flags) (set : valid flags)
    (ran : vmmap va q flags (some root) mem = .ok (pt,mem')) :
    pt = some root ∧ Shows holes zero blank mem' roots root (Function.update view (vpage va) (some (some (mem.pages q)))) ∧
      frameOf (mem'.lookup root (vpage va)) = q := by
  obtain ⟨_,sane,entry⟩ := vmmap_loose shows.sane here loose masked set ran
  obtain ⟨rfl,mapped,_⟩ := vmmap_mapped shows.sane.toFresh here masked loose.used loose.data ran
  have frame := frameOf_entryFor masked (p := q)
  refine ⟨rfl,⟨sane,?_,?_⟩,by rw [entry,frame]⟩
  · rw [mapped.pages zero shows.sane.zero_used (shows.sane.zero_data d)]
    exact shows.clear
  · rw [mapped_view shows.sane here mapped ((valid_entryFor masked).mpr set) (by rw [frame]; exact loose.used)
      (by rw [frame]; exact loose.data),
      frame,if_neg loose.notZero,shows.view]

theorem Shows.mapsZero {flags : U64} (shows : Shows holes zero blank mem roots root view) (here : roots d = some root)
    (masked : flags &&& flagMask = flags) (set : valid flags)
    (ran : vmmap va zero flags (some root) mem = .ok (pt,mem')) :
    pt = some root ∧ Shows holes zero blank mem' roots root (Function.update view (vpage va) (some none)) := by
  obtain ⟨_,sane⟩ := vmmap_zero shows.sane here masked set ran
  obtain ⟨rfl,mapped,_⟩ := vmmap_mapped shows.sane.toFresh here masked shows.sane.zero_used shows.sane.zero_data ran
  have frame := frameOf_entryFor masked (p := zero)
  refine ⟨rfl,sane,?_,?_⟩
  · rw [mapped.pages zero shows.sane.zero_used (shows.sane.zero_data d)]
    exact shows.clear
  · rw [mapped_view shows.sane here mapped ((valid_entryFor masked).mpr set) (by rw [frame]; exact shows.sane.zero_used)
      (by rw [frame]; exact shows.sane.zero_data),frame,if_pos rfl,shows.view]

theorem Shows.writes {old : Page} (shows : Shows holes zero blank mem roots root view) (here : roots d = some root)
    (own : view v = some (some old)) (page : Page) :
    Shows holes zero blank (mem.setPage (frameOf (mem.lookup root v)) page) roots root (Function.update view v (some (some page))) ∧
      mem.pages (frameOf (mem.lookup root v)) = old := by
  have shown : mem.view zero root v = some (some old) := by rw [shows.view,own]
  have set : valid (mem.lookup root v) := by
    by_cases set : valid (mem.lookup root v)
    · exact set
    · rw [Mem.view,if_neg set] at shown
      cases shown
  have notZero : frameOf (mem.lookup root v) ≠ zero := by
    intro shared
    rw [Mem.view,if_pos set,if_pos shared] at shown
    cases shown
  rw [Mem.view,if_pos set,if_neg notZero] at shown
  obtain ⟨sane,_,lookups⟩ := shows.sane.setPage (shows.sane.target_data here v) page
  have mine : Maps mem roots d v (mem.lookup root v) := ⟨root,here,rfl,set⟩
  refine ⟨⟨sane,?_,?_⟩,Option.some.inj (Option.some.inj shown)⟩
  · simp only [Mem.setPage]
    rw [Function.update_of_ne (Ne.symm notZero)]
    exact shows.clear
  · rw [← shows.view]
    funext w
    by_cases same : w = v
    · subst same
      rw [Function.update_self,Mem.view,lookups d root w here,if_pos set,if_neg notZero]
      simp only [Mem.setPage,Function.update_self]
    · rw [Function.update_of_ne same]
      refine view_frame (lookups d root w here) fun set' other => ?_
      have theirs : Maps mem roots d w (mem.lookup root w) := ⟨root,here,rfl,set'⟩
      have apart : frameOf (mem.lookup root w) ≠ frameOf (mem.lookup root v) := by
        intro shared
        rcases shows.sane.page_once _ _ _ _ _ _ theirs mine shared with ⟨_,equal⟩ | isZero
        · exact same equal
        · exact other isZero
      simp only [Mem.setPage]
      rw [Function.update_of_ne apart]

theorem vpage_page {a b : U64} (same : a.toNat/pageSize = b.toNat/pageSize) : vpage a = vpage b := by
  rw [show pageSize = 4096 from rfl] at same
  simp only [vpage,part,Prod.mk.injEq,Fin.mk.injEq,Nat.reduceMul,Nat.reduceSub,Nat.reducePow]
  omega

theorem vpage_base (va : U64) : vpage (pageBase va) = vpage va := by
  refine vpage_page ?_
  rw [pageBase_toNat]
  exact Nat.mul_div_cancel _ (by decide)

theorem loadPage_shows {flags : U64} {bytes : List Byte} (shows : Shows holes zero blank mem roots root view)
    (here : roots d = some root) (masked : flags &&& flagMask = flags) (set : valid flags)
    (ran : loadPage flags va bytes (some root) mem = .ok (pt,mem')) :
    pt = some root ∧ Shows holes zero blank mem' roots root
        (Function.update view (vpage va) (some (some (setBytes 0#32768 (pageOffset va) bytes)))) := by
  obtain ⟨⟨page,taken⟩,took,rest⟩ := Runs.bind_ok.mp ran
  obtain ⟨⟨pt₁,mapped⟩,made,rest⟩ := Runs.bind_ok.mp rest
  cases rest
  obtain ⟨shows₁,loose,bare⟩ := shows.takes here took
  obtain ⟨rfl,shows₂,frame⟩ := shows₁.maps here loose masked set made
  rw [vpage_base] at shows₂ frame
  obtain ⟨shows₃,bytes₃⟩ := shows₂.writes here (Function.update_self ..) (setBytes (mapped.pages page) (pageOffset va) bytes)
  rw [frame] at shows₃ bytes₃
  rw [Function.update_idem,bytes₃,bare] at shows₃
  rw [bytes₃,bare]
  exact ⟨rfl,shows₃⟩

end Steps

-- The page of an address below 2^48.
def pageOf (a : Nat) : VPage := vpage (BitVec.ofNat 64 a)

theorem pageOf_toNat (va : U64) : pageOf va.toNat = vpage va := by
  rw [pageOf,BitVec.ofNat_toNat,BitVec.setWidth_eq]

theorem pageOf_same {a b : Nat} (low : a < 2^48) (low' : b < 2^48) : pageOf a = pageOf b ↔ a/pageSize = b/pageSize := by
  have value : ∀ a : Nat, a < 2^48 → (BitVec.ofNat 64 a).toNat = a := by
    intro a low
    rw [BitVec.toNat_ofNat]
    omega
  constructor
  · intro same
    have number := vpage_number same (by rw [value a low]; exact low) (by rw [value b low']; exact low')
    rw [value a low,value b low'] at number
    exact number
  · intro same
    refine vpage_page ?_
    rw [value a low,value b low']
    exact same

-- The pages with these bytes from `lo` on have been filled, and zeros around them.
structure Filled (view view' : PageView) (lo : Nat) (bytes : List Byte) : Prop where
  inside : ∀ a x, lo ≤ x → x < lo+bytes.length → x/pageSize = a/pageSize →
    ∃ page, view' (pageOf a) = some (some page) ∧
      byteAt page (a%pageSize) = if lo ≤ a ∧ a < lo+bytes.length then bytes.getD (a-lo) 0#8 else 0#8
  outside : ∀ v, (∀ x, lo ≤ x → x < lo+bytes.length → v ≠ pageOf x) → view' v = view v

section Pages
variable {D : Type*} {holes : Holes} {zero : Frame} {mem mem' : Mem} {roots : D → Option Frame} {d : D}
  {root : Frame} {va : U64} {pt : Option Frame} {blank : Page} {view view' : PageView} {bytes : List Byte}

theorem byteAt_zero (j : Nat) : byteAt (0#32768) j = 0#8 := get_zero 32768 8 (8*j)

theorem Filled.nil (view : PageView) (lo : Nat) : Filled view view lo [] :=
  ⟨fun a x low high => absurd high (by simp only [List.length_nil]; omega),fun _ _ => rfl⟩

theorem Filled.page {n : Nat} (more : bytes ≠ []) (low : va.toNat+bytes.length ≤ 2^48)
    (count : n = min (pageSize-pageOffset va) bytes.length)
    (rest : Filled (Function.update view (vpage va)
        (some (some (setBytes 0#32768 (pageOffset va) (bytes.take n))))) view' (va.toNat+n) (bytes.drop n)) :
    Filled view view' va.toNat bytes := by
  have unit : pageSize = 4096 := rfl
  have offset : pageOffset va = va.toNat%4096 := rfl
  rw [unit,offset] at count
  have positive : 0 < bytes.length := List.length_pos_iff.mpr more
  have taken : (bytes.take n).length = n := by
    rw [List.length_take]
    omega
  have dropped : (bytes.drop n).length = bytes.length-n := List.length_drop
  -- An address behind the first `n` bytes is in a later page.
  have later : ∀ x, va.toNat+n ≤ x → x < va.toNat+bytes.length → va.toNat/4096 < x/4096 := by
    intro x low high
    omega
  have first : ∀ x, va.toNat ≤ x → x < va.toNat+n → x/4096 = va.toNat/4096 := by
    intro x low high
    omega
  refine ⟨fun a x lower upper same => ?_,fun v away => ?_⟩
  · rw [unit] at same ⊢
    by_cases early : x < va.toNat+n
    · have number := first x lower early
      have here : pageOf a = vpage va := by
        rw [← pageOf_toNat va]
        exact (pageOf_same (by omega) (by omega)).mpr (same.symm.trans number)
      have kept := rest.outside (vpage va) (by
        intro y low high equal
        rw [dropped] at high
        have behind := later y low (by omega)
        rw [← pageOf_toNat va] at equal
        have number : va.toNat/4096 = y/4096 := (pageOf_same (by omega) (by omega)).mp equal
        omega)
      rw [Function.update_self] at kept
      refine ⟨_,by rw [here,kept],?_⟩
      rw [byteAt_setBytes _ _ _ (by rw [taken,offset]; omega),taken,byteAt_zero,offset]
      by_cases mine : va.toNat ≤ a ∧ a < va.toNat+n
      · rw [if_pos (by omega),if_pos (by omega),show a%4096-va.toNat%4096 = a-va.toNat by omega,
          List.getD_eq_getElem?_getD,List.getElem?_take_of_lt (by omega),← List.getD_eq_getElem?_getD]
      · rw [if_neg (by omega),if_neg]
        rintro ⟨above,below⟩
        have behind := later a (by omega) below
        omega
    · obtain ⟨page,shown,byte⟩ := rest.inside a x (by omega) (by rw [dropped]; omega) same
      refine ⟨page,shown,?_⟩
      rw [unit] at byte
      rw [byte,dropped]
      have aligned : (va.toNat+n)%4096 = 0 := by omega
      by_cases mine : va.toNat+n ≤ a ∧ a < va.toNat+bytes.length
      · rw [if_pos (by omega),if_pos (by omega),List.getD_eq_getElem?_getD,List.getElem?_drop,← List.getD_eq_getElem?_getD]
        congr 1
        omega
      · rw [if_neg (by omega),if_neg (by omega)]
  · rw [rest.outside v fun x low high => away x (by omega) (by rw [dropped] at high; omega),Function.update_of_ne]
    rw [← pageOf_toNat va]
    exact away va.toNat (Nat.le_refl _) (by omega)

-- What loadPages leaves in the pages.
def filledView : Nat → U64 → List Byte → PageView → PageView
  | 0,_,_,view => view
  | fuel+1,va,bytes,view =>
    if bytes = [] then view
    else
      let n := min (pageSize-pageOffset va) bytes.length
      filledView fuel (va+BitVec.ofNat 64 n) (bytes.drop n)
        (Function.update view (vpage va) (some (some (setBytes 0#32768 (pageOffset va) (bytes.take n)))))

theorem loadPages_shows {flags : U64} (masked : flags &&& flagMask = flags) (set : valid flags) (fuel : Nat)
    (shows : Shows holes zero blank mem roots root view) (here : roots d = some root)
    (ran : loadPages flags fuel va bytes (some root) mem = .ok (pt,mem')) :
    pt = some root ∧ Shows holes zero blank mem' roots root (filledView fuel va bytes view) := by
  induction fuel generalizing va bytes mem view with
  | zero =>
    cases ran
    exact ⟨rfl,shows⟩
  | succ fuel ih =>
    unfold loadPages at ran
    unfold filledView
    split at ran
    · rename_i empty
      rw [if_pos empty]
      cases ran
      exact ⟨rfl,shows⟩
    · rename_i more
      rw [if_neg more]
      obtain ⟨⟨pt₁,mem₁⟩,first,rest⟩ := Runs.bind_ok.mp ran
      obtain ⟨rfl,shows₁⟩ := loadPage_shows shows here masked set first
      exact ih shows₁ rest

theorem filledView_filled (fuel : Nat) (enough : bytes.length ≤ fuel) (low : va.toNat+bytes.length ≤ 2^48) :
    Filled view (filledView fuel va bytes view) va.toNat bytes := by
  induction fuel generalizing va bytes view with
  | zero =>
    obtain rfl := List.eq_nil_of_length_eq_zero (Nat.le_zero.mp enough)
    exact .nil view _
  | succ fuel ih =>
    unfold filledView
    split
    · rename_i empty
      subst empty
      exact .nil view _
    · rename_i more
      obtain ⟨n,count⟩ : ∃ n, n = min (pageSize-pageOffset va) bytes.length := ⟨_,rfl⟩
      simp only [← count]
      have offset : pageOffset va < 4096 := Nat.mod_lt _ (by decide)
      have unit : pageSize = 4096 := rfl
      have positive : 0 < bytes.length := List.length_pos_iff.mpr more
      have next : (va+BitVec.ofNat 64 n).toNat = va.toNat+n := by
        rw [BitVec.toNat_add,BitVec.toNat_ofNat]
        omega
      have dropped : (bytes.drop n).length = bytes.length-n := List.length_drop
      refine Filled.page more low count ?_
      rw [← next]
      exact ih (by omega) (by rw [next]; omega)

-- Some pages show one thing, the others what they showed before.
def shownOn (pages : List VPage) (shown : Option Page) (view : PageView) : PageView := fun v => if v ∈ pages then some shown else view v

theorem shownOn_cons (v : VPage) (pages : List VPage) (shown : Option Page) (view : PageView) :
    shownOn pages shown (Function.update view v (some shown)) = shownOn (v::pages) shown view := by
  funext w
  unfold shownOn
  by_cases later : w ∈ pages
  · rw [if_pos later,if_pos (List.mem_cons_of_mem _ later)]
  · rw [if_neg later]
    by_cases same : w = v
    · subst same
      rw [Function.update_self,if_pos List.mem_cons_self]
    · rw [Function.update_of_ne same,if_neg (by simp [same,later])]

theorem mapZero_shows (pages : List U64) (shows : Shows holes zero blank mem roots root view)
    (here : roots d = some root) (ran : mapZero zero pages (some root) mem = .ok (pt,mem')) :
    pt = some root ∧ Shows holes zero blank mem' roots root (shownOn (pages.map vpage) none view) := by
  induction pages generalizing mem view with
  | nil =>
    cases ran
    exact ⟨rfl,shows⟩
  | cons va rest ih =>
    obtain ⟨⟨pt₁,mem₁⟩,first,ran⟩ := Runs.bind_ok.mp ran
    obtain ⟨rfl,shows₁⟩ := shows.mapsZero here (by decide) (by decide) first
    obtain ⟨rfl,shows₂⟩ := ih shows₁ ran
    rw [shownOn_cons] at shows₂
    exact ⟨rfl,shows₂⟩

theorem mapStack_shows {sp : U64} (steps : List Nat) (shows : Shows holes zero blank mem roots root view)
    (here : roots d = some root) (ran : mapStack sp steps (some root) mem = .ok (pt,mem')) :
    pt = some root ∧ Shows holes zero blank mem' roots root
        (shownOn (steps.map fun i => vpage (sp-BitVec.ofNat 64 (i*pageSize))) (some 0#32768) view) := by
  induction steps generalizing mem view with
  | nil =>
    cases ran
    exact ⟨rfl,shows⟩
  | cons i rest ih =>
    obtain ⟨⟨page,taken⟩,took,ran⟩ := Runs.bind_ok.mp ran
    obtain ⟨⟨pt₁,mem₁⟩,first,ran⟩ := Runs.bind_ok.mp ran
    obtain ⟨shows₁,loose,bare⟩ := shows.takes here took
    obtain ⟨rfl,shows₂,_⟩ := shows₁.maps here loose (by decide) (by decide) first
    rw [bare] at shows₂
    obtain ⟨rfl,shows₃⟩ := ih shows₂ ran
    rw [shownOn_cons] at shows₃
    exact ⟨rfl,shows₃⟩

end Pages

-- What the segment takes in memory.
def Segment.size (seg : Segment) : Nat := if seg.text then seg.filesz.toNat else seg.memsz.toNat

structure Segment.Formed (seg : Segment) : Prop where
  bytes : seg.bytes.length = seg.filesz.toNat
  order : seg.filesz.toNat ≤ seg.memsz.toNat
  ends : seg.vaddr.toNat+seg.memsz.toNat < 2^64
  low : seg.last.toNat ≤ 2^48

-- A data segment without bytes in the file that begins inside a page: bss starts at the
-- next page, and nothing is mapped at the first.
def Segment.Hollow (seg : Segment) : Prop := seg.text = false ∧ seg.filesz.toNat = 0 ∧ pageOffset seg.vaddr ≠ 0

instance (seg : Segment) : Decidable seg.Hollow := inferInstanceAs (Decidable (_ ∧ _))

def Segment.byte (seg : Segment) (k : Nat) : Byte := if k < seg.filesz.toNat then seg.bytes.getD k 0#8 else 0#8

def Segment.missing (seg : Segment) (k : Nat) : Prop := seg.Hollow ∧ (seg.vaddr.toNat+k)/pageSize = seg.vaddr.toNat/pageSize

def Segment.show (seg : Segment) (view : PageView) : PageView :=
  shownOn (seg.bss.map vpage) none (filledView seg.bytes.length seg.vaddr seg.bytes view)

structure Segment.Loaded (seg : Segment) (view view' : PageView) : Prop where
  shown : ∀ k < seg.size, ¬ seg.missing k → shownByte 0#32768 (view' (pageOf (seg.vaddr.toNat+k)))
      ((seg.vaddr.toNat+k)%pageSize) = some (seg.byte k)
  hollow : ∀ k < seg.size, seg.missing k → view' (pageOf (seg.vaddr.toNat+k)) = view (pageOf (seg.vaddr.toNat+k))
  outside : ∀ v, (∀ k < seg.size, v ≠ pageOf (seg.vaddr.toNat+k)) → view' v = view v

section Loading
variable {D : Type*} {holes : Holes} {zero : Frame} {mem mem' : Mem} {roots : D → Option Frame} {d : D}
  {root : Frame} {va : U64} {pt : Option Frame} {blank : Page} {view view' : PageView} {seg : Segment}

theorem Segment.Formed.last (formed : seg.Formed) : seg.last.toNat = seg.vaddr.toNat+seg.size := by
  have order := formed.order
  have ends := formed.ends
  unfold Segment.last Segment.size
  split
  · rw [BitVec.toNat_add]
    omega
  · rw [BitVec.toNat_add]
    omega

theorem Segment.Formed.start (formed : seg.Formed) (data : seg.text = false) :
    seg.bssStart.toNat = (seg.vaddr.toNat+seg.filesz.toNat+4095)/4096*4096 := by
  have last := formed.last
  have low := formed.low
  have order := formed.order
  unfold Segment.size at last
  rw [data] at last
  simp only [Bool.false_eq_true,if_false] at last
  have sum : (seg.vaddr+seg.filesz).toNat = seg.vaddr.toNat+seg.filesz.toNat := by
    rw [BitVec.toNat_add]
    omega
  have base : (pageBase (seg.vaddr+seg.filesz)).toNat = (seg.vaddr.toNat+seg.filesz.toNat)/4096*4096 := by
    rw [pageBase_toNat,sum]
    rfl
  unfold Segment.bssStart
  simp only
  split
  · rename_i unaligned
    have unaligned : (seg.vaddr.toNat+seg.filesz.toNat)%4096 ≠ 0 := by
      intro aligned
      refine unaligned (BitVec.eq_of_toNat_eq ?_)
      rw [sum,base]
      omega
    rw [BitVec.toNat_add,base,show (BitVec.ofNat 64 pageSize).toNat = 4096 from rfl]
    omega
  · rename_i aligned
    have aligned := congrArg BitVec.toNat (Decidable.not_not.mp aligned)
    rw [sum,base] at aligned
    have whole : (seg.vaddr.toNat+seg.filesz.toNat)%4096 = 0 := by omega
    clear aligned
    rw [sum]
    omega

theorem Segment.Formed.bss (formed : seg.Formed) (data : seg.text = false) (v : VPage) :
    v ∈ seg.bss.map vpage ↔ ∃ x, seg.bssStart.toNat ≤ x ∧ x < seg.vaddr.toNat+seg.memsz.toNat ∧ v = pageOf x := by
  have start := formed.start data
  have last := formed.last
  have low := formed.low
  have order := formed.order
  have bound := seg.bssStart.isLt
  unfold Segment.size at last
  rw [data] at last
  simp only [Bool.false_eq_true,if_false] at last
  have behind : (seg.bssStart-seg.vaddr).toNat = seg.bssStart.toNat-seg.vaddr.toNat := by
    rw [BitVec.toNat_sub]
    omega
  unfold Segment.bss
  by_cases more : seg.bssStart-seg.vaddr < seg.memsz
  · rw [if_pos ⟨data,more⟩,List.map_map,List.mem_map]
    rw [BitVec.lt_def,behind] at more
    have left : (seg.memsz-(seg.bssStart-seg.vaddr)).toNat = seg.memsz.toNat-(seg.bssStart.toNat-seg.vaddr.toNat) := by
      rw [BitVec.toNat_sub,behind]
      omega
    have unit : pageSize = 4096 := rfl
    have value : ∀ k, k < ((seg.memsz-(seg.bssStart-seg.vaddr)).toNat+(pageSize-1))/pageSize →
        (seg.bssStart+BitVec.ofNat 64 (pageSize*k)).toNat = seg.bssStart.toNat+4096*k ∧
            seg.bssStart.toNat+4096*k < seg.vaddr.toNat+seg.memsz.toNat := by
      intro k small
      rw [left,unit] at small
      rw [BitVec.toNat_add,BitVec.toNat_ofNat,unit]
      omega
    constructor
    · rintro ⟨k,member,rfl⟩
      obtain ⟨place,below⟩ := value k (List.mem_range.mp member)
      refine ⟨seg.bssStart.toNat+4096*k,by omega,below,?_⟩
      simp only [Function.comp_apply]
      rw [← place,pageOf_toNat]
    · rintro ⟨x,above,below,rfl⟩
      have small : (x-seg.bssStart.toNat)/4096 < ((seg.memsz-(seg.bssStart-seg.vaddr)).toNat+(pageSize-1))/pageSize := by
        rw [left,unit]
        omega
      refine ⟨(x-seg.bssStart.toNat)/4096,List.mem_range.mpr small,?_⟩
      obtain ⟨place,_⟩ := value _ small
      simp only [Function.comp_apply]
      rw [← pageOf_toNat,place]
      refine (pageOf_same (by omega) (by omega)).mpr ?_
      rw [unit]
      omega
  · rw [if_neg fun both => more both.2]
    rw [BitVec.lt_def,behind] at more
    constructor
    · intro none
      exact absurd none List.not_mem_nil
    · rintro ⟨x,above,below,_⟩
      omega

theorem Segment.Formed.loaded (formed : seg.Formed) {middle : PageView}
    (filled : Filled view middle seg.vaddr.toNat seg.bytes) :
    seg.Loaded view (shownOn (seg.bss.map vpage) none middle) := by
  have unit : pageSize = 4096 := rfl
  have last := formed.last
  have low := formed.low
  have bytes := formed.bytes
  have order := formed.order
  cases data : seg.text with
  | true =>
    have size : seg.size = seg.filesz.toNat := by rw [Segment.size,data]; rfl
    have none : shownOn (seg.bss.map vpage) none middle = middle := by
      rw [Segment.bss,if_neg (by simp [data])]
      rfl
    rw [none]
    refine ⟨fun k small _ => ?_,fun k small missing => ?_,fun v away => ?_⟩
    · obtain ⟨page,shown,byte⟩ := filled.inside (seg.vaddr.toNat+k) (seg.vaddr.toNat+k) (by omega) (by omega) rfl
      rw [if_pos (by omega),Nat.add_sub_cancel_left] at byte
      rw [shown,Segment.byte,if_pos (by omega)]
      exact congrArg some byte
    · cases data.symm.trans missing.1.1
    · refine filled.outside v fun x above below => ?_
      have far := away (x-seg.vaddr.toNat) (by omega)
      rw [Nat.add_sub_of_le above] at far
      exact far
  | false =>
    have size : seg.size = seg.memsz.toNat := by rw [Segment.size,data]; rfl
    have start := formed.start data
    have member := formed.bss data
    have before : ∀ k, k < seg.size → seg.vaddr.toNat+k < seg.bssStart.toNat → pageOf (seg.vaddr.toNat+k) ∉ seg.bss.map vpage := by
      intro k small early there
      obtain ⟨x,above,below,same⟩ := (member _).mp there
      have number : (seg.vaddr.toNat+k)/4096 = x/4096 := (pageOf_same (by omega) (by omega)).mp same
      omega
    refine ⟨fun k small present => ?_,fun k small missing => ?_,fun v away => ?_⟩
    · by_cases early : seg.vaddr.toNat+k < seg.bssStart.toNat
      · rw [shownOn,if_neg (before k small early)]
        have some_bytes : seg.filesz.toNat ≠ 0 := by
          intro none
          refine present ⟨⟨data,none,?_⟩,?_⟩
          · change seg.vaddr.toNat%4096 ≠ 0
            omega
          · rw [unit]
            omega
        obtain ⟨page,shown,byte⟩ := filled.inside (seg.vaddr.toNat+k) (min (seg.vaddr.toNat+k) (seg.vaddr.toNat+seg.filesz.toNat-1))
          (by omega) (by omega) (by rw [unit]; omega)
        rw [shown]
        refine congrArg some (byte.trans ?_)
        unfold Segment.byte
        by_cases inside : k < seg.filesz.toNat
        · rw [if_pos inside,if_pos (by omega),Nat.add_sub_cancel_left]
        · rw [if_neg inside,if_neg (by omega)]
      · rw [shownOn,if_pos ((member _).mpr ⟨_,Nat.le_of_not_lt early,by omega,rfl⟩),Segment.byte,if_neg (by omega)]
        exact congrArg some (byteAt_zero _)
    · obtain ⟨⟨_,none,unaligned⟩,page⟩ := missing
      change seg.vaddr.toNat%4096 ≠ 0 at unaligned
      rw [unit] at page
      rw [shownOn,if_neg (before k small (by omega))]
      exact filled.outside _ fun x above below => by omega
    · rw [shownOn,if_neg]
      · refine filled.outside v fun x above below => ?_
        have far := away (x-seg.vaddr.toNat) (by omega)
        rw [Nat.add_sub_of_le above] at far
        exact far
      · intro there
        obtain ⟨x,above,below,same⟩ := (member v).mp there
        have far := away (x-seg.vaddr.toNat) (by omega)
        rw [Nat.add_sub_of_le (by omega)] at far
        exact far same

theorem Segment.Formed.shown (formed : seg.Formed) (view : PageView) : seg.Loaded view (seg.show view) := by
  have low := formed.low
  have order := formed.order
  have size : seg.filesz.toNat ≤ seg.size := by
    unfold Segment.size
    split <;> omega
  rw [formed.last] at low
  exact formed.loaded (filledView_filled _ (Nat.le_refl _) (by rw [formed.bytes]; omega))

theorem loadSegment_shows {dir dir' : PgDir} (shows : Shows holes zero blank mem roots root view)
    (here : roots d = some root) (table : dir.pt = some root) (ran : loadSegment zero seg dir mem = .ok (dir',mem')) :
    dir'.pt = some root ∧ Shows holes zero blank mem' roots root (seg.show view) := by
  obtain ⟨⟨pt₁,mem₁⟩,loaded,ran⟩ := Runs.bind_ok.mp ran
  obtain ⟨⟨pt₂,mem₂⟩,zeroed,ran⟩ := Runs.bind_ok.mp ran
  cases ran
  rw [table] at loaded
  have flags : ∀ text : Bool, (if text then pteUserData ||| pteRo else pteUserData) &&& flagMask =
      (if text then pteUserData ||| pteRo else pteUserData) ∧
      valid (if text then pteUserData ||| pteRo else pteUserData) := by decide
  obtain ⟨rfl,shows₁⟩ := loadPages_shows (flags seg.text).1 (flags seg.text).2 _ shows here loaded
  exact mapZero_shows seg.bss shows₁ here zeroed

theorem loadSegments_shows (segs : List Segment) {dir dir' : PgDir}
    (shows : Shows holes zero blank mem roots root view) (here : roots d = some root) (table : dir.pt = some root)
    (ran : loadSegments zero segs dir mem = .ok (dir',mem')) :
    dir'.pt = some root ∧ Shows holes zero blank mem' roots root (segs.foldl (fun view seg => seg.show view) view) := by
  induction segs generalizing dir mem view with
  | nil =>
    cases ran
    exact ⟨table,shows⟩
  | cons seg rest ih =>
    obtain ⟨⟨dir₁,mem₁⟩,first,ran⟩ := Runs.bind_ok.mp ran
    obtain ⟨table₁,shows₁⟩ := loadSegment_shows shows here table first
    exact ih shows₁ table₁ ran

end Loading

-- All segments of an image.
structure Image (segs : List Segment) (view view' : PageView) : Prop where
  shown : ∀ seg ∈ segs, ∀ k < seg.size, ¬ seg.missing k →
    shownByte 0#32768 (view' (pageOf (seg.vaddr.toNat+k))) ((seg.vaddr.toNat+k)%pageSize) = some (seg.byte k)
  hollow : ∀ seg ∈ segs, ∀ k < seg.size, seg.missing k → view' (pageOf (seg.vaddr.toNat+k)) = view (pageOf (seg.vaddr.toNat+k))
  outside : ∀ v, (∀ seg ∈ segs, ∀ k < seg.size, v ≠ pageOf (seg.vaddr.toNat+k)) → view' v = view v

section Images
variable {D : Type*} {holes : Holes} {zero : Frame} {mem mem' : Mem} {roots : D → Option Frame} {d : D} {root : Frame}
  {blank : Page} {view middle view' : PageView} {seg seg' : Segment} {segs : List Segment}

theorem Segment.Formed.covers (formed : seg.Formed) {k : Nat} (small : k < seg.size) :
    seg.made.covers ((seg.vaddr.toNat+k)/pageSize) ∧ seg.vaddr.toNat+k < 2^48 := by
  have last := formed.last
  have low := formed.low
  refine ⟨⟨Nat.div_le_div_right (Nat.le_add_right _ _),?_⟩,by omega⟩
  change (seg.vaddr.toNat+k)/4096*4096 < seg.last.toNat
  omega

theorem Segment.Formed.apart (formed : seg.Formed) (formed' : seg'.Formed) (apart : seg.made.Apart seg'.made)
    {k k' : Nat} (small : k < seg.size) (small' : k' < seg'.size) :
    pageOf (seg.vaddr.toNat+k) ≠ pageOf (seg'.vaddr.toNat+k') := by
  intro same
  obtain ⟨covers,low⟩ := formed.covers small
  obtain ⟨covers',low'⟩ := formed'.covers small'
  rw [pageOf_same low low'] at same
  rw [← same] at covers'
  exact apart _ covers covers'

theorem Segment.Loaded.image (loaded : seg.Loaded view middle) (rest : Image segs middle view')
    (apart : ∀ seg' ∈ segs, ∀ k < seg.size, ∀ k' < seg'.size,
    pageOf (seg.vaddr.toNat+k) ≠ pageOf (seg'.vaddr.toNat+k')) :
    Image (seg::segs) view view' := by
  have kept : ∀ k < seg.size, view' (pageOf (seg.vaddr.toNat+k)) = middle (pageOf (seg.vaddr.toNat+k)) :=
    fun k small => rest.outside _ fun seg' member k' small' => apart seg' member k small k' small'
  have before : ∀ seg' ∈ segs, ∀ k < seg'.size, middle (pageOf (seg'.vaddr.toNat+k)) = view (pageOf (seg'.vaddr.toNat+k)) :=
    fun seg' member k small => loaded.outside _ fun k' small' same => apart seg' member k' small' k small same.symm
  refine ⟨fun seg' member k small present => ?_,fun seg' member k small missing => ?_,fun v away => ?_⟩
  · rcases List.mem_cons.mp member with rfl | member
    · rw [kept k small]
      exact loaded.shown k small present
    · exact rest.shown seg' member k small present
  · rcases List.mem_cons.mp member with rfl | member
    · rw [kept k small]
      exact loaded.hollow k small missing
    · rw [rest.hollow seg' member k small missing]
      exact before seg' member k small
  · rw [rest.outside v fun seg' member => away seg' (List.mem_cons_of_mem _ member)]
    exact loaded.outside v (away seg List.mem_cons_self)

theorem segments_image (segs : List Segment) (formed : ∀ seg ∈ segs, seg.Formed)
    (apart : (segs.map Segment.made).Pairwise Section.Apart) (view : PageView) :
    Image segs view (segs.foldl (fun view seg => seg.show view) view) := by
  induction segs generalizing view with
  | nil => exact ⟨fun _ member => absurd member List.not_mem_nil,fun _ member => absurd member List.not_mem_nil,fun _ _ => rfl⟩
  | cons seg rest ih =>
    rw [List.map_cons,List.pairwise_cons] at apart
    have mine := formed seg List.mem_cons_self
    have others := fun seg' member => formed seg' (List.mem_cons_of_mem _ member)
    refine (mine.shown view).image (ih others apart.2 _) fun seg' member k small k' small' => ?_
    exact mine.apart (others seg' member) (apart.1 _ (List.mem_map_of_mem member)) small small'

end Images

-- Own pages from `lo` to `hi`, with these bytes.
def Held (view : PageView) (lo hi : Nat) (f : Nat → Option Byte) : Prop :=
  ∀ a, lo ≤ a → a < hi → ∃ page, view (pageOf a) = some (some page) ∧ f a = some (byteAt page (a%pageSize))

def Same (view view' : PageView) (lo hi : Nat) : Prop := ∀ v, (∀ a, lo ≤ a → a < hi → v ≠ pageOf a) → view' v = view v

section Copying
variable {D : Type*} {holes : Holes} {zero : Frame} {mem mem' : Mem} {roots : D → Option Frame} {d : D}
  {root : Frame} {va : U64} {pt : Option Frame} {blank : Page} {view view' view'' : PageView} {lo hi n : Nat}
  {f : Nat → Option Byte} {src : List Byte} {old : Page}

theorem Same.trans (first : Same view view' lo hi) (second : Same view' view'' lo hi) : Same view view'' lo hi :=
  fun v away => (second v away).trans (first v away)

theorem Same.page (low : lo ≤ va.toNat) (high : va.toNat < hi) (page : Page) :
    Same view (Function.update view (vpage va) (some (some page))) lo hi := by
  intro v away
  have other : v ≠ vpage va := by
    rw [← pageOf_toNat va]
    exact away va.toNat low high
  exact Function.update_of_ne other ..

theorem Held.write (held : Held view lo hi f) (small : hi ≤ 2^48) (high : va.toNat < hi)
    (own : view (vpage va) = some (some old)) (inside : pageOffset va+src.length ≤ pageSize) :
    Held (Function.update view (vpage va) (some (some (setBytes old (pageOffset va) src)))) lo hi
        (Overlay.paint f [(va.toNat,src)]) := by
  have unit : pageSize = 4096 := rfl
  have offset : pageOffset va = va.toNat%4096 := rfl
  rw [unit,offset] at inside
  intro a above below
  obtain ⟨page,shown,byte⟩ := held a above below
  rw [unit] at byte ⊢
  by_cases same : pageOf a = vpage va
  · rw [same,own] at shown
    obtain rfl := Option.some.inj (Option.some.inj shown)
    refine ⟨_,by rw [same,Function.update_self],?_⟩
    rw [byteAt_setBytes _ _ _ (by rw [offset]; omega),Overlay.paint_one,offset]
    have numbers : a/4096 = va.toNat/4096 := by
      rw [← pageOf_toNat va] at same
      exact (pageOf_same (by omega) (by omega)).mp same
    by_cases mine : va.toNat ≤ a ∧ a < va.toNat+src.length
    · rw [if_pos mine,if_pos (by omega),show a%4096-va.toNat%4096 = a-va.toNat by omega,List.getElem?_eq_getElem (by omega),
        List.getD_eq_getElem?_getD,List.getElem?_eq_getElem (by omega)]
      rfl
    · rw [if_neg mine,if_neg (by omega)]
      exact byte
  · refine ⟨page,by rw [Function.update_of_ne same]; exact shown,?_⟩
    rw [Overlay.paint_one,if_neg]
    · exact byte
    · rintro ⟨from_va,until_end⟩
      refine same ?_
      rw [← pageOf_toNat va]
      refine (pageOf_same (by omega) (by omega)).mpr ?_
      rw [unit]
      omega

theorem copyoutLoop_paints (fuel : Nat) (enough : src.length ≤ fuel)
    (shows : Shows holes zero blank mem roots root view) (here : roots d = some root) (held : Held view lo hi f)
    (small : hi ≤ 2^48) (low : lo ≤ va.toNat) (ends : va.toNat+src.length ≤ hi)
    (ran : copyoutLoop fuel va src (some root) mem = .ok (pt,mem')) :
    pt = some root ∧ ∃ view', Shows holes zero blank mem' roots root view' ∧
    Held view' lo hi (Overlay.paint f [(va.toNat,src)]) ∧ Same view view' lo hi := by
  induction fuel generalizing va src mem view f with
  | zero =>
    obtain rfl := List.eq_nil_of_length_eq_zero (Nat.le_zero.mp enough)
    cases ran
    exact ⟨rfl,view,shows,by rw [Overlay.paint_nothing]; exact held,fun _ _ => rfl⟩
  | succ fuel ih =>
    unfold copyoutLoop at ran
    split at ran
    · rename_i empty
      subst empty
      cases ran
      exact ⟨rfl,view,shows,by rw [Overlay.paint_nothing]; exact held,fun _ _ => rfl⟩
    · rename_i more
      have positive : 0 < src.length := List.length_pos_iff.mpr more
      have unit : pageSize = 4096 := rfl
      have offset : pageOffset va = va.toNat%4096 := rfl
      obtain ⟨⟨slot,pt₁,mem₁⟩,got,rest⟩ := Runs.bind_ok.mp ran
      obtain ⟨grows,rfl,t,rfl,_,value⟩ := getPte_grows shows.sane.toFresh here got
      obtain ⟨slot',same,rest⟩ := Runs.bind_ok.mp rest
      cases same
      have shows₁ := shows.grows here grows
      have target : mem₁.at ⟨t,part 3 va⟩ = mem₁.lookup root (vpage va) := by
        rw [grows.lookups d root (vpage va) here]
        exact value
      obtain ⟨n,count⟩ : ∃ n, n = min src.length (pageSize-pageOffset va) := ⟨_,rfl⟩
      simp only [target,← count] at rest
      have taken : (src.take n).length = n := by
        rw [List.length_take]
        omega
      have dropped : (src.drop n).length = src.length-n := List.length_drop
      have next : (va+BitVec.ofNat 64 n).toNat = va.toNat+n := by
        rw [BitVec.toNat_add,BitVec.toNat_ofNat]
        omega
      obtain ⟨old,own,_⟩ := held va.toNat low (by omega)
      rw [pageOf_toNat] at own
      obtain ⟨shows₂,bytes⟩ := shows₁.writes here own (setBytes (mem₁.pages (frameOf (mem₁.lookup root (vpage va))))
          (pageOffset va) (src.take n))
      rw [bytes] at shows₂
      rw [bytes] at rest
      have held₂ := held.write small (by omega) own (by rw [taken]; omega)
      obtain ⟨rfl,view',shows',held',same'⟩ := ih (by omega) shows₂ held₂ (by omega) (by rw [next]; omega) rest
      rw [next] at held'
      have joined := Overlay.paint_join f va.toNat (src.take n) (src.drop n)
      rw [taken,List.take_append_drop] at joined
      rw [joined] at held'
      exact ⟨rfl,view',shows',held',(Same.page low (by omega) _).trans same'⟩

theorem copyouts_paints (args : List (U64 × List Byte)) (shows : Shows holes zero blank mem roots root view)
    (here : roots d = some root) (held : Held view lo hi f) (small : hi ≤ 2^48)
    (inside : ∀ w ∈ args, lo ≤ w.1.toNat ∧ w.1.toNat+w.2.length ≤ hi)
    (ran : copyouts args (some root) mem = .ok (pt,mem')) :
    pt = some root ∧ ∃ view', Shows holes zero blank mem' roots root view' ∧
      Held view' lo hi (Overlay.paint f (args.map fun w => (w.1.toNat,w.2))) ∧ Same view view' lo hi := by
  induction args generalizing mem view f with
  | nil =>
    cases ran
    exact ⟨rfl,view,shows,held,fun _ _ => rfl⟩
  | cons w rest ih =>
    obtain ⟨⟨pt₁,mem₁⟩,first,ran⟩ := Runs.bind_ok.mp ran
    obtain ⟨low,ends⟩ := inside w List.mem_cons_self
    obtain ⟨rfl,view₁,shows₁,held₁,same₁⟩ := copyoutLoop_paints _ (Nat.le_refl _) shows here held small low ends first
    obtain ⟨rfl,view₂,shows₂,held₂,same₂⟩ := ih shows₁ held₁ (fun w member => inside w (List.mem_cons_of_mem _ member)) ran
    exact ⟨rfl,view₂,shows₂,held₂,same₁.trans same₂⟩

end Copying

-- Pages only go back to the queue, and all others keep their bytes.
def Returns (mem mem' : Mem) : Prop := ∀ p, p ∉ mem'.free → p ∉ mem.free ∧ mem'.pages p = mem.pages p

section Release
variable {σ : Type} {files : Files σ} {fs fs' : σ} {mem mem' mem'' : Mem} {pt : Option Frame}

theorem Returns.refl (mem : Mem) : Returns mem mem := fun _ used => ⟨used,rfl⟩

theorem Returns.trans (first : Returns mem mem') (second : Returns mem' mem'') : Returns mem mem'' := by
  intro p used
  obtain ⟨used',same'⟩ := second p used
  obtain ⟨used'',same''⟩ := first p used'
  exact ⟨used'',same'.trans same''⟩

theorem kfreePage_returns (mem : Mem) (q : Frame) : Returns mem (mem.kfreePage q) := by
  intro p used
  rcases kfreePage_free mem q with ⟨longer,_⟩ | ⟨_,queue,_,pages⟩
  · rw [longer,List.mem_cons,not_or] at used
    exact ⟨used.2,kfreePage_pages mem used.1⟩
  · rw [queue] at used
    exact ⟨used,by rw [pages]⟩

theorem freePages_returns (pages : List U64) {root : Frame} (ran : freePages (some root) pages mem = .ok mem') :
    Returns mem mem' := by
  induction pages generalizing mem with
  | nil =>
    cases ran
    exact .refl _
  | cons va rest ih =>
    obtain ⟨⟨slot,_,same⟩,got,rest⟩ := Runs.bind_ok.mp ran
    obtain ⟨rfl,_,⟨rfl,_⟩ | ⟨t,rfl,_,_⟩⟩ := getPte_reads got
    · exact ih rest
    · simp only at rest
      split at rest
      · exact (kfreePage_returns _ _).trans (ih rest)
      · exact ih rest

theorem freeSections_returns (sections : List Section) {root : Frame}
    (ran : freeSections files (some root) sections mem fs = .ok (mem',fs')) :
    Returns mem mem' := by
  induction sections generalizing mem fs with
  | nil =>
    cases ran
    exact .refl _
  | cons st rest ih =>
    obtain ⟨pages,_,ran⟩ := Runs.bind_ok.mp ran
    obtain ⟨mem₁,freed,ran⟩ := Runs.bind_ok.mp ran
    obtain ⟨fs₁,_,ran⟩ := Runs.bind_ok.mp ran
    exact (freePages_returns pages freed).trans (ih ran)

theorem freeTable_returns (level : Nat) (p : Frame) (mem : Mem) : Returns mem (freeTable level p mem) := by
  induction level generalizing p mem with
  | zero => exact kfreePage_returns mem p
  | succ level ih =>
    have entries : ∀ (indices : List Index) (mem : Mem), Returns mem
        (indices.foldl (fun mem i => if valid (mem.entry p i) then freeTable level (frameOf (mem.entry p i)) mem else mem) mem) := by
      intro indices
      induction indices with
      | nil => exact fun mem => .refl mem
      | cons i rest inner =>
        intro mem
        rw [List.foldl_cons]
        refine Returns.trans ?_ (inner _)
        split
        · exact ih _ _
        · exact .refl _
    exact (entries _ mem).trans (kfreePage_returns _ p)

theorem freePgdir_returns {dir dir' : PgDir} {root : Frame} (table : dir.pt = some root)
    (ran : freePgdir files dir mem fs = .ok (dir',mem',fs')) :
    Returns mem mem' := by
  unfold freePgdir at ran
  rw [table] at ran
  obtain ⟨⟨mem₁,fs₁⟩,freed,ran⟩ := Runs.bind_ok.mp ran
  cases ran
  exact (freeSections_returns dir.sections freed).trans (freeTable_returns 3 root mem₁)

theorem freePgdir_shows {D : Type*} [DecidableEq D] {holes : Holes} {zero c root : Frame} {roots : D → Option Frame}
    {d new : D} {blank : Page} {view : PageView} {dir dir' : PgDir} (shows : Shows holes zero blank mem roots c view)
    (there : roots new = some c) (here : roots d = some root) (other : new ≠ d) (table : dir.pt = some root)
    (nodup : (dir.sections.flatMap fun st => st.pages.map vpage).Nodup)
    (ran : freePgdir files dir mem fs = .ok (dir',mem',fs')) :
    Shows holes zero blank mem' (Function.update roots d none) c view := by
  obtain ⟨sane,_⟩ := freePgdir_sane files shows.sane here table nodup ran
  have returns := freePgdir_returns table ran
  have still : Function.update roots d none new = some c := by
    rw [Function.update_of_ne other]
    exact there
  have entries : ∀ v, mem'.lookup c v = mem.lookup c v := by
    intro v
    refine (lookup_frame ?_ v).symm
    intro way t short reached i
    unfold Mem.entry
    rw [(returns t (sane.table_used new way t ⟨c,still,short,reached⟩)).2]
  refine ⟨sane,?_,?_⟩
  · rw [(returns zero sane.zero_used).2]
    exact shows.clear
  · rw [← shows.view]
    funext v
    refine view_frame (entries v) fun set _ => (returns _ ?_).2
    rw [← entries v] at set ⊢
    exact sane.page_used new v _ ⟨c,still,rfl,set⟩

end Release

end PageTable
