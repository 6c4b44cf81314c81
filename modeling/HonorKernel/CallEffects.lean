import HonorKernel.ExecveMemory
import HonorKernel.SpaceEffects

-- What the calls that make an address space leave alone, and what the new one shows.
namespace PageTable
open DiskFormat BitSlice

def Covered (sections : List Section) (v : VPage) : Prop := ∃ st ∈ sections, ∃ va ∈ st.pages, v = vpage va

-- A page table with root `c` that belongs to `d` has been made.
structure Builds {D : Type*} [DecidableEq D] (holes : Holes) (zero : Frame) (roots : D → Option Frame) (d : D) (c : Frame) (law : VPage → U64 → Prop)
    (mem mem' : Mem) : Prop where
  sane : Sane holes zero mem' (Function.update roots d (some c))
  leaves : Leaves zero roots d mem mem'
  entries : ∀ v, mem'.lookup c v = 0#64 ∨ law v (mem'.lookup c v) ∧ ZeroLaw zero (mem'.lookup c v)

section Making
variable {D : Type*} [DecidableEq D] {holes : Holes} {zero c rp : Frame} {roots : D → Option Frame} {d d' : D}
  {law : VPage → U64 → Prop} {mem mem' mem'' : Mem} {fp : Option Nat} {dir dir' : PgDir} {pt : Option Frame}

theorem Builds.next (builds : Builds holes zero roots d c law mem mem')
    (sane : Sane holes zero mem'' (Function.update roots d (some c)))
    (effect : Effect zero (Function.update roots d (some c)) d (fun _ => True) law mem' mem'') :
    Builds holes zero roots d c law mem mem'' := by
  refine ⟨sane,builds.leaves.trans effect.leaves.of_update,fun v => ?_⟩
  rcases effect.entries d c v (Function.update_self ..) with same | ⟨_,holds,ro⟩
  · rw [same]
    exact builds.entries v
  · exact .inr ⟨holds,ro⟩

theorem Builds.zeroRo (builds : Builds holes zero roots d c law mem mem') (ro : ZeroRo zero mem roots) :
    ZeroRo zero mem' (Function.update roots d (some c)) := by
  intro d' root v found
  by_cases same : d' = d
  · subst same
    rw [Function.update_self] at found
    cases found
    rcases builds.entries v with zeroed | ⟨_,law⟩
    · rw [zeroed]
      exact zeroLaw_nothing
    · exact law
  · rw [Function.update_of_ne same] at found
    rw [builds.leaves.entries d' root v same found]
    exact ro d' root v found

theorem initPgdir_builds (sane : Sane holes zero mem roots) (d : D) (ran : initPgdir fp mem = .ok (dir,mem')) :
    ∃ c, dir = ⟨some c,initSections fp⟩ ∧ mem'.pages c = 0#32768 ∧ Builds holes zero roots d c law mem mem' := by
  obtain ⟨⟨c,middle⟩,took,ran⟩ := Runs.bind_ok.mp ran
  cases ran
  obtain ⟨sane₁,loose,bare⟩ := kzallocPage_sane sane took
  have effect : Effect zero roots d (fun _ => True) law mem mem' := kzallocPage_effect sane took
  exact ⟨c,rfl,bare,sane₁.root loose bare d,effect.leaves,fun v => .inl (zero_lookup bare v)⟩

theorem fork_builds {slab₀ slab₁ : Nat} {parent new : PgDir} (sane : Sane holes zero mem roots)
    (here : roots d' = some rp) (vacant : roots d = none) (table : parent.pt = some rp)
    (ran : fork slab₀ slab₁ fp parent mem = .ok (new,mem')) :
    ∃ c, new = ⟨some c,parent.sections.reverse++initSections fp⟩ ∧
    Builds holes zero roots d c (fun _ _ => True) mem mem' ∧
      (∀ v, Covered parent.sections v → mem'.contents c v = mem.contents rp v ∧
      (valid (mem.lookup rp v) → flagsOf (mem'.lookup c v) = flagsOf (mem.lookup rp v))) ∧
      ∀ v, ¬ Covered parent.sections v → mem'.lookup c v = 0#64 := by
  obtain ⟨c',isRoot,_,sane'⟩ := fork_sane sane d table ran
  obtain ⟨mem₁,slabbed,ran⟩ := Runs.bind_ok.mp ran
  obtain ⟨⟨stack,mem₂⟩,stacked,ran⟩ := Runs.bind_ok.mp ran
  obtain ⟨⟨made,mem₃⟩,started,ran⟩ := Runs.bind_ok.mp ran
  obtain ⟨⟨pt,mem₄⟩,copied,ran⟩ := Runs.bind_ok.mp ran
  obtain ⟨mem₅,slabbed',ran⟩ := Runs.bind_ok.mp ran
  cases ran
  obtain ⟨since₁,fresh₁,_⟩ := slab_since slab₀ sane.toFresh slabbed
  obtain ⟨since₂,fresh₂,_⟩ := kzallocPage_since fresh₁ stacked
  obtain ⟨⟨c,_⟩,took,started⟩ := Runs.bind_ok.mp started
  cases started
  obtain ⟨since₃,fresh₃,inQueue,used,bare,data,apart⟩ := kzallocPage_since fresh₂ took
  have since := (since₁.trans since₂).trans since₃
  have settled : Settled mem rp := ⟨fun way t short reached => sane.table_used d' way t ⟨rp,here,short,reached⟩,
      fun v set => sane.frame_used here set⟩
  have vacant' : ∀ v e, ¬ Maps mem₃ (Function.update roots d (some c)) d v e := by
    intro v e mapped
    obtain ⟨root,found,_⟩ := maps_update bare mapped
    rw [vacant] at found
    cases found
  have begin : Copying mem mem₃ (Function.update roots d (some c)) d rp c fun _ => False := by
    refine ⟨fresh₃.root used bare data apart d,since.kept,fun p there => since.queue.subset there,?_,
        fun v e mapped => absurd mapped (vacant' v e),
      fun v _ e _ mapped => absurd mapped (vacant' v e),fun v nothing => nothing.elim,fun v _ => zero_lookup bare v⟩
    intro way t there
    rcases isTable_update bare there with ⟨root,found,_⟩ | ⟨_,_,rfl⟩
    · rw [vacant] at found
      cases found
    · exact (since₁.trans since₂).queue.subset inQueue
  rw [table] at copied
  obtain ⟨rfl,copying⟩ := forkSections_copies parent.sections begin (Function.update_self _ _ _) settled copied
  obtain rfl : c = c' := Option.some.inj isRoot
  obtain ⟨_,_,pages⟩ := slab_since slab₁ copying.fresh slabbed'
  have lookups : ∀ v, mem'.lookup c v = mem₄.lookup c v := lookup_of_pages pages c
  have kept : ∀ p, p ∉ mem.free → mem'.pages p = mem.pages p := fun p used => by rw [pages,copying.kept p used]
  refine ⟨c,rfl,⟨sane',sane.leaves kept,fun v => ?_⟩,fun v covered => ?_,fun v away => ?_⟩
  · by_cases set : valid (mem'.lookup c v)
    · refine .inr ⟨trivial,fun _ isZero => absurd
        (copying.frames v (mem₄.lookup c v) ⟨c,Function.update_self _ _ _,rfl,by rw [← lookups]; exact set⟩) ?_⟩
      rw [← lookups,isZero]
      exact sane.zero_used
    · exact .inl (sane'.plain d c v (Function.update_self _ _ _) set)
  · by_cases set : valid (mem.lookup rp v)
    · obtain ⟨set',flags,bytes⟩ := copying.copied v (.inr covered) set
      rw [← lookups] at set' flags bytes
      rw [contents_mapped set,contents_mapped set',pages,bytes]
      exact ⟨rfl,fun _ => flags⟩
    · have zeroed := copying.rest v fun both => set both.2
      rw [← lookups] at zeroed
      rw [contents_none.mpr set,contents_none.mpr (by rw [zeroed]; decide)]
      exact ⟨rfl,fun set' => absurd set' set⟩
  · rw [lookups]
    exact copying.rest v fun both => both.1.elim id away

end Making

-- The entries that a segment asks for obey the law.
structure Segment.Obeys (zero : Frame) (law : VPage → U64 → Prop) (seg : Segment) : Prop where
  file : ∀ k < seg.bytes.length, ∀ q, q ≠ zero → law (vpage (seg.vaddr+BitVec.ofNat 64 k))
      (entryFor q (if seg.text then pteUserData ||| pteRo else pteUserData))
  bss : ∀ va ∈ seg.bss, law (vpage va) (entryFor zero (pteUserData ||| pteRo))

def stackAddrs (segs : List Segment) : List U64 := ((List.range stackPages).map (·+1)).map fun i => stackTop segs-BitVec.ofNat 64 (i*pageSize)

def stackLow (segs : List Segment) : Nat := (stackTop segs).toNat-stackPages*pageSize

-- What fillStack writes stays on the stack.
def OnStack (segs : List Segment) (args : List (U64 × List Byte)) : Prop :=
  ∀ w ∈ args, stackLow segs ≤ w.1.toNat ∧ w.1.toNat+w.2.length ≤ (stackTop segs).toNat

-- The memory of a new program, from its file and its arguments alone.
def imageByte (segs : List Segment) (args : List (U64 × List Byte)) (a : Nat) : Option Byte :=
  if stackLow segs ≤ a ∧ a < (stackTop segs).toNat then Overlay.paint (fun _ => some 0#8) (args.map fun w => (w.1.toNat,w.2)) a
  else shownByte 0#32768 (segs.foldl (fun view seg => seg.show view) (fun _ => none) (pageOf a)) (a%pageSize)

section Loading
variable {D : Type*} {holes : Holes} {zero c root : Frame} {roots : D → Option Frame} {d : D}
  {law : VPage → U64 → Prop} {mem mem' : Mem} {fp : Option Nat} {dir dir' : PgDir} {pt : Option Frame}
  {seg : Segment} {segs : List Segment} {args : List (U64 × List Byte)} {blank : Page} {view : PageView}
  {lo hi : Nat} {f : Nat → Option Byte}

theorem textFlags (text : Bool) :
    (if text then pteUserData ||| pteRo else pteUserData) &&& flagMask = (if text then pteUserData ||| pteRo else pteUserData) ∧
    valid (if text then pteUserData ||| pteRo else pteUserData) := by
  cases text <;> decide

theorem loadSegment_effect (sane : Sane holes zero mem roots) (here : roots d = some root)
    (table : dir.pt = some root) (obeys : seg.Obeys zero law)
    (ran : loadSegment zero seg dir mem = .ok (dir',mem')) : Effect zero roots d (fun _ => True) law mem mem' := by
  obtain ⟨⟨pt₁,middle⟩,loaded,ran⟩ := Runs.bind_ok.mp ran
  obtain ⟨⟨pt₂,last⟩,zeroed,ran⟩ := Runs.bind_ok.mp ran
  cases ran
  rw [table] at loaded
  obtain ⟨rfl,sane₁⟩ := loadPages_sane _ sane here (textFlags seg.text).1 (textFlags seg.text).2 loaded
  exact (loadPages_effect _ sane here (textFlags seg.text).1 (textFlags seg.text).2 obeys.file loaded).trans
    (mapZero_effect seg.bss sane₁ here obeys.bss zeroed)

theorem loadSegments_effect (segs : List Segment) (sane : Sane holes zero mem roots) (here : roots d = some root)
    (table : dir.pt = some root) (obeys : ∀ seg ∈ segs, seg.Obeys zero law)
    (ran : loadSegments zero segs dir mem = .ok (dir',mem')) :
    Effect zero roots d (fun _ => True) law mem mem' := by
  induction segs generalizing dir mem with
  | nil =>
    cases ran
    exact .refl
  | cons seg rest ih =>
    obtain ⟨⟨dir₁,middle⟩,first,ran⟩ := Runs.bind_ok.mp ran
    obtain ⟨table₁,_,sane₁⟩ := loadSegment_sane sane here table first
    exact (loadSegment_effect sane here table (obeys seg List.mem_cons_self) first).trans
      (ih sane₁ table₁ (fun seg member => obeys seg (List.mem_cons_of_mem _ member)) ran)

theorem Held.own (held : Held view lo hi f) (shows : Shows holes zero blank mem roots root view) {a : Nat}
    (low : lo ≤ a) (high : a < hi) :
    frameOf (mem.lookup root (pageOf a)) ≠ zero := by
  obtain ⟨page,shown,_⟩ := held a low high
  intro isZero
  rw [← shows.view,Mem.view,if_pos isZero] at shown
  split at shown
  · cases shown
  · cases shown

theorem copyouts_effect (args : List (U64 × List Byte)) (shows : Shows holes zero blank mem roots root view)
    (here : roots d = some root) (held : Held view lo hi f) (small : hi ≤ 2^48)
    (inside : ∀ w ∈ args, lo ≤ w.1.toNat ∧ w.1.toNat+w.2.length ≤ hi)
    (ran : copyouts args (some root) mem = .ok (pt,mem')) : Effect zero roots d (fun _ => True) law mem mem' := by
  induction args generalizing mem view f with
  | nil =>
    cases ran
    exact .refl
  | cons w rest ih =>
    obtain ⟨⟨pt₁,mem₁⟩,first,ran⟩ := Runs.bind_ok.mp ran
    obtain ⟨low,ends⟩ := inside w List.mem_cons_self
    obtain ⟨rfl,view₁,shows₁,held₁,_⟩ := copyoutLoop_paints _ (Nat.le_refl _) shows here held small low ends first
    refine Effect.trans (copyoutLoop_effect _ shows.sane here (fun k within => ?_) first)
        (ih shows₁ held₁ (fun w member => inside w (List.mem_cons_of_mem _ member)) ran)
    have place : (w.1+BitVec.ofNat 64 k).toNat = w.1.toNat+k := by
      rw [BitVec.toNat_add,BitVec.toNat_ofNat]
      omega
    rw [← pageOf_toNat,place]
    exact held.own shows (by omega) (by omega)

theorem stackTop_bounds (low : ∀ seg ∈ segs, seg.last.toNat+(stackPages+1)*pageSize ≤ 2^48) :
    (stackTop segs).toNat%pageSize = 0 ∧ stackPages*pageSize ≤ (stackTop segs).toNat ∧
    (stackTop segs).toNat ≤ 2^48 := by
  have unit : pageSize = 4096 := rfl
  have count : stackPages = 10 := rfl
  obtain ⟨bound,_⟩ := maxEnd_bound low (by decide)
  unfold stackTop
  rw [BitVec.toNat_add,BitVec.toNat_add,pageBase_toNat,BitVec.toNat_ofNat,BitVec.toNat_ofNat]
  rw [unit,count] at bound ⊢
  omega

variable [DecidableEq D]

theorem loadImage_builds (sane : Sane holes zero mem roots) (clear : mem.pages zero = 0#32768) (d : D)
    (low : ∀ seg ∈ segs, seg.last.toNat+(stackPages+1)*pageSize ≤ 2^48) (onStack : OnStack segs args)
    (obeys : ∀ seg ∈ segs, seg.Obeys zero law) (stack : ∀ va ∈ stackAddrs segs, ∀ q, q ≠ zero →
    law (vpage va) (entryFor q pteUserData)) (ran : loadImage zero fp segs args mem = .ok (dir,mem')) :
    ∃ c, dir = ⟨some c,imageSections fp segs⟩ ∧ Builds holes zero roots d c law mem mem' ∧ ∀ a < 2^48,
    byteOf (mem'.contents c) a = imageByte segs args a := by
  obtain ⟨⟨dir₀,mem₀⟩,init,ran⟩ := Runs.bind_ok.mp ran
  obtain ⟨⟨dir₁,mem₁⟩,loaded,ran⟩ := Runs.bind_ok.mp ran
  obtain ⟨⟨pt₂,mem₂⟩,stacked,ran⟩ := Runs.bind_ok.mp ran
  obtain ⟨⟨pt₃,mem₃⟩,filled,ran⟩ := Runs.bind_ok.mp ran
  cases ran
  obtain ⟨c,rfl,bare,builds⟩ : ∃ c, dir₀ = ⟨some c,initSections fp⟩ ∧ mem₀.pages c = 0#32768 ∧
      Builds holes zero roots d c law mem mem₀ := initPgdir_builds sane d init
  have here : Function.update roots d (some c) d = some c := Function.update_self ..
  have blank : mem₀.pages zero = 0#32768 := builds.leaves.blank.trans clear
  have shows : Shows holes zero 0#32768 mem₀ (Function.update roots d (some c)) c fun _ => none := by
    refine ⟨builds.sane,blank,funext fun v => ?_⟩
    rw [Mem.view,zero_lookup bare,if_neg (by decide)]
  obtain ⟨table₁,shows₁⟩ := loadSegments_shows segs shows here rfl loaded
  obtain ⟨_,list₁,_⟩ := loadSegments_sane segs builds.sane here rfl loaded
  have builds₁ := builds.next shows₁.sane (loadSegments_effect segs builds.sane here rfl obeys loaded)
  rw [table₁] at stacked
  obtain ⟨rfl,shows₂⟩ := mapStack_shows _ shows₁ here stacked
  have builds₂ := builds₁.next shows₂.sane
      (mapStack_effect _ shows₁.sane here
      (fun i member q other => stack _ (List.mem_map_of_mem member) q other) stacked)
  obtain ⟨aligned,room,high⟩ := stackTop_bounds low
  obtain ⟨held,same⟩ := Execve.stack_held (segs.foldl (fun view seg => seg.show view) fun _ => none) aligned room high
  obtain ⟨rfl,view₃,shows₃,held₃,same₃⟩ := copyouts_paints args shows₂ here held high onStack filled
  have builds₃ := builds₂.next shows₃.sane (copyouts_effect args shows₂ here held high onStack filled)
  refine ⟨c,by rw [list₁]; rfl,builds₃,fun a small => ?_⟩
  unfold imageByte
  rw [byteOf,contents_view shows₃.clear,shows₃.view]
  by_cases inside : stackLow segs ≤ a ∧ a < (stackTop segs).toNat
  · obtain ⟨page,shown,byte⟩ := held₃ a inside.1 inside.2
    rw [if_pos inside,shown,byte]
    rfl
  · have away : ∀ b, stackLow segs ≤ b → b < (stackTop segs).toNat → pageOf a ≠ pageOf b := by
      intro b above below number
      have numbers := (pageOf_same small (by omega)).mp number
      unfold stackLow at inside above
      rw [show pageSize = 4096 from rfl] at *
      omega
    rw [if_neg inside,same₃ _ away,same _ away,shownByte,Option.map_map]
    rfl

theorem loadBroken_builds {broken : Option (Segment × List Byte)} (sane : Sane holes zero mem roots) (d : D)
    (ran : Space.loadBroken zero fp segs broken mem = .ok (dir,mem')) :
    ∃ c, dir.pt = some c ∧ Builds holes zero roots d c (fun _ _ => True) mem mem' := by
  have obeys : ∀ seg ∈ segs, seg.Obeys zero fun _ _ => True := fun _ _ => ⟨fun _ _ _ _ => trivial,fun _ _ => trivial⟩
  obtain ⟨⟨dir₀,mem₀⟩,init,ran⟩ := Runs.bind_ok.mp ran
  obtain ⟨⟨dir₁,mem₁⟩,loaded,rest⟩ := Runs.bind_ok.mp ran
  obtain ⟨c,rfl,bare,builds⟩ : ∃ c, dir₀ = ⟨some c,initSections fp⟩ ∧ mem₀.pages c = 0#32768 ∧
      Builds holes zero roots d c (fun _ _ => True) mem mem₀ :=
    initPgdir_builds sane d init
  have here : Function.update roots d (some c) d = some c := Function.update_self ..
  obtain ⟨table₁,_,sane₁⟩ := loadSegments_sane segs builds.sane here rfl loaded
  have builds₁ := builds.next sane₁ (loadSegments_effect segs builds.sane here rfl obeys loaded)
  cases broken with
  | none =>
    cases rest
    exact ⟨c,table₁,builds₁⟩
  | some pair =>
    obtain ⟨⟨pt₂,mem₂⟩,read,rest⟩ := Runs.bind_ok.mp rest
    obtain ⟨⟨pt₃,mem₃⟩,last,rest⟩ := Runs.bind_ok.mp rest
    cases rest
    rw [table₁] at read
    obtain ⟨rfl,sane₂⟩ := loadPages_sane _ sane₁ here (textFlags pair.1.text).1 (textFlags pair.1.text).2 read
    have builds₂ := builds₁.next sane₂ (loadPages_effect _ sane₁ here (textFlags pair.1.text).1
        (textFlags pair.1.text).2 (fun _ _ _ _ => trivial) read)
    obtain ⟨rfl,sane₃⟩ := loadPage_sane sane₂ here (textFlags pair.1.text).1 (textFlags pair.1.text).2 last
    exact ⟨c,rfl,builds₂.next sane₃ (loadPage_effect sane₂ here (textFlags pair.1.text).1 (textFlags pair.1.text).2
        (fun _ _ => trivial) last)⟩

end Loading

end PageTable
