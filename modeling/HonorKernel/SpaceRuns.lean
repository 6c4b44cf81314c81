import HonorKernel.SectionLayout

-- The processes and their address spaces: every sequence of the calls that take pages
-- and give them back.
namespace PageTable
open DiskFormat BitSlice

structure Space (σ : Type) where
  mem : Mem
  dirs : Nat → Option PgDir
  fs : σ

-- `small` counts the pages that kalloc takes for the records of a call.
inductive Call where
  | start (pid : Nat) (fp : Option Nat)
  | execve (pid small : Nat) (fp : Option Nat) (segs : List Segment) (args : List (U64 × List Byte))
  | execveFails (pid small : Nat) (fp : Option Nat) (segs : List Segment) (broken : Option (Segment × List Byte))
  | sbrk (pid : Nat) (size : Int)
  | mmap (pid small : Nat) (length : U64) (shared : Bool) (prot : U64) (fp : Nat) (offset : U64)
  | munmap (pid : Nat) (va length : U64)
  | fault (pid : Nat) (va : U64)
  | store (pid : Nat) (va : U64) (bytes : List Byte)
  | fork (pid child slab₀ slab₁ : Nat) (fp : Option Nat)
  | exit (pid : Nat)

namespace Space
variable {σ : Type} (files : Files σ) (zero : Frame)

def dir (s : Space σ) (pid : Nat) : Except Trap PgDir :=
  match s.dirs pid with
  | none => .error .panic
  | some dir => .ok dir

-- What execve has built when it gives up: whole segments, and of a broken one the pages
-- that were read and the one that the file had too few bytes for.
def loadBroken (zero : Frame) (fp : Option Nat) (segs : List Segment) (broken : Option (Segment × List Byte)) (mem : Mem) :
    Except Trap (PgDir × Mem) := do
  let (dir,mem) ← initPgdir fp mem
  let (dir,mem) ← loadSegments zero segs dir mem
  match broken with
  | none => .ok (dir,mem)
  | some (seg,short) => do
    let flags := if seg.text then pteUserData ||| pteRo else pteUserData
    let (pt,mem) ← loadPages flags seg.bytes.length seg.vaddr seg.bytes dir.pt mem
    let (pt,mem) ← loadPage flags (seg.vaddr+BitVec.ofNat 64 seg.bytes.length) short pt mem
    .ok (⟨pt,seg.made::dir.sections⟩,mem)

def run (s : Space σ) : Call → Except Trap (Space σ)
  | .start pid fp =>
    if (s.dirs pid).isSome then .error .panic
    else do
      let (dir,mem) ← initPgdir fp s.mem
      .ok ⟨mem,Function.update s.dirs pid (some dir),s.fs⟩
  | .execve pid small fp segs args => do
    let old ← s.dir pid
    let mem ← slab small s.mem
    let (dir,mem) ← loadImage zero fp segs args mem
    let (_,mem,fs) ← freePgdir files old mem s.fs
    .ok ⟨mem,Function.update s.dirs pid (some dir),fs⟩
  | .execveFails pid small fp segs broken => do
    let _ ← s.dir pid
    let mem ← slab small s.mem
    let (dir,mem) ← loadBroken zero fp segs broken mem
    let (_,mem,fs) ← freePgdir files dir mem s.fs
    .ok ⟨mem,s.dirs,fs⟩
  | .sbrk pid size => do
    let dir ← s.dir pid
    let (_,dir,mem) ← PageTable.sbrk size dir s.mem
    .ok ⟨mem,Function.update s.dirs pid (some dir),s.fs⟩
  | .mmap pid small length shared prot fp offset => do
    let dir ← s.dir pid
    let mem ← slab small s.mem
    let (_,dir,mem,fs) ← PageTable.mmap files length shared prot fp offset dir mem s.fs
    .ok ⟨mem,Function.update s.dirs pid (some dir),fs⟩
  | .munmap pid va length => do
    let dir ← s.dir pid
    let (dir,mem,fs) ← PageTable.munmap files va length dir s.mem s.fs
    .ok ⟨mem,Function.update s.dirs pid (some dir),fs⟩
  | .fault pid va => do
    let dir ← s.dir pid
    let (dir,mem) ← pgfaultHandler va dir s.mem
    .ok ⟨mem,Function.update s.dirs pid (some dir),s.fs⟩
  | .store pid va bytes => do
    let dir ← s.dir pid
    let (dir,mem) ← userStore va bytes dir s.mem
    .ok ⟨mem,Function.update s.dirs pid (some dir),s.fs⟩
  | .fork pid child slab₀ slab₁ fp =>
    if (s.dirs child).isSome then .error .panic
    else do
      let parent ← s.dir pid
      let (new,mem) ← PageTable.fork slab₀ slab₁ fp parent s.mem
      .ok ⟨mem,Function.update s.dirs child (some new),dupSections files parent.sections s.fs⟩
  | .exit pid => do
    let old ← s.dir pid
    let (_,mem,fs) ← freePgdir files old s.mem s.fs
    .ok ⟨mem,Function.update s.dirs pid none,fs⟩

def next (s : Space σ) (call : Call) : Option (Space σ) := (s.run files zero call).toOption

-- kinit: the zero page has a reference of its own, and no process is there.
structure Booted (s : Space σ) : Prop where
  nodup : s.mem.free.Nodup
  clean : s.mem.clean = true
  zero_used : zero ∉ s.mem.free
  zero_real : zero ≠ 0#36
  zero_count : s.mem.refs zero = 1
  hole : 0#36 ∉ s.mem.free
  unused : ∀ pid, s.dirs pid = none

end Space

-- The pages of the segments, and of the stack above them.
structure PageDisjoint (segs : List Segment) : Prop where
  low : ∀ seg ∈ segs, seg.last.toNat+(stackPages+1)*pageSize ≤ 2^48
  apart : (segs.map Segment.made).Pairwise Section.Apart

-- sbrk does not look where the heap grows to.
def Room (size : Int) (dir : PgDir) : Prop :=
  ∀ before st after, heapOf dir.sections = some (before,st,after) → 0 ≤ size →
    (st.last+BitVec.ofInt 64 (size*pageSize)).toNat ≤ 2^48 ∧
    ∀ x ∈ before++after, Section.Apart { st with last := st.last+BitVec.ofInt 64 (size*pageSize) } x

-- munmap of a part takes every page of it to be there.
def Present (va length : U64) (dir : PgDir) (mem : Mem) : Prop :=
  ∀ before st after, splitAt va dir.sections = some (before,st,after) → length < st.last-st.first →
    va.toNat+length.toNat ≤ 2^48 ∧ ∀ root, dir.pt = some root → ∀ page ∈ pagesOf va (va+length), valid (mem.lookup root (vpage page))

-- What the linker sees to.
def Linked : Call → Prop
  | .execve _ _ _ segs _ => PageDisjoint segs
  | .execveFails _ _ _ segs broken => PageDisjoint (segs++(broken.map Prod.fst).toList)
  | _ => True

def Careful {σ : Type} (s : Space σ) : Call → Prop
  | .execve _ _ _ segs _ => PageDisjoint segs
  | .execveFails _ _ _ segs broken => PageDisjoint (segs++(broken.map Prod.fst).toList)
  | .sbrk pid size => ∀ dir, s.dirs pid = some dir → Room size dir
  | .munmap pid va length => ∀ dir, s.dirs pid = some dir → Present va length dir s.mem
  | _ => True

-- The page tables of the processes; None is for an image that no process has yet.
def rootsOf (dirs : Nat → Option PgDir) : Option Nat → Option Frame
  | none => none
  | some pid => (dirs pid).bind PgDir.pt

structure Sound {σ : Type} (holes : Holes) (zero : Frame) (s : Space σ) : Prop where
  sane : Sane holes zero s.mem (rootsOf s.dirs)
  tables : ∀ pid dir, s.dirs pid = some dir → ∃ root, dir.pt = some root
  layout : ∀ pid dir, s.dirs pid = some dir → Layout dir.sections

section Steps
variable {σ : Type} {files : Files σ} {holes : Holes} {zero : Frame} {s s' : Space σ} {mem : Mem}
  {dirs : Nat → Option PgDir} {fs : σ} {dir new : PgDir} {pid : Nat} {root : Frame}

theorem Space.dir_ok (found : s.dir pid = .ok dir) : s.dirs pid = some dir := by
  unfold Space.dir at found
  split at found
  · cases found
  · rename_i here
    cases found
    exact here

theorem rootsOf_update (dirs : Nat → Option PgDir) (pid : Nat) (table : new.pt = some root) :
    rootsOf (Function.update dirs pid (some new)) = Function.update (rootsOf dirs) (some pid) (some root) := by
  funext d
  cases d with
  | none => rw [Function.update_of_ne (by simp)]; rfl
  | some other =>
    by_cases same : other = pid
    · subst same
      rw [Function.update_self,rootsOf,Function.update_self]
      exact table
    · have apart : some other ≠ some pid := fun equal => same (Option.some.inj equal)
      rw [Function.update_of_ne apart,rootsOf,Function.update_of_ne same]
      rfl

theorem rootsOf_remove (dirs : Nat → Option PgDir) (pid : Nat) :
    rootsOf (Function.update dirs pid none) = Function.update (rootsOf dirs) (some pid) none := by
  funext d
  cases d with
  | none => rw [Function.update_of_ne (by simp)]; rfl
  | some other =>
    by_cases same : other = pid
    · subst same
      rw [Function.update_self,rootsOf,Function.update_self]
      rfl
    · have apart : some other ≠ some pid := fun equal => same (Option.some.inj equal)
      rw [Function.update_of_ne apart,rootsOf,Function.update_of_ne same]
      rfl

theorem Sound.put (sound : Sound holes zero s)
    (sane : Sane holes zero mem (Function.update (rootsOf s.dirs) (some pid) (some root)))
    (table : new.pt = some root) (layout : Layout new.sections) :
    Sound holes zero ⟨mem,Function.update s.dirs pid (some new),fs⟩ := by
  refine ⟨by rw [rootsOf_update s.dirs pid table]; exact sane,?_,?_⟩
  · intro other dir found
    by_cases same : other = pid
    · subst same
      simp only [Function.update_self,Option.some.injEq] at found
      exact ⟨root,found ▸ table⟩
    · simp only [Function.update_of_ne same] at found
      exact sound.tables other dir found
  · intro other dir found
    by_cases same : other = pid
    · subst same
      simp only [Function.update_self,Option.some.injEq] at found
      exact found ▸ layout
    · simp only [Function.update_of_ne same] at found
      exact sound.layout other dir found

theorem Sound.here (sound : Sound holes zero s) (found : s.dirs pid = some dir) :
    ∃ root, dir.pt = some root ∧ rootsOf s.dirs (some pid) = some root ∧ Function.update (rootsOf s.dirs) (some pid)
    (some root) = rootsOf s.dirs := by
  obtain ⟨root,table⟩ := sound.tables pid dir found
  have here : rootsOf s.dirs (some pid) = some root := by
    rw [rootsOf,found]
    exact table
  refine ⟨root,table,here,?_⟩
  rw [← here,Function.update_eq_self]

theorem Sound.keep (sound : Sound holes zero s) (found : s.dirs pid = some dir)
    (sane : Sane holes zero mem (rootsOf s.dirs)) (same : new.pt = dir.pt) (layout : Layout new.sections) :
    Sound holes zero ⟨mem,Function.update s.dirs pid (some new),fs⟩ := by
  obtain ⟨root,table,_,update⟩ := sound.here found
  exact sound.put (by rw [update]; exact sane) (same.trans table) layout

theorem maxEnd_bound {segs : List Segment} (low : ∀ seg ∈ segs, seg.last.toNat+room ≤ 2^48) (small : room ≤ 2^48) :
    (maxEnd segs).toNat+room ≤ 2^48 ∧ ∀ seg ∈ segs, seg.last.toNat ≤ (maxEnd segs).toNat := by
  have below : ∀ (segs : List Segment) (top : U64), (∀ seg ∈ segs, seg.last.toNat+room ≤ 2^48) → top.toNat+room ≤ 2^48 →
      let result := segs.foldl (fun top seg => if top < seg.last then seg.last else top) top
      result.toNat+room ≤ 2^48 ∧ top.toNat ≤ result.toNat ∧ ∀ seg ∈ segs, seg.last.toNat ≤ result.toNat := by
    intro segs
    induction segs with
    | nil => exact fun top _ low => ⟨low,Nat.le_refl _,by simp⟩
    | cons seg rest ih =>
      intro top all low
      rw [List.foldl_cons]
      obtain ⟨next,is⟩ : ∃ next, next = if top < seg.last then seg.last else top := ⟨_,rfl⟩
      rw [← is]
      have step : next.toNat+room ≤ 2^48 ∧ top.toNat ≤ next.toNat ∧ seg.last.toNat ≤ next.toNat := by
        have mine := all seg List.mem_cons_self
        rw [is]
        split
        · rename_i above
          rw [BitVec.lt_def] at above
          exact ⟨mine,by omega,Nat.le_refl _⟩
        · rename_i above
          rw [BitVec.lt_def] at above
          exact ⟨low,Nat.le_refl _,by omega⟩
      obtain ⟨low',top',each⟩ := ih next (fun x there => all x (List.mem_cons_of_mem _ there)) step.1
      refine ⟨low',by omega,?_⟩
      intro x there
      rcases List.mem_cons.mp there with rfl | there
      · omega
      · exact each x there
  obtain ⟨bound,_,each⟩ := below segs 0#64 low (by simpa using small)
  exact ⟨bound,each⟩

theorem Layout.of_init (fp : Option Nat) {list : List Section}
    (each : ∀ st ∈ list, st.last.toNat ≤ 2^48 ∧ st.flags &&& stHeap = 0#64) (apart : list.Pairwise Section.Apart) :
    Layout (list++initSections fp) := by
  induction list with
  | nil => exact initSections_layout fp
  | cons st rest ih =>
    rw [List.pairwise_cons] at apart
    obtain ⟨low,plain⟩ := each st List.mem_cons_self
    refine (ih (fun x there => each x (List.mem_cons_of_mem _ there)) apart.2).cons (.inr low) ?_ plain
    intro x there
    rcases List.mem_append.mp there with old | new
    · exact apart.1 x old
    · rw [initSections,List.mem_singleton] at new
      subst new
      rintro n _ ⟨_,upper⟩
      exact absurd upper (Nat.not_lt_zero _)

theorem segments_layout (fp : Option Nat) {segs : List Segment} (disjoint : PageDisjoint segs) :
    Layout ((segs.map Segment.made).reverse++initSections fp) := by
  refine Layout.of_init fp ?_ (List.pairwise_reverse.mpr (disjoint.apart.imp fun apart => apart.symm))
  intro st there
  rw [List.mem_reverse] at there
  obtain ⟨seg,member,rfl⟩ := List.mem_map.mp there
  have bound := disjoint.low seg member
  refine ⟨?_,?_⟩
  · simp only [Segment.made]
    omega
  · simp only [Segment.made]
    split <;> decide

theorem image_layout (fp : Option Nat) {segs : List Segment} (disjoint : PageDisjoint segs) :
    Layout (imageSections fp segs) := by
  have size : pageSize = 4096 := rfl
  have pages : stackPages = 10 := rfl
  obtain ⟨low,each⟩ := maxEnd_bound disjoint.low (by decide)
  have top : (stackTop segs).toNat = (maxEnd segs).toNat/pageSize*pageSize+(stackPages+1)*pageSize := by
    unfold stackTop
    rw [BitVec.toNat_add,BitVec.toNat_add,pageBase_toNat,BitVec.toNat_ofNat,BitVec.toNat_ofNat,size,pages] at *
    omega
  have base : (stackSection segs).first.toNat = (maxEnd segs).toNat/pageSize*pageSize+pageSize := by
    simp only [stackSection]
    rw [BitVec.toNat_sub,BitVec.toNat_ofNat,top,size,pages] at *
    omega
  refine (segments_layout fp disjoint).cons (.inr ?_) ?_ (by simp only [stackSection]; decide)
  · simp only [stackSection]
    rw [top,size,pages] at *
    omega
  · rintro x there n ⟨lower,_⟩ ⟨_,upper⟩
    rw [base] at lower
    rcases List.mem_append.mp there with old | new
    · rw [List.mem_reverse] at old
      obtain ⟨seg,member,rfl⟩ := List.mem_map.mp old
      have bound := each seg member
      simp only [Segment.made] at upper
      rw [size] at *
      omega
    · rw [initSections,List.mem_singleton] at new
      subst new
      exact absurd upper (Nat.not_lt_zero _)

theorem start_sound (sound : Sound holes zero s) {fp : Option Nat}
    (ran : s.run files zero (.start pid fp) = .ok s') : Sound holes zero s' := by
  simp only [Space.run] at ran
  split at ran
  · cases ran
  · obtain ⟨⟨new,mem⟩,init,ran⟩ := Runs.bind_ok.mp ran
    cases ran
    obtain ⟨c,table,list,sane⟩ := initPgdir_sane sound.sane (some pid) init
    exact sound.put sane table (by rw [list]; exact initSections_layout fp)

theorem image_named {c : Frame}
    (sane : Sane holes zero mem (Function.update (Function.update (rootsOf dirs) none (some c)) (some pid) none)) :
    Sane holes zero mem (Function.update (rootsOf dirs) (some pid) (some c)) := by
  refine sane.relabel (Equiv.swap none (some pid)) (Equiv.swap none (some pid)).injective ?_
  intro d r value
  by_cases mine : d = some pid
  · subst mine
    rw [Function.update_self] at value
    rw [Equiv.swap_apply_right,Function.update_of_ne (by simp),Function.update_self]
    exact value
  · rw [Function.update_of_ne mine] at value
    cases d with
    | none => cases value
    | some other =>
      rw [Equiv.swap_apply_of_ne_of_ne (by simp) mine,Function.update_of_ne mine,Function.update_of_ne (by simp)]
      exact value

theorem execve_sound (sound : Sound holes zero s) {small : Nat} {fp : Option Nat} {segs : List Segment}
    {args : List (U64 × List Byte)} (disjoint : PageDisjoint segs)
    (ran : s.run files zero (.execve pid small fp segs args) = .ok s') : Sound holes zero s' := by
  obtain ⟨old,found,ran⟩ := Runs.bind_ok.mp ran
  obtain ⟨mem₁,taken,ran⟩ := Runs.bind_ok.mp ran
  obtain ⟨⟨new,mem₂⟩,loaded,ran⟩ := Runs.bind_ok.mp ran
  obtain ⟨⟨gone,mem₃,fs⟩,freed,ran⟩ := Runs.bind_ok.mp ran
  cases ran
  have found := Space.dir_ok found
  obtain ⟨root,table,here,_⟩ := sound.here found
  obtain ⟨c,table',list,sane₂⟩ := loadImage_sane (slab_sane small sound.sane taken) none loaded
  have here' : Function.update (rootsOf s.dirs) none (some c) (some pid) = some root := by
    rw [Function.update_of_ne (by simp)]
    exact here
  obtain ⟨sane₃,_⟩ := freePgdir_sane files sane₂ here' table (sound.layout pid old found).nodup freed
  exact sound.put (image_named sane₃) table' (by rw [list]; exact image_layout fp disjoint)

theorem loadBroken_sane {D : Type*} [DecidableEq D] {roots : D → Option Frame} {mem mem' : Mem} {fp : Option Nat}
    {segs : List Segment} {broken : Option (Segment × List Byte)} (sane : Sane holes zero mem roots) (d : D)
    (ran : Space.loadBroken zero fp segs broken mem = .ok (new,mem')) :
    ∃ c, new.pt = some c ∧
    new.sections = ((segs++(broken.map Prod.fst).toList).map Segment.made).reverse++initSections fp ∧
      Sane holes zero mem' (Function.update roots d (some c)) := by
  obtain ⟨⟨dir₀,mem₀⟩,init,ran⟩ := Runs.bind_ok.mp ran
  obtain ⟨⟨dir₁,mem₁⟩,loaded,ran⟩ := Runs.bind_ok.mp ran
  obtain ⟨c,table,list,sane₀⟩ := initPgdir_sane sane d init
  have here : Function.update roots d (some c) d = some c := Function.update_self ..
  obtain ⟨table₁,list₁,sane₁⟩ := loadSegments_sane segs sane₀ here table loaded
  cases broken with
  | none =>
    cases ran
    exact ⟨c,table₁,by rw [list₁,list]; simp,sane₁⟩
  | some pair =>
    obtain ⟨seg,short⟩ := pair
    have flags : ∀ text : Bool, (if text then pteUserData ||| pteRo else pteUserData) &&& flagMask =
        (if text then pteUserData ||| pteRo else pteUserData) ∧
        valid (if text then pteUserData ||| pteRo else pteUserData) := by decide
    obtain ⟨⟨pt₂,mem₂⟩,read,ran⟩ := Runs.bind_ok.mp ran
    obtain ⟨⟨pt₃,mem₃⟩,last,ran⟩ := Runs.bind_ok.mp ran
    cases ran
    rw [table₁] at read
    obtain ⟨rfl,sane₂⟩ := loadPages_sane _ sane₁ here (flags seg.text).1 (flags seg.text).2 read
    obtain ⟨rfl,sane₃⟩ := loadPage_sane sane₂ here (flags seg.text).1 (flags seg.text).2 last
    exact ⟨c,rfl,by rw [list₁,list]; simp,sane₃⟩

theorem execveFails_sound (sound : Sound holes zero s) {small : Nat} {fp : Option Nat} {segs : List Segment}
    {broken : Option (Segment × List Byte)} (disjoint : PageDisjoint (segs++(broken.map Prod.fst).toList))
    (ran : s.run files zero (.execveFails pid small fp segs broken) = .ok s') :
    Sound holes zero s' := by
  obtain ⟨old,_,ran⟩ := Runs.bind_ok.mp ran
  obtain ⟨mem₁,taken,ran⟩ := Runs.bind_ok.mp ran
  obtain ⟨⟨new,mem₂⟩,loaded,ran⟩ := Runs.bind_ok.mp ran
  obtain ⟨⟨gone,mem₃,fs⟩,freed,ran⟩ := Runs.bind_ok.mp ran
  cases ran
  obtain ⟨c,table,list,sane₂⟩ := loadBroken_sane (slab_sane small sound.sane taken) none loaded
  have layout := segments_layout fp disjoint
  rw [← list] at layout
  obtain ⟨sane₃,_⟩ := freePgdir_sane files sane₂ (Function.update_self ..) table layout.nodup freed
  rw [Function.update_idem] at sane₃
  refine ⟨sane₃.relabel id Function.injective_id ?_,sound.tables,sound.layout⟩
  intro d r value
  cases d with
  | none => cases value
  | some other =>
    rw [id,Function.update_of_ne (by simp)]
    exact value

theorem exit_sound (sound : Sound holes zero s) (ran : s.run files zero (.exit pid) = .ok s') :
    Sound holes zero s' := by
  obtain ⟨old,found,ran⟩ := Runs.bind_ok.mp ran
  obtain ⟨⟨gone,mem₁,fs⟩,freed,ran⟩ := Runs.bind_ok.mp ran
  cases ran
  have found := Space.dir_ok found
  obtain ⟨root,table,here,_⟩ := sound.here found
  obtain ⟨sane₁,_⟩ := freePgdir_sane files sound.sane here table (sound.layout pid old found).nodup freed
  have others : ∀ other dir, Function.update s.dirs pid none other = some dir → s.dirs other = some dir := by
    intro other dir value
    by_cases same : other = pid
    · subst same
      rw [Function.update_self] at value
      cases value
    · rw [Function.update_of_ne same] at value
      exact value
  refine ⟨?_,fun other dir value => sound.tables other dir (others other dir value),
    fun other dir value => sound.layout other dir (others other dir value)⟩
  rw [rootsOf_remove]
  exact sane₁

theorem fork_sound (sound : Sound holes zero s) {child slab₀ slab₁ : Nat} {fp : Option Nat}
    (ran : s.run files zero (.fork pid child slab₀ slab₁ fp) = .ok s') : Sound holes zero s' := by
  simp only [Space.run] at ran
  split at ran
  · cases ran
  · obtain ⟨parent,found,ran⟩ := Runs.bind_ok.mp ran
    obtain ⟨⟨new,mem₁⟩,copied,ran⟩ := Runs.bind_ok.mp ran
    cases ran
    have found := Space.dir_ok found
    obtain ⟨root,table,_,_⟩ := sound.here found
    obtain ⟨c,table',list,sane₁⟩ := fork_sane sound.sane (some child) table copied
    exact sound.put sane₁ table' (by rw [list]; exact (sound.layout pid parent found).fork fp)

theorem fault_sound (sound : Sound holes zero s) {va : U64} (ran : s.run files zero (.fault pid va) = .ok s') :
    Sound holes zero s' := by
  obtain ⟨dir,found,ran⟩ := Runs.bind_ok.mp ran
  obtain ⟨⟨dir',mem₁⟩,handled,ran⟩ := Runs.bind_ok.mp ran
  cases ran
  have found := Space.dir_ok found
  obtain ⟨root,table,here,_⟩ := sound.here found
  obtain ⟨rfl,sane₁⟩ := pgfaultHandler_sane sound.sane here table handled
  exact sound.keep found sane₁ rfl (sound.layout pid _ found)

theorem store_sound (sound : Sound holes zero s) {va : U64} {bytes : List Byte}
    (ran : s.run files zero (.store pid va bytes) = .ok s') :
    Sound holes zero s' := by
  obtain ⟨dir,found,ran⟩ := Runs.bind_ok.mp ran
  obtain ⟨⟨dir',mem₁⟩,stored,ran⟩ := Runs.bind_ok.mp ran
  cases ran
  have found := Space.dir_ok found
  obtain ⟨root,table,here,_⟩ := sound.here found
  obtain ⟨rfl,sane₁⟩ := userStore_sane sound.sane here table stored
  exact sound.keep found sane₁ rfl (sound.layout pid _ found)

-- A heap that shrinks: the test of sbrk is made with words, and the heap begins at 0.
theorem shrunk_last {last amount : U64} (enough : ¬ last < amount) : (last-amount).toNat ≤ last.toNat := by
  rw [BitVec.lt_def] at enough
  rw [BitVec.toNat_sub]
  have bound := last.isLt
  have bound' := amount.isLt
  omega

theorem sbrk_amount (size : Int) :
    BitVec.ofInt 64 (size*pageSize) = -(BitVec.ofInt 64 (-size)*BitVec.ofNat 64 pageSize) := by
  have word : BitVec.ofNat 64 pageSize = BitVec.ofInt 64 (pageSize : Int) := rfl
  rw [word,← BitVec.ofInt_mul,← BitVec.ofInt_neg]
  congr 1
  rw [Int.neg_mul,Int.neg_neg]

theorem sbrk_sound (sound : Sound holes zero s) {size : Int} (room : ∀ dir, s.dirs pid = some dir → Room size dir)
    (ran : s.run files zero (.sbrk pid size) = .ok s') : Sound holes zero s' := by
  obtain ⟨dir,found,ran⟩ := Runs.bind_ok.mp ran
  obtain ⟨⟨old,dir',mem₁⟩,done,ran⟩ := Runs.bind_ok.mp ran
  cases ran
  have found := Space.dir_ok found
  obtain ⟨root,table,here,_⟩ := sound.here found
  have layout := sound.layout pid dir found
  unfold PageTable.sbrk at done
  split at done
  · cases done
  · rename_i before st after heap
    have parts := heapOf_parts heap
    have isHeap := heapOf_heap layout.heap heap
    rw [parts] at layout
    have front := layout.perm List.perm_middle
    have first : st.first = 0#64 := front.heap_first st List.mem_cons_self isHeap
    simp only at done
    split at done
    · rename_i grows
      cases done
      obtain ⟨low,apart⟩ := room dir found before st after heap grows
      refine sound.keep found sound.sane rfl (Layout.perm ?_ List.perm_middle.symm)
      exact front.move (.inr low) apart rfl fun _ => rfl
    · split at done
      · cases done
      · rename_i enough
        obtain ⟨mem₂,dropped,done⟩ := Runs.bind_ok.mp done
        cases done
        rw [table] at dropped
        have sane₁ := dropPages_sane _ sound.sane here dropped
        refine sound.keep found sane₁ rfl (Layout.perm ?_ List.perm_middle.symm)
        rw [first] at enough
        simp only [BitVec.sub_zero] at enough
        have less := shrunk_last enough
        rw [BitVec.sub_eq_add_neg,← sbrk_amount] at less
        have laid := front.laid st List.mem_cons_self
        refine front.shrink ?_ ?_ rfl fun _ => rfl
        · rcases laid with none | low
          · exact .inl (Nat.le_trans less none)
          · exact .inr (Nat.le_trans less low)
        · rintro n ⟨lower,upper⟩
          exact ⟨lower,Nat.lt_of_lt_of_le upper less⟩

theorem mmap_sound (sound : Sound holes zero s) {small : Nat} {length : U64} {shared : Bool} {prot : U64} {fp : Nat}
    {offset : U64} (ran : s.run files zero (.mmap pid small length shared prot fp offset) = .ok s') :
    Sound holes zero s' := by
  obtain ⟨dir,found,ran⟩ := Runs.bind_ok.mp ran
  obtain ⟨mem₁,taken,ran⟩ := Runs.bind_ok.mp ran
  obtain ⟨⟨result,dir',mem₂,fs⟩,mapped,ran⟩ := Runs.bind_ok.mp ran
  cases ran
  have found := Space.dir_ok found
  obtain ⟨root,table,here,_⟩ := sound.here found
  have layout := sound.layout pid dir found
  have sane₁ := slab_sane small sound.sane taken
  unfold PageTable.mmap at mapped
  by_cases refused : freeEnd dir.sections = freeEnd dir.sections-length ∨ pageOffset (freeEnd dir.sections-length) ≠ 0
  · simp only [getFreeVm,refused,if_true] at mapped
    cases mapped
    exact sound.keep found sane₁ rfl layout
  · simp only [getFreeVm,refused,if_false] at mapped
    obtain ⟨⟨bytes,fs₁⟩,_,mapped⟩ := Runs.bind_ok.mp mapped
    obtain ⟨⟨dir₁,mem₃⟩,copied,mapped⟩ := Runs.bind_ok.mp mapped
    cases mapped
    obtain ⟨rfl,sane₂⟩ := userCopy_sane _ sane₁ here (by exact table) copied
    obtain ⟨low,_,above⟩ := freeEnd_below layout
    refine sound.keep found sane₂ rfl (layout.cons (.inr ?_) ?_ ?_)
    · simp only
      omega
    · rintro st there n ⟨_,upper⟩ covers
      exact absurd (above st there n covers) (Nat.not_le.mpr upper)
    · simp only
      split <;> decide

theorem pageLoop_ok {first last : U64} {pages : List U64} (ran : pageLoop first last = .ok pages) :
    pages = pagesOf first last := by
  unfold pageLoop at ran
  split at ran
  · cases ran
  · exact (Except.ok.inj ran).symm

theorem munmap_sound (sound : Sound holes zero s) {va length : U64}
    (present : ∀ dir, s.dirs pid = some dir → Present va length dir s.mem)
    (ran : s.run files zero (.munmap pid va length) = .ok s') : Sound holes zero s' := by
  obtain ⟨dir,found,ran⟩ := Runs.bind_ok.mp ran
  obtain ⟨⟨dir',mem₁,fs⟩,done,ran⟩ := Runs.bind_ok.mp ran
  cases ran
  have found := Space.dir_ok found
  obtain ⟨root,table,here,_⟩ := sound.here found
  have layout := sound.layout pid dir found
  unfold PageTable.munmap at done
  split at done
  · cases done
    exact sound.keep found sound.sane rfl layout
  · rename_i before st after split
    obtain ⟨parts,first⟩ := splitAt_parts split
    rw [parts] at layout
    have front := layout.perm List.perm_middle
    split at done
    · cases done
    · rename_i flags
      have plain : st.flags &&& stHeap = 0#64 := by
        rcases not_not.mp flags with isPrivate | isShared
        · rw [isPrivate]
          decide
        · rw [isShared]
          decide
      split at done
      · obtain ⟨⟨dir₁,mem₂⟩,zeroed,done⟩ := Runs.bind_ok.mp done
        obtain ⟨pages,_,done⟩ := Runs.bind_ok.mp done
        obtain ⟨⟨mem₃,fs₁⟩,freed,done⟩ := Runs.bind_ok.mp done
        obtain ⟨fs₂,_,finish⟩ := Runs.bind_ok.mp done
        cases finish
        obtain ⟨rfl,sane₁⟩ := userCopy_sane length.toNat sound.sane here table zeroed
        rw [table] at freed
        exact sound.keep found (freeSectionPages_sane pages sane₁ here freed) rfl (front.tail plain)
      · rename_i short
        have shorter : length < st.last-st.first := by
          rw [BitVec.le_def] at short
          rw [BitVec.lt_def]
          omega
        obtain ⟨low,all⟩ := present dir found before st after split shorter
        obtain ⟨pages,loop,done⟩ := Runs.bind_ok.mp done
        obtain ⟨⟨mem₂,fs₁⟩,cut,done⟩ := Runs.bind_ok.mp done
        cases done
        rw [table] at cut
        rw [pageLoop_ok loop,first] at cut
        have sum : (va+length).toNat = va.toNat+length.toNat := by
          rw [BitVec.toNat_add]
          omega
        have laid : Section.Laid { st with first := va, last := va+length } := .inr (by simp only; omega)
        have sane₁ := cutPages_sane _ sound.sane here (pages_nodup laid) (all root table) cut
        refine sound.keep found sane₁ rfl (Layout.perm ?_ List.perm_middle.symm)
        refine front.shrink ?_ ?_ rfl ?_
        · rcases front.laid st List.mem_cons_self with none | low'
          · left
            simp only
            rw [first,sum]
            rw [first] at none
            exact Nat.le_trans none (Nat.mul_le_mul_right _ (Nat.div_le_div_right (Nat.le_add_right _ _)))
          · exact .inr low'
        · rintro n ⟨lower,upper⟩
          refine ⟨?_,upper⟩
          simp only at lower
          rw [first,sum] at lower
          rw [first]
          exact Nat.le_trans (Nat.div_le_div_right (Nat.le_add_right _ _)) lower
        · intro set
          exact absurd plain set

theorem Sound.next (sound : Sound holes zero s) {call : Call} (careful : Careful s call)
    (ran : s.run files zero call = .ok s') : Sound holes zero s' := by
  cases call with
  | start pid fp => exact start_sound sound ran
  | execve pid small fp segs args => exact execve_sound sound careful ran
  | execveFails pid small fp segs broken => exact execveFails_sound sound careful ran
  | sbrk pid size => exact sbrk_sound sound careful ran
  | mmap pid small length shared prot fp offset => exact mmap_sound sound ran
  | munmap pid va length => exact munmap_sound sound careful ran
  | fault pid va => exact fault_sound sound ran
  | store pid va bytes => exact store_sound sound ran
  | fork pid child slab₀ slab₁ fp => exact fork_sound sound ran
  | exit pid => exact exit_sound sound ran

theorem Space.Booted.sound (booted : Space.Booted zero s) (free : ∀ h, holes.frames h → h ∉ s.mem.free)
    (real : ¬ holes.frames zero) (refs : ∀ h, holes.frames h → s.mem.refs h = holes.refs h) : Sound holes zero s := by
  have nobody : ∀ d, rootsOf s.dirs d = none := by
    intro d
    cases d with
    | none => rfl
    | some pid =>
      rw [rootsOf,booted.unused]
      rfl
  have tables : ∀ d way t, ¬ IsTable s.mem (rootsOf s.dirs) d way t := by
    rintro d way t ⟨root,found,_⟩
    rw [nobody] at found
    cases found
  have maps : ∀ d v e, ¬ Maps s.mem (rootsOf s.dirs) d v e := by
    rintro d v e ⟨root,found,_⟩
    rw [nobody] at found
    cases found
  refine ⟨⟨⟨booted.nodup,?_,?_,?_,?_⟩,booted.clean,?_,booted.zero_used,?_,⟨∅,?_,?_⟩,real,free,?_,?_,refs,?_⟩,?_,?_⟩
  · exact fun d _ way _ t one => absurd one (tables d way t)
  · exact fun d way t there => absurd there (tables d way t)
  · exact fun d v e there => absurd there (maps d v e)
  · exact fun d v e there => absurd there (maps d v e)
  · exact fun d _ v _ e _ one => absurd one (maps d v e)
  · exact fun d way => tables d way zero
  · exact fun d v e there => absurd there (maps d v e)
  · rw [booted.zero_count]
    decide
  · exact fun h _ d way => tables d way h
  · exact fun d v e there => absurd there (maps d v e)
  · intro d root v found
    rw [nobody] at found
    cases found
  · intro pid dir found
    rw [booted.unused] at found
    cases found
  · intro pid dir found
    rw [booted.unused] at found
    cases found

end Steps

-- The page of no entry of a process is on the queue, no table is, and nothing went on it
-- twice.
def Kept {σ : Type} (s : Space σ) : Prop :=
  s.mem.clean = true ∧ s.mem.free.Nodup ∧ ∀ pid dir root, s.dirs pid = some dir → dir.pt = some root →
    (∀ v, valid (s.mem.lookup root v) → frameOf (s.mem.lookup root v) ∉ s.mem.free) ∧
    ∀ way t, way.length ≤ 3 → s.mem.table root way = some t → t ∉ s.mem.free

theorem freed_pages_unused {σ : Type} (files : Files σ) {zero : Frame} {start s : Space σ}
    (booted : Space.Booted zero start) (path : Runs.Guarded (Space.next files zero) Careful start s) : Kept s := by
  have none : ∀ h : Frame, h = 0#36 → h ∉ start.mem.free := by
    rintro _ rfl
    exact booted.hole
  have sound := path.invariant (Sound ⟨(· = 0#36),start.mem.refs,rfl⟩ zero) (booted.sound none booted.zero_real fun _ _ => rfl)
    (fun _ _ _ sound careful ran => sound.next careful (Runs.toOption_some ran))
  refine ⟨sound.sane.clean,sound.sane.nodup,?_⟩
  intro pid dir root found table
  have here : rootsOf s.dirs (some pid) = some root := by
    rw [rootsOf,found]
    exact table
  refine ⟨?_,?_⟩
  · intro v set
    exact sound.sane.page_used _ _ _ ⟨root,here,rfl,set⟩
  · intro way t short reached
    exact sound.sane.table_used _ _ _ ⟨root,here,short,reached⟩

-- No section of these runs has a file.
def noFiles : Files Unit := ⟨fun _ _ => false,fun _ _ _ fs => .ok ([],fs),fun _ _ _ fs => .ok fs,fun _ fs => fs,fun _ fs => .ok fs⟩
def zeroPage : Frame := 0x40100#36
def booted : Space Unit :=
  ⟨⟨fun _ => 0#32768,(List.range 40).map fun k => BitVec.ofNat 36 (0x40101+k),Function.update
      (fun _ => 0) zeroPage 1,0,40,true⟩,fun _ => none,()⟩
def lowText : Segment := ⟨0x1000#64,1#64,1#64,true,[0#8]⟩

theorem booted_boots : Space.Booted zeroPage booted := by
  refine ⟨?_,rfl,by decide,by decide,?_,by decide,fun _ => rfl⟩
  · refine List.Nodup.map_on ?_ List.nodup_range
    intro j small k small' same
    rw [List.mem_range] at small small'
    have values := congrArg BitVec.toNat same
    rw [BitVec.toNat_ofNat,BitVec.toNat_ofNat] at values
    omega
  · simp [booted]

theorem lowText_disjoint : PageDisjoint [lowText] := by
  refine ⟨?_,List.pairwise_singleton _ _⟩
  intro seg member
  rw [List.mem_singleton] at member
  subst member
  decide

-- One page of heap below the text.
theorem freed_pages_unused_text : ∃ s : Space Unit, Runs.Guarded (Space.next noFiles zeroPage) Careful booted s ∧
    ((s.dirs 1).map fun dir => dir.sections.map Section.last) = some [0xc000#64,0x1001#64,0x1000#64] ∧ Kept s := by
  obtain ⟨s₁,first,_⟩ := Runs.some_such (x := booted.next noFiles zeroPage (.start 1 none)) (p := fun _ => true) (by decide +kernel)
  obtain ⟨s₂,second,sections⟩ := Runs.some_such (x := (booted.next noFiles zeroPage (.start 1 none)).bind
    fun s => s.next noFiles zeroPage (.execve 1 0 none [lowText] []))
    (p := fun s => decide ((s.dirs 1).map PgDir.sections = some (imageSections none [lowText]))) (by decide +kernel)
  rw [first,Option.bind_some] at second
  have path₂ : Runs.Guarded (Space.next noFiles zeroPage) Careful booted s₂ := by
    refine .step (.step .start ?_ first) ?_ second
    · exact trivial
    · exact lowText_disjoint
  obtain ⟨dir,found,list⟩ := Option.map_eq_some_iff.mp (of_decide_eq_true sections)
  have careful : Careful s₂ (.sbrk 1 1) := by
    intro dir' found'
    rw [found] at found'
    cases found'
    intro before st after heap _
    rw [list] at heap
    have parts : heapOf (imageSections none [lowText]) = some ([stackSection [lowText],lowText.made],
        ⟨stHeap,0#64,0#64,none,0#64,0#64⟩,[]) := by
      decide
    rw [parts] at heap
    cases heap
    refine ⟨by decide,?_⟩
    rintro x member n ⟨_,upper⟩ ⟨lower,_⟩
    simp only [List.append_nil,List.mem_cons,List.not_mem_nil,or_false] at member
    have first : 4096 ≤ x.first.toNat := by
      rcases member with rfl | rfl <;> decide
    change n*4096 < 4096 at upper
    change x.first.toNat/4096 ≤ n at lower
    omega
  have third : s₂.next noFiles zeroPage (.sbrk 1 1) =
      some ⟨s₂.mem,Function.update s₂.dirs 1
        (some { dir with sections := [stackSection [lowText],lowText.made,⟨stHeap,0#64,0x1000#64,none,0#64,0#64⟩] }),s₂.fs⟩ := by
    have here : s₂.dir 1 = .ok dir := by
      unfold Space.dir
      rw [found]
    have grown : sbrk 1 dir s₂.mem =
        .ok (0#64,{ dir with sections := [stackSection [lowText],lowText.made,⟨stHeap,0#64,0x1000#64,none,0#64,0#64⟩] },s₂.mem) := by
      unfold sbrk
      rw [list]
      rfl
    unfold Space.next Space.run
    simp only [here,grown,bind,Except.bind,Except.toOption]
  refine ⟨_,.step path₂ careful third,?_,freed_pages_unused noFiles booted_boots (.step path₂ careful third)⟩
  simp only [Function.update_self,Option.map_some]
  decide

set_option maxRecDepth 20000 in
-- The heap grows over the text, and exit frees the page once for each of the two.
theorem heap_over_text : ¬ ∀ (zero : Frame) (start s : Space Unit), Space.Booted zero start →
    Runs.Guarded (Space.next noFiles zero) (fun _ => Linked) start s → Kept s := by
  intro kept
  obtain ⟨s,ran,dirty⟩ := Runs.some_such (x := Runs.exec (Space.next noFiles zeroPage) booted
    [.start 1 none,.execve 1 0 none [lowText] [],.sbrk 1 2,.exit 1]) (p := fun s => !s.mem.clean) (by decide +kernel)
  have path : Runs.Guarded (Space.next noFiles zeroPage) (fun _ => Linked) booted s := by
    obtain ⟨s₁,first,ran⟩ := Option.bind_eq_some_iff.mp ran
    obtain ⟨s₂,second,ran⟩ := Option.bind_eq_some_iff.mp ran
    obtain ⟨s₃,third,ran⟩ := Option.bind_eq_some_iff.mp ran
    obtain ⟨s₄,fourth,ran⟩ := Option.bind_eq_some_iff.mp ran
    cases ran
    refine .step (.step (.step (.step .start ?_ first) ?_ second) ?_ third) ?_ fourth
    · exact trivial
    · exact lowText_disjoint
    · exact trivial
    · exact trivial
  have clean := (kept zeroPage booted s booted_boots path).1
  rw [clean] at dirty
  cases dirty

end PageTable
