import HonorKernel.TreeLinks

-- What lasts in a tree while it changes elsewhere.
namespace NamingTree
variable {I N F : Type*} {dots : Dots N} {root : I} {t t' : Tree I N F} {held : I → Prop} {d p q s : I} {name : N}
  {names : List N} {m : N → Option I} {node : Node I N F}

-- The names in directories that have a name themselves are there afterwards.
def Lasts (dots : Dots N) (root : I) (t t' : Tree I N F) : Prop := ∀ d name q, Named dots root t d → Entry t d name q → Entry t' d name q

theorem Lasts.refl (dots : Dots N) (root : I) (t : Tree I N F) : Lasts dots root t t := fun _ _ _ _ entry => entry

theorem Rooted.walk_lasts (rooted : Rooted dots root t held) (named : Named dots root t s)
    (lasts : Lasts dots root t t') (found : walk t names s = some q) : walk t' names s = some q := by
  induction names generalizing s with
  | nil => exact found
  | cons name rest ih =>
    obtain ⟨c,step,found⟩ := Option.bind_eq_some_iff.mp found
    have entered := find_entry.mpr (lasts s name c named (find_entry.mp step))
    exact Option.bind_eq_some_iff.mpr ⟨c,entered,ih (rooted.find_named named step) found⟩

theorem walk_ends (above : walkAbove t names s = some (d,name))
    (more : ∀ d name q, Entry t d name q → Entry t' d name q) :
    walk t' names s = find t' d name := by
  induction names generalizing s with
  | nil => cases above
  | cons first rest ih =>
    cases rest with
    | nil =>
      unfold walkAbove at above
      split at above
      · cases above
        exact Option.bind_fun_some _
      · cases above
    | cons second rest =>
      obtain ⟨c,step,above⟩ := Option.bind_eq_some_iff.mp above
      have entered := find_entry.mpr (more s first c (find_entry.mp step))
      show (find t' s first).bind _ = _
      rw [entered,Option.bind_some]
      exact ih above

theorem walk_fails (above : walkAbove t names s = some (d,name))
    (fewer : ∀ d name q, Entry t' d name q → Entry t d name q) (gone : find t' d name = none) :
    walk t' names s = none := by
  induction names generalizing s with
  | nil => cases above
  | cons first rest ih =>
    show (find t' s first).bind _ = _
    cases entered : find t' s first with
    | none => rfl
    | some c =>
      have entry := fewer s first c (find_entry.mp entered)
      cases rest with
      | nil =>
        unfold walkAbove at above
        split at above
        · cases above
          cases gone.symm.trans entered
        · cases above
      | cons second rest =>
        obtain ⟨c',step,above⟩ := Option.bind_eq_some_iff.mp above
        cases entry.unique (find_entry.mp step)
        exact ih above

section Changes
variable [DecidableEq I]

theorem add_more [DecidableEq N] (here : t d = some (.dir m)) (vacant : t q = none) (absent : m name = none) {c : I}
    {name' : N} {x : I} (entry : Entry t c name' x) :
    Entry (add t d m name q node) c name' x := by
  by_cases one : c = d
  · subst one
    have bound := (entry_iff here).mp entry
    have other : name' ≠ name := by
      rintro rfl
      cases absent.symm.trans bound
    exact (entry_iff add_parent).mpr ((Function.update_of_ne other ..).trans bound)
  · obtain ⟨m',there,bound⟩ := entry
    have two : c ≠ q := by
      rintro rfl
      cases vacant.symm.trans there
    exact ⟨m',(add_other one two).trans there,bound⟩

theorem release_lasts : Lasts dots root t (release dots root held t p) := by
  unfold release
  split
  · exact Lasts.refl dots root t
  · rename_i gone
    intro d name q named entry
    obtain ⟨m',there,bound⟩ := entry
    have other : d ≠ p := by
      rintro rfl
      exact gone (.inl named)
    exact ⟨m',(Function.update_of_ne other ..).trans there,bound⟩

theorem release_fewer {c x : I} {name' : N} (entry : Entry (release dots root held t p) c name' x) :
    Entry t c name' x := by
  unfold release at entry
  split at entry
  · exact entry
  · obtain ⟨m',there,bound⟩ := entry
    by_cases own : c = p
    · subst own
      rw [Function.update_self] at there
      cases there
    · exact ⟨m',(Function.update_of_ne own ..).symm.trans there,bound⟩

theorem release_held (holds : held q) : release dots root held t p q = t q := by
  unfold release
  split
  · rfl
  · rename_i gone
    refine Function.update_of_ne ?_ ..
    rintro rfl
    exact gone (.inr holds)

theorem leaf_lasts {f f' : F} (here : t p = some (.leaf f)) :
    Lasts dots root t (Function.update t p (some (.leaf f'))) := by
  rintro d name q _ ⟨m',there,bound⟩
  have other : d ≠ p := by
    rintro rfl
    cases here.symm.trans there
  exact ⟨m',(Function.update_of_ne other ..).trans there,bound⟩

end Changes

end NamingTree

namespace FileTree
open DiskFormat CacheView InodeLayer SysFile NamingTree

section History
variable {s s' : State} {cwd p q : Usize} {path bytes : List Byte} {new : Usize → Usize → Node} {made : Option Usize}
  {tree : Tree} {r : Request} {reply : Reply}

theorem Creates.lasts (creates : Creates s cwd path new made tree) : Lasts dots rootInodeNo s.tree tree := by
  cases creates with
  | nowhere => exact Lasts.refl _ _ _
  | there => exact Lasts.refl _ _ _
  | made _ here absent vacant => exact fun _ _ _ _ entry => add_more here vacant absent entry

theorem Creates.found (creates : Creates s cwd path new (some q) tree) :
    State.walk ⟨tree,s.held⟩ cwd path = some q := by
  cases creates with
  | there above found => exact (walk_ends above fun _ _ _ entry => entry).trans found
  | made above here absent vacant =>
    refine (walk_ends above fun _ _ _ entry => add_more here vacant absent entry).trans ?_
    exact (find_dir add_parent _).trans (Function.update_self ..)

theorem Creates.kept (creates : Creates s cwd path new made tree) {leaf : Leaf}
    (here : s.tree p = some (.leaf leaf)) : tree p = some (.leaf leaf) := by
  cases creates with
  | nowhere => exact here
  | there => exact here
  | made _ dir _ vacant =>
    refine (add_other ?_ ?_).trans here
    · rintro rfl
      cases here.symm.trans dir
    · rintro rfl
      cases here.symm.trans vacant

theorem Moves.lasts (moves : Moves s r reply s') (keeps : ∀ cwd path, r ≠ .unlinkat cwd path) :
    Lasts dots rootInodeNo s.tree s'.tree := by
  cases moves with
  | create creates => exact creates.lasts
  | mkdirat creates => exact creates.lasts
  | mknodat creates => exact creates.lasts
  | unlinkat => exact absurd rfl (keeps _ _)
  | unlinkFails => exact absurd rfl (keeps _ _)
  | chdir => exact release_lasts
  | put => exact release_lasts
  | write here => exact leaf_lasts here
  | share => exact Lasts.refl _ _ _
  | openat => exact Lasts.refl _ _ _
  | chdirFails => exact Lasts.refl _ _ _
  | nothing => exact Lasts.refl _ _ _
  | newfstatat => exact Lasts.refl _ _ _
  | fstat => exact Lasts.refl _ _ _
  | read => exact Lasts.refl _ _ _
  | print => exact Lasts.refl _ _ _

theorem Moves.kept (moves : Moves s r reply s') {leaf : Leaf} (here : s.tree p = some (.leaf leaf)) (mine : p ∈ s'.held)
    (spared : ∀ src off, r ≠ .write p src off) : s'.tree p = some (.leaf leaf) := by
  cases moves with
  | create creates => exact creates.kept here
  | mkdirat creates => exact creates.kept here
  | mknodat creates => exact creates.kept here
  | unlinkat removable =>
    refine (release_held mine).trans ((unname_other ?_).trans here)
    rintro rfl
    cases here.symm.trans removable.dir
  | chdir => exact (release_held mine).trans here
  | put => exact (release_held mine).trans here
  | write =>
    refine (Function.update_of_ne ?_ ..).trans here
    rintro rfl
    exact spared _ _ rfl
  | share => exact here
  | openat => exact here
  | unlinkFails => exact here
  | chdirFails => exact here
  | nothing => exact here
  | newfstatat => exact here
  | fstat => exact here
  | read => exact here
  | print => exact here

theorem Moves.unnamed (moves : Moves s (.unlinkat cwd path) (.done true) s') : s'.walk cwd path = none := by
  cases moves with
  | unlinkat removable =>
    refine walk_fails removable.above (fun d name q entry => ((unname_entry removable.dir).mp (release_fewer entry)).1) ?_
    refine Option.eq_none_iff_forall_ne_some.mpr fun x found => ?_
    exact ((unname_entry removable.dir).mp (release_fewer (find_entry.mp found))).2 ⟨rfl,rfl⟩

end History

section Runs
variable {env : Env} {s : State} {vol vol' : Volume} {events : List (Request × Reply)} {cwd p q : Usize}
  {path bytes : List Byte}

-- The calls of others: the file stays open and is not written.
def LeavesOpen (p : Usize) (env : Env) (vol : Volume) (event : Request × Reply) (vol' : Volume) : Prop :=
  Steps env vol event vol' ∧ p ∈ vol'.held ∧ ∀ src off, event.1 ≠ .write p src off

-- The calls that take no name away.
def KeepsNames (env : Env) (vol : Volume) (event : Request × Reply) (vol' : Volume) : Prop :=
  Steps env vol event vol' ∧ ∀ cwd path, event.1 ≠ .unlinkat cwd path

theorem Stands.kept (layout : Layout env.sblock) (wide : env.sblock.numInodes.toNat ≤ 65536)
    (stands : Stands env s vol) {leaf : Leaf} (here : s.tree p = some (.leaf leaf))
    (path : Runs.Trace (LeavesOpen p env) vol events vol') :
    ∃ s', Stands env s' vol' ∧ s'.tree p = some (.leaf leaf) := by
  induction path with
  | start => exact ⟨s,stands,here⟩
  | step _ spares ih =>
    obtain ⟨s₁,stands₁,here₁⟩ := ih
    obtain ⟨⟨proper,ran⟩,mine,spared⟩ := spares
    obtain ⟨s₂,moves,stands₂⟩ := serve_moves layout wide stands₁ proper ran
    rw [stands₂.held] at mine
    exact ⟨s₂,stands₂,moves.kept here₁ mine spared⟩

theorem Stands.lasts (layout : Layout env.sblock) (wide : env.sblock.numInodes.toNat ≤ 65536)
    (stands : Stands env s vol) {names : List (List Byte)} (found : walk s.tree names rootInodeNo = some q)
    (path : Runs.Trace (KeepsNames env) vol events vol') :
    ∃ s', Stands env s' vol' ∧ walk s'.tree names rootInodeNo = some q := by
  induction path with
  | start => exact ⟨s,stands,found⟩
  | step _ named ih =>
    obtain ⟨s₁,stands₁,found₁⟩ := ih
    obtain ⟨⟨proper,ran⟩,keeps⟩ := named
    obtain ⟨s₂,moves,stands₂⟩ := serve_moves layout wide stands₁ proper ran
    exact ⟨s₂,stands₂,stands₁.rooted.walk_lasts (.inl rfl) (moves.lasts keeps) found₁⟩

theorem Stands.opened (layout : Layout env.sblock) (wide : env.sblock.numInodes.toNat ≤ 65536)
    (stands : Stands env s vol) {found : Option Usize} {granted : Bool}
    (opens : Steps env vol (.openat cwd path false granted,.opened found) vol') :
    found = if granted then s.walk cwd path else none := by
  obtain ⟨_,moves,_⟩ := serve_moves layout wide stands opens.1 opens.2
  cases moves with
  | openat is => exact is

theorem Stands.opens_again (layout : Layout env.sblock) (wide : env.sblock.numInodes.toNat ≤ 65536)
    (stands : Stands env s vol) {vol₁ vol₂ vol₃ : Volume} {cwd' : Usize} {found : Option Usize}
    (rooted : charAt path 0 = slash) (made : Steps env vol (.openat cwd path true true,.opened (some q)) vol₁)
    (run : Runs.Trace (KeepsNames env) vol₁ events vol₂)
    (opens : Steps env vol₂ (.openat cwd' path false true,.opened found) vol₃) : found = some q := by
  obtain ⟨s₁,moves,stands₁⟩ := serve_moves layout wide stands made.1 made.2
  have start : ∀ c, startOf c path = rootInodeNo := fun c => if_pos rooted
  cases moves with
  | create creates is =>
    cases is
    have walked := creates.found
    unfold State.walk at walked
    rw [start] at walked
    obtain ⟨s₂,stands₂,last⟩ := stands₁.lasts layout wide walked run
    refine (stands₂.opened layout wide opens).trans ?_
    show s₂.walk cwd' path = some q
    unfold State.walk
    rw [start]
    exact last

theorem Stands.gone (layout : Layout env.sblock) (wide : env.sblock.numInodes.toNat ≤ 65536)
    (stands : Stands env s vol) {vol₁ vol₂ : Volume} {found : Option Usize} {granted : Bool}
    (removed : Steps env vol (.unlinkat cwd path,.done true) vol₁)
    (opens : Steps env vol₁ (.openat cwd path false granted,.opened found) vol₂) : found = none := by
  obtain ⟨s₁,moves,stands₁⟩ := serve_moves layout wide stands removed.1 removed.2
  have last := stands₁.opened layout wide opens
  rw [moves.unnamed] at last
  exact last.trans (ite_self none)

end Runs

end FileTree
