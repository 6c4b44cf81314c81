import HonorKernel.PgdirPages

-- kernel/mem.c: the two counters of the pages. The functions are those of PageTable,
-- with the memory that they leave behind where they trap.
namespace PageTable
open DiskFormat BitSlice

namespace Counting

abbrev Call := EStateM Trap Mem

-- On an empty queue pages_ref is indexed with the frame of NULL, where nothing is mapped.
def kallocPage : Call Frame := do
  modify fun mem => { mem with kallocPageCnt := mem.kallocPageCnt+1, leftPageCnt := mem.leftPageCnt-1 }
  match (← get).free with
  | [] => throw .noPage
  | p::rest =>
    modify fun mem => { mem with free := rest, refs := Function.update mem.refs p 0 }
    return p

def kzallocPage : Call Frame := do
  let p ← kallocPage
  modify fun mem => mem.setPage p 0#32768
  return p

theorem read_ok (mem : Mem) : (EStateM.get : Call Mem) mem = .ok mem mem := rfl

-- get_pte with `alloc`.
def descend (i : Index) (p : Frame) : Call Frame := do
  let mem ← get
  if valid (mem.entry p i) then return frameOf (mem.entry p i)
  else
    let q ← kzallocPage
    modify fun mem => mem.setEntry p i (entryFor q pteTable)
    return q

def walk : List Index → Frame → Call Frame
  | [],p => return p
  | i::way,p => do
    let q ← descend i p
    walk way q

def getPte (va : U64) (pt : Option Frame) : Call (Slot × Frame) := do
  let root ← (match pt with
    | some root => return root
    | none => kzallocPage)
  let table ← walk [part 0 va,part 1 va,part 2 va] root
  return (⟨table,part 3 va⟩,root)

def vmmap (va : U64) (ka : Frame) (flags : U64) (pt : Option Frame) : Call Frame := do
  let (slot,root) ← getPte va pt
  modify fun mem => mem.setAt slot (entryFor ka flags)
  modify fun mem => { mem with refs := Function.update mem.refs ka (mem.refs ka+1) }
  return root

def initPage (pages : List Frame) (mem : Mem) : Mem := pages.foldl Mem.addToQueue mem

-- The page that it returns is the zero page.
def kinit (pages : List Frame) : Call Frame := do
  modify fun mem => { mem with free := [], kallocPageCnt := 0, leftPageCnt := 0 }
  modify (initPage pages)
  let p ← kzallocPage
  modify fun mem => { mem with refs := Function.update mem.refs p 1 }
  return p

-- `held` are the pages that kalloc_page returned to a caller and that are not back on the
-- queue. After a trap nothing runs.
structure State (D : Type) where
  mem : Mem
  roots : D → Option Frame
  held : List Frame
  halted : Bool

inductive PageCall (D : Type) where
  | kalloc
  | kfree (p : Frame)
  | vmmap (d : D) (va : U64) (ka : Frame) (flags : U64)

section Runs
variable {D : Type} [DecidableEq D]

def boot (pages : List Frame) (mem : Mem) : Option (State D) :=
  match kinit pages mem with
  | .ok zero mem => some ⟨mem,fun _ => none,[zero],false⟩
  | .error _ _ => none

def State.run (s : State D) : PageCall D → State D
  | .kalloc =>
    match kallocPage s.mem with
    | .ok p mem => { s with mem, held := p::s.held }
    | .error _ mem => { s with mem, halted := true }
  | .kfree p => { s with mem := s.mem.kfreePage p, held := s.held.filter (· ∉ (s.mem.kfreePage p).free) }
  | .vmmap d va ka flags =>
    match Counting.vmmap va ka flags (s.roots d) s.mem with
    | .ok root mem => { s with mem, roots := Function.update s.roots d (some root) }
    | .error _ mem => { s with mem, halted := true }

-- A caller gives back only what it holds.
def mayCall (s : State D) : PageCall D → Prop
  | .kfree p => p ∈ s.held
  | _ => True

instance (s : State D) (call : PageCall D) : Decidable (mayCall s call) := by
  cases call <;> unfold mayCall <;> infer_instance

def next (s : State D) (call : PageCall D) : Option (State D) := if s.halted = false ∧ mayCall s call then some (s.run call) else none

-- The tables that get_pte has to make.
def missing (mem : Mem) : List Index → Frame → Nat
  | [],_ => 0
  | i::way,p => if valid (mem.entry p i) then missing mem way (frameOf (mem.entry p i)) else way.length+1

def tablesMissing (va : U64) (pt : Option Frame) (mem : Mem) : Nat :=
  match pt with
  | some root => missing mem [part 0 va,part 1 va,part 2 va] root
  | none => 4

def Fits (s : State D) : PageCall D → Prop
  | .kalloc => s.mem.free ≠ []
  | .kfree p => s.mem.refs p ≤ 1
  | .vmmap d va _ _ => tablesMissing va (s.roots d) s.mem ≤ s.mem.free.length

def handedOut (pages : List Frame) (mem : Mem) : List Frame := pages.filter (· ∉ mem.free)

structure Balanced (pages : List Frame) (mem : Mem) : Prop where
  left : mem.leftPageCnt = mem.free.length
  kalloc : mem.kallocPageCnt = (handedOut pages mem).length
  total : mem.kallocPageCnt+mem.leftPageCnt = pages.length

def counters (mem : Mem) : Int × Int := (mem.kallocPageCnt,mem.leftPageCnt)

-- The counters are right in every state of the run, and a kalloc_page on an empty queue
-- leaves them as they are.
def Accounted (pages : List Frame) (s : State D) : List (PageCall D) → Prop
  | [] => Balanced pages s.mem
  | call::rest => Balanced pages s.mem ∧ (call = .kalloc → s.mem.free = [] → counters (s.run call).mem = counters s.mem) ∧
      ∀ s', next s call = some s' → Accounted pages s' rest

def EachFits (s : State D) : List (PageCall D) → Prop
  | [] => True
  | call::rest => Fits s call ∧ ∀ s', next s call = some s' → EachFits s' rest

instance (s : State D) (call : PageCall D) : Decidable (Fits s call) := by
  cases call <;> unfold Fits <;> infer_instance

instance eachFits : (s : State D) → (calls : List (PageCall D)) → Decidable (EachFits s calls)
  | _,[] => .isTrue trivial
  | s,call::rest =>
    match ran : next s call with
    | none => decidable_of_iff (Fits s call) (by simp [EachFits,ran])
    | some s' =>
      have := eachFits s' rest
      decidable_of_iff (Fits s call ∧ EachFits s' rest) (by simp [EachFits,ran])

end Runs

-- `n` pages went off the queue.
structure Spent (n : Nat) (mem mem' : Mem) : Prop where
  taken : mem.free.length = n+mem'.free.length
  kept : ∀ p ∈ mem'.free, p ∈ mem.free
  kalloc : mem'.kallocPageCnt = mem.kallocPageCnt+n
  left : mem'.leftPageCnt = mem.leftPageCnt-n

-- All of them did, and one more was asked for.
structure RanOut (mem mem' : Mem) : Prop where
  free : mem'.free = []
  kalloc : mem'.kallocPageCnt = mem.kallocPageCnt+mem.free.length+1
  left : mem'.leftPageCnt = mem.leftPageCnt-mem.free.length-1

theorem Spent.refl (mem : Mem) : Spent 0 mem mem := ⟨(Nat.zero_add _).symm,fun _ there => there,by simp,by simp⟩

theorem Spent.trans (first : Spent n mem mem') (second : Spent m mem' mem'') : Spent (n+m) mem mem'' := by
  obtain ⟨taken,kept,kalloc,left⟩ := first
  obtain ⟨taken',kept',kalloc',left'⟩ := second
  exact ⟨by omega,fun p there => kept p (kept' p there),by push_cast; omega,by push_cast; omega⟩

theorem Spent.ranOut (first : Spent n mem mem') (second : RanOut mem' mem'') : RanOut mem mem'' := by
  obtain ⟨taken,_,kalloc,left⟩ := first
  obtain ⟨free,kalloc',left'⟩ := second
  exact ⟨free,by omega,by omega⟩

theorem Spent.same (spent : Spent n mem mem') (free : mem''.free = mem'.free)
    (kalloc : mem''.kallocPageCnt = mem'.kallocPageCnt) (left : mem''.leftPageCnt = mem'.leftPageCnt) :
    Spent n mem mem'' := by
  refine ⟨?_,?_,kalloc.trans spent.kalloc,left.trans spent.left⟩
  · rw [free]
    exact spent.taken
  · rw [free]
    exact spent.kept

theorem kallocPage_spends (mem : Mem) :
    (∃ p mem', kallocPage mem = .ok p mem' ∧ mem.kallocPage = .ok (p,mem') ∧ mem.free = p::mem'.free ∧
    Spent 1 mem mem') ∨
    (mem.free = [] ∧ ∃ mem', kallocPage mem = .error .noPage mem' ∧ RanOut mem mem') := by
  obtain ⟨pages,free,refs,kalloc,left,clean⟩ := mem
  cases free with
  | nil => exact .inr ⟨rfl,_,rfl,rfl,by simp,by simp⟩
  | cons p rest => exact .inl ⟨p,_,rfl,rfl,rfl,Nat.add_comm _ _,fun q there => List.mem_cons_of_mem _ there,rfl,rfl⟩

theorem kzallocPage_spends (mem : Mem) :
    (∃ p mem', kzallocPage mem = .ok p mem' ∧ mem.kzallocPage = .ok (p,mem') ∧ Spent 1 mem mem') ∨
    (mem.free = [] ∧ ∃ mem', kzallocPage mem = .error .noPage mem' ∧ RanOut mem mem') := by
  rcases kallocPage_spends mem with ⟨p,mem',ran,took,_,spent⟩ | ⟨empty,mem',ran,out⟩
  · refine .inl ⟨p,mem'.setPage p 0#32768,?_,?_,spent.same rfl rfl rfl⟩
    · simp only [kzallocPage,bind,EStateM.bind,ran]
      rfl
    · unfold Mem.kzallocPage
      rw [took]
      rfl
  · refine .inr ⟨empty,mem',?_,out⟩
    simp only [kzallocPage,bind,EStateM.bind,ran]

section Tables
variable {D : Type} {roots : D → Option Frame} {mem mem' : Mem} {d : D} {root p q t : Frame} {i : Index}
  {rest way : List Index}

theorem missing_blank (blank : ∀ i, mem.entry p i = 0#64) (rest : List Index) : missing mem rest p = rest.length := by
  cases rest with
  | nil => rfl
  | cons i rest =>
    rw [missing,if_neg]
    · rfl
    · rw [blank]
      decide

theorem entry_blank (zero : mem.pages p = 0#32768) (i : Index) : mem.entry p i = 0#64 := by
  unfold Mem.entry
  rw [zero]
  exact get_zero _ _ _

theorem walk_spends (rest : List Index) (own : Tables mem roots) (here : roots d = some root)
    (length : way.length+rest.length ≤ 3) (above : mem.table root way = some p) :
    (missing mem rest p ≤ mem.free.length ∧ ∃ t mem', walk rest p mem = .ok t mem' ∧
    mem.walk true rest p = .ok (some t,mem') ∧
      Spent (missing mem rest p) mem mem') ∨
    (mem.free.length < missing mem rest p ∧ ∃ mem', walk rest p mem = .error .noPage mem' ∧ RanOut mem mem') := by
  induction rest generalizing mem way p with
  | nil => exact .inl ⟨Nat.zero_le _,p,mem,rfl,rfl,.refl mem⟩
  | cons i rest ih =>
    rw [List.length_cons] at length
    have table : IsTable mem roots d way p := ⟨root,here,by omega,above⟩
    by_cases set : valid (mem.entry p i)
    · have count : missing mem (i::rest) p = missing mem rest (frameOf (mem.entry p i)) := if_pos set
      have down : descend i p mem = .ok (frameOf (mem.entry p i)) mem := by
        simp only [descend,bind,EStateM.bind,MonadState.get,getThe,MonadStateOf.get,read_ok,if_pos set]
        rfl
      have down' : mem.descend true i p = .ok (some (frameOf (mem.entry p i)),mem) := if_pos set
      have reached := (descend_widens own here (by omega) above down').2
      obtain ⟨q,same,reached⟩ := reached
      cases same
      rw [count]
      rcases ih own (by rw [List.length_append,List.length_singleton]; omega) reached with ⟨enough,t,mem',ran,ran',
          spent⟩ | ⟨few,mem',ran,out⟩
      · refine .inl ⟨enough,t,mem',?_,?_,spent⟩
        · simp only [walk,bind,EStateM.bind,down,ran]
        · simp only [Mem.walk,bind,Except.bind,down',ran']
      · refine .inr ⟨few,mem',?_,out⟩
        simp only [walk,bind,EStateM.bind,down,ran]
    · have count : missing mem (i::rest) p = rest.length+1 := if_neg set
      rw [count]
      rcases kzallocPage_spends mem with ⟨q,middle,took,took',spent⟩ | ⟨empty,mem',took,out⟩
      · obtain ⟨queue,pages,_,_⟩ := kzallocPage_cases took'
        obtain ⟨widens,root',found,_,reached⟩ := graft_widens own here (by omega) above set took'
        rw [here] at found
        cases found
        have other : q ≠ p := by
          rintro rfl
          exact own.used _ _ _ table (by rw [queue]; exact List.mem_cons_self)
        have blank : ∀ j, (middle.setEntry p i (entryFor q pteTable)).entry q j = 0#64 := by
          intro j
          rw [entry_setEntry,if_neg fun both => other both.1]
          exact entry_blank (by rw [pages,Function.update_self]) j
        have down : descend i p mem = .ok q (middle.setEntry p i (entryFor q pteTable)) := by
          simp only [descend,bind,EStateM.bind,MonadState.get,getThe,MonadStateOf.get,read_ok,if_neg set,took]
          rfl
        have down' : mem.descend true i p = .ok (some q,middle.setEntry p i (entryFor q pteTable)) := by
          unfold Mem.descend
          rw [if_neg set,if_neg (by decide),took']
          rfl
        have grown : Spent 1 mem (middle.setEntry p i (entryFor q pteTable)) := spent.same rfl rfl rfl
        have size := spent.taken
        rcases ih widens.own (by rw [List.length_append,List.length_singleton]; omega) reached with ⟨enough,t,mem',
            ran,ran',spent'⟩ | ⟨few,mem',ran,out⟩
        · rw [missing_blank blank] at enough spent'
          replace enough : rest.length ≤ middle.free.length := enough
          refine .inl ⟨by omega,t,mem',?_,?_,?_⟩
          · simp only [walk,bind,EStateM.bind,down,ran]
          · simp only [Mem.walk,bind,Except.bind,down',ran']
          · rw [Nat.add_comm]
            exact grown.trans spent'
        · rw [missing_blank blank] at few
          replace few : middle.free.length < rest.length := few
          refine .inr ⟨by omega,mem',?_,grown.ranOut out⟩
          simp only [walk,bind,EStateM.bind,down,ran]
      · refine .inr ⟨by rw [empty]; exact Nat.succ_pos _,mem',?_,out⟩
        have down : descend i p mem = .error .noPage mem' := by
          simp only [descend,bind,EStateM.bind,MonadState.get,getThe,MonadStateOf.get,read_ok,if_neg set,took]
        simp only [walk,bind,EStateM.bind,down]

variable {va flags : U64} {ka : Frame}

theorem vmmap_walked (ka : Frame) (flags : U64) (ran : walk [part 0 va,part 1 va,part 2 va] root mem = .ok t mem')
    (ran' : mem.walk true [part 0 va,part 1 va,part 2 va] root = .ok (some t,mem')) :
    ∃ mem'', vmmap va ka flags (some root) mem = .ok root mem'' ∧
    PageTable.vmmap va ka flags (some root) mem = .ok (some root,mem'') ∧
      mem''.free = mem'.free ∧ mem''.kallocPageCnt = mem'.kallocPageCnt ∧ mem''.leftPageCnt = mem'.leftPageCnt := by
  refine ⟨{ mem'.setAt ⟨t,part 3 va⟩ (entryFor ka flags) with refs := Function.update mem'.refs ka (mem'.refs ka+1) },?_,?_,rfl,rfl,rfl⟩
  · simp only [vmmap,getPte,bind,EStateM.bind,pure,EStateM.pure,ran]
    rfl
  · simp only [PageTable.vmmap,PageTable.getPte,bind,Except.bind,ran']
    rfl

theorem vmmap_stuck (ran : walk [part 0 va,part 1 va,part 2 va] root mem = .error trap mem') :
    vmmap va ka flags (some root) mem = .error trap mem' := by
  simp only [vmmap,getPte,bind,EStateM.bind,pure,EStateM.pure,ran]

theorem vmmap_root_made (took : kzallocPage mem = .ok root middle) :
    vmmap va ka flags none mem = vmmap va ka flags (some root) middle := by
  simp only [vmmap,getPte,bind,EStateM.bind,pure,EStateM.pure,took]

theorem vmmap_root_stuck (took : kzallocPage mem = .error trap mem') :
    vmmap va ka flags none mem = .error trap mem' := by
  simp only [vmmap,getPte,bind,EStateM.bind,took]

variable [DecidableEq D]

omit [DecidableEq D] in
theorem vmmap_found (va : U64) (ka : Frame) (flags : U64) (own : Tables mem roots) (here : roots d = some root) :
    (tablesMissing va (some root) mem ≤ mem.free.length ∧ ∃ mem', vmmap va ka flags (some root) mem = .ok root mem' ∧
      PageTable.vmmap va ka flags (some root) mem = .ok (some root,mem') ∧
      Spent (tablesMissing va (some root) mem) mem mem') ∨
    (mem.free.length < tablesMissing va (some root) mem ∧ ∃ mem',
    vmmap va ka flags (some root) mem = .error .noPage mem' ∧ RanOut mem mem') := by
  have start : mem.table root [] = some root := rfl
  rcases walk_spends [part 0 va,part 1 va,part 2 va] own here (by simp) start with ⟨enough,t,middle,ran,ran',
      spent⟩ | ⟨few,mem',ran,out⟩
  · obtain ⟨mem',mapped,mapped',free,kalloc,left⟩ := vmmap_walked ka flags ran ran'
    exact .inl ⟨enough,mem',mapped,mapped',spent.same free kalloc left⟩
  · exact .inr ⟨few,mem',vmmap_stuck ran,out⟩

theorem vmmap_spends (va : U64) (ka : Frame) (flags : U64) (own : Tables mem roots) (d : D) :
    (tablesMissing va (roots d) mem ≤ mem.free.length ∧ ∃ root mem', vmmap va ka flags (roots d) mem = .ok root mem' ∧
      PageTable.vmmap va ka flags (roots d) mem = .ok (some root,mem') ∧
      Spent (tablesMissing va (roots d) mem) mem mem') ∨
    (mem.free.length < tablesMissing va (roots d) mem ∧ ∃ mem',
    vmmap va ka flags (roots d) mem = .error .noPage mem' ∧ RanOut mem mem') := by
  cases here : roots d with
  | some root =>
    rcases vmmap_found va ka flags own here with ⟨enough,mem',parts⟩ | stuck
    · exact .inl ⟨enough,root,mem',parts⟩
    · exact .inr stuck
  | none =>
    rcases kzallocPage_spends mem with ⟨root,middle,took,took',spent⟩ | ⟨empty,mem',took,out⟩
    · obtain ⟨_,pages,_,_⟩ := kzallocPage_cases took'
      have own' := kzallocPage_tables own took' d
      have three : tablesMissing va (some root) middle = 3 :=
        missing_blank (fun i => entry_blank (by rw [pages,Function.update_self]) i) [part 0 va,part 1 va,part 2 va]
      have size := spent.taken
      rw [vmmap_root_made took,vmmap_root,took']
      rcases vmmap_found va ka flags own' (Function.update_self ..) with ⟨enough,mem',ran,ran',spent'⟩ | ⟨few,mem',ran,out⟩
      · rw [three] at enough spent'
        exact .inl ⟨show 4 ≤ _ by omega,root,mem',ran,ran',spent.trans spent'⟩
      · rw [three] at few
        exact .inr ⟨show _ < 4 by omega,mem',ran,spent.ranOut out⟩
    · exact .inr ⟨by rw [empty]; exact Nat.succ_pos 3,mem',vmmap_root_stuck took,out⟩

theorem vmmap_tables (own : Tables mem roots) (ran : PageTable.vmmap va ka flags (roots d) mem = .ok (pt,mem')) {d' : D}
    (there : IsTable mem' (Function.update roots d pt) d' way t) : IsTable mem roots d' way t ∨ t ∈ mem.free := by
  have found : ∀ {roots : D → Option Frame} {mem : Mem} {root : Frame}, Tables mem roots → roots d = some root →
      PageTable.vmmap va ka flags (some root) mem = .ok (pt,mem') → IsTable mem' (Function.update roots d pt) d' way t →
      IsTable mem roots d' way t ∨ t ∈ mem.free := by
    intro roots mem root own here ran there
    obtain ⟨⟨slot,pt',middle⟩,got,ran⟩ := Runs.bind_ok.mp ran
    obtain ⟨widens,rfl,x,rfl,reached,_⟩ := getPte_widens own here got
    obtain ⟨_,same,ran⟩ := Runs.bind_ok.mp ran
    cases same
    obtain ⟨rfl,rfl⟩ := Prod.mk.inj (Except.ok.inj ran)
    rw [← here,Function.update_eq_self] at there
    obtain ⟨root',found,short,node⟩ := there
    have still : (middle.setEntry x (part 3 va) (entryFor ka flags)).table root' way = middle.table root' way :=
      set_tables widens.own here reached (fun q j => entry_setEntry middle x (part 3 va) (entryFor ka flags) q j) found short
    replace node : (middle.setEntry x (part 3 va) (entryFor ka flags)).table root' way = some t := node
    rw [still] at node
    rcases widens.added d' way t ⟨root',found,short,node⟩ with old | ⟨_,free⟩
    · exact .inl old
    · exact .inr free
  cases here : roots d with
  | some root => exact found own here (here ▸ ran) there
  | none =>
    rw [here,vmmap_root] at ran
    obtain ⟨⟨root,middle⟩,took,ran⟩ := Runs.bind_ok.mp ran
    obtain ⟨queue,pages,_,_⟩ := kzallocPage_cases took
    have zero : middle.pages root = 0#32768 := by rw [pages,Function.update_self]
    have same := found (kzallocPage_tables own took d) (Function.update_self ..) ran
    rw [Function.update_idem] at same
    rw [queue]
    rcases same there with old | free
    · rcases isTable_update zero old with old | ⟨_,_,rfl⟩
      · have entries : ∀ way x, IsTable mem roots d' way x → middle.pages x = mem.pages x := by
          rintro way x table
          rw [pages,Function.update_of_ne]
          rintro rfl
          exact own.used _ _ _ table (by rw [queue]; exact List.mem_cons_self)
        obtain ⟨root',found,short,node⟩ := old
        refine .inl ⟨root',found,short,?_⟩
        rw [← node]
        refine (table_frame (fun way x short there i => ?_) short).symm
        unfold Mem.entry
        rw [entries way x ⟨root',found,by omega,there⟩]
      · exact .inr List.mem_cons_self
    · exact .inr (List.mem_cons_of_mem _ free)

end Tables

section Balance
variable {D : Type} [DecidableEq D] {s s' : State D} {pages : List Frame} {mem mem' : Mem} {call : PageCall D}
  {calls : List (PageCall D)}

-- What is held is on no queue and no table.
structure Inv (pages : List Frame) (s : State D) : Prop where
  tables : Tables s.mem s.roots
  inside : ∀ p ∈ s.mem.free, p ∈ pages
  held : ∀ p ∈ s.held, p ∈ pages ∧ p ∉ s.mem.free ∧ ∀ d way, ¬ IsTable s.mem s.roots d way p

-- How many calls of kalloc_page found the queue empty, and how many of kfree_page kept
-- their page off it.
def lost (mem : Mem) : Int := mem.free.length-mem.leftPageCnt
def surplus (pages : List Frame) (mem : Mem) : Int := pages.length-(mem.kallocPageCnt+mem.leftPageCnt)

theorem handedOut_length (once : pages.Nodup) (nodup : mem.free.Nodup) (inside : ∀ p ∈ mem.free, p ∈ pages) :
    (handedOut pages mem).length+mem.free.length = pages.length := by
  have free : (pages.filter (· ∈ mem.free)).length = mem.free.length := by
    refine List.Perm.length_eq ((List.perm_ext_iff_of_nodup (once.filter _) nodup).mpr fun p => ?_)
    simp only [List.mem_filter,decide_eq_true_eq]
    exact ⟨fun both => both.2,fun there => ⟨inside p there,there⟩⟩
  have parts := List.length_eq_length_filter_add (l := pages) fun p => decide (p ∈ mem.free)
  rw [free] at parts
  have same : handedOut pages mem = pages.filter fun p => !decide (p ∈ mem.free) := by
    unfold handedOut
    simp only [decide_not]
  rw [same]
  omega

theorem balanced_iff (once : pages.Nodup) (nodup : mem.free.Nodup) (inside : ∀ p ∈ mem.free, p ∈ pages) :
    Balanced pages mem ↔ lost mem = 0 ∧ surplus pages mem = 0 := by
  have size := handedOut_length once nodup inside
  unfold lost surplus
  constructor
  · rintro ⟨left,kalloc,total⟩
    omega
  · rintro ⟨left,total⟩
    exact ⟨by omega,by omega,by omega⟩

theorem Spent.lost_same (spent : Spent n mem mem') : lost mem' = lost mem := by
  obtain ⟨taken,_,_,left⟩ := spent
  unfold lost
  omega

theorem Spent.surplus_same (spent : Spent n mem mem') (pages : List Frame) :
    surplus pages mem' = surplus pages mem := by
  obtain ⟨_,_,kalloc,left⟩ := spent
  unfold surplus
  omega

theorem RanOut.balance (out : RanOut mem mem') : lost mem' = lost mem+1 := by
  obtain ⟨free,kalloc,left⟩ := out
  unfold lost
  rw [free,List.length_nil]
  omega

theorem RanOut.counted (out : RanOut mem mem') : counters mem' ≠ counters mem := by
  intro same
  have kalloc := (Prod.mk.inj same).1
  rw [out.kalloc] at kalloc
  omega

-- The three outcomes of a call.
inductive Outcome (pages : List Frame) (s : State D) (call : PageCall D) (s' : State D) : Prop where
  | fits : Fits s call → s'.halted = false → Inv pages s' → lost s'.mem = lost s.mem → surplus pages s'.mem = surplus pages s.mem → Outcome pages s call s'
  | shared : ¬ Fits s call → s'.halted = false → Inv pages s' → lost s'.mem = lost s.mem → surplus pages s'.mem = surplus pages s.mem+1 → Outcome pages s call s'
  | stuck : ¬ Fits s call → s'.halted = true → RanOut s.mem s'.mem → Outcome pages s call s'

omit [DecidableEq D] in
theorem Outcome.inv (outcome : Outcome pages s call s') (awake : s'.halted = false) : Inv pages s' := by
  rcases outcome with ⟨_,_,inv,_,_⟩ | ⟨_,_,inv,_,_⟩ | ⟨_,asleep,_⟩
  · exact inv
  · exact inv
  · rw [awake] at asleep
    cases asleep

theorem Inv.kalloc (inv : Inv pages s) (awake : s.halted = false) : Outcome pages s .kalloc (s.run .kalloc) := by
  rcases kallocPage_spends s.mem with ⟨p,mem',ran,took,queue,spent⟩ | ⟨empty,mem',ran,out⟩
  · have is : s.run .kalloc = { s with mem := mem', held := p::s.held } := by simp only [State.run,ran]
    have nodup := inv.tables.nodup
    rw [queue,List.nodup_cons] at nodup
    obtain ⟨_,data,_,_⟩ := kallocPage_counts took
    have same : ∀ d way t, IsTable s.mem s.roots d way t → mem'.pages t = s.mem.pages t ∧ t ∉ mem'.free :=
      fun d way t there => ⟨by rw [data],fun free => inv.tables.used d way t there (spent.kept t free)⟩
    obtain ⟨own,back,_⟩ := inv.tables.keep nodup.2 same
    have front : p ∈ s.mem.free := by
      rw [queue]
      exact List.mem_cons_self
    rw [is]
    refine .fits ?_ awake ⟨own,fun q free => inv.inside q (spent.kept q free),?_⟩ spent.lost_same (spent.surplus_same pages)
    · rw [Fits,queue]
      exact List.cons_ne_nil p _
    · intro q member
      rcases List.mem_cons.mp member with rfl | old
      · exact ⟨inv.inside q front,nodup.1,fun d way there => inv.tables.used d way q (back d way q there) front⟩
      · obtain ⟨inside,off,data⟩ := inv.held q old
        exact ⟨inside,fun free => off (spent.kept q free),fun d way there => data d way (back d way q there)⟩
  · have is : s.run .kalloc = { s with mem := mem', halted := true } := by simp only [State.run,ran]
    rw [is]
    exact .stuck (fun fits => fits empty) rfl out

theorem Inv.kfree (inv : Inv pages s) (awake : s.halted = false) (mine : p ∈ s.held) :
    Outcome pages s (.kfree p) (s.run (.kfree p)) := by
  obtain ⟨inside,off,data⟩ := inv.held p mine
  by_cases few : s.mem.refs p ≤ 1
  · obtain ⟨queue,left,kalloc⟩ := kfreePage_queues few
    have same : ∀ d way t, IsTable s.mem s.roots d way t → (s.mem.kfreePage p).pages t = s.mem.pages t ∧
        t ∉ (s.mem.kfreePage p).free := by
      intro d way t there
      have other : t ≠ p := by
        rintro rfl
        exact data d way there
      refine ⟨kfreePage_pages s.mem other,?_⟩
      rw [queue,List.mem_cons,not_or]
      exact ⟨other,inv.tables.used d way t there⟩
    obtain ⟨own,back,_⟩ := inv.tables.keep (by rw [queue]; exact List.nodup_cons.mpr ⟨off,inv.tables.nodup⟩) same
    refine .fits few awake ⟨own,?_,?_⟩ ?_ ?_
    · intro q free
      have free : q ∈ (s.mem.kfreePage p).free := free
      rw [queue,List.mem_cons] at free
      rcases free with rfl | free
      · exact inside
      · exact inv.inside q free
    · intro q member
      obtain ⟨old,off⟩ := List.mem_filter.mp member
      obtain ⟨inside,_,data⟩ := inv.held q old
      exact ⟨inside,of_decide_eq_true off,fun d way there => data d way (back d way q there)⟩
    · simp only [State.run,lost,queue,left,List.length_cons]
      omega
    · simp only [State.run,surplus,left,kalloc]
      omega
  · obtain ⟨queue,still,left,kalloc⟩ := kfreePage_keeps few
    have nodup : (s.mem.kfreePage p).free.Nodup := by
      rw [queue]
      exact inv.tables.nodup
    obtain ⟨own,back,_⟩ := inv.tables.keep nodup fun d way t there =>
        ⟨by rw [still],by rw [queue]; exact inv.tables.used d way t there⟩
    refine .shared few awake ⟨own,?_,?_⟩ ?_ ?_
    · intro q free
      have free : q ∈ (s.mem.kfreePage p).free := free
      rw [queue] at free
      exact inv.inside q free
    · intro q member
      obtain ⟨old,off⟩ := List.mem_filter.mp member
      obtain ⟨inside,_,data⟩ := inv.held q old
      exact ⟨inside,of_decide_eq_true off,fun d way there => data d way (back d way q there)⟩
    · simp only [State.run,lost,queue,left]
    · simp only [State.run,surplus,left,kalloc]
      omega

theorem Inv.vmmap (inv : Inv pages s) (awake : s.halted = false) (d : D) (va : U64) (ka : Frame) (flags : U64) :
    Outcome pages s (.vmmap d va ka flags) (s.run (.vmmap d va ka flags)) := by
  rcases vmmap_spends va ka flags inv.tables d with ⟨enough,root,mem',ran,ran',spent⟩ | ⟨few,mem',ran,out⟩
  · have is : s.run (.vmmap d va ka flags) = { s with mem := mem', roots := Function.update s.roots d (some root) } := by
      simp only [State.run,ran]
    rw [is]
    refine .fits enough awake ⟨vmmap_keeps inv.tables ran',fun q free => inv.inside q (spent.kept q free),
        ?_⟩ spent.lost_same (spent.surplus_same pages)
    intro q member
    obtain ⟨inside,off,data⟩ := inv.held q member
    refine ⟨inside,fun free => off (spent.kept q free),fun d' way there => ?_⟩
    rcases vmmap_tables inv.tables ran' there with old | free
    · exact data d' way old
    · exact off free
  · have is : s.run (.vmmap d va ka flags) = { s with mem := mem', halted := true } := by simp only [State.run,ran]
    rw [is]
    exact .stuck (fun fits : _ ≤ _ => absurd fits (by omega)) rfl out

theorem Inv.step (inv : Inv pages s) (ran : next s call = some s') : Outcome pages s call s' := by
  unfold next at ran
  split at ran
  · rename_i may
    cases ran
    cases call with
    | kalloc => exact inv.kalloc may.1
    | kfree p => exact inv.kfree may.1 may.2
    | vmmap d va ka flags => exact inv.vmmap may.1 d va ka flags
  · cases ran

theorem Accounted.balanced (accounted : Accounted pages s calls) : Balanced pages s.mem := by
  cases calls with
  | nil => exact accounted
  | cons call rest => exact accounted.1

theorem accounted_iff (once : pages.Nodup) (inv : Inv pages s) (awake : s.halted = false) (lost₀ : 0 ≤ lost s.mem)
    (surplus₀ : 0 ≤ surplus pages s.mem) (ran : Runs.exec next s calls = some s') :
    Accounted pages s calls ↔ Balanced pages s.mem ∧ EachFits s calls := by
  induction calls generalizing s with
  | nil => exact ⟨fun balanced => ⟨balanced,trivial⟩,fun both => both.1⟩
  | cons call rest ih =>
    obtain ⟨middle,first,ran⟩ := Option.bind_eq_some_iff.mp ran
    have only : ∀ t, next s call = some t → t = middle := fun t there => Option.some.inj (there.symm.trans first)
    have balance : Balanced pages s.mem ↔ lost s.mem = 0 ∧ surplus pages s.mem = 0 := balanced_iff once inv.tables.nodup inv.inside
    rcases inv.step first with ⟨fits,awake',inv',same,same'⟩ | ⟨shared,awake',inv',same,more⟩ | ⟨stuck,asleep,out⟩
    · have balance' : Balanced pages middle.mem ↔ Balanced pages s.mem := by
        rw [balance,balanced_iff once inv'.tables.nodup inv'.inside,same,same']
      have tail := ih inv' awake' (by omega) (by omega) ran
      constructor
      · rintro ⟨balanced,_,later⟩
        exact ⟨balanced,fits,fun t there => only t there ▸ (tail.mp (later middle first)).2⟩
      · rintro ⟨balanced,_,later⟩
        refine ⟨balanced,?_,fun t there => only t there ▸ tail.mpr ⟨balance'.mpr balanced,later middle first⟩⟩
        rintro rfl empty
        exact absurd empty fits
    · refine ⟨fun accounted => ?_,fun both => absurd both.2.1 shared⟩
      have balanced := (balanced_iff once inv'.tables.nodup inv'.inside).mp (accounted.2.2 middle first).balanced
      omega
    · refine ⟨fun accounted => ?_,fun both => absurd both.2.1 stuck⟩
      have nodup : middle.mem.free.Nodup := by
        rw [out.free]
        exact List.nodup_nil
      have inside : ∀ p ∈ middle.mem.free, p ∈ pages := by
        rw [out.free]
        exact fun p none => absurd none List.not_mem_nil
      have balanced := (balanced_iff once nodup inside).mp (accounted.2.2 middle first).balanced
      have drift := out.balance
      omega

theorem initPage_adds (pages : List Frame) (mem : Mem) : (initPage pages mem).free = pages.reverse++mem.free ∧
    (initPage pages mem).kallocPageCnt = mem.kallocPageCnt ∧
    (initPage pages mem).leftPageCnt = mem.leftPageCnt+pages.length := by
  induction pages generalizing mem with
  | nil => exact ⟨rfl,rfl,(Int.add_zero _).symm⟩
  | cons p rest ih =>
    obtain ⟨free,kalloc,left⟩ := ih (mem.addToQueue p)
    refine ⟨?_,kalloc,?_⟩
    · exact free.trans (by simp [Mem.addToQueue,Mem.setEntry,Mem.setPage])
    · refine left.trans ?_
      simp only [Mem.addToQueue,List.length_cons]
      omega

omit [DecidableEq D] in
theorem boot_shape (booted : boot pages mem = some s) :
    ∃ start p middle, start = initPage pages { mem with free := [], kallocPageCnt := 0, leftPageCnt := 0 } ∧
      start.kzallocPage = .ok (p,middle) ∧ Spent 1 start middle ∧
      s = ⟨{ middle with refs := Function.update middle.refs p 1 },fun _ => none,[p],false⟩ := by
  obtain ⟨start,is⟩ : ∃ start, start = initPage pages { mem with free := [], kallocPageCnt := 0, leftPageCnt := 0 } := ⟨_,rfl⟩
  have run : kinit pages mem = (kzallocPage >>= fun p => (do
      modify fun mem => { mem with refs := Function.update mem.refs p 1 }
      return p)) start := by
    rw [is]
    rfl
  unfold boot at booted
  rw [run] at booted
  rcases kzallocPage_spends start with ⟨p,middle,took,took',spent⟩ | ⟨_,middle,took,_⟩
  · simp only [bind,EStateM.bind,took] at booted
    cases booted
    exact ⟨start,p,middle,is,took',spent,rfl⟩
  · simp only [bind,EStateM.bind,took] at booted
    cases booted

omit [DecidableEq D] in
theorem boot_inv (once : pages.Nodup) (booted : boot pages mem = some s) :
    s.halted = false ∧ Inv pages s ∧ lost s.mem = 0 ∧ surplus pages s.mem = 0 := by
  obtain ⟨start,p,middle,is,took,spent,rfl⟩ := boot_shape booted
  obtain ⟨free,kalloc,left⟩ := initPage_adds pages { mem with free := [], kallocPageCnt := 0, leftPageCnt := 0 }
  rw [← is] at free kalloc left
  rw [List.append_nil] at free
  obtain ⟨queue,_,_,_⟩ := kzallocPage_cases took
  have nodup : start.free.Nodup := by
    rw [free]
    exact List.nodup_reverse.mpr once
  have inside : ∀ q ∈ start.free, q ∈ pages := by
    intro q there
    rw [free] at there
    exact List.mem_reverse.mp there
  rw [queue,List.nodup_cons] at nodup
  have none : ∀ d way t, ¬ IsTable middle (fun _ : D => none) d way t := by
    rintro d way t ⟨root,found,_⟩
    cases found
  refine ⟨rfl,⟨⟨nodup.2,?_,?_⟩,fun q there => inside q (spent.kept q there),?_⟩,?_,?_⟩
  · exact fun d _ way _ t there => absurd there (none d way t)
  · exact fun d way t there => absurd there (none d way t)
  · intro q member
    rw [List.mem_singleton] at member
    subst member
    exact ⟨inside q (by rw [queue]; exact List.mem_cons_self),nodup.1,fun d way => none d way q⟩
  · refine spent.lost_same.trans ?_
    rw [lost,free,left,List.length_reverse]
    simp
  · refine (spent.surplus_same pages).trans ?_
    rw [surplus,kalloc,left]
    simp

end Balance

-- The counters over a whole run from kinit.
theorem page_accounts {D : Type} [DecidableEq D] {pages : List Frame} {mem : Mem} {s s' : State D}
    {calls : List (PageCall D)} (once : pages.Nodup) (booted : boot pages mem = some s)
    (ran : Runs.exec next s calls = some s') :
    Accounted pages s calls ↔ EachFits s calls := by
  obtain ⟨awake,inv,lost,surplus⟩ := boot_inv once booted
  rw [accounted_iff once inv awake (le_of_eq lost.symm) (le_of_eq surplus.symm) ran]
  have balanced := (balanced_iff once inv.tables.nodup inv.inside).mpr ⟨lost,surplus⟩
  exact ⟨fun both => both.2,fun fits => ⟨balanced,fits⟩⟩

def sevenPages : List Frame := [0x40100#36,0x40101#36,0x40102#36,0x40103#36,0x40104#36,0x40105#36,0x40106#36]

def bootAndRun (pages : List Frame) (calls : List (PageCall Unit)) : Option (State Unit × State Unit) :=
  (boot pages idle).bind fun s => (Runs.exec next s calls).map fun s' => (s,s')

theorem bootAndRun_such (pages : List Frame) (calls : List (PageCall Unit)) (test : State Unit → Bool)
    (passes : (bootAndRun pages calls).any (fun r => test r.1) = true) :
    ∃ s s', boot pages idle = some s ∧ Runs.exec next s calls = some s' ∧ test s = true := by
  obtain ⟨⟨s,s'⟩,both,fits⟩ := Runs.some_such passes
  obtain ⟨start,booted,both⟩ := Option.bind_eq_some_iff.mp both
  obtain ⟨last,ran,both⟩ := Option.map_eq_some_iff.mp both
  cases both
  exact ⟨s,s',booted,ran,fits⟩

-- A page that is mapped once and freed.
def oneMapping : List (PageCall Unit) := [.kalloc,.vmmap () 0x1000#64 0x40105#36 pteUserData,.kfree 0x40105#36]

theorem page_accounts_one : ∃ s, boot sevenPages idle = some s ∧ Accounted sevenPages s oneMapping := by
  obtain ⟨s,s',booted,ran,fits⟩ := bootAndRun_such sevenPages oneMapping (fun s => decide (EachFits s oneMapping)) (by decide +kernel)
  exact ⟨s,booted,(page_accounts (by decide) booted ran).mpr (of_decide_eq_true fits)⟩

-- The zero page is mapped and unmapped.
def zeroMapping : List (PageCall Unit) := [.vmmap () 0x1000#64 0x40106#36 pteUserData,.kfree 0x40106#36]

-- Its counter is not 0, and it stays off the queue; and a queue that is empty.
theorem zero_page_lost : (∃ s s', boot sevenPages idle = some s ∧ Runs.exec next s zeroMapping = some s' ∧
    ¬ Accounted sevenPages s zeroMapping) ∧
    ∃ s s' : State Unit, boot [0x40100#36] idle = some s ∧ Runs.exec next s [.kalloc] = some s' ∧
    ¬ Accounted [0x40100#36] s [.kalloc] := by
  constructor
  · obtain ⟨s,s',booted,ran,fits⟩ := bootAndRun_such sevenPages zeroMapping
      (fun s => decide ¬ EachFits s zeroMapping) (by decide +kernel)
    exact ⟨s,s',booted,ran,fun accounted => of_decide_eq_true fits ((page_accounts (by decide) booted ran).mp accounted)⟩
  · obtain ⟨s,s',booted,ran,fits⟩ := bootAndRun_such [0x40100#36] [.kalloc] (fun s => decide ¬ EachFits s [.kalloc])
      (by decide +kernel)
    exact ⟨s,s',booted,ran,fun accounted => of_decide_eq_true fits ((page_accounts (by decide) booted ran).mp accounted)⟩

end Counting

end PageTable
