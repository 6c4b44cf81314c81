import HonorKernel.Runs
import Mathlib.Data.List.Nodup

-- add_to_queue and fetch_from_queue of common/list.c on the queue of free pages, with every
-- load and every compare-and-exchange as one step.
namespace PageQueue

-- The address of a page, which is also that of its QueueNode; 0 is NULL.
abbrev Node := Nat

-- Before the load of *head, before the exchange; and before the load of node->next.
inductive Pc where
  | idle
  | adding (node : Node)
  | addCas (node : Node)
  | fetching
  | fetchNext (node : Node)
  | fetchCas (node follow : Node)
deriving DecidableEq

-- `queued` are the pages that were added and not fetched since, the last one first, `held`
-- those that the callers of each CPU have. `stray`: a page was fetched that was not queued.
structure State (n : Nat) where
  head : Node
  next : Node → Node
  pcs : Fin n → Pc
  held : Fin n → List Node
  queued : List Node
  stray : Bool

inductive Action (n : Nat) where
  | add (t : Fin n) (node : Node)
  | fetch (t : Fin n)
  | run (t : Fin n)
  | fail (t : Fin n)
  | write (t : Fin n) (node value : Node)
deriving DecidableEq

variable {n : Nat}

namespace State

def goto (s : State n) (t : Fin n) (pc : Pc) : State n := { s with pcs := Function.update s.pcs t pc }

def setNext (s : State n) (node value : Node) : State n := { s with next := Function.update s.next node value }

-- The exchange succeeds.
def push (s : State n) (t : Fin n) (node : Node) : State n :=
  { s.goto t .idle with head := node, queued := node::s.queued }

def pop (s : State n) (t : Fin n) (node follow : Node) : State n :=
  { s.goto t .idle with
    head := follow
    held := Function.update s.held t (node::s.held t)
    queued := s.queued.erase node
    stray := s.stray || decide (node ∉ s.queued) }

end State

-- The exchange is the weak one: `lucky = false` is a failure without a reason.
def step (s : State n) (t : Fin n) (lucky : Bool) : Option (State n) :=
  match s.pcs t with
  | .idle => none
  | .adding node => some ((s.setNext node s.head).goto t (.addCas node))
  | .addCas node =>
    if lucky = true ∧ s.head = s.next node then some (s.push t node)
    else some ((s.setNext node s.head).goto t (.adding node))
  | .fetching => some (s.goto t (if s.head = 0 then .idle else .fetchNext s.head))
  | .fetchNext node => some (s.goto t (.fetchCas node (s.next node)))
  | .fetchCas node follow =>
    if lucky = true ∧ s.head = node then some (s.pop t node follow)
    else some (s.goto t .fetching)

-- A caller may write what it likes into a page that it has.
def next (s : State n) : Action n → Option (State n)
  | .add t node =>
    if s.pcs t = .idle ∧ node ∈ s.held t then
      some { s.goto t (.adding node) with held := Function.update s.held t ((s.held t).erase node) }
    else none
  | .fetch t => if s.pcs t = .idle then some (s.goto t .fetching) else none
  | .run t => step s t true
  | .fail t => step s t false
  | .write t node value => if node ∈ s.held t then some (s.setNext node value) else none

-- The pages that a CPU has: also the one that it is adding.
def Pc.page : Pc → List Node
  | .adding node | .addCas node => [node]
  | _ => []

def owned (s : State n) (t : Fin n) : List Node := (s.pcs t).page++s.held t

-- The queue is empty, and its pages are with the CPUs.
def start (memory : Node → Node) (held : Fin n → List Node) : State n := ⟨0,memory,fun _ => .idle,held,[],false⟩

-- Following next from `node` one meets these pages, and then NULL.
def Chain (next : Node → Node) : Node → List Node → Prop
  | node,[] => node = 0
  | node,page::rest => node = page ∧ page ≠ 0 ∧ Chain next (next page) rest

-- Every page is in one place.
structure Apart (s : State n) : Prop where
  queued : s.queued.Nodup
  owned : ∀ t, (owned s t).Nodup
  real : ∀ t, ∀ page ∈ PageQueue.owned s t, page ≠ 0
  free : ∀ t, ∀ page ∈ PageQueue.owned s t, page ∉ s.queued
  single : ∀ t u, t ≠ u → ∀ page ∈ PageQueue.owned s t, page ∉ PageQueue.owned s u

structure Intact (s : State n) : Prop where
  chained : Chain s.next s.head s.queued
  fetched : s.stray = false
  apart : Apart s

-- About to exchange the head `node` for something that is not its next.
def Pc.stale (node next : Node) : Pc → Bool
  | .fetchCas read follow => decide (read = node ∧ follow ≠ next)
  | _ => false

-- A page comes back to the queue while a CPU that has read its old next is about to
-- exchange it for that.
def revives (s : State n) : Action n → Prop
  | .run t => ∃ node ∈ (s.pcs t).page, s.pcs t = .addCas node ∧ s.head = s.next node ∧ ∃ u, (s.pcs u).stale node (s.next node) = true
  | _ => False

instance (s : State n) (a : Action n) : Decidable (revives s a) :=
  match a with
  | .run t => inferInstanceAs (Decidable (∃ node ∈ (s.pcs t).page, s.pcs t = .addCas node ∧ s.head = s.next node ∧
      ∃ u, (s.pcs u).stale node (s.next node) = true))
  | .add _ _ | .fetch _ | .fail _ | .write _ _ _ => .isFalse id

-- What a CPU that is about to exchange has read.
structure Current (s : State n) : Prop where
  read : ∀ u node follow, s.pcs u = .fetchCas node follow → node ∈ s.queued → s.next node = follow
  real : ∀ u node, s.pcs u = .fetchNext node ∨ (∃ follow, s.pcs u = .fetchCas node follow) → node ≠ 0

structure Kept (s : State n) : Prop where
  intact : Intact s
  current : Current s

section steps
variable {s s' : State n} {t : Fin n} {node follow value : Node}

theorem Chain.congr {f g : Node → Node} {first : Node} {pages : List Node} (chain : Chain f first pages)
    (same : ∀ page ∈ pages, g page = f page) : Chain g first pages := by
  induction pages generalizing first with
  | nil => exact chain
  | cons page rest ih =>
    obtain ⟨here,real,tail⟩ := chain
    refine ⟨here,real,?_⟩
    rw [same page List.mem_cons_self]
    exact ih tail fun other member => same other (List.mem_cons_of_mem _ member)

theorem Chain.unique {f : Node → Node} {first other : Node} {pages : List Node} (chain : Chain f first pages)
    (again : Chain f other pages) : first = other := by
  cases pages with
  | nil => exact chain.trans again.symm
  | cons page rest => exact chain.1.trans again.1.symm

theorem Apart.perm (apart : Apart s) (queued : s'.queued = s.queued)
    (pages : ∀ u, (PageQueue.owned s' u).Perm (PageQueue.owned s u)) :
    Apart s' := by
  refine ⟨?_,fun u => (pages u).nodup_iff.mpr (apart.owned u),fun u page member => ?_,fun u page member => ?_,
    fun u v different page member inside => ?_⟩
  · rw [queued]
    exact apart.queued
  · exact apart.real u page ((pages u).mem_iff.mp member)
  · rw [queued]
    exact apart.free u page ((pages u).mem_iff.mp member)
  · exact apart.single u v different page ((pages u).mem_iff.mp member) ((pages v).mem_iff.mp inside)

theorem goto_owned {pc : Pc} (same : pc.page = (s.pcs t).page) (u : Fin n) : owned (s.goto t pc) u = owned s u := by
  by_cases mine : u = t
  · subst mine
    simp only [owned,State.goto,Function.update_self,same]
  · simp only [owned,State.goto,Function.update_of_ne mine]

theorem Kept.goto {pc : Pc} (kept : Kept s) (same : pc.page = (s.pcs t).page)
    (read : ∀ node follow, pc = .fetchCas node follow → node ∈ s.queued → s.next node = follow)
    (real : ∀ node, pc = .fetchNext node ∨ (∃ follow, pc = .fetchCas node follow) → node ≠ 0) : Kept (s.goto t pc) := by
  have here : (s.goto t pc).pcs t = pc := Function.update_self _ _ _
  have there : ∀ u ≠ t, (s.goto t pc).pcs u = s.pcs u := fun u other => Function.update_of_ne other _ _
  refine ⟨⟨kept.intact.chained,kept.intact.fetched,kept.intact.apart.perm rfl fun u => by rw [goto_owned same u]⟩,?_,?_⟩
  · intro u node follow at_
    by_cases mine : u = t
    · subst mine
      exact read node follow (here ▸ at_)
    · exact kept.current.read u node follow (there u mine ▸ at_)
  · intro u node at_
    by_cases mine : u = t
    · subst mine
      exact real node (here ▸ at_)
    · exact kept.current.real u node (there u mine ▸ at_)

theorem Kept.setNext (kept : Kept s) (mine : node ∈ owned s t) : Kept (s.setNext node value) := by
  have out : node ∉ s.queued := kept.intact.apart.free t node mine
  have same : ∀ page ∈ s.queued, (s.setNext node value).next page = s.next page := by
    intro page member
    refine Function.update_of_ne ?_ _ _
    rintro rfl
    exact out member
  refine ⟨⟨kept.intact.chained.congr same,kept.intact.fetched,kept.intact.apart.perm rfl fun _ => List.Perm.refl _⟩,
    fun u page follow at_ member => ?_,kept.current.real⟩
  rw [same page member]
  exact kept.current.read u page follow at_ member

theorem Kept.push (kept : Kept s) (at_ : s.pcs t = .addCas node) (top : s.head = s.next node)
    (fresh : ∀ u follow, s.pcs u = .fetchCas node follow → follow = s.next node) : Kept (s.push t node) := by
  have apart := kept.intact.apart
  have before : owned s t = node::s.held t := by simp [owned,at_,Pc.page]
  have after : owned (s.push t node) t = s.held t := by simp [owned,State.push,State.goto,Pc.page]
  have others : ∀ u ≠ t, owned (s.push t node) u = owned s u := by
    intro u other
    simp only [owned,State.push,State.goto,Function.update_of_ne other]
  have sub : ∀ u, ∀ page ∈ owned (s.push t node) u, page ∈ owned s u ∧ page ≠ node := by
    intro u page member
    by_cases mine : u = t
    · subst mine
      rw [after] at member
      refine ⟨by rw [before]; exact List.mem_cons_of_mem _ member,?_⟩
      rintro rfl
      have nodup := apart.owned u
      rw [before] at nodup
      exact (List.nodup_cons.mp nodup).1 member
    · rw [others u mine] at member
      refine ⟨member,?_⟩
      rintro rfl
      exact apart.single u t mine page member (by rw [before]; exact List.mem_cons_self)
  have mine : node ∈ owned s t := by rw [before]; exact List.mem_cons_self
  have out : node ∉ s.queued := apart.free t node mine
  have idle : ∀ u, u ≠ t → (s.push t node).pcs u = s.pcs u := fun u other => Function.update_of_ne other _ _
  have here : (s.push t node).pcs t = .idle := Function.update_self _ _ _
  refine ⟨⟨⟨rfl,apart.real t node mine,?_⟩,kept.intact.fetched,?_⟩,?_,?_⟩
  · have chained := kept.intact.chained
    rw [top] at chained
    exact chained
  · refine ⟨List.nodup_cons.mpr ⟨out,apart.queued⟩,fun u => ?_,fun u page member => apart.real u page (sub u page member).1,
      fun u page member inside => ?_,fun u v different page member inside =>
        apart.single u v different page (sub u page member).1 (sub v page inside).1⟩
    · by_cases own : u = t
      · subst own
        rw [after]
        have nodup := apart.owned u
        rw [before] at nodup
        exact (List.nodup_cons.mp nodup).2
      · rw [others u own]
        exact apart.owned u
    · obtain ⟨old,different⟩ := sub u page member
      rcases List.mem_cons.mp inside with same | inside
      · exact different same
      · exact apart.free u page old inside
  · intro u page follow reads member
    have other : u ≠ t := by
      rintro rfl
      rw [here] at reads
      cases reads
    rw [idle u other] at reads
    rcases List.mem_cons.mp member with rfl | member
    · exact (fresh u follow reads).symm
    · exact kept.current.read u page follow reads member
  · intro u page reads
    by_cases own : u = t
    · subst own
      rw [here] at reads
      rcases reads with reads | ⟨_,reads⟩ <;> cases reads
    · rw [idle u own] at reads
      exact kept.current.real u page reads

theorem Kept.pop (kept : Kept s) (at_ : s.pcs t = .fetchCas node follow) (top : s.head = node) :
    Kept (s.pop t node follow) := by
  have apart := kept.intact.apart
  have chained := kept.intact.chained
  have real := kept.current.real t node (.inr ⟨follow,at_⟩)
  obtain ⟨rest,list,tail⟩ : ∃ rest, s.queued = node::rest ∧ Chain s.next (s.next node) rest := by
    rw [top] at chained
    cases list : s.queued with
    | nil =>
      rw [list] at chained
      exact absurd chained real
    | cons page rest =>
      rw [list] at chained
      obtain ⟨rfl,_,tail⟩ := chained
      exact ⟨rest,rfl,tail⟩
  have listed : node ∈ s.queued := by rw [list]; exact List.mem_cons_self
  have read : s.next node = follow := kept.current.read t node follow at_ listed
  have left : s.queued.erase node = rest := by rw [list,List.erase_cons_head]
  have nodup := apart.queued
  rw [list] at nodup
  obtain ⟨out,restNodup⟩ := List.nodup_cons.mp nodup
  have fewer : ∀ page ∈ rest, page ∈ s.queued := fun page member => by
    rw [list]
    exact List.mem_cons_of_mem _ member
  have before : owned s t = s.held t := by simp [owned,at_,Pc.page]
  have after : owned (s.pop t node follow) t = node::s.held t := by simp [owned,State.pop,State.goto,Pc.page]
  have others : ∀ u ≠ t, owned (s.pop t node follow) u = owned s u := by
    intro u other
    simp only [owned,State.pop,State.goto,Function.update_of_ne other]
  have idle : ∀ u, u ≠ t → (s.pop t node follow).pcs u = s.pcs u := fun u other => Function.update_of_ne other _ _
  have here : (s.pop t node follow).pcs t = .idle := Function.update_self _ _ _
  have parts : ∀ u, ∀ page ∈ owned (s.pop t node follow) u, (u = t ∧ page = node) ∨ page ∈ owned s u := by
    intro u page member
    by_cases mine : u = t
    · subst mine
      rw [after] at member
      rcases List.mem_cons.mp member with same | old
      · exact .inl ⟨rfl,same⟩
      · exact .inr (by rw [before]; exact old)
    · exact .inr (others u mine ▸ member)
  have taken : ∀ u, node ∉ owned s u := fun u member => apart.free u node member listed
  refine ⟨⟨?_,?_,?_,?_,?_,?_,?_⟩,?_,?_⟩
  · change Chain s.next follow (s.queued.erase node)
    rw [left,← read]
    exact tail
  · change (s.stray || decide (node ∉ s.queued)) = false
    rw [kept.intact.fetched]
    simpa using listed
  · change (s.queued.erase node).Nodup
    rw [left]
    exact restNodup
  · intro u
    by_cases mine : u = t
    · subst mine
      rw [after,← before]
      exact List.nodup_cons.mpr ⟨taken u,apart.owned u⟩
    · rw [others u mine]
      exact apart.owned u
  · intro u page member
    rcases parts u page member with ⟨_,rfl⟩ | old
    · exact real
    · exact apart.real u page old
  · intro u page member inside
    change page ∈ s.queued.erase node at inside
    rw [left] at inside
    rcases parts u page member with ⟨_,rfl⟩ | old
    · exact out inside
    · exact apart.free u page old (fewer page inside)
  · intro u v different page member inside
    rcases parts u page member with ⟨rfl,rfl⟩ | old
    · rcases parts v page inside with ⟨same,_⟩ | older
      · exact different same.symm
      · exact taken v older
    · rcases parts v page inside with ⟨_,rfl⟩ | older
      · exact taken u old
      · exact apart.single u v different page old older
  · intro u page next reads member
    have other : u ≠ t := by
      rintro rfl
      rw [here] at reads
      cases reads
    rw [idle u other] at reads
    change page ∈ s.queued.erase node at member
    exact kept.current.read u page next reads (List.mem_of_mem_erase member)
  · intro u page reads
    by_cases own : u = t
    · subst own
      rw [here] at reads
      rcases reads with reads | ⟨_,reads⟩ <;> cases reads
    · rw [idle u own] at reads
      exact kept.current.real u page reads

theorem Kept.step {lucky : Bool} (kept : Kept s)
    (fresh : lucky = true → ∀ node, s.pcs t = .addCas node → s.head = s.next node →
      ∀ u follow, s.pcs u = .fetchCas node follow → follow = s.next node)
    (ran : step s t lucky = some s') : Kept s' := by
  unfold PageQueue.step at ran
  split at ran
  · cases ran
  · rename_i node at_
    cases ran
    have mine : node ∈ owned s t := by simp [owned,at_,Pc.page]
    refine (kept.setNext mine).goto ?_ (by simp) (by simp)
    change _ = (s.pcs t).page
    rw [at_]
    rfl
  · rename_i node at_
    have mine : node ∈ owned s t := by simp [owned,at_,Pc.page]
    split at ran
    · rename_i wins
      cases ran
      exact kept.push at_ wins.2 (fresh wins.1 node at_ wins.2)
    · cases ran
      refine (kept.setNext mine).goto ?_ (by simp) (by simp)
      change _ = (s.pcs t).page
      rw [at_]
      rfl
  · rename_i at_
    cases ran
    split
    · exact kept.goto (by rw [at_]; rfl) (by simp) (by simp)
    · rename_i more
      exact kept.goto (by rw [at_]; rfl) (by simp) (by simpa using more)
  · rename_i node at_
    cases ran
    refine kept.goto (by rw [at_]; rfl) ?_ ?_
    · rintro page follow same _
      cases same
      rfl
    · rintro page (same | ⟨_,same⟩)
      · cases same
      · cases same
        exact kept.current.real t node (.inl at_)
  · rename_i node follow at_
    split at ran
    · rename_i wins
      cases ran
      exact kept.pop at_ wins.2
    · cases ran
      exact kept.goto (by rw [at_]; rfl) (by simp) (by simp)

theorem Kept.add (kept : Kept s) (ready : s.pcs t = .idle) (mine : node ∈ s.held t) :
    Kept { s.goto t (.adding node) with held := Function.update s.held t ((s.held t).erase node) } := by
  have there : ∀ u ≠ t, (s.goto t (.adding node)).pcs u = s.pcs u := fun u other => Function.update_of_ne other _ _
  have here : (s.goto t (.adding node)).pcs t = .adding node := Function.update_self _ _ _
  refine ⟨⟨kept.intact.chained,kept.intact.fetched,kept.intact.apart.perm rfl fun u => ?_⟩,fun u page follow reads => ?_,
    fun u page reads => ?_⟩
  · by_cases own : u = t
    · subst own
      simp only [owned,here,Function.update_self,ready,Pc.page,List.nil_append]
      exact (List.perm_cons_erase mine).symm
    · simp only [owned,there u own,Function.update_of_ne own]
      exact List.Perm.refl _
  · change (s.goto t (.adding node)).pcs u = _ at reads
    by_cases own : u = t
    · subst own
      rw [here] at reads
      cases reads
    · exact kept.current.read u page follow (there u own ▸ reads)
  · change (s.goto t (.adding node)).pcs u = _ ∨ (∃ follow, (s.goto t (.adding node)).pcs u = _) at reads
    by_cases own : u = t
    · subst own
      rw [here] at reads
      rcases reads with reads | ⟨_,reads⟩ <;> cases reads
    · exact kept.current.real u page (there u own ▸ reads)

theorem Kept.next {a : Action n} (kept : Kept s) (fresh : ¬revives s a) (ran : next s a = some s') : Kept s' := by
  cases a with
  | add t node =>
    simp only [PageQueue.next] at ran
    split at ran
    · rename_i ready
      cases ran
      exact kept.add ready.1 ready.2
    · cases ran
  | fetch t =>
    simp only [PageQueue.next] at ran
    split at ran
    · rename_i ready
      cases ran
      exact kept.goto (by rw [ready]; rfl) (by simp) (by simp)
    · cases ran
  | run t =>
    refine kept.step (fun _ node at_ top u follow reads => ?_) ran
    by_contra stale
    refine fresh ⟨node,by rw [at_]; exact List.mem_singleton_self node,at_,top,u,?_⟩
    rw [reads]
    exact decide_eq_true ⟨rfl,stale⟩
  | fail t => exact kept.step (fun absurd => by cases absurd) ran
  | write t node value =>
    simp only [PageQueue.next] at ran
    split at ran
    · rename_i mine
      cases ran
      exact kept.setNext (t := t) (List.mem_append_right _ mine)
    · cases ran

-- The exchange of the CPU that still has the old next takes the pages behind it from the queue,
-- or others into it.
theorem Kept.revived (kept : Kept s) (stale : revives s (.run t)) (ran : PageQueue.next s (.run t) = some s') :
    ∃ u s'', PageQueue.next s' (.run u) = some s'' ∧ ¬Intact s'' := by
  obtain ⟨node,_,at_,top,u,stale⟩ := stale
  obtain ⟨follow,reads,different⟩ : ∃ follow, s.pcs u = .fetchCas node follow ∧ follow ≠ s.next node := by
    unfold Pc.stale at stale
    split at stale
    · rename_i read follow reads
      obtain ⟨rfl,different⟩ := of_decide_eq_true stale
      exact ⟨follow,reads,different⟩
    · cases stale
  have other : u ≠ t := by
    rintro rfl
    rw [at_] at reads
    cases reads
  have pushed : s' = s.push t node := by
    simp only [PageQueue.next,PageQueue.step,at_,top,and_self,if_true] at ran
    exact (Option.some.inj ran).symm
  subst pushed
  have still : (s.push t node).pcs u = .fetchCas node follow := (Function.update_of_ne other _ _).trans reads
  refine ⟨u,(s.push t node).pop u node follow,?_,fun intact => ?_⟩
  · have head : (s.push t node).head = node := rfl
    simp only [PageQueue.next,PageQueue.step,still,head,and_self,if_true]
  · have chained : Chain s.next follow ((node::s.queued).erase node) := intact.chained
    rw [List.erase_cons_head] at chained
    have before := kept.intact.chained
    rw [top] at before
    exact different (chained.unique before)

end steps

-- The CPUs begin with pages of their own.
structure Distinct (held : Fin n → List Node) : Prop where
  nodup : ∀ t, (held t).Nodup
  real : ∀ t, ∀ page ∈ held t, page ≠ 0
  single : ∀ t u, t ≠ u → ∀ page ∈ held t, page ∉ held u

theorem start_kept {held : Fin n → List Node} (memory : Node → Node) (distinct : Distinct held) :
    Kept (start memory held) := by
  refine ⟨⟨rfl,rfl,List.nodup_nil,distinct.nodup,distinct.real,fun _ _ _ => List.not_mem_nil,distinct.single⟩,?_,?_⟩
  · intro u node follow at_
    cases at_
  · rintro u node (at_ | ⟨_,at_⟩) <;> cases at_

theorem pages_kept {memory : Node → Node} {held : Fin n → List Node} {s : State n} (distinct : Distinct held)
    (path : Runs.Guarded next (fun s a => ¬revives s a) (start memory held) s) :
    Intact s ∧ ∀ a s', next s a = some s' → (¬revives s a → Intact s') ∧
      (revives s a → ∃ u s'', next s' (.run u) = some s'' ∧ ¬Intact s'') := by
  have kept : Kept s := path.invariant Kept (start_kept memory distinct) fun _ _ _ kept fresh ran => kept.next fresh ran
  refine ⟨kept.intact,fun a s' ran => ⟨fun fresh => (kept.next fresh ran).intact,fun stale => ?_⟩⟩
  cases a with
  | run t => exact kept.revived stale ran
  | _ => exact absurd stale id

-- CPU 1 has all pages at first.
def boot (t : Fin 2) : List Node := if t = 1 then [4096,8192] else []

theorem boot_distinct : Distinct boot := ⟨by decide,by decide,by decide⟩

theorem pages_kept_fetch : Distinct boot ∧ ∃ s : State 2,
    Runs.Guarded next (fun s a => ¬revives s a) (start (fun _ => 0) boot) s ∧ s.held 0 = [8192] ∧ Intact s := by
  obtain ⟨s,ran,facts⟩ := Runs.some_such (p := fun s : State 2 => decide (s.held 0 = [8192]))
    (x := Runs.execGuarded next (fun s a => ¬revives s a) (start (fun _ => 0) boot)
      [.add 1 8192,.run 1,.run 1,.fetch 0,.run 0,.run 0,.fail 0,.run 0,.run 0,.run 0]) (by decide)
  have path := Runs.exec_guarded .start ran
  exact ⟨boot_distinct,s,path,of_decide_eq_true facts,(pages_kept boot_distinct path).1⟩

-- CPU 0 has read that 8192 follows 4096. CPU 1 then fetches both pages and gives 4096 back, and the exchange
-- of CPU 0 makes 8192, which CPU 1 has, the head of the queue: both get it.
theorem page_handed_out_twice : ∃ s : State 2, Runs.Reached next (start (fun _ => 0) boot) s ∧
    8192 ∈ s.held 0 ∧ 8192 ∈ s.held 1 ∧ s.stray = true ∧ ¬Intact s := by
  obtain ⟨s,ran,facts⟩ := Runs.some_such
    (p := fun s : State 2 => decide (8192 ∈ s.held 0 ∧ 8192 ∈ s.held 1 ∧ s.stray = true))
    (x := Runs.exec next (start (fun _ => 0) boot)
      [.add 1 8192,.run 1,.run 1,.add 1 4096,.run 1,.run 1,
       .fetch 0,.run 0,.run 0,
       .fetch 1,.run 1,.run 1,.run 1,.fetch 1,.run 1,.run 1,.run 1,.add 1 4096,.run 1,.run 1,
       .run 0,.fetch 0,.run 0,.run 0,.run 0]) (by decide)
  obtain ⟨first,second,stray⟩ := of_decide_eq_true facts
  refine ⟨s,Runs.exec_reached .start ran,first,second,stray,fun intact => ?_⟩
  rw [intact.fetched] at stray
  cases stray

end PageQueue
