import HonorKernel.CacheLaws
import HonorKernel.Runs

-- cache_acquire and cache_release of fs/cache.c under any number of threads. A segment
-- executed under the cache's spinlock is one step; device_read and the wait for a
-- block's sleeplock are steps of their own. A `Block *` is an address here.
namespace CacheThreads
open DiskFormat Semaphores BlockCache

abbrev Ptr := Nat

-- On a miss: `reading`, `loaded` (read, not linked yet). On a hit: `selected` (lock
-- dropped, before wait_sem), `asleep`, `granted` (before the list is touched again).
inductive Pc where
  | idle
  | reading (p : Ptr) (b : Usize)
  | loaded (p : Ptr) (b : Usize)
  | selected (p : Ptr) (b : Usize)
  | asleep (p : Ptr) (b : Usize)
  | granted (p : Ptr) (b : Usize)
  deriving DecidableEq

-- `held`: what cache_acquire returned and for which number, until cache_release.
structure Thread where
  pc : Pc
  held : List (Ptr × Usize)
  deriving DecidableEq

-- `heap` has the live Block structures and `list` the linked ones from `head.next` on.
-- `overtaken` only remembers: `u` uses structure `p` and the last thing that happened
-- to `p`, of lookups and releases, was a release by another thread.
structure State (n : Nat) where
  device : Usize → BlockData
  heap : Ptr → Option Block
  list : List Ptr
  blockNum : Nat
  threads : Fin n → Thread
  overtaken : Fin n → Ptr → Bool

def Thread.goto (thread : Thread) (pc : Pc) : Thread := ⟨pc,thread.held⟩

-- cache_acquire returns: the block is held.
def Thread.take (thread : Thread) (p : Ptr) (b : Usize) : Thread := ⟨.idle,(p,b)::thread.held⟩

def Thread.drop (thread : Thread) (p : Ptr) (b : Usize) : Thread := ⟨thread.pc,thread.held.erase (p,b)⟩

def Pc.target : Pc → Option (Ptr × Usize)
  | .idle => none
  | .reading p b | .loaded p b | .selected p b | .asleep p b | .granted p b => some (p,b)

-- Every structure a thread has found or holds, with the number it was asked for.
def Thread.uses (thread : Thread) : List (Ptr × Usize) := thread.pc.target.toList++thread.held

def Thread.usesPtr (thread : Thread) (p : Ptr) : Bool := thread.uses.any (·.1 = p)

def State.find (s : State n) (b : Usize) : Option Ptr := s.list.find? fun p => (s.heap p).any (·.blockNo = b)

def State.idleAt (s : State n) (p : Ptr) : Bool := (s.heap p).any fun x => !x.acquired && !x.pinned

def State.kept (s : State n) : Nat × List Ptr := manageWalk s.idleAt s.blockNum s.list.reverse

def State.swept (s : State n) (p : Ptr) : Option Block := if p ∈ s.list ∧ p ∉ s.kept.2 then none else s.heap p

def forget (overtaken : Fin n → Ptr → Bool) (p : Ptr) (u : Fin n) (q : Ptr) : Bool :=
  if q = p then false else overtaken u q

-- The first segment of cache_acquire; `fresh` is the address kalloc returns on a miss.
def lookup (s : State n) (t : Fin n) (b : Usize) (fresh : Ptr) : Option (State n) :=
  if (s.threads t).pc = .idle then
    match s.find b with
    | some p => some {s with
        heap := Function.update s.heap p ((s.heap p).map fun x => {x with acquired := true}),
        threads := Function.update s.threads t ((s.threads t).goto (.selected p b)),
        overtaken := forget s.overtaken p}
    | none =>
      if s.swept fresh = none then some {s with
        heap := Function.update s.swept fresh (some (initBlock b 0#4096)),
        list := s.kept.2.reverse,
        blockNum := s.kept.1+1,
        threads := Function.update s.threads t ((s.threads t).goto (.reading fresh b)),
        overtaken := forget s.overtaken fresh}
      else none
  else none

def read (s : State n) (t : Fin n) : Option (State n) :=
  match (s.threads t).pc with
  | .reading p b => (s.heap p).map fun x => {s with
      heap := Function.update s.heap p (some {x with data := s.device x.blockNo}),
      threads := Function.update s.threads t ((s.threads t).goto (.loaded p b))}
  | _ => none

def link (s : State n) (t : Fin n) : Option (State n) :=
  match (s.threads t).pc with
  | .loaded p b => some {s with
      list := p::s.list,
      threads := Function.update s.threads t ((s.threads t).take p b)}
  | _ => none

def wait (s : State n) (t : Fin n) : Option (State n) :=
  match (s.threads t).pc with
  | .selected p b => (s.heap p).map fun x =>
      let (goes,lock) := waitSem x.lock t.val
      {s with
        heap := Function.update s.heap p (some {x with lock := lock}),
        threads := Function.update s.threads t ((s.threads t).goto (if goes then .granted p b else .asleep p b))}
  | _ => none

def relink (s : State n) (t : Fin n) : Option (State n) :=
  match (s.threads t).pc with
  | .granted p b =>
    if p ∈ s.list then some {s with
      list := p::s.list.erase p,
      threads := Function.update s.threads t ((s.threads t).take p b)}
    else none
  | _ => none

-- What post_sem does to the thread it wakes on structure `p`.
def grant (p : Ptr) (who : Option Nat) (u : Nat) (thread : Thread) : Thread :=
  match thread.pc with
  | .asleep q b => if q = p ∧ who = some u then thread.goto (.granted q b) else thread
  | _ => thread

def afterRelease (s : State n) (t : Fin n) (p : Ptr) (b : Usize) (who : Option Nat) (u : Fin n) : Thread :=
  grant p who u.val (Function.update s.threads t ((s.threads t).drop p b) u)

def release (s : State n) (t : Fin n) (p : Ptr) (b : Usize) : Option (State n) :=
  if (s.threads t).pc = .idle ∧ (p,b) ∈ (s.threads t).held then
    match s.heap p with
    | none => none
    | some x =>
      match postSem x.lock with
      | .error _ => none
      | .ok (who,lock) => some {s with
          heap := Function.update s.heap p (some {x with acquired := false,lock := lock}),
          threads := afterRelease s t p b who,
          overtaken := fun u q => if q = p then (afterRelease s t p b who u).usesPtr p else s.overtaken u q}
  else none

-- What the holder of a block does to it: store into it, pin it (cache_sync), unpin it
-- (cache_end_op).
def store (s : State n) (t : Fin n) (p : Ptr) (b : Usize) (f : Block → Block) : Option (State n) :=
  if (s.threads t).pc = .idle ∧ (p,b) ∈ (s.threads t).held then
    (s.heap p).map fun x => {s with heap := Function.update s.heap p (some (f x))}
  else none

def modify (s : State n) (t : Fin n) (p : Ptr) (b : Usize) (d : BlockData) : Option (State n) :=
  store s t p b fun x => {x with data := d}
def sync (s : State n) (t : Fin n) (p : Ptr) (b : Usize) : Option (State n) :=
  store s t p b fun x => {x with pinned := true}
def unpin (s : State n) (t : Fin n) (p : Ptr) (b : Usize) : Option (State n) :=
  store s t p b fun x => {x with pinned := false}

def syncNull (s : State n) (t : Fin n) (p : Ptr) (b : Usize) : Option (State n) :=
  if (s.threads t).pc = .idle ∧ (p,b) ∈ (s.threads t).held then
    (s.heap p).map fun x => {s with device := Function.update s.device x.blockNo x.data}
  else none

inductive Action (n : Nat) where
  | lookup (t : Fin n) (b : Usize) (fresh : Ptr)
  | read (t : Fin n)
  | link (t : Fin n)
  | wait (t : Fin n)
  | relink (t : Fin n)
  | release (t : Fin n) (p : Ptr) (b : Usize)
  | modify (t : Fin n) (p : Ptr) (b : Usize) (d : BlockData)
  | sync (t : Fin n) (p : Ptr) (b : Usize)
  | unpin (t : Fin n) (p : Ptr) (b : Usize)
  | syncNull (t : Fin n) (p : Ptr) (b : Usize)
  deriving DecidableEq

def next (s : State n) : Action n → Option (State n)
  | .lookup t b fresh => lookup s t b fresh
  | .read t => read s t
  | .link t => link s t
  | .wait t => wait s t
  | .relink t => relink s t
  | .release t p b => release s t p b
  | .modify t p b d => modify s t p b d
  | .sync t p b => sync s t p b
  | .unpin t p b => unpin s t p b
  | .syncNull t p b => syncNull s t p b

-- init_bcache has returned: the blocks it used are linked, nobody has called in yet.
structure Booted (sb : SuperBlock) (s : State n) : Prop where
  cache : ∃ disk cache, initBcache sb disk = .ok cache ∧ s.list.map s.heap = cache.head.map some ∧
    s.blockNum = cache.blockNum ∧ s.device = cache.device
  live : ∀ p, p ∈ s.list ↔ s.heap p ≠ none
  distinct : s.list.Nodup
  threads : ∀ t, s.threads t = ⟨.idle,[]⟩

def State.empty (n : Nat) (device : Usize → BlockData) : State n :=
  ⟨device,fun _ => none,[],0,fun _ => ⟨.idle,[]⟩,fun _ _ => false⟩

-- A computed run from an empty disk: its first state and its last.
def fromBoot (n : Nat) (run : State n → Option (State n)) : Option (State n × State n) :=
  (initBcache mkfsSuperBlock (fun _ => 0#4096)).toOption.bind fun cache =>
    if cache.head = [] ∧ cache.blockNum = 0 then (run (.empty n cache.device)).map fun s => (.empty n cache.device,s)
    else none

theorem fromBoot_parts {run : State n → Option (State n)} (ran : fromBoot n run = some (start,s)) :
    Booted mkfsSuperBlock start ∧ run start = some s := by
  obtain ⟨cache,booted,ran⟩ := Option.bind_eq_some_iff.mp ran
  split at ran
  · rename_i none
    obtain ⟨last,ran,same⟩ := Option.map_eq_some_iff.mp ran
    cases same
    refine ⟨⟨⟨_,cache,Runs.toOption_some booted,?_,none.2.symm,rfl⟩,?_,List.nodup_nil,fun _ => rfl⟩,ran⟩
    · rw [none.1]; rfl
    · intro p; simp [State.empty]
  · cases ran

-- A whole cache_acquire that misses.
def load (t : Fin n) (b : Usize) (p : Ptr) : List (Action n) := [.lookup t b p,.read t,.link t]

end CacheThreads
