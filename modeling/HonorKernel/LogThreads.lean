import HonorKernel.CacheRuns
import Mathlib.Data.Fintype.BigOperators

-- The log of fs/cache.c under any number of threads. A segment executed while log_lock
-- is held is one step, a device write made with log_lock released is a step of its own,
-- and cache_acquire and cache_release are one step each: a thread that finds a block
-- held makes its step once the block is free.
namespace LogThreads
open DiskFormat Semaphores BlockCache
open Runs (upTo)

-- Where a thread stands. `testing`, `waiting`, `asleep`: in the loop of cache_begin_op.
-- `home i b h written`: in the checkpoint loop of cache_end_op with log_lock released,
-- holding block `b` found at index `i`; `h` remembers the header that commit wrote.
inductive Pc where
  | idle | testing | waiting | asleep | running
  | home (i : Nat) (b : Usize) (h : LogHeader) (written : Bool)
  deriving DecidableEq

-- `held`: blocks cache_acquire returned and the thread has not released. The last two
-- fields only remember: the blocks synced with the ctx, and how many header entries the
-- ctx was charged for.
structure Thread where
  pc : Pc
  rm : Nat
  held : List Usize
  synced : List Usize
  added : Nat
  deriving DecidableEq

def Thread.new : Thread := ⟨.idle,0,[],[],0⟩

@[simps] def Thread.goto (thread : Thread) (pc : Pc) : Thread := {thread with pc := pc}

@[simps] def Thread.enter (thread : Thread) : Thread := {thread with rm := opMaxNumBlocks,synced := [],added := 0}

@[simps] def Thread.hold (thread : Thread) (b : Usize) : Thread := {thread with held := b::thread.held}

@[simps] def Thread.unhold (thread : Thread) (b : Usize) : Thread :=
  {thread with held := thread.held.filter (· ≠ b)}

@[simps] def Thread.log (thread : Thread) (b : Usize) (rm : Nat) : Thread :=
  {thread with rm := rm,synced := b::thread.synced,added := thread.added+(thread.rm-rm)}

structure State (n : Nat) where
  cache : BCache
  logSem : Semaphore
  threads : Fin n → Thread

@[simps -fullyApplied] def State.put (s : State n) (t : Fin n) (thread : Thread) (cache : BCache) (sem : Semaphore) : State n :=
  ⟨cache,sem,Function.update s.threads t thread⟩

def Thread.wake (thread : Thread) : Thread :=
  if thread.pc = .asleep then thread.goto .testing else thread

def State.wake (s : State n) (procs : List Nat) (sem : Semaphore) : State n :=
  {s with logSem := sem,threads := fun u => if u.val ∈ procs then (s.threads u).wake else s.threads u}

-- The while test of cache_begin_op and what follows it under log_lock.
def tryEnter (s : State n) (t : Fin n) : State n :=
  if roomFor s.cache.header s.cache.outstanding then
    s.put t ((s.threads t).goto .running) {s.cache with outstanding := s.cache.outstanding+1} s.logSem
  else s.put t ((s.threads t).goto .waiting) s.cache s.logSem

def beginOp (s : State n) (t : Fin n) : Option (State n) :=
  if (s.threads t).pc = .idle then
    some (tryEnter (s.put t (s.threads t).enter s.cache s.logSem) t)
  else none

def testLog (s : State n) (t : Fin n) : Option (State n) :=
  if (s.threads t).pc = .testing then some (tryEnter s t) else none

def waitLog (s : State n) (t : Fin n) : Option (State n) :=
  if (s.threads t).pc = .waiting then
    match waitSem s.logSem t.val with
    | (true,sem) => some (s.put t ((s.threads t).goto .testing) s.cache sem)
    | (false,sem) => some (s.put t ((s.threads t).goto .asleep) s.cache sem)
  else none

-- A thread works on blocks outside the two calls, with or without an operation.
def Pc.free (pc : Pc) : Bool := pc = .idle ∨ pc = .running

def acquire (s : State n) (t : Fin n) (b : Usize) : Option (State n) :=
  if (s.threads t).pc.free then
    match cacheAcquire s.cache b with
    | .ok (_,cache) => some (s.put t ((s.threads t).hold b) cache s.logSem)
    | .error _ => none
  else none

def modify (s : State n) (t : Fin n) (b : Usize) (d : BlockData) : Option (State n) :=
  if (s.threads t).pc.free ∧ b ∈ (s.threads t).held then some {s with cache := modifyData s.cache b d} else none

def release (s : State n) (t : Fin n) (b : Usize) : Option (State n) :=
  if (s.threads t).pc.free ∧ b ∈ (s.threads t).held then
    match cacheRelease s.cache b with
    | .ok cache => some (s.put t ((s.threads t).unhold b) cache s.logSem)
    | .error _ => none
  else none

def syncNull (s : State n) (t : Fin n) (b : Usize) : Option (State n) :=
  if (s.threads t).pc.free ∧ b ∈ (s.threads t).held then
    match cacheSync s.cache none b with
    | .ok (_,cache) => some {s with cache := cache}
    | .error _ => none
  else none

def sync (s : State n) (t : Fin n) (b : Usize) : Option (State n) :=
  if (s.threads t).pc = .running ∧ b ∈ (s.threads t).held then
    match cacheSync s.cache (some ⟨(s.threads t).rm⟩) b with
    | .ok (some ctx,cache) => some (s.put t ((s.threads t).log b ctx.rm) cache s.logSem)
    | _ => none
  else none

-- The checkpoint loop at its test, under log_lock: it goes on with the next block as
-- long as the header has one, and otherwise retires the log and returns.
def checkpointAt (sb : SuperBlock) (s : State n) (t : Fin n) (i : Nat) (h : LogHeader) : Option (State n) :=
  if i < s.cache.header.numBlocks then
    match headerBlockNo s.cache.header i with
    | .error _ => none
    | .ok b =>
      match cacheAcquire s.cache b with
      | .ok (_,cache) => some (s.put t ((s.threads t).goto (.home i b h false)) cache s.logSem)
      | .error _ => none
  else
    let (procs,sem) := postAllSem s.logSem
    let cache := writeHeader sb {s.cache with header := s.cache.header.setNumBlocks 0}
    some ((s.put t ((s.threads t).goto .idle) cache s.logSem).wake procs sem)

def endOp (sb : SuperBlock) (s : State n) (t : Fin n) : Option (State n) :=
  if (s.threads t).pc = .running then
    let cache : BCache := {s.cache with outstanding := s.cache.outstanding-1}
    if 0 < cache.outstanding then
      match postSem s.logSem with
      | .ok (proc,sem) => some ((s.put t ((s.threads t).goto .idle) cache s.logSem).wake proc.toList sem)
      | .error _ => none
    else
      match upTo (logCopy sb) cache.header.numBlocks 0 cache with
      | .ok cache => checkpointAt sb {s with cache := writeHeader sb cache} t 0 cache.header
      | .error _ => none
  else none

def writeHome (s : State n) (t : Fin n) : Option (State n) :=
  match (s.threads t).pc with
  | .home i b h false =>
    (s.cache.find b).map fun block =>
      s.put t ((s.threads t).goto (.home i b h true)) (deviceWrite s.cache b block.data) s.logSem
  | _ => none

def proceed (sb : SuperBlock) (s : State n) (t : Fin n) : Option (State n) :=
  match (s.threads t).pc with
  | .home i b h true =>
    match cacheRelease (s.cache.modify b (fun x => {x with pinned := false})) b with
    | .ok cache => checkpointAt sb {s with cache := cache} t (i+1) h
    | .error _ => none
  | _ => none

inductive Action (n : Nat) where
  | beginOp (t : Fin n)
  | testLog (t : Fin n)
  | waitLog (t : Fin n)
  | acquire (t : Fin n) (b : Usize)
  | modify (t : Fin n) (b : Usize) (d : BlockData)
  | sync (t : Fin n) (b : Usize)
  | syncNull (t : Fin n) (b : Usize)
  | release (t : Fin n) (b : Usize)
  | endOp (t : Fin n)
  | writeHome (t : Fin n)
  | proceed (t : Fin n)
  deriving DecidableEq

def next (sb : SuperBlock) (s : State n) : Action n → Option (State n)
  | .beginOp t => beginOp s t
  | .testLog t => testLog s t
  | .waitLog t => waitLog s t
  | .acquire t b => acquire s t b
  | .modify t b d => modify s t b d
  | .sync t b => sync s t b
  | .syncNull t b => syncNull s t b
  | .release t b => release s t b
  | .endOp t => endOp sb s t
  | .writeHome t => writeHome s t
  | .proceed t => proceed sb s t

-- init_bcache has returned and no thread has called into the cache yet.
structure Booted (sb : SuperBlock) (s : State n) : Prop where
  cache : ∃ disk, initBcache sb disk = .ok s.cache
  logSem : s.logSem = initSem 0
  threads : ∀ t, s.threads t = .new

-- A computed run on an empty disk: its first state and its last.
def fromBoot (n : Nat) (run : State n → Option (State n)) : Option (State n × State n) :=
  (initBcache mkfsSuperBlock (fun _ => 0#4096)).toOption.bind fun cache =>
    (run ⟨cache,initSem 0,fun _ => .new⟩).map fun s => (⟨cache,initSem 0,fun _ => .new⟩,s)

theorem fromBoot_parts {run : State n → Option (State n)} (ran : fromBoot n run = some (start,s)) :
    Booted mkfsSuperBlock start ∧ run start = some s := by
  obtain ⟨cache,booted,ran⟩ := Option.bind_eq_some_iff.mp ran
  obtain ⟨last,ran,same⟩ := Option.map_eq_some_iff.mp ran
  cases same
  exact ⟨⟨⟨_,Runs.toOption_some booted⟩,rfl,fun _ => rfl⟩,ran⟩

end LogThreads
