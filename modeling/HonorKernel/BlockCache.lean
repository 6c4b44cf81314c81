import HonorKernel.Semaphores
import HonorKernel.KeyedList
import HonorKernel.StoreWrites
import HonorKernel.Runs

-- fs/cache.c run by one thread at a time. Every function keeps the source's name;
-- a `Block *` is represented by the block number of the structure it points to,
-- which is unambiguous because the list never holds one number twice.
namespace BlockCache
open DiskFormat Semaphores
open Runs (upTo)

structure Block where
  blockNo : Usize
  acquired : Bool
  pinned : Bool
  lock : Semaphore
  valid : Bool
  data : BlockData
  deriving DecidableEq

structure OpContext where
  rm : Nat
  deriving DecidableEq

-- `head` lists the cached blocks from `head.next` on. `written` records every
-- device write since the cache was initialised, oldest first.
structure BCache where
  device : Usize → BlockData
  written : List (Usize × BlockData)
  head : List Block
  blockNum : Nat
  header : LogHeader
  outstanding : Int

def BCache.find (s : BCache) (b : Usize) : Option Block := KeyedList.find Block.blockNo b s.head

def BCache.modify (s : BCache) (b : Usize) (f : Block → Block) : BCache :=
  {s with head := KeyedList.modify Block.blockNo b f s.head}

def deviceWrite (s : BCache) (b : Usize) (d : BlockData) : BCache :=
  {s with device := Function.update s.device b d,written := s.written++[(b,d)]}

def writeHeader (sb : SuperBlock) (s : BCache) : BCache := deviceWrite s (sb.logStart.setWidth 64) s.header

-- The walk of manage_block_num starts at `head.prev`: its argument is the list from
-- the least recently used node on, and `idle` tells which nodes may go.
def manageWalk (idle : Node → Bool) : Nat → List Node → Nat × List Node
  | blockNum,[] => (blockNum,[])
  | blockNum,p::rest =>
    if evictionThreshold ≤ blockNum then
      if idle p then manageWalk idle (blockNum-1) rest
      else ((manageWalk idle blockNum rest).1,p::(manageWalk idle blockNum rest).2)
    else (blockNum,p::rest)

def manageBlockNum : Nat → List Block → Nat × List Block := manageWalk (fun p => !p.acquired && !p.pinned)

def initBlock (b : Usize) (d : BlockData) : Block :=
  ⟨b,true,false,⟨0,[]⟩,true,d⟩

def cacheAcquire (s : BCache) (b : Usize) : Except Fault (BlockData × BCache) :=
  match s.find b with
  | some block =>
    match waitSem block.lock 0 with
    | (true,lock) => .ok (block.data,{s with
        head := {block with acquired := true,lock := lock} :: KeyedList.remove Block.blockNo b s.head})
    | (false,_) => .error .blocked
  | none =>
    let kept := manageBlockNum s.blockNum s.head.reverse
    .ok (s.device b,{s with head := initBlock b (s.device b) :: kept.2.reverse,blockNum := kept.1+1})

def cacheRelease (s : BCache) (b : Usize) : Except Fault BCache :=
  match s.find b with
  | none => .error .dangling
  | some block => do
    let (_,lock) ← postSem block.lock
    .ok (s.modify b (fun x => {x with acquired := false,lock := lock}))

-- The holder of a block stores into its data in place.
def modifyData (s : BCache) (b : Usize) (d : BlockData) : BCache := s.modify b (fun x => {x with data := d})

-- The test of cache_begin_op; a caller that fails it sleeps on log.log_sem.
def roomFor (header : LogHeader) (outstanding : Int) : Bool :=
  !decide ((logMaxSize : Int) ≤ header.numBlocks+(outstanding+1)*opMaxNumBlocks)

def cacheBeginOp (s : BCache) : Except Fault (OpContext × BCache) :=
  if roomFor s.header s.outstanding then .ok (⟨opMaxNumBlocks⟩,{s with outstanding := s.outstanding+1})
  else .error .blocked

-- The header half of cache_sync: record the block unless it is listed, then the
-- PANIC test, then charge the operation.
def logSync (header : LogHeader) (rm : Nat) (b : Usize) : Except Fault (LogHeader × Nat) :=
  if header.blocks.contains b then .ok (header,rm)
  else if logMaxSize ≤ header.numBlocks then .error .outOfBounds
  else if rm = 0 ∨ logMaxSize ≤ (header.record b).numBlocks then .error .logLimit
  else .ok (header.record b,rm-1)

def cacheSync (s : BCache) (ctx : Option OpContext) (b : Usize) : Except Fault (Option OpContext × BCache) :=
  match ctx with
  | none =>
    match s.find b with
    | none => .error .dangling
    | some block => .ok (none,deviceWrite s b block.data)
  | some c => do
    let (header,rm) ← logSync s.header c.rm b
    .ok (some ⟨rm⟩,{s.modify b (fun x => {x with pinned := true}) with header := header})

def copyBlock (s : BCache) (source target : Usize) : Except Fault BCache := do
  let (d,s) ← cacheAcquire s source
  let (_,s) ← cacheAcquire s target
  let s := deviceWrite (modifyData s target d) target d
  let s ← cacheRelease s source
  cacheRelease s target

def headerBlockNo (header : LogHeader) (i : Nat) : Except Fault Usize :=
  if i < logMaxSize then .ok (header.blockNo i) else .error .outOfBounds

def logSlot (sb : SuperBlock) (i : Nat) : Usize := sb.logStart.setWidth 64+BitVec.ofNat 64 i+1#64

def logCopy (sb : SuperBlock) (i : Nat) (s : BCache) : Except Fault BCache := do
  let b ← headerBlockNo s.header i
  copyBlock s b (logSlot sb i)

-- One round of the checkpoint loop. Alone, the thread finds header.num_blocks
-- unchanged after it has retaken log_lock.
def checkpoint (i : Nat) (s : BCache) : Except Fault BCache := do
  let b ← headerBlockNo s.header i
  let (d,s) ← cacheAcquire s b
  let s := deviceWrite s b d
  cacheRelease (s.modify b (fun x => {x with pinned := false})) b

def cacheEndOp (sb : SuperBlock) (s : BCache) : Except Fault BCache :=
  let s := {s with outstanding := s.outstanding-1}
  if 0 < s.outstanding then .ok s
  else do
    let s ← upTo (logCopy sb) s.header.numBlocks 0 s
    let s := writeHeader sb s
    let s ← upTo checkpoint s.header.numBlocks 0 s
    .ok (writeHeader sb {s with header := s.header.setNumBlocks 0})

def recoverCopy (sb : SuperBlock) (i : Nat) (s : BCache) : Except Fault BCache := do
  let b ← headerBlockNo s.header i
  copyBlock s (logSlot sb i) b

def initBcache (sb : SuperBlock) (device : Usize → BlockData) : Except Fault BCache := do
  let s : BCache := ⟨device,[],[],0,device (sb.logStart.setWidth 64),0⟩
  let s ← upTo (recoverCopy sb) s.header.numBlocks 0 s
  .ok (writeHeader sb {s with header := s.header.reset})

-- The bitmap walk of cache_alloc: only one block of bitmap is in memory, and an
-- index beyond it addresses memory outside that block.
def firstClear (d : BlockData) : Nat → Nat → Except Fault (Option Nat)
  | 0,_ => .ok none
  | count+1,i =>
    if bitPerBlock ≤ i then .error .outOfBounds
    else if bitmapGet d i then firstClear d count (i+1)
    else .ok (some i)

def cacheAlloc (sb : SuperBlock) (s : BCache) (ctx : Option OpContext) :
    Except Fault (Usize × Option OpContext × BCache) := do
  let bitmap := sb.bitmapStart.setWidth 64
  let (d,s) ← cacheAcquire s bitmap
  match ← firstClear d sb.numBlocks.toNat 0 with
  | none => .error .noFreeBlock
  | some i =>
    let (ctx,s) ← cacheSync (modifyData s bitmap (bitmapSet d i)) ctx bitmap
    let s ← cacheRelease s bitmap
    let (_,s) ← cacheAcquire s (BitVec.ofNat 64 i)
    let (ctx,s) ← cacheSync (modifyData s (BitVec.ofNat 64 i) 0#4096) ctx (BitVec.ofNat 64 i)
    let s ← cacheRelease s (BitVec.ofNat 64 i)
    .ok (BitVec.ofNat 64 i,ctx,s)

def cacheFree (sb : SuperBlock) (s : BCache) (ctx : Option OpContext) (b : Usize) :
    Except Fault (Option OpContext × BCache) := do
  let bitmap := sb.bitmapStart.setWidth 64
  let (d,s) ← cacheAcquire s bitmap
  if bitPerBlock ≤ b.toNat then .error .outOfBounds
  else
    let (ctx,s) ← cacheSync (modifyData s bitmap (bitmapClear d b.toNat)) ctx bitmap
    let s ← cacheRelease s bitmap
    .ok (ctx,s)

end BlockCache
