import HonorKernel.CacheView
import HonorKernel.Semaphores

-- fs/inode.c over the cache view, one call at a time. An `Inode *` is represented by
-- the inode number of the structure it points to: the list `head` has at most one
-- structure for a number, and a number without a structure is a dangling pointer.
namespace InodeLayer
open DiskFormat Semaphores CacheView
open Runs (upTo)

structure Inode where
  lock : Semaphore
  rc : Int
  inodeNo : Usize
  valid : Bool
  entry : InodeEntry
  deriving DecidableEq

-- `consoleRead`: the bytes the console has for a reader, or none if the wait for them
-- is cut short. `stack`: what a DirEntry declared without initialiser holds.
structure Env where
  sblock : SuperBlock
  consoleRead : Usize → Option (List Byte)
  stack : DirEntry

structure Fs where
  cache : View
  inodes : Usize → Option Inode

def Fs.inode (fs : Fs) (p : Usize) : Except Fault Inode :=
  match fs.inodes p with
  | some inode => .ok inode
  | none => .error .dangling

def Fs.setCache (fs : Fs) (v : View) : Fs := ⟨v,fs.inodes⟩
def Fs.setInode (fs : Fs) (p : Usize) (inode : Inode) : Fs := ⟨fs.cache,Function.update fs.inodes p (some inode)⟩
def Fs.setEntry (fs : Fs) (p : Usize) (inode : Inode) (e : InodeEntry) : Fs := fs.setInode p {inode with entry := e}

def toBlockNo (sb : SuperBlock) (inodeNo : Usize) : Usize :=
  sb.inodeStart.setWidth 64+BitVec.ofNat 64 (inodeNo.toNat/inodePerBlock)

def diskEntry (sb : SuperBlock) (v : View) (inodeNo : Usize) : InodeEntry := getEntry (v.blocks (toBlockNo sb inodeNo)) inodeNo

def writeEntry (sb : SuperBlock) (ctx : Ctx) (v : View) (inodeNo : Usize) (e : InodeEntry) : View :=
  v.put ctx (toBlockNo sb inodeNo) (putEntry (v.blocks (toBlockNo sb inodeNo)) inodeNo e)

def allocLoop (sb : SuperBlock) (ctx : Ctx) (type : U16) (fs : Fs) : Nat → Usize → Except Fault (Usize × Fs)
  | 0,_ => .error .noFreeInode
  | count+1,inodeNo =>
    if (diskEntry sb fs.cache inodeNo).type = inodeInvalid then
      .ok (inodeNo,fs.setCache (writeEntry sb ctx fs.cache inodeNo (InodeEntry.zero.setType type)))
    else allocLoop sb ctx type fs count (inodeNo+1)

def inodeAlloc (env : Env) (ctx : Ctx) (type : U16) (fs : Fs) : Except Fault (Usize × Fs) :=
  if type = inodeInvalid then .error .assertion
  else allocLoop env.sblock ctx type fs (env.sblock.numInodes.toNat-1) 1#64

def inodeLock (p : Usize) (fs : Fs) : Except Fault Fs := do
  let inode ← fs.inode p
  if inode.rc ≤ 0 then .error .assertion
  else
    match waitSem inode.lock 0 with
    | (true,lock) => .ok (fs.setInode p {inode with lock := lock})
    | (false,_) => .error .blocked

def inodeUnlock (p : Usize) (fs : Fs) : Except Fault Fs := do
  let inode ← fs.inode p
  if inode.rc ≤ 0 then .error .assertion
  else do
    let (_,lock) ← postSem inode.lock
    .ok (fs.setInode p {inode with lock := lock})

def inodeSync (env : Env) (ctx : Ctx) (p : Usize) (doWrite : Bool) (fs : Fs) : Except Fault Fs := do
  let inode ← fs.inode p
  if inode.valid && doWrite then .ok (fs.setCache (writeEntry env.sblock ctx fs.cache inode.inodeNo inode.entry))
  else if !inode.valid && !doWrite then
    .ok (fs.setInode p {inode with valid := true,entry := diskEntry env.sblock fs.cache inode.inodeNo})
  else if inode.valid && !doWrite then .ok fs
  else .error .syncInvalid

-- A new structure is put on the list before it is loaded here; nothing looks at the
-- list in between, and inode_sync overwrites its entry.
def inodeGet (env : Env) (inodeNo : Usize) (fs : Fs) : Except Fault (Option Usize × Fs) :=
  if inodeNo = 0#64 then .ok (none,fs)
  else if env.sblock.numInodes.toNat ≤ inodeNo.toNat then .error .assertion
  else
    match fs.inodes inodeNo with
    | some inode => .ok (some inodeNo,fs.setInode inodeNo {inode with rc := inode.rc+1})
    | none => do
      let fs := fs.setInode inodeNo ⟨initSem 1,1,inodeNo,false,.zero⟩
      let fs ← inodeLock inodeNo fs
      let fs ← inodeSync env none inodeNo false fs
      let fs ← inodeUnlock inodeNo fs
      .ok (some inodeNo,fs)

def inodeShare (p : Usize) (fs : Fs) : Except Fault Fs := do
  let inode ← fs.inode p
  .ok (fs.setInode p {inode with rc := inode.rc+1})

-- if (addrs[i]) cache->free(ctx, addrs[i])
def freeEntry (env : Env) (ctx : Ctx) (indirect : Usize) (i : Nat) (v : View) : Except Fault View :=
  if getAddr (v.blocks indirect) i = 0#32 then .ok v
  else cacheFree env.sblock ctx ((getAddr (v.blocks indirect) i).setWidth 64) v

def clearIndirect (env : Env) (ctx : Ctx) (p : Usize) (fs : Fs) : Except Fault Fs := do
  let inode ← fs.inode p
  if inode.entry.indirect = 0#32 then .ok fs
  else do
    let indirect : Usize := inode.entry.indirect.setWidth 64
    let v ← upTo (freeEntry env ctx indirect) inodeNumIndirect 0 fs.cache
    let v ← cacheFree env.sblock ctx indirect v
    .ok ((fs.setCache v).setEntry p inode (inode.entry.setIndirect 0#32))

def clearAddr (env : Env) (ctx : Ctx) (p : Usize) (i : Nat) (fs : Fs) : Except Fault Fs := do
  let inode ← fs.inode p
  if small : i < inodeNumDirect then
    if inode.entry.addrs ⟨i,small⟩ = 0#32 then .ok fs
    else do
      let v ← cacheFree env.sblock ctx ((inode.entry.addrs ⟨i,small⟩).setWidth 64) fs.cache
      .ok ((fs.setCache v).setEntry p inode (inode.entry.setAddr ⟨i,small⟩ 0#32))
  else .error .outOfBounds

def inodeClear (env : Env) (ctx : Ctx) (p : Usize) (fs : Fs) : Except Fault Fs := do
  let fs ← clearIndirect env ctx p fs
  let fs ← upTo (clearAddr env ctx p) inodeNumDirect 0 fs
  let inode ← fs.inode p
  inodeSync env ctx p true (fs.setEntry p inode (inode.entry.setNumBytes 0#32))

def inodePut (env : Env) (ctx : Ctx) (p : Usize) (fs : Fs) : Except Fault Fs := do
  let inode ← fs.inode p
  let inode := {inode with rc := inode.rc-1}
  let fs := fs.setInode p inode
  if inode.rc = 0 ∧ inode.entry.numLinks = 0#16 then do
    let fs ← inodeClear env ctx p (fs.setEntry p inode (inode.entry.setType inodeInvalid))
    .ok ⟨fs.cache,Function.update fs.inodes p none⟩
  else .ok fs

-- inode_map below INODE_NUM_DIRECT: the block number, `*modified` and the state.
def mapDirect (env : Env) (ctx : Ctx) (p : Usize) (i : Fin inodeNumDirect) (fs : Fs) : Except Fault (Usize × Bool × Fs) := do
  let inode ← fs.inode p
  if inode.entry.addrs i ≠ 0#32 then .ok ((inode.entry.addrs i).setWidth 64,false,fs)
  else if ctx = none then .ok (0#64,false,fs)
  else do
    let (b,v) ← cacheAlloc env.sblock ctx fs.cache
    let e := inode.entry.setAddr i (b.setWidth 32)
    let fs ← inodeSync env ctx p true ((fs.setCache v).setEntry p inode e)
    .ok ((e.addrs i).setWidth 64,true,fs)

-- An inode without indirect block gets one, also when ctx is NULL.
def needIndirect (env : Env) (ctx : Ctx) (p : Usize) (fs : Fs) : Except Fault (Usize × Fs) := do
  let inode ← fs.inode p
  if inode.entry.indirect = 0#32 then do
    let (b,v) ← cacheAlloc env.sblock ctx fs.cache
    .ok ((b.setWidth 32).setWidth 64,(fs.setCache v).setEntry p inode (inode.entry.setIndirect (b.setWidth 32)))
  else .ok (inode.entry.indirect.setWidth 64,fs)

def mapEntry (env : Env) (ctx : Ctx) (p : Usize) (indirect : Usize) (i : Nat) (fs : Fs) : Except Fault (Usize × Bool × Fs) :=
  if inodeNumIndirect ≤ i then .error .outOfBounds
  else if getAddr (fs.cache.blocks indirect) i ≠ 0#32 then
    .ok ((getAddr (fs.cache.blocks indirect) i).setWidth 64,false,fs)
  else if ctx = none then .ok (0#64,false,fs)
  else do
    let (b,v) ← cacheAlloc env.sblock ctx fs.cache
    let v := v.store indirect (putAddr (v.blocks indirect) i (b.setWidth 32))
    let fs ← inodeSync env ctx p true (fs.setCache v)
    .ok ((getAddr (fs.cache.blocks indirect) i).setWidth 64,true,fs)

def inodeMap (env : Env) (ctx : Ctx) (p : Usize) (k : Nat) (fs : Fs) : Except Fault (Usize × Bool × Fs) :=
  if small : k < inodeNumDirect then mapDirect env ctx p ⟨k,small⟩ fs
  else do
    let (indirect,fs) ← needIndirect env ctx p fs
    mapEntry env ctx p indirect (k-inodeNumDirect) fs

-- The loop of inode_read with `left = count - have_read`; it makes at most `count`
-- rounds, since a round reads a byte or more.
def readLoop (env : Env) (p : Usize) : Nat → Nat → Nat → Bool → List Byte → Fs → Except Fault (List Byte × Bool × Fs)
  | 0,_,_,modified,dest,fs => .ok (dest,modified,fs)
  | fuel+1,offset,left,modified,dest,fs =>
    if left = 0 then .ok (dest,modified,fs)
    else do
      let (b,modified,fs) ← inodeMap env none p (offset/blockSize) fs
      let sz := if left < blockSize-offset%blockSize then left else blockSize-offset%blockSize
      readLoop env p fuel (offset+sz) (left-sz) modified (dest++getBytes (fs.cache.blocks b) (offset%blockSize) sz) fs

-- if (count + offset > entry->num_bytes) count = entry->num_bytes - offset
def readCount (numBytes offset count : Usize) : Usize := if numBytes < count+offset then numBytes-offset else count

-- The return value, and the bytes stored at `dest`.
def inodeRead (env : Env) (p : Usize) (offset count : Usize) (fs : Fs) : Except Fault (Usize × List Byte × Fs) := do
  let inode ← fs.inode p
  let numBytes : Usize := inode.entry.numBytes.setWidth 64
  if inode.entry.type = inodeDevice then
    if inode.entry.major = 1#16 then do
      let fs ← inodeUnlock p fs
      match env.consoleRead count with
      | none => .ok (BitVec.allOnes 64,[],fs)
      | some bytes => do
        let fs ← inodeLock p fs
        .ok (BitVec.ofNat 64 bytes.length,bytes,fs)
    else .error .assertion
  else
    let count := readCount numBytes offset count
    if offset ≤ numBytes ∧ offset+count ≤ numBytes ∧ offset ≤ offset+count then do
      let (bytes,modified,fs) ← readLoop env p count.toNat offset.toNat count.toNat false [] fs
      if modified then .error .assertion else .ok (count,bytes,fs)
    else .error .assertion

-- The loop of inode_write with the bytes that are still to be written.
def writeLoop (env : Env) (ctx : Ctx) (p : Usize) : Nat → Nat → List Byte → Fs → Except Fault Fs
  | 0,_,_,fs => .ok fs
  | fuel+1,offset,src,fs =>
    if src = [] then .ok fs
    else do
      let bytesToWrite := min (blockSize-offset%blockSize) src.length
      let (b,_,fs) ← inodeMap env ctx p (offset/blockSize) fs
      if b = 0#64 then .error .assertion
      else
        let d := setBytes (fs.cache.blocks b) (offset%blockSize) (src.take bytesToWrite)
        writeLoop env ctx p fuel (offset+bytesToWrite) (src.drop bytesToWrite) (fs.setCache (fs.cache.put ctx b d))

-- if (end > entry->num_bytes) ...
def growTo (env : Env) (ctx : Ctx) (p : Usize) (inode : Inode) (last : Usize) (fs : Fs) : Except Fault Fs :=
  if inode.entry.numBytes.setWidth 64 < last then
    inodeSync env ctx p true (fs.setEntry p inode (inode.entry.setNumBytes (last.setWidth 32)))
  else .ok fs

-- `src` is the buffer of `count` bytes.
def inodeWrite (env : Env) (ctx : Ctx) (p : Usize) (src : List Byte) (offset : Usize) (fs : Fs) : Except Fault (Usize × Fs) := do
  let inode ← fs.inode p
  let count : Usize := BitVec.ofNat 64 src.length
  if inode.entry.type = inodeDevice then
    if inode.entry.major = 1#16 then do
      let fs ← inodeUnlock p fs
      let fs ← inodeLock p fs
      .ok (count,fs)
    else .error .assertion
  else if offset ≤ inode.entry.numBytes.setWidth 64 ∧ (offset+count).toNat ≤ inodeMaxBytes ∧ offset ≤ offset+count then do
    let fs ← growTo env ctx p inode (offset+count) fs
    let fs ← writeLoop env ctx p src.length offset.toNat src fs
    .ok (count,fs)
  else .error .assertion

-- The walk over a directory's entries in inode_lookup and inode_insert: where it ends,
-- whether an entry stopped it, and the entry read last.
def scanDir (env : Env) (p : Usize) (stop : DirEntry → Bool) : Nat → Nat → DirEntry → Fs →
    Except Fault (Nat × Bool × DirEntry × Fs)
  | 0,i,dir,fs => .ok (i,false,dir,fs)
  | fuel+1,i,dir,fs => do
    let inode ← fs.inode p
    if i < inode.entry.numBytes.toNat then do
      let (_,bytes,fs) ← inodeRead env p (BitVec.ofNat 64 i) (BitVec.ofNat 64 dirEntrySize) fs
      let dir : DirEntry := setBytes dir 0 bytes
      if stop dir then .ok (i,true,dir,fs)
      else scanDir env p stop fuel (i+dirEntrySize) dir fs
    else .ok (i,false,dir,fs)

def scan (env : Env) (p : Usize) (stop : DirEntry → Bool) (fs : Fs) : Except Fault (Nat × Bool × DirEntry × Fs) := do
  let inode ← fs.inode p
  if inode.entry.type = inodeDirectory then scanDir env p stop inode.entry.numBytes.toNat 0 env.stack fs
  else .error .assertion

-- The inode number found, or 0, and `*index`.
def inodeLookup (env : Env) (p : Usize) (name : List Byte) (fs : Fs) : Except Fault (Usize × Option Usize × Fs) := do
  let (i,found,dir,fs) ← scan env p (fun dir => sameName dir.name name fileNameMaxLength 0 && dir.inodeNo != 0#16) fs
  .ok (if found then (dir.inodeNo.setWidth 64,some (BitVec.ofNat 64 i),fs) else (0#64,none,fs))

-- inode_insert counts in u32; a directory has at most INODE_MAX_BYTES bytes that can
-- be read, so the counter does not wrap.
def inodeInsert (env : Env) (ctx : Ctx) (p : Usize) (name : List Byte) (inodeNo : Usize) (fs : Fs) :
    Except Fault (Usize × Fs) := do
  let (existing,_,fs) ← inodeLookup env p name fs
  if existing ≠ 0#64 then .ok (BitVec.allOnes 64,fs)
  else do
    let (i,_,dir,fs) ← scan env p (fun dir => dir.inodeNo == 0#16) fs
    let dir := (dir.setName (strncpy name fileNameMaxLength)).setInodeNo (inodeNo.setWidth 16)
    let (_,fs) ← inodeWrite env ctx p dir.bytes (BitVec.ofNat 64 i) fs
    .ok (BitVec.ofNat 64 i,fs)

def inodeRemove (env : Env) (ctx : Ctx) (p : Usize) (index : Usize) (fs : Fs) : Except Fault Fs := do
  let inode ← fs.inode p
  let numBytes : Usize := inode.entry.numBytes.setWidth 64
  if inode.entry.type = inodeDirectory ∧ index < numBytes then do
    let (_,bytes,fs) ← inodeRead env p index (BitVec.ofNat 64 dirEntrySize) fs
    let dir : DirEntry := setBytes env.stack 0 bytes
    if dir.inodeNo = 0#16 then .ok fs
    else do
      let (_,bytes,fs) ← inodeRead env p (numBytes-BitVec.ofNat 64 dirEntrySize) (BitVec.ofNat 64 dirEntrySize) fs
      let dir : DirEntry := setBytes dir 0 bytes
      let (_,fs) ← inodeWrite env ctx p dir.bytes index fs
      let inode ← fs.inode p
      .ok (fs.setEntry p inode (inode.entry.setNumBytes (inode.entry.numBytes-BitVec.ofNat 32 dirEntrySize)))
  else .error .assertion

-- A call into the inode layer; the context of a writing call may be NULL.
inductive Call where
  | alloc (ctx : Ctx) (type : U16)
  | get (inodeNo : Usize)
  | share (p : Usize)
  | put (ctx : Ctx) (p : Usize)
  | clear (ctx : Ctx) (p : Usize)
  | read (p : Usize) (offset count : Usize)
  | write (ctx : Ctx) (p : Usize) (src : List Byte) (offset : Usize)
  | lookup (p : Usize) (name : List Byte)
  | insert (ctx : Ctx) (p : Usize) (name : List Byte) (inodeNo : Usize)
  | remove (ctx : Ctx) (p : Usize) (index : Usize)
  deriving DecidableEq

def call (env : Env) (fs : Fs) : Call → Except Fault Fs
  | .alloc ctx type => (·.2) <$> inodeAlloc env ctx type fs
  | .get inodeNo => (·.2) <$> inodeGet env inodeNo fs
  | .share p => inodeShare p fs
  | .put ctx p => inodePut env ctx p fs
  | .clear ctx p => inodeClear env ctx p fs
  | .read p offset count => (·.2.2) <$> inodeRead env p offset count fs
  | .write ctx p src offset => (·.2) <$> inodeWrite env ctx p src offset fs
  | .lookup p name => (·.2.2) <$> inodeLookup env p name fs
  | .insert ctx p name inodeNo => (·.2) <$> inodeInsert env ctx p name inodeNo fs
  | .remove ctx p index => inodeRemove env ctx p index fs

def next (env : Env) (fs : Fs) (c : Call) : Option Fs := (call env fs c).toOption

end InodeLayer
