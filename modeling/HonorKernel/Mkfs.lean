import HonorKernel.InodeLayer

-- user/mkfs/main.c: the program that writes the first image of the file system. It runs on
-- the host, and its integers are in the byte order of the kernel, so xshort and xint
-- change nothing.
namespace Mkfs
open DiskFormat InodeLayer

-- exit(1) where a read ends before the end of a sector, and assert.
inductive Failure where
  | exit | assertion
  deriving DecidableEq

-- boot, sb, num_log_blocks, inode, and bitmap
def nmeta : Nat := 2+logMaxSize+(nInodes/inodePerBlock+1)+(fsSize/(blockSize*8)+1)

-- The image file and the two counters.
structure State where
  sectors : Usize → BlockData
  freeinode : U32
  freeblock : U32

-- The image file has FSSIZE sectors, and behind them there is nothing to read.
def State.rsect (d : State) (sec : Usize) : Except Failure BlockData :=
  if sec.toNat < fsSize then .ok (d.sectors sec) else .error .exit

def State.wsect (d : State) (sec : Usize) (buf : BlockData) : State :=
  { d with sectors := Function.update d.sectors sec buf }

-- freeblock++
def State.bump (d : State) : State := { d with freeblock := d.freeblock+1#32 }

-- IBLOCK is the block that the kernel looks in.
def winode (inum : Usize) (din : InodeEntry) (d : State) : Except Failure State := do
  let buf ← d.rsect (toBlockNo mkfsSuperBlock inum)
  .ok (d.wsect (toBlockNo mkfsSuperBlock inum) (putEntry buf inum din))

def rinode (inum : Usize) (d : State) : Except Failure InodeEntry := do
  let buf ← d.rsect (toBlockNo mkfsSuperBlock inum)
  .ok (getEntry buf inum)

def ialloc (type : U16) (d : State) : Except Failure (Usize × State) := do
  let inum : Usize := d.freeinode.setWidth 64
  let din := ((InodeEntry.zero.setType type).setNumLinks 1#16).setNumBytes 0#32
  let d ← winode inum din { d with freeinode := d.freeinode+1#32 }
  .ok (inum,d)

-- The block of iappend for file block `fbn`; what is missing is taken from freeblock on.
def indirectFor (din : InodeEntry) (d : State) : InodeEntry × State :=
  if din.indirect = 0#32 then (din.setIndirect d.freeblock,d.bump) else (din,d)

def entryFor (i : Nat) (din : InodeEntry) (d : State) : Except Failure (InodeEntry × U32 × State) := do
  let indirect ← d.rsect (din.indirect.setWidth 64)
  if getAddr indirect i = 0#32 then
    .ok (din,d.freeblock,d.bump.wsect (din.indirect.setWidth 64) (putAddr indirect i d.freeblock))
  else .ok (din,getAddr indirect i,d)

def blockFor (fbn : Nat) (din : InodeEntry) (d : State) : Except Failure (InodeEntry × U32 × State) :=
  if direct : fbn < inodeNumDirect then
    if din.addrs ⟨fbn,direct⟩ = 0#32 then .ok (din.setAddr ⟨fbn,direct⟩ d.freeblock,d.freeblock,d.bump)
    else .ok (din,din.addrs ⟨fbn,direct⟩,d)
  else entryFor (fbn-inodeNumDirect) (indirectFor din d).1 (indirectFor din d).2

-- The loop of iappend with the bytes that are left. A round writes a byte or more, and the
-- assertion stops `off` long before it could wrap.
def iappendLoop : Nat → InodeEntry → Nat → List Byte → State → Except Failure (InodeEntry × Nat × State)
  | 0,din,off,_,d => .ok (din,off,d)
  | fuel+1,din,off,p,d =>
    if p = [] then .ok (din,off,d)
    else if inodeMaxBlocks ≤ off/blockSize then .error .assertion
    else do
      let (din,x,d) ← blockFor (off/blockSize) din d
      let n1 := min p.length ((off/blockSize+1)*blockSize-off)
      let buf ← d.rsect (x.setWidth 64)
      iappendLoop fuel din (off+n1) (p.drop n1)
        (d.wsect (x.setWidth 64) (setBytes buf (off-off/blockSize*blockSize) (p.take n1)))

def iappend (inum : Usize) (p : List Byte) (d : State) : Except Failure State := do
  let din ← rinode inum d
  let (din,off,d) ← iappendLoop p.length din din.numBytes.toNat p d
  winode inum (din.setNumBytes (BitVec.ofNat 32 off)) d

-- buf[i / 8] = buf[i / 8] | (0x1 << (i % 8)) for i < used
def bitmapOf (used : Nat) : BlockData :=
  (List.range used).foldl (fun buf i => BitSlice.put (8*(i/8)) (byteAt buf (i/8) ||| (1#8 <<< (i%8))) buf) 0#4096

def balloc (used : Nat) (d : State) : Except Failure State :=
  if used < blockSize*8 then .ok (d.wsect (mkfsSuperBlock.bitmapStart.setWidth 64) (bitmapOf used)) else .error .assertion

-- A file of the host: its path, and what one read of it after the other returns.
structure HostFile where
  path : List Byte
  chunks : List (List Byte)
  string : 0#8 ∉ path
  reads : ∀ chunk ∈ chunks, 0 < chunk.length ∧ chunk.length ≤ blockSize

def HostFile.bytes (f : HostFile) : List Byte := f.chunks.flatten

def slash : Byte := 47#8
def underscore : Byte := 95#8

-- How far the walk over the path is behind the last slash, which argv[i] then goes back by.
def behindSlash (path : List Byte) : Nat := path.foldl (fun j c => if c = slash then 0 else j+1) 0

def baseName (path : List Byte) : List Byte := path.drop (path.length-behindSlash path)

def stripped (name : List Byte) : List Byte := if charAt name 0 = underscore then name.drop 1 else name

def HostFile.name (f : HostFile) : List Byte := stripped (baseName f.path)

def dirent (inum : Usize) (name : List Byte) : DirEntry :=
  (DirEntry.setInodeNo 0#128 (inum.setWidth 16)).setName (strncpy name fileNameMaxLength)

def appendAll (inum : Usize) (chunks : List (List Byte)) (d : State) : Except Failure State :=
  chunks.foldlM (fun d chunk => iappend inum chunk d) d

def addFile (rootino : Usize) (d : State) (f : HostFile) : Except Failure State :=
  if slash ∈ baseName f.path then .error .assertion
  else do
    let (inum,d) ← ialloc inodeRegular d
    let d ← iappend rootino (dirent inum f.name).bytes d
    appendAll inum f.chunks d

def superBlockImage (sb : SuperBlock) : BlockData :=
  BitSlice.put 0 sb.numBlocks (BitSlice.put 32 sb.numDataBlocks (BitSlice.put 64 sb.numInodes
    (BitSlice.put 96 sb.numLogBlocks (BitSlice.put 128 sb.logStart (BitSlice.put 160 sb.inodeStart
      (BitSlice.put 192 sb.bitmapStart 0#4096))))))

def dot : List Byte := [46#8]
def dotdot : List Byte := [46#8,46#8]

-- All sectors zeroed and the super block written.
def blank : State := State.wsect ⟨fun _ => 0#4096,1#32,BitVec.ofNat 32 nmeta⟩ 1#64 (superBlockImage mkfsSuperBlock)

-- fix size of root inode dir
def roundedSize (numBytes : Nat) : Nat := (numBytes/blockSize+1)*blockSize

def mkfs (files : List HostFile) : Except Failure State := do
  let (rootino,d) ← ialloc inodeDirectory blank
  if rootino ≠ rootInodeNo then .error .assertion
  else do
    let d ← iappend rootino (dirent rootino dot).bytes d
    let d ← iappend rootino (dirent rootino dotdot).bytes d
    let d ← files.foldlM (addFile rootino) d
    let din ← rinode rootino d
    let d ← winode rootino (din.setNumBytes (BitVec.ofNat 32 (roundedSize din.numBytes.toNat))) d
    balloc d.freeblock.toNat d

end Mkfs
