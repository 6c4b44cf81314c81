import HonorKernel.InodeFormat
import HonorKernel.RadixTree
import HonorKernel.Runs

-- kernel/mem.c and kernel/pt.c: physical pages, their reference counts and the page
-- tables that are kept in them. A page is named by its frame number, K2P(ka)/PAGE_SIZE.
namespace PageTable
open DiskFormat BitSlice

abbrev U64 := BitVec 64
abbrev Frame := BitVec 36
abbrev Page := BitVec 32768
abbrev Index := Fin 512

instance : LawfulBEq Frame := inferInstance

def pageSize : Nat := 4096

inductive Trap where
  | noPage | nullEntry | assertion | panic | endless
deriving DecidableEq

-- `free` is the queue `nodes`. `clean` tells whether every page that went on the queue
-- was not on it.
structure Mem where
  pages : Frame → Page
  free : List Frame
  refs : Frame → Int
  kallocPageCnt : Int
  leftPageCnt : Int
  clean : Bool

-- PTE_ADDRESS, PTE_FLAGS and the bits of an entry.
def flagMask : U64 := 0xFFFF000000000FFF#64
def pteValid : U64 := 1#64
def pteTable : U64 := 3#64
def pteRo : U64 := 128#64
def pteUserData : U64 := 0x647#64

def frameOf (e : U64) : Frame := get 36 12 e
def flagsOf (e : U64) : U64 := e &&& flagMask
def entryFor (p : Frame) (flags : U64) : U64 := p.setWidth 64 <<< 12 ||| flags

abbrev valid (e : U64) : Prop := e &&& pteValid ≠ 0#64
abbrev readOnly (e : U64) : Prop := e &&& pteRo ≠ 0#64

-- VA_PART0 to VA_PART3.
def part (k : Nat) (va : U64) : Index := ⟨va.toNat/2^(39-9*k)%512,Nat.mod_lt _ (by decide)⟩
def pageBase (va : U64) : U64 := va &&& ~~~(4095#64)
def pageOffset (va : U64) : Nat := va.toNat%pageSize

namespace Mem

def entry (mem : Mem) (p : Frame) (i : Index) : U64 := get 64 (64*i.val) (mem.pages p)
def setPage (mem : Mem) (p : Frame) (d : Page) : Mem := { mem with pages := Function.update mem.pages p d }
def setEntry (mem : Mem) (p : Frame) (i : Index) (e : U64) : Mem := mem.setPage p (put (64*i.val) e (mem.pages p))

-- fetch_from_queue returns NULL when the queue is empty, and pages_ref is then indexed
-- with it.
def kallocPage (mem : Mem) : Except Trap (Frame × Mem) :=
  match mem.free with
  | [] => .error .noPage
  | p::rest =>
    .ok (p,{ mem with
      free := rest
      refs := Function.update mem.refs p 0
      kallocPageCnt := mem.kallocPageCnt+1
      leftPageCnt := mem.leftPageCnt-1 })

-- The link of the queue is the first word of the page.
def link (free : List Frame) : U64 :=
  match free with
  | [] => 0#64
  | p::_ => p.setWidth 64 <<< 12 + 0xFFFF000000000000#64

def addToQueue (mem : Mem) (p : Frame) : Mem :=
  { mem.setEntry p 0 (link mem.free) with
    free := p::mem.free
    leftPageCnt := mem.leftPageCnt+1
    clean := mem.clean && decide (p ∉ mem.free) }

def kfreePage (mem : Mem) (p : Frame) : Mem :=
  let mem := { mem with kallocPageCnt := mem.kallocPageCnt-1, refs := Function.update mem.refs p (mem.refs p-1) }
  if mem.refs p ≤ 0 then mem.addToQueue p else mem

-- kalloc_page and memset.
def kzallocPage (mem : Mem) : Except Trap (Frame × Mem) := do
  let (p,mem) ← mem.kallocPage
  .ok (p,mem.setPage p 0#32768)

-- One level of get_pte: the table that entry `i` of table `p` points to.
def descend (alloc : Bool) (i : Index) (mem : Mem) (p : Frame) : Except Trap (Option Frame × Mem) :=
  if valid (mem.entry p i) then .ok (some (frameOf (mem.entry p i)),mem)
  else if alloc = false then .ok (none,mem)
  else do
    let (q,mem) ← mem.kzallocPage
    .ok (some q,mem.setEntry p i (entryFor q pteTable))

-- The levels below the first, one index after the other.
def walk (alloc : Bool) : List Index → Mem → Frame → Except Trap (Option Frame × Mem)
  | [],mem,p => .ok (some p,mem)
  | i::way,mem,p => do
    let (q,mem) ← mem.descend alloc i p
    match q with
    | none => .ok (none,mem)
    | some q => walk alloc way mem q

end Mem

-- An entry of a table, &(pt3[VA_PART3(va)]).
structure Slot where
  table : Frame
  index : Index
deriving DecidableEq

def Mem.at (mem : Mem) (slot : Slot) : U64 := mem.entry slot.table slot.index
def Mem.setAt (mem : Mem) (slot : Slot) (e : U64) : Mem := mem.setEntry slot.table slot.index e

def getPte (alloc : Bool) (va : U64) (pt : Option Frame) (mem : Mem) : Except Trap (Option Slot × Option Frame × Mem) := do
  let (pt,mem) ← (match pt with
    | some root => .ok (some root,mem)
    | none => if alloc = false then .ok (none,mem) else do
        let (root,mem) ← mem.kzallocPage
        .ok (some root,mem))
  match pt with
  | none => .ok (none,none,mem)
  | some root => do
    let (table,mem) ← mem.walk alloc [part 0 va,part 1 va,part 2 va] root
    .ok (table.map (Slot.mk · (part 3 va)),pt,mem)

-- The caller goes on with the entry without a test for NULL.
def notNull (slot : Option Slot) : Except Trap Slot :=
  match slot with
  | none => .error .nullEntry
  | some slot => .ok slot

def vmmap (va : U64) (ka : Frame) (flags : U64) (pt : Option Frame) (mem : Mem) : Except Trap (Option Frame × Mem) := do
  let (slot,pt,mem) ← getPte true va pt mem
  let slot ← notNull slot
  .ok (pt,{ mem.setAt slot (entryFor ka flags) with refs := Function.update mem.refs ka (mem.refs ka+1) })

-- `fuel` is the length of what is left.
def copyoutLoop : Nat → U64 → List Byte → Option Frame → Mem → Except Trap (Option Frame × Mem)
  | 0,_,_,pt,mem => .ok (pt,mem)
  | fuel+1,va,src,pt,mem =>
    if src = [] then .ok (pt,mem)
    else do
      let n := min src.length (pageSize-pageOffset va)
      let (slot,pt,mem) ← getPte true va pt mem
      let slot ← notNull slot
      let target := frameOf (mem.at slot)
      let mem := mem.setPage target (setBytes (mem.pages target) (pageOffset va) (src.take n))
      copyoutLoop fuel (va+BitVec.ofNat 64 n) (src.drop n) pt mem

def copyout (va : U64) (src : List Byte) (pt : Option Frame) (mem : Mem) : Except Trap (Option Frame × Mem) :=
  copyoutLoop src.length va src pt mem

end PageTable
