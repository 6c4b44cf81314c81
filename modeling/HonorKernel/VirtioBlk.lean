import HonorKernel.Ring
import HonorKernel.Runs
import HonorKernel.Semaphores

-- driver/virtio_blk.c: the descriptors and the two rings that the driver shares with the disk.
namespace VirtioBlk
open DiskFormat (Byte U16 U32)
open Semaphores (Semaphore initSem waitSem postSem)

-- NQUEUE
def nqueue : Nat := 16

instance : NeZero nqueue := ⟨by decide⟩

-- VIRTQ_DESC_F_NEXT and VIRTQ_DESC_F_WRITE
def descNext : U16 := 1#16
def descWrite : U16 := 2#16

-- struct virtio_blk_req_hdr, with VIRTIO_BLK_T_IN or VIRTIO_BLK_T_OUT as its type.
structure Header where
  type : U32
  reserved : U32
  sector : BitVec 64
deriving DecidableEq

-- What stands at the address in a descriptor.
inductive Target (Buf : Type) where
  | nothing
  | hdr (hdr : Header)
  | data (b : Buf)
  | status (d : U16)
deriving DecidableEq

structure Desc (Buf : Type) where
  addr : Target Buf
  len : U32
  flags : U16
  next : U16

abbrev Desc.linked (desc : Desc Buf) : Prop := desc.flags &&& descNext ≠ 0#16

structure Info (Buf : Type) where
  status : Byte
  done : Byte
  buf : Option Buf

-- The disk puts 16-bit heads into the 32-bit ids of the used ring.
structure Virtq (Buf : Type) where
  desc : U16 → Desc Buf
  availIdx : U16
  availRing : Fin nqueue → U16
  usedIdx : U16
  usedRing : Fin nqueue → U16
  freeHead : U16
  nfree : U16
  lastUsedIdx : U16
  info : U16 → Info Buf

inductive Halt where
  | panic
  | endless
deriving DecidableEq

variable {Buf : Type}

def Virtq.setDesc (vq : Virtq Buf) (d : U16) (desc : Desc Buf) : Virtq Buf := { vq with desc := Function.update vq.desc d desc }

def Virtq.setInfo (vq : Virtq Buf) (d : U16) (info : Info Buf) : Virtq Buf := { vq with info := Function.update vq.info d info }

-- virtq_init, with desc_init on memory that is all 0.
def virtqInit : Virtq Buf where
  desc d := if d.toNat < nqueue-1 then ⟨.nothing,0#32,descNext,d+1#16⟩ else ⟨.nothing,0#32,0#16,0#16⟩
  availIdx := 0#16
  availRing _ := 0#16
  usedIdx := 0#16
  usedRing _ := 0#16
  freeHead := 0#16
  nfree := BitVec.ofNat 16 nqueue
  lastUsedIdx := 0#16
  info _ := ⟨0,0,none⟩

def allocDesc (vq : Virtq Buf) : Except Halt (U16 × Virtq Buf) :=
  if vq.nfree = 0#16 then .error .panic
  else
    let d := vq.freeHead
    .ok (d,{ vq with
      freeHead := if (vq.desc d).linked then (vq.desc d).next else vq.freeHead
      nfree := vq.nfree-1#16 })

-- while (virtq->nfree++, (virtq->desc[n].flags & VIRTQ_DESC_F_NEXT)): where n and nfree end.
def freeLoop (desc : U16 → Desc Buf) : Nat → U16 → U16 → Except Halt (U16 × U16)
  | 0,_,_ => .error .endless
  | fuel+1,nfree,n => if (desc n).linked then freeLoop desc fuel (nfree+1#16) (desc n).next else .ok (n,nfree+1#16)

def freeDesc (vq : Virtq Buf) (n : U16) : Except Halt (Virtq Buf) := do
  let head := n
  let empty := decide (vq.nfree = 0#16)
  let (n,nfree) ← freeLoop vq.desc nqueue vq.nfree n
  let last := { vq.desc n with flags := descNext }
  let last := if empty then last else { last with next := vq.freeHead }
  .ok { vq.setDesc n last with freeHead := head, nfree := nfree }

-- virtio_blk_rw up to the wait; `write` is b->flags & B_DIRTY. The result is d0.
def submitRw (vq : Virtq Buf) (b : Buf) (write : Bool) (blockNo : U32) : Except Halt (U16 × Virtq Buf) := do
  let hdr : Header := ⟨if write then 1#32 else 0#32,0#32,blockNo.setWidth 64⟩
  let (d0,vq) ← allocDesc vq
  let vq := vq.setDesc d0 { vq.desc d0 with addr := .hdr hdr, len := 16#32, flags := descNext }
  let (d1,vq) ← allocDesc vq
  let vq := vq.setDesc d0 { vq.desc d0 with next := d1 }
  let vq := vq.setDesc d1 { vq.desc d1 with
    addr := .data b, len := 512#32, flags := if write then descNext else descNext ||| descWrite }
  let (d2,vq) ← allocDesc vq
  let vq := vq.setDesc d1 { vq.desc d1 with next := d2 }
  let vq := vq.setDesc d2 ⟨.status d0,1#32,descWrite,0#16⟩
  let vq := { vq with
    availRing := Function.update vq.availRing (Ring.slot nqueue vq.availIdx.toNat) d0
    availIdx := vq.availIdx+1#16 }
  .ok (d0,vq.setInfo d0 { vq.info d0 with buf := some b })

-- virtio_blk_rw behind the wait.
def retireRw (vq : Virtq Buf) (d0 : U16) : Except Halt (Virtq Buf) := freeDesc (vq.setInfo d0 { vq.info d0 with done := 0 }) d0

-- The disk: how much of the avail ring it has taken, and the heads it works on.
structure Device where
  seen : U16
  pending : List U16

-- Where a process stands in virtio_blk_rw. The Buf is on its own stack. A kill during the wait
-- ends in a PANIC() of its own and is left out.
inductive Pc where
  | idle
  | asleep (d0 : U16)
  | woken (d0 : U16)
deriving DecidableEq

def Pc.head : Pc → Option U16
  | .idle => none
  | .asleep d0 | .woken d0 => some d0

-- Which PANIC() ended the run: the one of alloc_desc or the one of virtio_blk_intr.
inductive Panic where
  | allocDesc
  | status
deriving DecidableEq

-- `handling`: virtio_blk_intr holds disk.lk. `completed` and `posted` list the Bufs of the
-- requests that the disk has completed and those that virtio_blk_intr has posted.
structure State (n : Nat) where
  virtq : Virtq (Fin n)
  device : Device
  sem : Fin n → Semaphore
  pcs : Fin n → Pc
  handling : Bool
  panicked : Option Panic
  completed : List (Fin n)
  posted : List (Fin n)

inductive Action (n : Nat) where
  | submit (b : Fin n) (write : Bool) (blockNo : U32)
  | retire (b : Fin n)
  | fetch
  | complete (d : U16) (status : Byte)
  | interrupt
  | handle
  | finish

variable {n : Nat}

def wake (who : Option Nat) (u : Fin n) : Pc → Pc
  | .asleep d0 => if who = some u.val then .woken d0 else .asleep d0
  | pc => pc

-- One round of the loop of virtio_blk_intr. A Buf at NULL would not be one of ours.
def handleUsed (s : State n) : Option (State n) :=
  let vq := s.virtq
  let d0 := vq.usedRing (Ring.slot nqueue vq.lastUsedIdx.toNat)
  if (vq.info d0).status ≠ 0 then some { s with panicked := some .status }
  else
    match (vq.info d0).buf with
    | none => none
    | some b =>
      match postSem (s.sem b) with
      | .error _ => none
      | .ok (who,sem) => some { s with
          virtq := { vq.setInfo d0 { vq.info d0 with buf := none } with lastUsedIdx := vq.lastUsedIdx+1#16 }
          sem := Function.update s.sem b sem
          pcs := fun u => wake who u (s.pcs u)
          posted := s.posted++[b] }

-- The disk ends a request: the status goes where the third descriptor says.
def completeHead (s : State n) (d : U16) (status : Byte) : Option (State n) :=
  let vq := s.virtq
  let d1 := (vq.desc d).next
  let d2 := (vq.desc d1).next
  match (vq.desc d1).addr,(vq.desc d2).addr with
  | .data b,.status i => some { s with
      virtq := { vq.setInfo i { vq.info i with status := status } with
        usedRing := Function.update vq.usedRing (Ring.slot nqueue vq.usedIdx.toNat) d
        usedIdx := vq.usedIdx+1#16 }
      device := ⟨s.device.seen,s.device.pending.erase d⟩
      completed := s.completed++[b] }
  | _,_ => none

-- The driver's steps need disk.lk.
def next (s : State n) (action : Action n) : Option (State n) :=
  if s.panicked ≠ none then none
  else match action with
  | .submit b write blockNo =>
    if s.pcs b = .idle ∧ s.handling = false then
      match submitRw s.virtq b write blockNo with
      | .error .panic => some { s with panicked := some .allocDesc }
      | .error .endless => none
      | .ok (d0,vq) =>
        let (now,sem) := waitSem (initSem 0) b.val
        some { s with
          virtq := vq
          sem := Function.update s.sem b sem
          pcs := Function.update s.pcs b (if now then .woken d0 else .asleep d0) }
    else none
  | .retire b =>
    match s.pcs b with
    | .woken d0 =>
      if s.handling = false then
        match retireRw s.virtq d0 with
        | .error _ => none
        | .ok vq => some { s with virtq := vq, pcs := Function.update s.pcs b .idle }
      else none
    | _ => none
  | .fetch =>
    if s.device.seen ≠ s.virtq.availIdx then
      some { s with device :=
        ⟨s.device.seen+1#16,s.device.pending++[s.virtq.availRing (Ring.slot nqueue s.device.seen.toNat)]⟩ }
    else none
  | .complete d status => if d ∈ s.device.pending then completeHead s d status else none
  | .interrupt => if s.handling = false then some { s with handling := true } else none
  | .handle => if s.handling = true ∧ s.virtq.lastUsedIdx ≠ s.virtq.usedIdx then handleUsed s else none
  | .finish => if s.handling = true ∧ s.virtq.lastUsedIdx = s.virtq.usedIdx then some { s with handling := false } else none

def start : State n := ⟨virtqInit,⟨0#16,[]⟩,fun _ => initSem 0,fun _ => .idle,false,none,[],[]⟩

end VirtioBlk
