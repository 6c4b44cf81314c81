import HonorKernel.VirtioBlk

-- The descriptors are the free list and the chains of the requests, whatever is in flight.
namespace VirtioBlk
open DiskFormat (Byte U16 U32)
open Semaphores (initSem waitSem postSem)

section walks
variable {α : Type*} {f g : α → α}

-- `count` elements, following `f`.
def walk (f : α → α) : Nat → α → List α
  | 0,_ => []
  | count+1,d => d::walk f count (f d)

@[simp] theorem walk_length (f : α → α) (count : Nat) (d : α) : (walk f count d).length = count := by
  induction count generalizing d with
  | zero => rfl
  | succ count ih => simp [walk,ih]

theorem walk_congr {count : Nat} {d : α} (same : ∀ e ∈ walk f count d, g e = f e) :
    walk g count d = walk f count d := by
  induction count generalizing d with
  | zero => rfl
  | succ count ih =>
    have here : g d = f d := same d List.mem_cons_self
    simp only [walk,here]
    rw [ih fun e member => same e (List.mem_cons_of_mem _ member)]

theorem mem_dropLast_append (xs : List α) {ys : List α} {x : α} (member : x ∈ (xs++ys).dropLast) :
    x ∈ xs ∨ x ∈ ys.dropLast := by
  rw [List.dropLast_append] at member
  split at member
  · exact .inl (List.dropLast_subset _ member)
  · exact List.mem_append.mp member

end walks

section queue
variable {Buf : Type} {vq vq' : Virtq Buf} {b : Buf} {d d0 : U16}

def follow (desc : U16 → Desc Buf) (d : U16) : U16 := (desc d).next

def freeList (vq : Virtq Buf) : List U16 := walk (follow vq.desc) vq.nfree.toNat vq.freeHead

def chain (vq : Virtq Buf) (d0 : U16) : List U16 := walk (follow vq.desc) 3 d0

-- The three descriptors that virtio_blk_rw fills, as the disk reads them.
structure Filled (vq : Virtq Buf) (b : Buf) (d0 : U16) : Prop where
  nodup : (chain vq d0).Nodup
  first : (vq.desc d0).linked
  second : (vq.desc (follow vq.desc d0)).linked
  third : ¬(vq.desc (follow vq.desc (follow vq.desc d0))).linked
  data : (vq.desc (follow vq.desc d0)).addr = .data b
  status : (vq.desc (follow vq.desc (follow vq.desc d0))).addr = .status d0

-- All descriptors of the free list but the last one are marked as linked.
structure FreeList (vq : Virtq Buf) : Prop where
  nodup : (freeList vq).Nodup
  tied : ∀ d ∈ (freeList vq).dropLast, (vq.desc d).linked

theorem chain_congr (same : ∀ e ∈ chain vq d0, vq'.desc e = vq.desc e) : chain vq' d0 = chain vq d0 :=
  walk_congr fun e member => congrArg Desc.next (same e member)

theorem Filled.congr (filled : Filled vq b d0) (same : ∀ e ∈ chain vq d0, vq'.desc e = vq.desc e) :
    Filled vq' b d0 := by
  have one := same d0 (by simp [chain,walk])
  have next : follow vq'.desc d0 = follow vq.desc d0 := congrArg Desc.next one
  have two := same (follow vq.desc d0) (by simp [chain,walk])
  have last : follow vq'.desc (follow vq.desc d0) = follow vq.desc (follow vq.desc d0) := congrArg Desc.next two
  have three := same (follow vq.desc (follow vq.desc d0)) (by simp [chain,walk])
  refine ⟨?_,?_,?_,?_,?_,?_⟩
  · rw [chain_congr same]; exact filled.nodup
  · rw [one]; exact filled.first
  · rw [next,two]; exact filled.second
  · rw [next,last,three]; exact filled.third
  · rw [next,two]; exact filled.data
  · rw [next,last,three]; exact filled.status

theorem FreeList.three (free : FreeList vq) (enough : 3 ≤ vq.nfree.toNat) :
    ∃ d1 d2 rest, freeList vq = vq.freeHead::d1::d2::rest ∧ rest.length = vq.nfree.toNat-3 ∧
      (vq.desc vq.freeHead).linked ∧ (vq.desc vq.freeHead).next = d1 ∧ (vq.desc d1).linked ∧ (vq.desc d1).next = d2 ∧
      rest = walk (follow vq.desc) (vq.nfree.toNat-3) (vq.desc d2).next ∧ (rest ≠ [] → (vq.desc d2).linked) := by
  obtain ⟨count,size⟩ : ∃ count, vq.nfree.toNat = count+3 := ⟨vq.nfree.toNat-3,by omega⟩
  have list : freeList vq = vq.freeHead::follow vq.desc vq.freeHead::follow vq.desc (follow vq.desc vq.freeHead)::
      walk (follow vq.desc) count (vq.desc (follow vq.desc (follow vq.desc vq.freeHead))).next := by
    rw [freeList,size]
    rfl
  have tied := free.tied
  rw [list] at tied
  refine ⟨_,_,_,list,by rw [walk_length]; omega,tied _ (by simp),rfl,tied _ (by simp),rfl,by rw [size]; rfl,fun more => ?_⟩
  refine tied _ ?_
  rw [List.dropLast_cons_of_ne_nil (by simp),List.dropLast_cons_of_ne_nil (by simp),List.dropLast_cons_of_ne_nil more]
  simp

theorem allocDesc_ok (some : vq.nfree ≠ 0#16) (d : U16) (here : vq.freeHead = d) :
    allocDesc vq = .ok (d,{ vq with
      freeHead := if (vq.desc d).linked then (vq.desc d).next else d
      nfree := vq.nfree-1#16 }) := by
  unfold allocDesc
  rw [if_neg some,here]

-- What a request takes from the free list, and what else changes.
structure Submitted (vq vq' : Virtq Buf) (b : Buf) (d0 : U16) : Prop where
  list : freeList vq = chain vq' d0++freeList vq'
  others : ∀ e ∉ chain vq' d0, vq'.desc e = vq.desc e
  filled : Filled vq' b d0
  tied : ∀ d ∈ (freeList vq').dropLast, (vq'.desc d).linked
  count : vq'.nfree.toNat+3 = vq.nfree.toNat
  availRing : vq'.availRing = Function.update vq.availRing (Ring.slot nqueue vq.availIdx.toNat) d0
  availIdx : vq'.availIdx = vq.availIdx+1#16
  usedRing : vq'.usedRing = vq.usedRing
  usedIdx : vq'.usedIdx = vq.usedIdx
  lastUsedIdx : vq'.lastUsedIdx = vq.lastUsedIdx
  info : vq'.info = Function.update vq.info d0 { vq.info d0 with buf := some b }

theorem nfree_sub {x : U16} (k : Nat) (enough : k ≤ x.toNat) (small : k < 2^16) :
    (x-BitVec.ofNat 16 k).toNat = x.toNat-k := by
  have bound := x.isLt
  rw [BitVec.toNat_sub,BitVec.toNat_ofNat,Nat.mod_eq_of_lt small]
  omega

-- The queue behind a submission that takes the first three free descriptors.
def issued (vq : Virtq Buf) (b : Buf) (write : Bool) (blockNo : U32) (d0 d1 d2 : U16) : Virtq Buf :=
  { vq with
    desc := Function.update (Function.update (Function.update vq.desc
        d0 ⟨.hdr ⟨if write then 1#32 else 0#32,0#32,blockNo.setWidth 64⟩,16#32,descNext,d1⟩)
        d1 ⟨.data b,512#32,if write then descNext else descNext ||| descWrite,d2⟩)
        d2 ⟨.status d0,1#32,descWrite,0#16⟩
    freeHead := if (vq.desc d2).linked then (vq.desc d2).next else d2
    nfree := vq.nfree-3#16
    availRing := Function.update vq.availRing (Ring.slot nqueue vq.availIdx.toNat) d0
    availIdx := vq.availIdx+1#16
    info := Function.update vq.info d0 { vq.info d0 with buf := some b } }

theorem submitRw_issued {d1 d2 : U16} (enough : 3 ≤ vq.nfree.toNat) (nodup : [vq.freeHead,d1,d2].Nodup)
    (first : (vq.desc vq.freeHead).linked) (next : (vq.desc vq.freeHead).next = d1)
    (second : (vq.desc d1).linked) (last : (vq.desc d1).next = d2) (write : Bool) (blockNo : U32) :
    submitRw vq b write blockNo = .ok (vq.freeHead,issued vq b write blockNo vq.freeHead d1 d2) := by
  have some0 : vq.nfree ≠ 0#16 := by
    intro zero
    rw [zero] at enough
    simp at enough
  have some1 : vq.nfree-1#16 ≠ 0#16 := by
    intro zero
    have size := nfree_sub (x := vq.nfree) 1 (by omega) (by decide)
    rw [zero] at size
    simp at size
    omega
  have two : vq.nfree-BitVec.ofNat 16 2 = vq.nfree-1#16-1#16 := by rw [BitVec.sub_sub]; rfl
  have some2 : vq.nfree-1#16-1#16 ≠ 0#16 := by
    intro zero
    have size := nfree_sub (x := vq.nfree) 2 (by omega) (by decide)
    rw [two,zero] at size
    simp at size
    omega
  have three : vq.nfree-1#16-1#16-1#16 = vq.nfree-3#16 := by rw [← two,BitVec.sub_sub]; rfl
  simp only [List.nodup_cons,List.mem_cons,not_or,List.not_mem_nil,not_false_eq_true,and_true,List.nodup_nil] at nodup
  obtain ⟨⟨zeroOne,zeroTwo⟩,oneTwo⟩ := nodup
  unfold submitRw
  rw [allocDesc_ok some0 vq.freeHead rfl]
  simp only [Virtq.setDesc,Virtq.setInfo,bind,Except.bind]
  rw [if_pos first,next,allocDesc_ok some1 d1 rfl]
  simp only [Function.update_of_ne (Ne.symm zeroOne),Function.update_self,Function.update_idem]
  rw [if_pos second,last,allocDesc_ok some2 d2 rfl]
  simp only [Function.update_of_ne (Ne.symm zeroTwo),Function.update_of_ne (Ne.symm oneTwo),Function.update_self,
      Function.update_idem,issued,three]

section issues
variable {d1 d2 : U16} {write : Bool} {blockNo : U32}

theorem issued_zero (zeroOne : d0 ≠ d1) (zeroTwo : d0 ≠ d2) :
    (issued vq b write blockNo d0 d1 d2).desc d0 =
      ⟨.hdr ⟨if write then 1#32 else 0#32,0#32,blockNo.setWidth 64⟩,16#32,descNext,d1⟩ := by
  simp only [issued,Function.update_of_ne zeroTwo,Function.update_of_ne zeroOne,Function.update_self]

theorem issued_one (oneTwo : d1 ≠ d2) :
    (issued vq b write blockNo d0 d1 d2).desc d1 = ⟨.data b,512#32,if write then descNext else descNext ||| descWrite,d2⟩ := by
  simp only [issued,Function.update_of_ne oneTwo,Function.update_self]

theorem issued_two : (issued vq b write blockNo d0 d1 d2).desc d2 = ⟨.status d0,1#32,descWrite,0#16⟩ := by
  simp only [issued,Function.update_self]

theorem issued_other {e : U16} (out : e ∉ [d0,d1,d2]) : (issued vq b write blockNo d0 d1 d2).desc e = vq.desc e := by
  simp only [List.mem_cons,not_or,List.not_mem_nil,not_false_eq_true,and_true] at out
  simp only [issued,Function.update_of_ne out.1,Function.update_of_ne out.2.1,Function.update_of_ne out.2.2]

end issues

theorem submitRw_submitted (free : FreeList vq) (enough : 3 ≤ vq.nfree.toNat) (write : Bool) (blockNo : U32) :
    ∃ d0 vq', submitRw vq b write blockNo = .ok (d0,vq') ∧ Submitted vq vq' b d0 := by
  obtain ⟨d1,d2,rest,list,length,first,next,second,last,walked,third⟩ := free.three enough
  have apart := free.nodup
  rw [list] at apart
  have distinct : [vq.freeHead,d1,d2].Nodup := by
    refine List.Sublist.nodup ?_ apart
    exact List.Sublist.cons_cons _ (List.Sublist.cons_cons _ (List.Sublist.cons_cons _ (List.nil_sublist _)))
  have outside : ∀ e ∈ rest, e ∉ [vq.freeHead,d1,d2] := by
    intro e member mine
    exact (List.nodup_append.mp (show ([vq.freeHead,d1,d2]++rest).Nodup from apart)).2.2 e mine e member rfl
  refine ⟨_,_,submitRw_issued enough distinct first next second last write blockNo,?_⟩
  generalize head : vq.freeHead = d0 at *
  simp only [List.nodup_cons,List.mem_cons,not_or,List.not_mem_nil,not_false_eq_true,and_true,List.nodup_nil] at distinct
  obtain ⟨⟨zeroOne,zeroTwo⟩,oneTwo⟩ := distinct
  have followZero : follow (issued vq b write blockNo d0 d1 d2).desc d0 = d1 := by rw [follow,issued_zero zeroOne zeroTwo]
  have followOne : follow (issued vq b write blockNo d0 d1 d2).desc d1 = d2 := by rw [follow,issued_one oneTwo]
  have taken : chain (issued vq b write blockNo d0 d1 d2) d0 = [d0,d1,d2] := by simp only [chain,walk,followZero,followOne]
  have count : (issued vq b write blockNo d0 d1 d2).nfree.toNat = vq.nfree.toNat-3 := nfree_sub 3 enough (by decide)
  have left : freeList (issued vq b write blockNo d0 d1 d2) = rest := by
    rw [freeList,count]
    by_cases none : rest = []
    · rw [← length,none]
      rfl
    · have head : (issued vq b write blockNo d0 d1 d2).freeHead = (vq.desc d2).next := if_pos (third none)
      rw [head,walked]
      refine walk_congr fun e member => ?_
      rw [follow,issued_other (outside e (walked ▸ member))]
      rfl
  refine ⟨by rw [taken,left,list]; rfl,?_,⟨?_,?_,?_,?_,?_,?_⟩,?_,by omega,rfl,rfl,rfl,rfl,rfl,rfl⟩
  · intro e out
    rw [taken] at out
    exact issued_other out
  · rw [taken]
    simp [zeroOne,zeroTwo,oneTwo]
  · rw [issued_zero zeroOne zeroTwo]
    simp [Desc.linked,descNext]
  · rw [followZero,issued_one oneTwo]
    cases write <;> simp [Desc.linked,descNext,descWrite]
  · rw [followZero,followOne,issued_two]
    simp [Desc.linked,descNext,descWrite]
  · rw [followZero,issued_one oneTwo]
  · rw [followZero,followOne,issued_two]
  · intro d member
    rw [left] at member
    have inside := List.dropLast_subset _ member
    rw [issued_other (outside d inside)]
    refine free.tied d ?_
    have more : rest ≠ [] := by
      rintro rfl
      cases inside
    rw [list,List.dropLast_cons_of_ne_nil (by simp),List.dropLast_cons_of_ne_nil (by simp),List.dropLast_cons_of_ne_nil more]
    simp [member]

-- What free_desc gives back, and what else changes.
structure Freed (vq vq' : Virtq Buf) (d0 : U16) : Prop where
  list : freeList vq' = chain vq d0++freeList vq
  others : ∀ e ∉ chain vq d0, vq'.desc e = vq.desc e
  tied : ∀ d ∈ (freeList vq').dropLast, (vq'.desc d).linked
  count : vq'.nfree.toNat = vq.nfree.toNat+3
  rings : vq'.availRing = vq.availRing ∧ vq'.availIdx = vq.availIdx ∧ vq'.usedRing = vq.usedRing ∧
    vq'.usedIdx = vq.usedIdx ∧ vq'.lastUsedIdx = vq.lastUsedIdx
  info : vq'.info = vq.info

theorem freeLoop_filled (filled : Filled vq b d0) (nfree : U16) :
    freeLoop vq.desc nqueue nfree d0 = .ok (follow vq.desc (follow vq.desc d0),nfree+1#16+1#16+1#16) := by
  simp only [nqueue,freeLoop]
  rw [if_pos filled.first]
  change (if (vq.desc (follow vq.desc d0)).linked then _ else _) = _
  rw [if_pos filled.second]
  change (if (vq.desc (follow vq.desc (follow vq.desc d0))).linked then _ else _) = _
  rw [if_neg filled.third]
  rfl

theorem freeDesc_freed (free : FreeList vq) (filled : Filled vq b d0) (apart : ∀ e ∈ chain vq d0, e ∉ freeList vq)
    (small : vq.nfree.toNat+3 < 2^16) : ∃ vq', freeDesc vq d0 = .ok vq' ∧ Freed vq vq' d0 := by
  generalize one : follow vq.desc d0 = d1 at *
  generalize two : follow vq.desc d1 = d2 at *
  have taken : chain vq d0 = [d0,d1,d2] := by simp only [chain,walk,one,two]
  have distinct := filled.nodup
  rw [taken] at distinct apart
  simp only [List.nodup_cons,List.mem_cons,not_or,List.not_mem_nil,not_false_eq_true,and_true,List.nodup_nil] at distinct
  obtain ⟨⟨zeroOne,zeroTwo⟩,oneTwo⟩ := distinct
  have three : vq.nfree+1#16+1#16+1#16 = vq.nfree+3#16 := by rw [BitVec.add_assoc,BitVec.add_assoc]; rfl
  have count : (vq.nfree+3#16).toNat = vq.nfree.toNat+3 := by
    rw [BitVec.toNat_add]
    exact Nat.mod_eq_of_lt small
  have ran : freeLoop vq.desc nqueue vq.nfree d0 = .ok (d2,vq.nfree+3#16) := by
    rw [freeLoop_filled filled,one,two,three]
  -- The last descriptor of the request is tied to the old list, unless that is empty.
  obtain ⟨last,result,linked,onward⟩ : ∃ last : Desc Buf,
      freeDesc vq d0 = .ok { vq.setDesc d2 last with freeHead := d0, nfree := vq.nfree+3#16 } ∧ last.linked ∧
      (vq.nfree ≠ 0#16 → last.next = vq.freeHead) := by
    unfold freeDesc
    simp only [ran,bind,Except.bind]
    refine ⟨_,rfl,?_,fun some => by simp [some]⟩
    by_cases empty : vq.nfree = 0#16 <;> simp [empty,Desc.linked,descNext]
  refine ⟨_,result,?_⟩
  generalize after : ({ vq.setDesc d2 last with freeHead := d0, nfree := vq.nfree+3#16 } : Virtq Buf) = vq'
  have other : ∀ e ≠ d2, vq'.desc e = vq.desc e := by
    intro e different
    rw [← after]
    exact Function.update_of_ne different _ _
  have here : vq'.desc d2 = last := by
    rw [← after]
    exact Function.update_self _ _ _
  have followZero : follow vq'.desc d0 = d1 := by rw [follow,other d0 zeroTwo]; exact one
  have followOne : follow vq'.desc d1 = d2 := by rw [follow,other d1 oneTwo]; exact two
  have list : freeList vq' = d0::d1::d2::freeList vq := by
    have head : vq'.freeHead = d0 := by rw [← after]
    have size : vq'.nfree.toNat = vq.nfree.toNat+3 := by rw [← after]; exact count
    rw [freeList,head,size]
    simp only [walk,followZero,followOne]
    congr 3
    by_cases empty : vq.nfree = 0#16
    · rw [freeList,empty]
      rfl
    · rw [follow,here,onward empty]
      refine walk_congr fun e member => ?_
      rw [follow,other e fun same => apart d2 (by simp) (same ▸ member)]
      rfl
  refine ⟨by rw [list,taken]; rfl,?_,?_,?_,?_,?_⟩
  · intro e out
    rw [taken] at out
    exact other e fun same => out (by simp [same])
  · intro d member
    have parts : d ∈ [d0,d1,d2] ∨ d ∈ (freeList vq).dropLast := by
      rw [list] at member
      exact mem_dropLast_append [d0,d1,d2] member
    rcases parts with mine | old
    · simp only [List.mem_cons,List.not_mem_nil,or_false] at mine
      rcases mine with rfl | rfl | rfl
      · rw [other d zeroTwo]; exact filled.first
      · rw [other d oneTwo]; exact one ▸ filled.second
      · rw [here]; exact linked
    · rw [other d fun same => apart d2 (by simp) (same ▸ List.dropLast_subset _ old)]
      exact free.tied d old
  · rw [← after]; exact count
  · rw [← after]; exact ⟨rfl,rfl,rfl,rfl,rfl⟩
  · rw [← after]; rfl

end queue

section system
variable {n : Nat} {vq vq' : Virtq (Fin n)} {pcs pcs' : Fin n → Pc} {b : Fin n} {d0 : U16}

def Pc.flies : Pc → Nat
  | .idle => 0
  | .asleep _ | .woken _ => 1

-- The descriptors 0 to NQUEUE-1 are the free list and the chains of the requests in flight.
structure Sound (vq : Virtq (Fin n)) (pcs : Fin n → Pc) : Prop where
  free : FreeList vq
  filled : ∀ b d, (pcs b).head = some d → Filled vq b d
  apart : ∀ b d, (pcs b).head = some d → ∀ e ∈ chain vq d, e ∉ freeList vq
  distinct : ∀ b b' d d', b ≠ b' → (pcs b).head = some d → (pcs b').head = some d' → ∀ e ∈ chain vq d, e ∉ chain vq d'
  cover : ∀ e : U16, e.toNat < nqueue ↔ e ∈ freeList vq ∨ ∃ b d, (pcs b).head = some d ∧ e ∈ chain vq d
  count : vq.nfree.toNat+3*Runs.total Pc.flies pcs = nqueue

theorem flies_head (pc : Pc) {pc' : Pc} (same : pc'.head = pc.head) : pc'.flies = pc.flies := by
  cases pc <;> cases pc' <;> simp_all [Pc.head,Pc.flies]

theorem Sound.congr (sound : Sound vq pcs) (desc : vq'.desc = vq.desc) (freeHead : vq'.freeHead = vq.freeHead)
    (nfree : vq'.nfree = vq.nfree) (heads : ∀ u, (pcs' u).head = (pcs u).head) : Sound vq' pcs' := by
  have list : freeList vq' = freeList vq := by rw [freeList,freeList,desc,freeHead,nfree]
  have chains : ∀ d, chain vq' d = chain vq d := fun d => by rw [chain,chain,desc]
  have whole := sound.count
  refine ⟨⟨?_,?_⟩,?_,?_,?_,?_,?_⟩
  · rw [list]; exact sound.free.nodup
  · rw [list,desc]; exact sound.free.tied
  · intro u d at_
    exact (sound.filled u d (heads u ▸ at_)).congr fun e _ => by rw [desc]
  · intro u d at_
    rw [chains,list]
    exact sound.apart u d (heads u ▸ at_)
  · intro u v d d' different one two
    rw [chains,chains]
    exact sound.distinct u v d d' different (heads u ▸ one) (heads v ▸ two)
  · intro e
    simp only [list,heads,chains]
    exact sound.cover e
  · rw [nfree,Runs.total_congr fun u => flies_head _ (heads u)]
    exact whole

theorem update_head {pc : Pc} {u : Fin n} {d : U16} (at_ : ((Function.update pcs b pc) u).head = some d) :
    (u = b ∧ pc.head = some d) ∨ (u ≠ b ∧ (pcs u).head = some d) := by
  by_cases mine : u = b
  · subst mine
    rw [Function.update_self] at at_
    exact .inl ⟨rfl,at_⟩
  · rw [Function.update_of_ne mine] at at_
    exact .inr ⟨mine,at_⟩

theorem Sound.submit {pc : Pc} (sound : Sound vq pcs) (idle : pcs b = .idle) (head : pc.head = some d0)
    (made : Submitted vq vq' b d0) : Sound vq' (Function.update pcs b pc) := by
  have whole := sound.free.nodup
  rw [made.list,List.nodup_append] at whole
  obtain ⟨_,nodup,separate⟩ := whole
  have mineIn : ∀ e ∈ chain vq' d0, e ∈ freeList vq := fun e member => by
    rw [made.list]
    exact List.mem_append_left _ member
  have leftIn : ∀ e ∈ freeList vq', e ∈ freeList vq := fun e member => by
    rw [made.list]
    exact List.mem_append_right _ member
  -- The chains of the other requests have nothing of the old free list.
  have same : ∀ u d, (pcs u).head = some d → ∀ e ∈ chain vq d, vq'.desc e = vq.desc e :=
    fun u d at_ e member => made.others e fun mine => sound.apart u d at_ e member (mineIn e mine)
  have chains : ∀ u d, (pcs u).head = some d → chain vq' d = chain vq d := fun u d at_ => chain_congr (same u d at_)
  have here : (Function.update pcs b pc b).head = some d0 := by rw [Function.update_self]; exact head
  have there : ∀ u d, (pcs u).head = some d → (Function.update pcs b pc u).head = some d := by
    intro u d at_
    have other : u ≠ b := by
      rintro rfl
      rw [idle] at at_
      cases at_
    rw [Function.update_of_ne other]
    exact at_
  refine ⟨⟨nodup,made.tied⟩,?_,?_,?_,?_,?_⟩
  · intro u d at_
    rcases update_head at_ with ⟨rfl,mine⟩ | ⟨_,old⟩
    · cases head.symm.trans mine
      exact made.filled
    · exact (sound.filled u d old).congr (same u d old)
  · intro u d at_ e member inside
    rcases update_head at_ with ⟨rfl,mine⟩ | ⟨_,old⟩
    · cases head.symm.trans mine
      exact separate e member e inside rfl
    · rw [chains u d old] at member
      exact sound.apart u d old e member (leftIn e inside)
  · intro u v d d' different one two e member inside
    rcases update_head one with ⟨rfl,mine⟩ | ⟨_,old⟩
    · rcases update_head two with ⟨rfl,_⟩ | ⟨_,older⟩
      · exact different rfl
      · cases head.symm.trans mine
        rw [chains v d' older] at inside
        exact sound.apart v d' older e inside (mineIn e member)
    · rw [chains u d old] at member
      rcases update_head two with ⟨rfl,mine⟩ | ⟨_,older⟩
      · cases head.symm.trans mine
        exact sound.apart u d old e member (mineIn e inside)
      · rw [chains v d' older] at inside
        exact sound.distinct u v d d' different old older e member inside
  · intro e
    rw [sound.cover e,made.list,List.mem_append]
    constructor
    · rintro ((mine | left) | ⟨u,d,at_,member⟩)
      · exact .inr ⟨b,d0,here,mine⟩
      · exact .inl left
      · exact .inr ⟨u,d,there u d at_,by rwa [chains u d at_]⟩
    · rintro (left | ⟨u,d,at_,member⟩)
      · exact .inl (.inr left)
      · rcases update_head at_ with ⟨rfl,mine⟩ | ⟨_,old⟩
        · cases head.symm.trans mine
          exact .inl (.inl member)
        · exact .inr ⟨u,d,old,by rwa [chains u d old] at member⟩
  · have total := Runs.total_update Pc.flies pcs b pc
    have one : pc.flies = 1 := flies_head (.asleep d0) head
    rw [idle,one,show Pc.flies .idle = 0 from rfl] at total
    have before := sound.count
    have taken := made.count
    omega

theorem Sound.retire (sound : Sound vq pcs) (head : (pcs b).head = some d0) (made : Freed vq vq' d0) :
    Sound vq' (Function.update pcs b .idle) := by
  have mine := sound.filled b d0 head
  have apart := sound.apart b d0 head
  have others : ∀ u d, (Function.update pcs b .idle u).head = some d → u ≠ b ∧ (pcs u).head = some d := by
    intro u d at_
    rcases update_head at_ with ⟨_,none⟩ | old
    · cases none
    · exact old
  have same : ∀ u d, u ≠ b → (pcs u).head = some d → ∀ e ∈ chain vq d, vq'.desc e = vq.desc e :=
    fun u d other at_ e member => made.others e fun inside => sound.distinct u b d d0 other at_ head e member inside
  have chains : ∀ u d, u ≠ b → (pcs u).head = some d → chain vq' d = chain vq d :=
    fun u d other at_ => chain_congr (same u d other at_)
  refine ⟨⟨?_,made.tied⟩,?_,?_,?_,?_,?_⟩
  · rw [made.list,List.nodup_append]
    exact ⟨mine.nodup,sound.free.nodup,fun e member e' inside equal => apart e member (equal ▸ inside)⟩
  · intro u d at_
    obtain ⟨other,old⟩ := others u d at_
    exact (sound.filled u d old).congr (same u d other old)
  · intro u d at_ e member inside
    obtain ⟨other,old⟩ := others u d at_
    rw [chains u d other old] at member
    rw [made.list,List.mem_append] at inside
    rcases inside with inside | inside
    · exact sound.distinct u b d d0 other old head e member inside
    · exact sound.apart u d old e member inside
  · intro u v d d' different one two e member inside
    obtain ⟨other,old⟩ := others u d one
    obtain ⟨another,older⟩ := others v d' two
    rw [chains u d other old] at member
    rw [chains v d' another older] at inside
    exact sound.distinct u v d d' different old older e member inside
  · intro e
    rw [sound.cover e,made.list,List.mem_append]
    constructor
    · rintro (left | ⟨u,d,at_,member⟩)
      · exact .inl (.inr left)
      · by_cases own : u = b
        · subst own
          cases head.symm.trans at_
          exact .inl (.inl member)
        · exact .inr ⟨u,d,by rwa [Function.update_of_ne own],by rwa [chains u d own at_]⟩
    · rintro ((member | left) | ⟨u,d,at_,member⟩)
      · exact .inr ⟨b,d0,head,member⟩
      · exact .inl left
      · obtain ⟨other,old⟩ := others u d at_
        exact .inr ⟨u,d,old,by rwa [chains u d other old] at member⟩
  · have total := Runs.total_update Pc.flies pcs b .idle
    have one : (pcs b).flies = 1 := flies_head (.asleep d0) head
    rw [one,show Pc.flies .idle = 0 from rfl] at total
    have before := sound.count
    have given := made.count
    omega

theorem head_mem_chain (vq : Virtq (Fin n)) (d : U16) : d ∈ chain vq d := by simp [chain,walk]

theorem Sound.owner (sound : Sound vq pcs) {b b' : Fin n} {d : U16} (one : (pcs b).head = some d)
    (two : (pcs b').head = some d) :
    b = b' := by
  by_contra different
  exact sound.distinct b b' d d different one two d (head_mem_chain vq d) (head_mem_chain vq d)

theorem Sound.head_small (sound : Sound vq pcs) (head : (pcs b).head = some d0) : d0.toNat < nqueue :=
  (sound.cover d0).mpr (.inr ⟨b,d0,head,head_mem_chain vq d0⟩)

theorem Sound.retireRw (sound : Sound vq pcs) (d0 : U16) (head : (pcs b).head = some d0) :
    ∃ vq', retireRw vq d0 = .ok vq' ∧ Freed (vq.setInfo d0 { vq.info d0 with done := 0 }) vq' d0 := by
  have moved : Sound (vq.setInfo d0 { vq.info d0 with done := 0 }) pcs := sound.congr rfl rfl rfl fun _ => rfl
  refine freeDesc_freed moved.free (moved.filled b d0 head) (moved.apart b d0 head) ?_
  have count := moved.count
  have size : nqueue = 16 := rfl
  omega

theorem submitRw_few (few : vq.nfree.toNat < 3) (b : Fin n) (write : Bool) (blockNo : U32) :
    submitRw vq b write blockNo = .error .panic := by
  have zero : ∀ x : Virtq (Fin n), x.nfree = 0#16 → allocDesc x = .error .panic := fun x none => if_pos none
  have values : vq.nfree = 0#16 ∨ vq.nfree = 1#16 ∨ vq.nfree = 2#16 := by
    have cases : vq.nfree.toNat = 0 ∨ vq.nfree.toNat = 1 ∨ vq.nfree.toNat = 2 := by omega
    rcases cases with size | size | size
    · exact .inl (BitVec.eq_of_toNat_eq size)
    · exact .inr (.inl (BitVec.eq_of_toNat_eq size))
    · exact .inr (.inr (BitVec.eq_of_toNat_eq size))
  unfold submitRw
  rcases values with size | size | size
  · rw [zero vq size]
    rfl
  · rw [allocDesc_ok (by rw [size]; decide) vq.freeHead rfl]
    simp only [bind,Except.bind]
    rw [zero _ (by simp only [Virtq.setDesc,size]; decide)]
  · rw [allocDesc_ok (by rw [size]; decide) vq.freeHead rfl]
    simp only [bind,Except.bind]
    rw [allocDesc_ok (by simp only [Virtq.setDesc,size]; decide) _ rfl]
    simp only
    rw [zero _ (by simp only [Virtq.setDesc,size]; decide)]

theorem follow_init (Buf : Type) {k : Nat} (small : k < nqueue-1) :
    follow (virtqInit : Virtq Buf).desc (BitVec.ofNat 16 k) = BitVec.ofNat 16 (k+1) := by
  have size : nqueue = 16 := rfl
  have place : (BitVec.ofNat 16 k).toNat = k := by
    rw [BitVec.toNat_ofNat]
    omega
  simp only [follow,virtqInit]
  rw [if_pos (by rw [place]; exact small)]
  simp [BitVec.ofNat_add]

theorem walk_init (Buf : Type) (count k : Nat) (small : k+count ≤ nqueue) :
    walk (follow (virtqInit : Virtq Buf).desc) count (BitVec.ofNat 16 k) = (List.range' k count).map (BitVec.ofNat 16) := by
  induction count generalizing k with
  | zero => rfl
  | succ count ih =>
    rw [walk,List.range'_succ,List.map_cons]
    congr 1
    cases count with
    | zero => rfl
    | succ count => rw [follow_init Buf (by omega),ih (k+1) (by omega)]

theorem init_sound : Sound (virtqInit : Virtq (Fin n)) fun _ => .idle := by
  have idle : ∀ (b : Fin n) d, Pc.head .idle ≠ some d := fun b d at_ => by cases at_
  have list : freeList (virtqInit : Virtq (Fin n)) = (List.range' 0 nqueue).map (BitVec.ofNat 16) :=
    walk_init (Fin n) nqueue 0 (by decide)
  refine ⟨⟨?_,?_⟩,?_,?_,?_,?_,?_⟩
  · rw [list]
    decide
  · rw [list]
    intro d member
    have shorter : ((List.range' 0 nqueue).map (BitVec.ofNat 16)).dropLast = (List.range' 0 (nqueue-1)).map
        (BitVec.ofNat 16) := by decide
    rw [shorter] at member
    obtain ⟨k,listed,rfl⟩ := List.mem_map.mp member
    have small : (BitVec.ofNat 16 k).toNat < nqueue-1 := by
      have bound : k < nqueue-1 := by simpa using listed
      have size : nqueue = 16 := rfl
      rw [BitVec.toNat_ofNat]
      omega
    have entry : (virtqInit : Virtq (Fin n)).desc (BitVec.ofNat 16 k) = ⟨.nothing,0#32,descNext,BitVec.ofNat 16 k+1#16⟩ := if_pos small
    rw [entry]
    simp [Desc.linked,descNext]
  · exact fun b d at_ => absurd at_ (idle b d)
  · exact fun b d at_ => absurd at_ (idle b d)
  · exact fun b _ d _ _ at_ => absurd at_ (idle b d)
  · intro e
    rw [list,List.mem_map]
    constructor
    · intro small
      exact .inl ⟨e.toNat,by simpa using small,by simp⟩
    · rintro (⟨k,listed,rfl⟩ | ⟨b,d,at_,_⟩)
      · have small : k < nqueue := by simpa using listed
        have size : nqueue = 16 := rfl
        rw [BitVec.toNat_ofNat]
        omega
      · exact absurd at_ (idle b d)
  · have none : Runs.total Pc.flies (fun _ : Fin n => .idle) = 0 := Runs.total_zero fun _ => rfl
    rw [none]
    rfl

end system

end VirtioBlk
