import HonorKernel.FileOffsets
import HonorKernel.WriteThrough

-- The loop of file_write against one inode_write of the same bytes.
namespace InodeLayer
open DiskFormat CacheView
open Runs (Agrees)

-- Two states that a write to inode `p` cannot tell apart: they differ in the size and the
-- lock of `p`, in its entry of the inode table and in what has been synced.
structure Alike (sb : SuperBlock) (live : Usize → Bool) (p : Usize) (fs fs' : Fs) : Prop where
  owned : Owned sb live fs
  owned' : Owned sb live fs'
  others : ∀ q, q ≠ p → fs'.inodes q = fs.inodes q
  own : ∃ inode lock n, fs.inodes p = some inode ∧ fs'.inodes p = some {inode with lock := lock,entry := inode.entry.setNumBytes n}
  blocks : ∀ c, c ≠ toBlockNo sb p → fs'.cache.blocks c = fs.cache.blocks c
  table : ∀ e, putEntry (fs'.cache.blocks (toBlockNo sb p)) p e = putEntry (fs.cache.blocks (toBlockNo sb p)) p e

section Alike
variable {sb : SuperBlock} {live : Usize → Bool} {p : Usize} {fs fs' fs'' : Fs} {inode : Inode}

theorem Alike.refl (owned : Owned sb live fs) (found : fs.inodes p = some inode) : Alike sb live p fs fs :=
  ⟨owned,owned,fun _ _ => rfl,⟨inode,inode.lock,inode.entry.numBytes,found,found⟩,fun _ _ => rfl,fun _ => rfl⟩

theorem Alike.of_blocks (owned : Owned sb live fs) (found : fs.inodes p = some inode) (inodes : fs'.inodes = fs.inodes)
    (blocks : fs'.cache.blocks = fs.cache.blocks) : Alike sb live p fs fs' := by
  obtain ⟨⟨b,synced⟩,held⟩ := fs'
  obtain rfl : held = fs.inodes := inodes
  obtain rfl : b = fs.cache.blocks := blocks
  exact ⟨owned,⟨owned.inTable,owned.loaded,owned.low,owned.balanced⟩,fun _ _ => rfl,
      ⟨inode,inode.lock,inode.entry.numBytes,found,found⟩,fun _ _ => rfl,fun _ => rfl⟩

theorem Alike.symm (alike : Alike sb live p fs fs') : Alike sb live p fs' fs := by
  obtain ⟨inode,lock,n,found,found'⟩ := alike.own
  exact ⟨alike.owned',alike.owned,fun q other => (alike.others q other).symm,⟨_,inode.lock,inode.entry.numBytes,found',found⟩,
    fun c other => (alike.blocks c other).symm,fun e => (alike.table e).symm⟩

theorem Alike.trans (first : Alike sb live p fs fs') (second : Alike sb live p fs' fs'') : Alike sb live p fs fs'' := by
  obtain ⟨inode,lock,n,found,found'⟩ := first.own
  obtain ⟨inode',lock',n',there,found''⟩ := second.own
  cases there.symm.trans found'
  exact ⟨first.owned,second.owned',fun q other => (second.others q other).trans (first.others q other),⟨inode,lock',n',found,found''⟩,
    fun c other => (second.blocks c other).trans (first.blocks c other),fun e => (second.table e).trans (first.table e)⟩

theorem Alike.found (alike : Alike sb live p fs fs') (found : fs.inodes p = some inode) :
    ∃ lock n, fs'.inodes p = some {inode with lock := lock,entry := inode.entry.setNumBytes n} := by
  obtain ⟨other,lock,n,there,found'⟩ := alike.own
  cases there.symm.trans found
  exact ⟨lock,n,found'⟩

theorem Alike.data (alike : Alike sb live p fs fs') (layout : Layout sb) {slot : Usize × Place} {b : Usize}
    (refers : refs sb live fs slot = some b) :
    fs'.cache.blocks b = fs.cache.blocks b := by
  obtain ⟨inode,_,_,found,_⟩ := alike.own
  have inTable := alike.owned.inTable p (alike.owned.loaded p inode found).1
  exact alike.blocks b (layout.apart inTable (alike.owned.used_of_ref refers).1).1

theorem Alike.sync (alike : Alike sb live p fs fs') (layout : Layout sb) (ctx : Ctx)
    (found : fs'.inodes p = some inode) :
    Alike sb live p fs (fs'.setCache (writeEntry sb ctx fs'.cache p inode.entry)) := by
  have synced := (sync_maps layout ctx alike.owned' found).owned
  refine ⟨alike.owned,synced,alike.others,alike.own,?_,?_⟩
  · intro c other
    simp only [Fs.setCache,writeEntry,View.put_blocks,Function.update_of_ne other]
    exact alike.blocks c other
  · intro e
    simp only [Fs.setCache,writeEntry,View.put_blocks,Function.update_self]
    rw [putEntry_twice]
    exact alike.table e

theorem Alike.sync_both (alike : Alike sb live p fs fs') (layout : Layout sb) (ctx ctx' : Ctx) {inode' : Inode}
    (found : fs.inodes p = some inode) (found' : fs'.inodes p = some inode') :
    Alike sb live p (fs.setCache (writeEntry sb ctx fs.cache p inode.entry))
    (fs'.setCache (writeEntry sb ctx' fs'.cache p inode'.entry)) :=
  ((alike.sync layout ctx' found').symm.sync layout ctx found).symm

theorem Alike.put (alike : Alike sb live p fs fs') (layout : Layout sb) (k : Fin inodeMaxBlocks) {b : Usize}
    (refers : refs sb live fs (p,.file k) = some b) (refers' : refs sb live fs' (p,.file k) = some b)
    (ctx ctx' : Ctx) (d : BlockData) :
    Alike sb live p (fs.setCache (fs.cache.put ctx b d)) (fs'.setCache (fs'.cache.put ctx' b d)) := by
  obtain ⟨inode,lock,n,found,found'⟩ := alike.own
  have inTable := alike.owned.inTable p (alike.owned.loaded p inode found).1
  have apart := (layout.apart inTable (alike.owned.used_of_ref refers).1).1
  refine ⟨(storeData layout alike.owned found k refers ctx d).1.owned,(storeData layout alike.owned' found' k refers' ctx' d).1.owned,
    alike.others,⟨inode,lock,n,found,found'⟩,?_,?_⟩
  · intro c other
    simp only [Fs.setCache,View.put_blocks,Function.update_apply]
    rw [alike.blocks c other]
  · intro e
    simp only [Fs.setCache,View.put_blocks,Function.update_of_ne (Ne.symm apart)]
    exact alike.table e

theorem Alike.alloc (alike : Alike sb live p fs fs') (layout : Layout sb) (ctx ctx' : Ctx) :
    Agrees (fun r r' => r'.1 = r.1 ∧ Takes sb fs.cache r.1 r.2 ∧ Takes sb fs'.cache r.1 r'.2 ∧
      ∀ c, c ≠ toBlockNo sb p →
      r'.2.blocks c = r.2.blocks c) (cacheAlloc sb ctx fs.cache) (cacheAlloc sb ctx' fs'.cache) := by
  obtain ⟨inode,_,_,found,_⟩ := alike.own
  have inTable := alike.owned.inTable p (alike.owned.loaded p inode found).1
  have bitmap : fs'.cache.blocks (bitmapBlock sb) = fs.cache.blocks (bitmapBlock sb) := by
    refine alike.blocks _ ?_
    intro same
    have table := (layout.tableBlock inTable).2
    rw [← same,bitmapBlock_toNat] at table
    omega
  cases left : cacheAlloc sb ctx fs.cache with
  | error fault =>
    cases right : cacheAlloc sb ctx' fs'.cache with
    | error fault' => trivial
    | ok r =>
      obtain ⟨i,searched,_⟩ := Runs.bind_ok.mp right
      rw [bitmap] at searched
      unfold cacheAlloc at left
      rw [searched] at left
      cases left
  | ok r =>
    obtain ⟨i,searched,same⟩ := Runs.bind_ok.mp left
    have right : cacheAlloc sb ctx' fs'.cache = .ok (BitVec.ofNat 64 i,(fs'.cache.put ctx' (bitmapBlock sb)
        (bitmapSet (fs'.cache.blocks (bitmapBlock sb)) i)).put ctx' (BitVec.ofNat 64 i) 0#4096) := by
      unfold cacheAlloc
      rw [bitmap,searched]
      rfl
    have takes := cacheAlloc_takes alike.owned.low left
    have takes' := cacheAlloc_takes alike.owned'.low right
    rw [right]
    cases same
    refine ⟨rfl,takes,takes',?_⟩
    intro c other
    simp only [View.put_blocks,Function.update_apply,bitmap,alike.blocks c other]

end Alike

section Mapping
variable {env : Env} {live : Usize → Bool} {p : Usize} {fs fs' : Fs}

-- What both calls of inode_map return, and the states they leave.
def BothMap (sb : SuperBlock) (live : Usize → Bool) (p : Usize) (r r' : Usize × Bool × Fs) : Prop :=
  r'.1 = r.1 ∧ Alike sb live p r.2.2 r'.2.2

theorem mapDirect_alike (layout : Layout env.sblock) (alike : Alike env.sblock live p fs fs')
    (i : Fin inodeNumDirect) (op op' : Nat) :
    Agrees (BothMap env.sblock live p) (mapDirect env (some op) p i fs) (mapDirect env (some op') p i fs') := by
  obtain ⟨inode,lock,n,found,found'⟩ := alike.own
  have inTable := alike.owned.inTable p (alike.owned.loaded p inode found).1
  simp only [mapDirect,Fs.inode_ok.mpr found,Fs.inode_ok.mpr found']
  change Agrees _ (if inode.entry.addrs i ≠ 0#32 then _ else _) (if inode.entry.addrs i ≠ 0#32 then _ else _)
  by_cases present : inode.entry.addrs i ≠ 0#32
  · rw [if_pos present,if_pos present]
    exact ⟨rfl,alike⟩
  · have absent : inode.entry.addrs i = 0#32 := not_not.mp present
    rw [if_neg present,if_neg present,if_neg (by simp),if_neg (by simp)]
    refine (alike.alloc layout (some op) (some op')).bind ?_
    rintro ⟨b,v⟩ ⟨b',v'⟩ ⟨rfl,takes,takes',blocks⟩
    have maps := (takes.claim_direct layout alike.owned found i absent).1
    have maps' := (takes'.claim_direct layout alike.owned' found' i absent).1
    have between : Alike env.sblock live p ((fs.setCache v).setEntry p inode (inode.entry.setAddr i (b'.setWidth 32)))
        ((fs'.setCache v').setEntry p {inode with lock := lock,entry := inode.entry.setNumBytes n}
            ((inode.entry.setNumBytes n).setAddr i (b'.setWidth 32))) := by
      refine ⟨maps.owned,maps'.owned,?_,⟨_,lock,n,Function.update_self _ _ _,Function.update_self _ _ _⟩,blocks,?_⟩
      · intro q other
        simp only [Fs.setEntry,Fs.setInode,Fs.setCache,Function.update_of_ne other]
        exact alike.others q other
      · intro e
        change putEntry (v'.blocks _) p e = putEntry (v.blocks _) p e
        rw [takes.table layout inTable,takes'.table layout inTable]
        exact alike.table e
    simp only
    rw [inodeSync_write env between.owned (Function.update_self _ _ _),inodeSync_write env between.owned' (Function.update_self _ _ _)]
    exact ⟨rfl,between.sync_both layout (some op) (some op') (Function.update_self _ _ _) (Function.update_self _ _ _)⟩

theorem needIndirect_alike (layout : Layout env.sblock) (alike : Alike env.sblock live p fs fs') (ctx ctx' : Ctx) :
    Agrees (fun r r' => r'.1 = r.1 ∧ Alike env.sblock live p r.2 r'.2 ∧ ∃ inode, r.2.inodes p = some inode ∧
    inode.entry.indirect ≠ 0#32 ∧ r.1 = inode.entry.indirect.setWidth 64)
      (needIndirect env ctx p fs) (needIndirect env ctx' p fs') := by
  obtain ⟨inode,lock,n,found,found'⟩ := alike.own
  have inTable := alike.owned.inTable p (alike.owned.loaded p inode found).1
  simp only [needIndirect,Fs.inode_ok.mpr found,Fs.inode_ok.mpr found']
  change Agrees _ (if inode.entry.indirect = 0#32 then _ else _) (if inode.entry.indirect = 0#32 then _ else _)
  by_cases absent : inode.entry.indirect = 0#32
  · rw [if_pos absent,if_pos absent]
    refine (alike.alloc layout ctx ctx').bind ?_
    rintro ⟨b,v⟩ ⟨b',v'⟩ ⟨rfl,takes,takes',blocks⟩
    have maps := takes.claim_indirect layout alike.owned found absent
    have maps' := takes'.claim_indirect layout alike.owned' found' absent
    refine ⟨rfl,⟨maps.owned,maps'.owned,?_,⟨_,lock,n,Function.update_self _ _ _,Function.update_self _ _ _⟩,blocks,?_⟩,
      _,Function.update_self _ _ _,(dataBlock_narrow layout takes.inData).2,rfl⟩
    · intro q other
      simp only [Fs.setEntry,Fs.setInode,Fs.setCache,Function.update_of_ne other]
      exact alike.others q other
    · intro e
      change putEntry (v'.blocks _) p e = putEntry (v.blocks _) p e
      rw [takes.table layout inTable,takes'.table layout inTable]
      exact alike.table e
  · rw [if_neg absent,if_neg absent]
    exact ⟨rfl,alike,inode,found,absent,rfl⟩

theorem mapEntry_alike (layout : Layout env.sblock) (alike : Alike env.sblock live p fs fs') {inode : Inode}
    (found : fs.inodes p = some inode) (present : inode.entry.indirect ≠ 0#32) (i : Nat) (op op' : Nat) :
    Agrees (BothMap env.sblock live p)
      (mapEntry env (some op) p (inode.entry.indirect.setWidth 64) i fs)
      (mapEntry env (some op') p (inode.entry.indirect.setWidth 64) i fs') := by
  obtain ⟨lock,n,found'⟩ := alike.found found
  have inTable := alike.owned.inTable p (alike.owned.loaded p inode found).1
  have refers := alike.owned.own_indirect found present
  have apart := (layout.apart inTable (alike.owned.used_of_ref refers).1).1
  have indirect := alike.data layout refers
  unfold mapEntry
  rw [indirect]
  by_cases outside : inodeNumIndirect ≤ i
  · rw [if_pos outside,if_pos outside]
    trivial
  · rw [if_neg outside,if_neg outside]
    by_cases mapped : getAddr (fs.cache.blocks (inode.entry.indirect.setWidth 64)) i ≠ 0#32
    · rw [if_pos mapped,if_pos mapped]
      exact ⟨rfl,alike⟩
    · have absent : getAddr (fs.cache.blocks (inode.entry.indirect.setWidth 64)) i = 0#32 := not_not.mp mapped
      rw [if_neg mapped,if_neg mapped,if_neg (by simp),if_neg (by simp)]
      refine (alike.alloc layout (some op) (some op')).bind ?_
      rintro ⟨b,v⟩ ⟨b',v'⟩ ⟨rfl,takes,takes',blocks⟩
      have small : i < inodeNumIndirect := by omega
      have maps := (takes.claim_entry layout alike.owned found present ⟨i,small⟩ absent).1
      have maps' := (takes'.claim_entry layout alike.owned' found' present ⟨i,small⟩
        (show getAddr (fs'.cache.blocks (inode.entry.indirect.setWidth 64)) i = 0#32 by rw [indirect]; exact absent)).1
      have between : Alike env.sblock live p
          (fs.setCache (v.store (inode.entry.indirect.setWidth 64)
              (putAddr (v.blocks (inode.entry.indirect.setWidth 64)) i (b'.setWidth 32))))
          (fs'.setCache (v'.store (inode.entry.indirect.setWidth 64)
              (putAddr (v'.blocks (inode.entry.indirect.setWidth 64)) i (b'.setWidth 32)))) := by
        refine ⟨maps.owned,maps'.owned,alike.others,alike.own,?_,?_⟩
        · intro c other
          have blocks : ∀ c, c ≠ toBlockNo env.sblock p → v'.blocks c = v.blocks c := blocks
          simp only [Fs.setCache,View.store_blocks,Function.update_apply,blocks _ apart]
          split
          · rfl
          · exact blocks c other
        · intro e
          simp only [Fs.setCache,View.store_blocks,Function.update_of_ne (Ne.symm apart)]
          rw [takes.table layout inTable,takes'.table layout inTable]
          exact alike.table e
      simp only [bind,Except.bind]
      rw [inodeSync_write env between.owned found,inodeSync_write env between.owned' found']
      have synced := between.sync_both layout (some op) (some op') found found'
      refine ⟨?_,synced⟩
      simp only
      rw [synced.blocks _ apart]

theorem inodeMap_alike (layout : Layout env.sblock) (alike : Alike env.sblock live p fs fs') (k op op' : Nat) :
    Agrees (BothMap env.sblock live p) (inodeMap env (some op) p k fs) (inodeMap env (some op') p k fs') := by
  unfold inodeMap
  split
  · exact mapDirect_alike layout alike _ op op'
  · refine (needIndirect_alike layout alike (some op) (some op')).bind ?_
    rintro ⟨b,one⟩ ⟨b',two⟩ ⟨rfl,between,inode,found,present,rfl⟩
    exact mapEntry_alike layout between found present _ op op'

end Mapping

section Splitting
variable {env : Env} {live : Usize → Bool} {p : Usize} {fs fs' : Fs} {inode : Inode}

-- One round of inode_write's loop.
def writeRound (env : Env) (ctx : Ctx) (p : Usize) (offset : Nat) (bytes : List Byte) (fs : Fs) : Except Fault Fs := do
  let (b,_,fs) ← inodeMap env ctx p (offset/blockSize) fs
  if b = 0#64 then .error .assertion
  else .ok (fs.setCache (fs.cache.put ctx b (setBytes (fs.cache.blocks b) (offset%blockSize) bytes)))

def roundSize (offset : Nat) (src : List Byte) : Nat := min (blockSize-offset%blockSize) src.length

theorem writeLoop_rounds (ctx : Ctx) (fuel offset : Nat) (src : List Byte) (some_bytes : src ≠ []) :
    writeLoop env ctx p (fuel+1) offset src fs =
    (writeRound env ctx p offset (src.take (roundSize offset src)) fs >>= writeLoop env ctx p fuel
        (offset+roundSize offset src) (src.drop (roundSize offset src))) := by
  rw [writeLoop,if_neg some_bytes,writeRound]
  cases inodeMap env ctx p (offset/blockSize) fs with
  | error fault => rfl
  | ok r =>
    simp only [bind,Except.bind]
    split <;> rfl

theorem writeLoop_nothing (ctx : Ctx) (fuel offset : Nat) : writeLoop env ctx p fuel offset [] fs = .ok fs := by
  cases fuel with
  | zero => rfl
  | succ fuel => rw [writeLoop,if_pos rfl]

theorem writeRound_found (layout : Layout env.sblock) (owned : Owned env.sblock live fs)
    (found : fs.inodes p = some inode) {ctx : Ctx} {offset : Nat} {bytes : List Byte}
    (ran : writeRound env ctx p offset bytes fs = .ok fs') : Owned env.sblock live fs' ∧
      ∃ inode' b, fs'.inodes p = some inode' ∧ fileBlock fs'.cache inode'.entry (offset/blockSize) = some b := by
  obtain ⟨⟨b,flag,middle⟩,mapped,ran⟩ := Runs.bind_ok.mp ran
  simp only at ran
  split at ran
  · cases ran
  · rename_i nonzero
    cases ran
    obtain ⟨maps,small,refers⟩ := inodeMap_maps layout owned found mapped
    obtain ⟨addrs,indirect,found'⟩ := maps.found
    obtain ⟨works,kept⟩ := storeData layout maps.owned found' ⟨_,small⟩ (refers nonzero) ctx
        (setBytes (middle.cache.blocks b) (offset%blockSize) bytes)
    refine ⟨works.owned,_,b,found',?_⟩
    refine (fileBlock_iff works.owned found' _ b).mpr ⟨small,?_⟩
    rw [kept]
    exact refers nonzero

theorem writeRound_alike (layout : Layout env.sblock) (alike : Alike env.sblock live p fs fs') (offset : Nat)
    (bytes : List Byte) (op op' : Nat) :
    Agrees (Alike env.sblock live p) (writeRound env (some op) p offset bytes fs)
    (writeRound env (some op') p offset bytes fs') := by
  obtain ⟨inode,lock,n,found,found'⟩ := alike.own
  have both := inodeMap_alike layout alike (offset/blockSize) op op'
  unfold writeRound
  cases left : inodeMap env (some op) p (offset/blockSize) fs with
  | error fault =>
    cases right : inodeMap env (some op') p (offset/blockSize) fs' with
    | error fault' => trivial
    | ok r => rw [left,right] at both; exact both.elim
  | ok r =>
    rw [left] at both
    obtain ⟨r',right,same,between⟩ := both.ok_left
    obtain ⟨b,flag,one⟩ := r
    obtain ⟨b',flag',two⟩ := r'
    cases same
    rw [right]
    simp only [bind,Except.bind]
    by_cases zero : b = 0#64
    · rw [if_pos zero,if_pos zero]
      trivial
    · rw [if_neg zero,if_neg zero]
      obtain ⟨_,small,refers⟩ := inodeMap_maps layout alike.owned found left
      obtain ⟨_,_,refers'⟩ := inodeMap_maps layout alike.owned' found' right
      have data := between.data layout (refers zero)
      have stored := between.put layout ⟨_,small⟩ (refers zero) (refers' zero) (some op) (some op')
        (setBytes (one.cache.blocks b) (offset%blockSize) bytes)
      change Alike env.sblock live p _
          (two.setCache (two.cache.put (some op') b (setBytes (two.cache.blocks b) (offset%blockSize) bytes)))
      rw [data]
      exact stored

theorem writeLoop_alike (layout : Layout env.sblock) (alike : Alike env.sblock live p fs fs')
    (fuel fuel' offset : Nat) (src : List Byte) (enough : src.length ≤ fuel) (enough' : src.length ≤ fuel')
    (op op' : Nat) :
    Agrees (Alike env.sblock live p) (writeLoop env (some op) p fuel offset src fs)
    (writeLoop env (some op') p fuel' offset src fs') := by
  induction fuel generalizing fuel' offset src fs fs' with
  | zero =>
    have nothing : src = [] := List.length_eq_zero_iff.mp (by omega)
    subst nothing
    rw [writeLoop_nothing,writeLoop_nothing]
    exact alike
  | succ fuel ih =>
    by_cases some_bytes : src = []
    · subst some_bytes
      rw [writeLoop_nothing,writeLoop_nothing]
      exact alike
    · have positive := List.length_pos_iff.mpr some_bytes
      obtain ⟨fuel'',rfl⟩ : ∃ m, fuel' = m+1 := ⟨fuel'-1,by omega⟩
      have progress : 0 < roundSize offset src := by
        unfold roundSize blockSize
        omega
      rw [writeLoop_rounds _ _ _ _ some_bytes,writeLoop_rounds _ _ _ _ some_bytes]
      refine (writeRound_alike layout alike offset _ op op').bind ?_
      intro one two between
      refine ih between fuel'' _ _ ?_ ?_ <;>
        (rw [List.length_drop]; omega)

theorem setBytes_append (d : BitVec n) (k : Nat) (one two : List Byte) :
    setBytes d k (one++two) = setBytes (setBytes d k one) (k+one.length) two := by
  induction one generalizing d k with
  | nil => rfl
  | cons b rest ih =>
    rw [List.cons_append,setBytes,setBytes,ih,List.length_cons]
    congr 1
    omega

theorem writeRound_join (layout : Layout env.sblock) (owned : Owned env.sblock live fs)
    (found : fs.inodes p = some inode) (offset : Nat) (one two : List Byte) (op : Nat)
    (inside : offset%blockSize+one.length+two.length ≤ blockSize) (some_bytes : two ≠ []) :
    Agrees (Alike env.sblock live p) (writeRound env (some op) p offset (one++two) fs)
      (writeRound env (some op) p offset one fs >>= writeRound env (some op) p (offset+one.length) two) := by
  have positive := List.length_pos_iff.mpr some_bytes
  have block : (offset+one.length)/blockSize = offset/blockSize := by unfold blockSize at *; omega
  have place : (offset+one.length)%blockSize = offset%blockSize+one.length := by unfold blockSize at *; omega
  cases left : writeRound env (some op) p offset (one++two) fs with
  | error fault =>
    have fails : ∃ fault, writeRound env (some op) p offset one fs = .error fault := by
      unfold writeRound at left ⊢
      cases mapping : inodeMap env (some op) p (offset/blockSize) fs with
      | error fault => exact ⟨fault,rfl⟩
      | ok r =>
        rw [mapping] at left
        simp only [bind,Except.bind] at left ⊢
        split at left
        · rename_i zero
          rw [if_pos zero]
          exact ⟨_,rfl⟩
        · cases left
    obtain ⟨fault',fails⟩ := fails
    rw [fails]
    trivial
  | ok last =>
    obtain ⟨⟨b,flag,middle⟩,mapped,ran⟩ := Runs.bind_ok.mp left
    simp only at ran
    split at ran
    · cases ran
    · rename_i nonzero
      cases ran
      have first : writeRound env (some op) p offset one fs = .ok (middle.setCache (middle.cache.put (some op) b
          (setBytes (middle.cache.blocks b) (offset%blockSize) one))) := by
        unfold writeRound
        rw [mapped]
        simp only [bind,Except.bind]
        rw [if_neg nonzero]
      obtain ⟨owned₁,inode',b',found₁,there⟩ := writeRound_found layout owned found first
      obtain ⟨maps,small,refers⟩ := inodeMap_maps layout owned found mapped
      have same : b' = b := by
        obtain ⟨_,refers'⟩ := (fileBlock_iff owned₁ found₁ _ b').mp there
        obtain ⟨addrs,indirect,found'⟩ := maps.found
        obtain ⟨_,kept⟩ := storeData layout maps.owned found' ⟨_,small⟩ (refers nonzero) (some op)
            (setBytes (middle.cache.blocks b) (offset%blockSize) one)
        rw [kept,refers nonzero] at refers'
        exact (Option.some.inj refers').symm
      subst same
      have second : writeRound env (some op) p (offset+one.length) two (middle.setCache (middle.cache.put (some op) b'
          (setBytes (middle.cache.blocks b') (offset%blockSize) one))) = .ok (((middle.setCache (middle.cache.put (some op) b'
          (setBytes (middle.cache.blocks b') (offset%blockSize) one))).setCache ((middle.cache.put (some op) b'
          (setBytes (middle.cache.blocks b') (offset%blockSize) one)).put (some op) b'
            (setBytes (setBytes (middle.cache.blocks b') (offset%blockSize) one) (offset%blockSize+one.length) two)))) := by
        unfold writeRound
        rw [block,fileBlock_mapped found₁ there,place]
        simp only [bind,Except.bind]
        rw [if_neg nonzero]
        simp [Fs.setCache]
      rw [first]
      change Agrees _ (Except.ok _) (writeRound env (some op) p (offset+one.length) two _)
      rw [second]
      obtain ⟨addrs,indirect,found'⟩ := maps.found
      have owned₂ := (storeData layout maps.owned found' ⟨_,small⟩ (refers nonzero) (some op)
          (setBytes (middle.cache.blocks b') (offset%blockSize) (one++two))).1.owned
      refine Alike.of_blocks owned₂ found' rfl ?_
      simp only [Fs.setCache,View.put_blocks,Function.update_idem,setBytes_append]

-- The loop over two pieces is the loop over the first and then over the second.
theorem writeLoop_append (layout : Layout env.sblock) (fuel one_fuel two_fuel offset : Nat) (one two : List Byte)
    (op : Nat) (owned : Owned env.sblock live fs) (found : fs.inodes p = some inode)
    (enough : one.length+two.length ≤ fuel) (enough₁ : one.length ≤ one_fuel) (enough₂ : two.length ≤ two_fuel) :
    Agrees (Alike env.sblock live p) (writeLoop env (some op) p fuel offset (one++two) fs)
      (writeLoop env (some op) p one_fuel offset one fs >>= writeLoop env (some op) p two_fuel (offset+one.length) two) := by
  induction fuel generalizing one_fuel offset one fs inode with
  | zero =>
    have nothing : one = [] := List.length_eq_zero_iff.mp (by omega)
    subst nothing
    rw [writeLoop_nothing]
    exact writeLoop_alike layout (.refl owned found) 0 two_fuel offset two (by simpa using enough) enough₂ op op
  | succ fuel ih =>
    by_cases nothing : one = []
    · subst nothing
      rw [writeLoop_nothing]
      exact writeLoop_alike layout (.refl owned found) _ two_fuel offset two (by simpa using enough) enough₂ op op
    · have positive := List.length_pos_iff.mpr nothing
      obtain ⟨fuel₁,rfl⟩ : ∃ m, one_fuel = m+1 := ⟨one_fuel-1,by omega⟩
      have some_bytes : one++two ≠ [] := by simp [nothing]
      rw [writeLoop_rounds _ _ _ _ some_bytes,writeLoop_rounds _ _ _ _ nothing]
      by_cases whole : blockSize-offset%blockSize ≤ one.length
      · -- The first piece fills its block: the same round on both sides.
        have first : roundSize offset (one++two) = blockSize-offset%blockSize := by
          unfold roundSize
          rw [List.length_append]
          omega
        have again : roundSize offset one = blockSize-offset%blockSize := by
          unfold roundSize
          omega
        have step : 0 < blockSize-offset%blockSize := by unfold blockSize; omega
        rw [first,again,List.take_append_of_le_length whole,List.drop_append_of_le_length whole]
        cases round : writeRound env (some op) p offset (one.take (blockSize-offset%blockSize)) fs with
        | error fault => trivial
        | ok middle =>
          obtain ⟨owned',inode',_,found',_⟩ := writeRound_found layout owned found round
          have rest := ih fuel₁ (offset+(blockSize-offset%blockSize)) (one.drop (blockSize-offset%blockSize)) owned' found'
            (by rw [List.length_drop]; omega) (by rw [List.length_drop]; omega)
          have shift : offset+(blockSize-offset%blockSize)+(one.drop (blockSize-offset%blockSize)).length = offset+one.length := by
            rw [List.length_drop]
            omega
          rw [shift] at rest
          exact rest
      · -- It ends inside a block, where the second piece goes on.
        have all : roundSize offset one = one.length := by
          unfold roundSize
          omega
        rw [all,List.take_length,List.drop_length]
        by_cases ended : two = []
        · subst ended
          rw [List.append_nil,all,List.take_length,List.drop_length]
          cases round : writeRound env (some op) p offset one fs with
          | error fault => trivial
          | ok middle =>
            obtain ⟨owned',inode',_,found',_⟩ := writeRound_found layout owned found round
            simp only [bind,Except.bind,writeLoop_nothing]
            exact .refl owned' found'
        · have more := List.length_pos_iff.mpr ended
          obtain ⟨fuel₂,rfl⟩ : ∃ m, two_fuel = m+1 := ⟨two_fuel-1,by omega⟩
          have parts : roundSize offset (one++two) = one.length+roundSize (offset+one.length) two := by
            unfold roundSize
            rw [List.length_append]
            unfold blockSize at *
            omega
          have within : offset%blockSize+one.length+(two.take (roundSize (offset+one.length) two)).length ≤ blockSize := by
            rw [List.length_take]
            unfold roundSize blockSize at *
            omega
          have nonempty : two.take (roundSize (offset+one.length) two) ≠ [] := by
            rw [← List.length_pos_iff,List.length_take]
            unfold roundSize blockSize at *
            omega
          have joined := writeRound_join layout owned found offset one
              (two.take (roundSize (offset+one.length) two)) op within nonempty
          rw [parts,List.take_length_add_append,List.drop_length_add_append,← Nat.add_assoc]
          have rest := joined.bind (S := Alike env.sblock live p) fun a b between =>
            writeLoop_alike layout between fuel fuel₂ (offset+one.length+roundSize (offset+one.length) two)
                (two.drop (roundSize (offset+one.length) two))
              (by rw [List.length_drop]; omega) (by rw [List.length_drop]; unfold roundSize blockSize at *; omega) op op
          refine rest.trans ?_ fun _ _ _ => Alike.trans
          cases round : writeRound env (some op) p offset one fs with
          | error fault => trivial
          | ok middle =>
            obtain ⟨owned',inode',_,found',_⟩ := writeRound_found layout owned found round
            have same : writeLoop env (some op) p (fuel₂+1) (offset+one.length) two middle = _ :=
              writeLoop_rounds (some op) fuel₂ (offset+one.length) two ended
            change Agrees _ (writeRound env (some op) p (offset+one.length)
                (two.take (roundSize (offset+one.length) two)) middle >>= _)
              (writeLoop env (some op) p fuel₁ (offset+one.length) [] middle >>= _)
            rw [writeLoop_nothing]
            change Agrees _ _ (writeLoop env (some op) p (fuel₂+1) (offset+one.length) two middle)
            rw [← same]
            exact writeLoop_alike layout (.refl owned' found') _ _ _ _ enough₂ enough₂ op op

end Splitting

section Whole
variable {env : Env} {live : Usize → Bool} {p : Usize} {fs fs' : Fs} {inode : Inode}

-- What is left of an inode but for its blocks.
structure Resized (inode : Inode) (size : Nat) (inode' : Inode) : Prop where
  size : inode'.entry.numBytes.toNat = size
  lock : inode'.lock = inode.lock
  rc : inode'.rc = inode.rc
  type : inode'.entry.type = inode.entry.type

-- The returned number, the state beside that of the loop alone, and the new size.
def LoopResult (sb : SuperBlock) (live : Usize → Bool) (p : Usize) (inode : Inode) (size : Nat) (n : Usize) (r : Usize × Fs) (fs' : Fs) : Prop :=
  r.1 = n ∧ Alike sb live p r.2 fs' ∧ ∃ inode', r.2.inodes p = some inode' ∧ Resized inode size inode'

theorem setInode_alike (alike : Alike env.sblock live p fs fs') (found : fs.inodes p = some inode)
    (lock : Semaphores.Semaphore) (n : U32) :
    Alike env.sblock live p (fs.setInode p {inode with lock := lock,entry := inode.entry.setNumBytes n}) fs' := by
  obtain ⟨lock',n',found'⟩ := alike.found found
  obtain ⟨owned,_⟩ := setInode_owned alike.owned found {inode with lock := lock,entry := inode.entry.setNumBytes n} rfl rfl rfl rfl
  refine ⟨owned,alike.owned',?_,⟨_,lock',n',Function.update_self _ _ _,found'⟩,alike.blocks,alike.table⟩
  intro q other
  simp only [Fs.setInode,Function.update_of_ne other]
  exact alike.others q other

theorem growTo_alike (layout : Layout env.sblock) (alike : Alike env.sblock live p fs fs')
    (found : fs.inodes p = some inode) (last : Usize) (small : last.toNat < 2^32) (op : Nat) :
    ∃ middle n, growTo env (some op) p inode last fs = .ok middle ∧ Alike env.sblock live p middle fs' ∧
      middle.inodes p = some {inode with entry := inode.entry.setNumBytes n} ∧
          n.toNat = max inode.entry.numBytes.toNat last.toNat := by
  have wide : (inode.entry.numBytes.setWidth 64).toNat = inode.entry.numBytes.toNat := by
    rw [BitVec.toNat_setWidth,Nat.mod_eq_of_lt (by omega)]
  unfold growTo
  split
  · rename_i past
    rw [BitVec.lt_def,wide] at past
    have longer : Alike env.sblock live p (fs.setEntry p inode (inode.entry.setNumBytes (last.setWidth 32))) fs' :=
      setInode_alike alike found inode.lock (last.setWidth 32)
    have found' : (fs.setEntry p inode (inode.entry.setNumBytes (last.setWidth 32))).inodes p =
        some {inode with entry := inode.entry.setNumBytes (last.setWidth 32)} := Function.update_self _ _ _
    have synced := (longer.symm.sync layout (some op) found').symm
    rw [inodeSync_write env longer.owned found']
    refine ⟨_,_,rfl,synced,found',?_⟩
    rw [BitVec.toNat_setWidth,Nat.mod_eq_of_lt small]
    omega
  · rename_i within
    rw [BitVec.lt_def,wide] at within
    exact ⟨fs,inode.entry.numBytes,rfl,alike,found,by omega⟩

theorem inodeWrite_loop (layout : Layout env.sblock) (alike : Alike env.sblock live p fs fs')
    (found : fs.inodes p = some inode) (file : inode.entry.type ≠ inodeDevice) (src : List Byte) (offset : Usize)
    (starts : offset.toNat ≤ inode.entry.numBytes.toNat) (fits : offset.toNat+src.length ≤ inodeMaxBytes)
    (op op' : Nat) :
    Agrees (LoopResult env.sblock live p inode (max inode.entry.numBytes.toNat (offset.toNat+src.length)) (BitVec.ofNat 64 src.length))
      (inodeWrite env (some op) p src offset fs) (writeLoop env (some op') p src.length offset.toNat src fs') := by
  have bound : inodeMaxBytes = 71680 := rfl
  obtain ⟨ends,inside⟩ := write_bounds inode.entry.numBytes offset src fits
  have asserted : offset ≤ inode.entry.numBytes.setWidth 64 ∧ (offset+BitVec.ofNat 64 src.length).toNat ≤ inodeMaxBytes ∧
      offset ≤ offset+BitVec.ofNat 64 src.length := by
    refine ⟨inside.mpr starts,by rw [ends]; exact fits,?_⟩
    rw [BitVec.le_def,ends]
    omega
  obtain ⟨middle,n,grown,between,found',size⟩ := growTo_alike layout alike found (offset+BitVec.ofNat 64 src.length) (by omega) op
  rw [ends] at size
  unfold inodeWrite
  simp only [Fs.inode_ok.mpr found,bind,Except.bind]
  rw [if_neg file,if_pos asserted,grown]
  simp only
  have loops := writeLoop_alike layout between src.length src.length offset.toNat src (Nat.le_refl _) (Nat.le_refl _) op op'
  cases left : writeLoop env (some op) p src.length offset.toNat src middle with
  | error fault =>
    rw [left] at loops
    cases right : writeLoop env (some op') p src.length offset.toNat src fs' with
    | error fault' => trivial
    | ok last => rw [right] at loops; exact loops.elim
  | ok last =>
    rw [left] at loops
    obtain ⟨last',right,after⟩ := loops.ok_left
    obtain ⟨addrs,indirect,there⟩ := writeLoop_found layout _ between.owned found' left
    rw [right]
    exact ⟨rfl,after,_,there,size,rfl,rfl,rfl⟩

end Whole

end InodeLayer

namespace SysFile
open DiskFormat CacheView InodeLayer
open Runs (Agrees)

section Chunks
variable {env : Env} {live : Usize → Bool} {p : Usize} {fs fs' : Fs} {inode : Inode}

theorem writeChunk_loop (layout : Layout env.sblock) (alike : Alike env.sblock live p fs fs')
    (found : fs.inodes p = some inode) (file : inode.entry.type ≠ inodeDevice) (free : inode.lock = ⟨1,[]⟩)
    (held : 0 < inode.rc) (src : List Byte) (offset : Usize) (starts : offset.toNat ≤ inode.entry.numBytes.toNat)
    (fits : offset.toNat+src.length ≤ inodeMaxBytes) (op op' : Nat) :
    Agrees (LoopResult env.sblock live p inode (max inode.entry.numBytes.toNat (offset.toNat+src.length)) (BitVec.ofNat 64 src.length))
      (SysFile.writeChunk env (some op) p src offset fs)
      (writeLoop env (some op') p src.length offset.toNat src fs') := by
  have locked : inodeLock p fs = .ok (fs.setInode p {inode with lock := ⟨0,[]⟩}) := by
    simp [inodeLock,Fs.inode_ok.mpr found,bind,Except.bind,free,not_le.mpr held]
  have between := setInode_alike alike found ⟨0,[]⟩ inode.entry.numBytes
  have there : (fs.setInode p {inode with lock := ⟨0,[]⟩}).inodes p = some {inode with lock := ⟨0,[]⟩} := Function.update_self _ _ _
  have whole := inodeWrite_loop layout between there file src offset starts fits op op'
  unfold SysFile.writeChunk
  rw [locked]
  change Agrees _ (inodeWrite env (some op) p src offset _ >>= _) _
  cases left : inodeWrite env (some op) p src offset (fs.setInode p {inode with lock := ⟨0,[]⟩}) with
  | error fault =>
    change Agrees _ (inodeWrite env (some op) p src offset (fs.setInode p {inode with lock := ⟨0,[]⟩})) _ at whole
    rw [left] at whole
    cases right : writeLoop env (some op') p src.length offset.toNat src fs' with
    | error fault' => trivial
    | ok last => rw [right] at whole; exact whole.elim
  | ok r =>
    change Agrees _ (inodeWrite env (some op) p src offset (fs.setInode p {inode with lock := ⟨0,[]⟩})) _ at whole
    rw [left] at whole
    obtain ⟨last,right,count,after,inode',found',resized⟩ := whole.ok_left
    obtain ⟨w,middle⟩ := r
    have unlocked : inodeUnlock p middle = .ok (middle.setInode p {inode' with lock := ⟨1,[]⟩}) := by
      have lock : inode'.lock = ⟨0,[]⟩ := resized.lock
      have rc : inode'.rc = inode.rc := resized.rc
      simp [inodeUnlock,Fs.inode_ok.mpr found',bind,Except.bind,lock,rc,not_le.mpr held]
    rw [right]
    simp only [bind,Except.bind,unlocked]
    have last := setInode_alike after found' ⟨1,[]⟩ inode'.entry.numBytes
    exact ⟨count,last,_,Function.update_self _ _ _,resized.size,free.symm,resized.rc,resized.type⟩

theorem Resized.trans {inode' inode'' : Inode} {n m : Nat} (first : Resized inode n inode')
    (second : Resized inode' m inode'') : Resized inode m inode'' :=
  ⟨second.size,second.lock.trans first.lock,second.rc.trans first.rc,second.type.trans first.type⟩

theorem fileWriteLoop_done (alike : Alike env.sblock live p fs fs') (found : fs.inodes p = some inode)
    (src : List Byte) (ended : src = []) (offset : Usize) (starts : offset.toNat ≤ inode.entry.numBytes.toNat)
    (op' : Nat) :
    Agrees (LoopResult env.sblock live p inode (max inode.entry.numBytes.toNat (offset.toNat+src.length))
        (offset+BitVec.ofNat 64 src.length))
      (.ok (offset,fs)) (writeLoop env (some op') p src.length offset.toNat src fs') := by
  subst ended
  rw [writeLoop_nothing]
  refine ⟨by simp,alike,inode,found,?_,rfl,rfl,rfl⟩
  rw [List.length_nil]
  omega

theorem fileWriteLoop_loop (layout : Layout env.sblock) (fuel : Nat) (alike : Alike env.sblock live p fs fs')
    (found : fs.inodes p = some inode) (file : inode.entry.type ≠ inodeDevice) (free : inode.lock = ⟨1,[]⟩)
    (held : 0 < inode.rc) (src : List Byte) (offset : Usize) (starts : offset.toNat ≤ inode.entry.numBytes.toNat)
    (fits : offset.toNat+src.length ≤ inodeMaxBytes) (enough : src.length ≤ fuel) (op op' : Nat) :
    Agrees (LoopResult env.sblock live p inode (max inode.entry.numBytes.toNat (offset.toNat+src.length))
        (offset+BitVec.ofNat 64 src.length))
      (fileWriteLoop env p fuel op src offset fs) (writeLoop env (some op') p src.length offset.toNat src fs') := by
  have bound : inodeMaxBytes = 71680 := rfl
  have unit : maxOpWriteN = 1536 := rfl
  induction fuel generalizing op src offset fs fs' inode with
  | zero =>
    rw [fileWriteLoop]
    exact fileWriteLoop_done alike found src (List.length_eq_zero_iff.mp (by omega)) offset starts op'
  | succ fuel ih =>
    unfold fileWriteLoop
    by_cases ended : src = []
    · rw [if_pos ended]
      exact fileWriteLoop_done alike found src ended offset starts op'
    · rw [if_neg ended]
      have positive := List.length_pos_iff.mpr ended
      have length : (src.take maxOpWriteN).length = min maxOpWriteN src.length := List.length_take
      have left : (src.drop maxOpWriteN).length = src.length-maxOpWriteN := List.length_drop
      obtain ⟨lock',n',found'⟩ := alike.found found
      have split := writeLoop_append layout src.length (src.take maxOpWriteN).length (src.drop maxOpWriteN).length offset.toNat
        (src.take maxOpWriteN) (src.drop maxOpWriteN) op' alike.owned' found' (by omega) (Nat.le_refl _) (Nat.le_refl _)
      rw [List.take_append_drop] at split
      have first := writeChunk_loop layout alike found file free held (src.take maxOpWriteN) offset starts (by omega) op op'
      refine (first.bind (S := LoopResult env.sblock live p inode
          (max inode.entry.numBytes.toNat (offset.toNat+src.length)) (offset+BitVec.ofNat 64 src.length))
        ?_).trans split.symm ?_
      · rintro ⟨w,one⟩ two ⟨count,between,inode',found',resized⟩
        have count : w = BitVec.ofNat 64 (src.take maxOpWriteN).length := count
        have number : w.toNat = (src.take maxOpWriteN).length := by
          rw [count,BitVec.toNat_ofNat]
          omega
        have dropped : src.drop w.toNat = src.drop maxOpWriteN := by
          rw [number,length]
          by_cases short : src.length ≤ maxOpWriteN
          · rw [Nat.min_eq_right short,List.drop_length,List.drop_of_length_le short]
          · rw [Nat.min_eq_left (by omega)]
        have moved : (offset+w).toNat = offset.toNat+(src.take maxOpWriteN).length := by
          rw [BitVec.toNat_add,number,Nat.mod_eq_of_lt (by omega)]
        have size := resized.size
        have rest := ih between found' (by rw [resized.type]; exact file) (resized.lock.trans free)
            (by rw [resized.rc]; exact held) (src.drop maxOpWriteN) (offset+w)
          (by omega) (by omega) (by omega) (op+1)
        simp only
        rw [dropped,← moved]
        refine rest.mono ?_
        rintro r last ⟨final,after,inode'',there,again⟩
        refine ⟨?_,after,inode'',there,?_⟩
        · apply BitVec.eq_of_toNat_eq
          rw [final,BitVec.toNat_add (offset+w),moved,BitVec.toNat_add offset,BitVec.toNat_ofNat,BitVec.toNat_ofNat]
          omega
        · have both := Resized.trans resized again
          refine ⟨?_,both.lock,both.rc,both.type⟩
          have reach := both.size
          omega
      · rintro r middle last ⟨moved,one,resized⟩ two
        exact ⟨moved,one.trans two.symm,resized⟩

-- Transactions of inode_write, one after the other.
def transactions (env : Env) (ip : Usize) : Nat → List (List Byte) → Usize → Fs → Except Fault (Usize × Fs)
  | _,[],off,fs => .ok (off,fs)
  | op,part::rest,off,fs => do
    let (w,fs) ← writeChunk env (some op) ip part off fs
    transactions env ip (op+1) rest (off+w) fs

theorem writeChunk_count {ctx : Ctx} {src : List Byte} {offset w : Usize}
    (ran : SysFile.writeChunk env ctx p src offset fs = .ok (w,fs')) :
    w = BitVec.ofNat 64 src.length := by
  obtain ⟨one,_,ran⟩ := Runs.bind_ok.mp ran
  obtain ⟨⟨n,two⟩,written,ran⟩ := Runs.bind_ok.mp ran
  obtain ⟨three,_,ran⟩ := Runs.bind_ok.mp ran
  cases ran
  obtain ⟨inode,_,written⟩ := Runs.bind_ok.mp written
  simp only at written
  split at written
  · split at written
    · obtain ⟨_,_,written⟩ := Runs.bind_ok.mp written
      obtain ⟨_,_,written⟩ := Runs.bind_ok.mp written
      cases written
      rfl
    · cases written
  · split at written
    · obtain ⟨_,_,written⟩ := Runs.bind_ok.mp written
      obtain ⟨_,_,written⟩ := Runs.bind_ok.mp written
      cases written
      rfl
    · cases written

theorem fileWriteLoop_transactions (fuel op : Nat) (src : List Byte) (offset : Usize) (fs : Fs)
    (enough : src.length ≤ fuel) : ∃ parts : List (List Byte), parts.flatten = src ∧
    (∀ part ∈ parts, part.length ≤ maxOpWriteN) ∧
    fileWriteLoop env p fuel op src offset fs = transactions env p op parts offset fs := by
  have unit : maxOpWriteN = 1536 := rfl
  induction fuel generalizing op src offset fs with
  | zero =>
    have nothing : src = [] := List.length_eq_zero_iff.mp (by omega)
    subst nothing
    exact ⟨[],rfl,fun _ member => absurd member List.not_mem_nil,rfl⟩
  | succ fuel ih =>
    unfold fileWriteLoop
    by_cases ended : src = []
    · subst ended
      exact ⟨[],rfl,fun _ member => absurd member List.not_mem_nil,rfl⟩
    · have positive := List.length_pos_iff.mpr ended
      have length : (src.take maxOpWriteN).length = min maxOpWriteN src.length := List.length_take
      have left : (src.drop maxOpWriteN).length = src.length-maxOpWriteN := List.length_drop
      rw [if_neg ended]
      cases chunk : SysFile.writeChunk env (some op) p (src.take maxOpWriteN) offset fs with
      | error fault =>
        obtain ⟨parts,whole,small,_⟩ := ih (op+1) (src.drop maxOpWriteN) offset fs (by omega)
        refine ⟨src.take maxOpWriteN::parts,by rw [List.flatten_cons,whole,List.take_append_drop],?_,?_⟩
        · intro part member
          rcases List.mem_cons.mp member with rfl | later
          · omega
          · exact small part later
        · rw [transactions,chunk]
          rfl
      | ok r =>
        obtain ⟨w,middle⟩ := r
        have count := writeChunk_count chunk
        have dropped : src.drop w.toNat = src.drop maxOpWriteN := by
          rw [count,BitVec.toNat_ofNat,length]
          by_cases short : src.length ≤ maxOpWriteN
          · rw [Nat.min_eq_right short,Nat.mod_eq_of_lt (by omega),List.drop_length,List.drop_of_length_le short]
          · rw [Nat.min_eq_left (by omega),Nat.mod_eq_of_lt (by omega)]
        obtain ⟨parts,whole,small,same⟩ := ih (op+1) (src.drop maxOpWriteN) (offset+w) middle (by omega)
        refine ⟨src.take maxOpWriteN::parts,by rw [List.flatten_cons,whole,List.take_append_drop],?_,?_⟩
        · intro part member
          rcases List.mem_cons.mp member with rfl | later
          · omega
          · exact small part later
        · rw [transactions,chunk]
          simp only [bind,Except.bind,dropped]
          exact same

-- The same inodes in memory, the same blocks but for `p`'s entry of the inode table, and
-- so the same file.
structure SameFile (sb : SuperBlock) (p : Usize) (fs fs' : Fs) : Prop where
  inodes : fs'.inodes = fs.inodes
  content : ∀ inode, fs.inodes p = some inode → InodeLayer.content fs'.cache inode.entry = InodeLayer.content fs.cache inode.entry
  blocks : ∀ c, c ≠ toBlockNo sb p → fs'.cache.blocks c = fs.cache.blocks c
  table : ∀ q, InTable sb q → q ≠ p → diskEntry sb fs'.cache q = diskEntry sb fs.cache q

theorem sameFile_of_alike {sb : SuperBlock} (alike : Alike sb live p fs fs') (layout : Layout sb) {inode' : Inode}
    (found : fs.inodes p = some inode) (found' : fs'.inodes p = some inode')
    (size : inode'.entry.numBytes = inode.entry.numBytes) (lock : inode'.lock = inode.lock) : SameFile sb p fs fs' := by
  have inTable := alike.owned.inTable p (alike.owned.loaded p inode found).1
  obtain ⟨lock',n,there⟩ := alike.found found
  have equal : inode' = inode := by
    cases there.symm.trans found'
    obtain ⟨_,_,_,_,⟨_,_,_,_,_,_,_⟩⟩ := inode
    simp only [InodeEntry.setNumBytes] at size lock ⊢
    rw [size,lock]
  refine ⟨?_,?_,alike.blocks,?_⟩
  · funext q
    by_cases here : q = p
    · rw [here,found,found',equal]
    · exact alike.others q here
  · intro other there
    cases there.symm.trans found
    have block : ∀ k, fileBlock fs'.cache inode.entry k = fileBlock fs.cache inode.entry k := by
      intro k
      unfold fileBlock
      split
      · unfold Place.file
        split
        · rfl
        · simp only [refsOf]
          split
          · rfl
          · rename_i present
            rw [alike.data layout (alike.owned.own_indirect found present)]
      · rfl
    funext x
    have byte : fileByte fs'.cache inode.entry x = fileByte fs.cache inode.entry x := by
      unfold fileByte
      rw [block]
      cases mapped : fileBlock fs.cache inode.entry (x/blockSize) with
      | none => rfl
      | some b =>
        obtain ⟨_,refers⟩ := (fileBlock_iff alike.owned found _ b).mp mapped
        simp only [alike.data layout refers]
    unfold InodeLayer.content
    rw [byte]
  · intro q inside other
    unfold diskEntry
    by_cases same : toBlockNo sb q = toBlockNo sb p
    · have slots := layout.sameBlock inTable inside same.symm (Ne.symm other)
      rw [same,← getEntry_putEntry_other (fs'.cache.blocks _) .zero slots,alike.table,getEntry_putEntry_other _ _ slots]
    · rw [alike.blocks _ same]

theorem chunked_write (layout : Layout env.sblock) (owned : Owned env.sblock live fs)
    (found : fs.inodes p = some inode) (regular : inode.entry.type = inodeRegular) (free : inode.lock = ⟨1,[]⟩)
    (held : 0 < inode.rc) (offset : Usize) (starts : offset.toNat ≤ inode.entry.numBytes.toNat)
    (bounded : inode.entry.numBytes.toNat ≤ inodeMaxBytes) (src : List Byte) (short : src.length < 2^63)
    (op op' w : Nat) (count : w = min src.length (inodeMaxBytes-offset.toNat)) :
    Agrees (fun r plain => r.1 = offset+BitVec.ofNat 64 w ∧ SameFile env.sblock p plain.2 r.2)
      (fileWrite env op p src offset fs) (inodeWrite env (some op') p (src.take w) offset fs) ∧
    (w/blockSize+3 ≤ freeBlocks env.sblock fs.cache → ∃ fs',
    fileWrite env op p src offset fs = .ok (offset+BitVec.ofNat 64 w,fs')) ∧
    ∃ parts : List (List Byte), parts.flatten = src.take w ∧ (∀ part ∈ parts, part.length ≤ maxOpWriteN) ∧
      fileWrite env op p src offset fs = transactions env p op parts offset fs := by
  have file : inode.entry.type ≠ inodeDevice := by rw [regular]; decide
  have bound : inodeMaxBytes = 71680 := rfl
  have length : (src.take w).length = w := by
    rw [List.length_take]
    omega
  have counted : (writeCount offset (BitVec.ofNat 64 src.length)).toNat = w := by
    rw [FileTable.writeCount_toNat offset (by omega),BitVec.toNat_ofNat,Nat.mod_eq_of_lt (by omega),count]
  have loop : fileWrite env op p src offset fs = fileWriteLoop env p src.length op (src.take w) offset fs := by
    rw [fileWrite,counted]
  have alike : Alike env.sblock live p fs fs := .refl owned found
  have plain := inodeWrite_loop layout alike found file (src.take w) offset starts (by omega) op' op'
  have chunks := fileWriteLoop_loop layout src.length alike found file free held (src.take w) offset starts
      (by omega) (by omega) op op'
  rw [length] at plain chunks
  rw [loop]
  have agree : Agrees (fun r plain => r.1 = offset+BitVec.ofNat 64 w ∧ SameFile env.sblock p plain.2 r.2)
      (fileWriteLoop env p src.length op (src.take w) offset fs) (inodeWrite env (some op') p (src.take w) offset fs) := by
    refine chunks.trans plain.symm ?_
    rintro r middle r' ⟨moved,one,inode₁,found₁,resized₁⟩ ⟨_,two,inode₂,found₂,resized₂⟩
    refine ⟨moved,sameFile_of_alike (two.trans one.symm) layout found₂ found₁ ?_ ?_⟩
    · exact BitVec.eq_of_toNat_eq (resized₁.size.trans resized₂.size.symm)
    · exact resized₁.lock.trans resized₂.lock.symm
  refine ⟨agree,?_,fileWriteLoop_transactions src.length op (src.take w) offset fs (by omega)⟩
  intro enough
  obtain ⟨last,written⟩ := inodeWrite_returns layout owned found file op' (src.take w) offset starts (by omega)
      (by rw [length]; exact enough)
  rw [written] at agree
  obtain ⟨⟨off,fs'⟩,ran,moved,_⟩ := agree.ok_right
  have moved : off = offset+BitVec.ofNat 64 w := moved
  exact ⟨fs',by rw [ran,moved]⟩

end Chunks

-- A disk as mkfs makes it, but without data blocks.
def fullEnv : Env := ⟨{mkfsSuperBlock with numBlocks := 92#32},fun _ => none,0#128⟩

theorem full_image : Image fullEnv.sblock blankDisk := by
  refine Image.of_holes ⟨by decide,by decide,by decide⟩ (fun _ => rfl) ?_ ?_
  · intro b
    have low : fullEnv.sblock.bitmapStart.toNat = 91 := rfl
    have marks := blank_used b
    change used fullEnv.sblock blankDisk.cache b ↔ _ at marks
    rw [marks,low]
    omega
  · intro slot
    have free := blank_unallocated slot.1
    change allocated fullEnv.sblock blankDisk slot.1 = false at free
    unfold refs
    simp [free]

theorem full_disk_stops : ¬ ∀ (env : Env) (live : Usize → Bool) (p : Usize) (fs : Fs) (inode : Inode)
    (offset : Usize) (src : List Byte) (op w : Nat), Layout env.sblock →
    Owned env.sblock live fs → fs.inodes p = some inode → inode.entry.type = inodeRegular → inode.lock = ⟨1,[]⟩ →
    0 < inode.rc →
    offset.toNat ≤ inode.entry.numBytes.toNat → inode.entry.numBytes.toNat ≤ inodeMaxBytes → src ≠ [] →
    src.length < 2^63 →
    w = min src.length (inodeMaxBytes-offset.toNat) → ∃ fs',
    fileWrite env op p src offset fs = .ok (offset+BitVec.ofNat 64 w,fs') := by
  intro writesAll
  obtain ⟨fs,ran,facts⟩ := Runs.some_such
      (x := Runs.execGuarded (next fullEnv) (Permitted fullEnv.sblock) blankDisk [.alloc (some 0) inodeRegular,
      .get 1#64])
    (p := fun fs => (fs.inodes 1#64).any fun inode : Inode => decide (inode.entry.type = inodeRegular ∧ inode.lock =
        ⟨1,[]⟩ ∧ 0 < inode.rc ∧ inode.entry.numBytes = 0#32 ∧
      (fileWrite fullEnv 0 1#64 [7#8] 0#64 fs).toOption.isNone)) (by decide +kernel)
  obtain ⟨inode,found,facts⟩ := Runs.some_such facts
  obtain ⟨regular,free,held,size,stops⟩ := of_decide_eq_true facts
  have consistent := run_consistent full_image.layout full_image.consistent (Runs.exec_guarded .start ran)
  obtain ⟨fs',written⟩ := writesAll fullEnv _ 1#64 fs inode 0#64 [7#8] 0 1 full_image.layout consistent.owned found regular free held (by simp) (by rw [size]; decide)
    (by simp) (by simp) (by decide)
  rw [written] at stops
  cases stops

-- A thousand and a half bytes and some more at offset 1: two transactions.
theorem chunked_write_two : ∃ fs : Fs, ∃ inode, fs.inodes 1#64 = some inode ∧ inode.entry.numBytes = 1#32 ∧
    ∃ fs', fileWrite blankEnv 1 1#64 (List.replicate 2000 7#8) 1#64 fs = .ok (2001#64,fs') := by
  obtain ⟨fs,ran,facts⟩ := Runs.some_such
    (x := Runs.execGuarded (next blankEnv) (Permitted mkfsSuperBlock) blankDisk [.alloc (some 0) inodeRegular,
        .get 1#64,.write (some 0) 1#64 [5#8] 0#64])
    (p := fun fs => (fs.inodes 1#64).any fun inode : Inode => decide (inode.entry.type = inodeRegular ∧ inode.lock =
        ⟨1,[]⟩ ∧ 0 < inode.rc ∧ inode.entry.numBytes = 1#32 ∧
      6 < freeBlocks mkfsSuperBlock fs.cache)) (by decide +kernel)
  obtain ⟨inode,found,facts⟩ := Runs.some_such facts
  obtain ⟨regular,free,held,size,room⟩ := of_decide_eq_true facts
  have consistent : Consistent blankEnv.sblock fs := run_consistent blank_layout blank_image.consistent (Runs.exec_guarded .start ran)
  have count : 2000 = min (List.replicate 2000 7#8).length (inodeMaxBytes-(1#64 : Usize).toNat) := by
    rw [List.length_replicate]
    decide
  obtain ⟨fs',written⟩ := (chunked_write blank_layout consistent.owned found regular free held 1#64
      (by rw [size]; decide) (by rw [size]; decide)
    (List.replicate 2000 7#8) (by rw [List.length_replicate]; decide) 1 1 2000 count).2.1
        (by change 2000/512+3 ≤ freeBlocks mkfsSuperBlock fs.cache; omega)
  exact ⟨fs,inode,found,size,fs',written⟩

end SysFile
