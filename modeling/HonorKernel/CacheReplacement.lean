import HonorKernel.CacheLaws
import HonorKernel.CircularList

-- Which blocks stay cached, and in which order: the list of fs/cache.c over runs of its
-- functions by one thread.
namespace BlockCache
open DiskFormat Semaphores CircularList
open Runs (upTo)

-- The blocks of a history of acquisitions, newest first, each at its last acquisition.
def recent : List Usize → List Usize
  | [] => []
  | b::earlier => b :: (recent earlier).filter (· ≠ b)

structure Listed (history : List Usize) (s : BCache) : Prop where
  count : s.blockNum = s.head.length
  distinct : (s.head.map Block.blockNo).Nodup
  ordered : (s.head.map Block.blockNo).Sublist (recent history)

def idleBlock (x : Block) : Bool := !x.acquired && !x.pinned

-- The least recently acquired of the blocks neither acquired nor pinned, as many as the
-- list is too long for one more.
def BCache.evicted (s : BCache) : List Block := (s.head.reverse.filter idleBlock).take (s.blockNum+1-evictionThreshold)

-- What a cache_acquire that missed leaves behind.
def MissLaw (s : BCache) : Prop :=
  ∀ b d s', s.find b = none → cacheAcquire s b = .ok (d,s') →
    s'.head = initBlock b (s.device b) :: s.head.filter (· ∉ s.evicted) ∧
    (s'.blockNum ≤ evictionThreshold ∨ ∀ x ∈ s'.head, x.blockNo ≠ b → x.acquired = true ∨ x.pinned = true)

section Walk
variable {Node : Type} [DecidableEq Node] (idle : Node → Bool)

theorem manage_filter (n : Nat) (xs : List Node) (distinct : xs.Nodup) :
    (manageWalk idle n xs).2 = xs.filter (· ∉ (xs.filter idle).take (n+1-evictionThreshold)) := by
  have size : evictionThreshold = 20 := rfl
  induction xs generalizing n with
  | nil => rfl
  | cons p rest ih =>
    obtain ⟨fresh,tail⟩ := List.nodup_cons.mp distinct
    unfold manageWalk
    by_cases full : evictionThreshold ≤ n
    · rw [if_pos full]
      by_cases goes : idle p = true
      · have more : n+1-evictionThreshold = (n-1+1-evictionThreshold)+1 := by omega
        rw [if_pos goes,List.filter_cons_of_pos goes,more,List.take_succ_cons,List.filter_cons_of_neg (by simp),ih (n-1) tail]
        refine List.filter_congr fun x member => ?_
        have different : x ≠ p := fun same => fresh (same ▸ member)
        simp [different]
      · rw [if_neg goes,List.filter_cons_of_neg goes,ih n tail,List.filter_cons_of_pos]
        have kept : p ∉ (rest.filter idle).take (n+1-evictionThreshold) := fun member =>
          fresh (List.mem_of_mem_filter (List.mem_of_mem_take member))
        simpa using kept
    · have none : n+1-evictionThreshold = 0 := by omega
      rw [if_neg full,none,List.take_zero]
      simp

omit [DecidableEq Node] in
theorem manage_exit (n : Nat) (xs : List Node) :
    (manageWalk idle n xs).1 < evictionThreshold ∨ ∀ x ∈ (manageWalk idle n xs).2, idle x = false := by
  induction xs generalizing n with
  | nil => exact .inr fun x member => by cases member
  | cons p rest ih =>
    unfold manageWalk
    by_cases full : evictionThreshold ≤ n
    · rw [if_pos full]
      by_cases goes : idle p = true
      · rw [if_pos goes]
        exact ih (n-1)
      · rw [if_neg goes]
        refine (ih n).imp_right fun busy x member => ?_
        rcases List.mem_cons.mp member with rfl | later
        · simpa using goes
        · exact busy x later
    · rw [if_neg full]
      exact .inl (by omega)

end Walk

section Acquire
variable {s s' : BCache} {b : Usize} {d : BlockData} {history : List Usize}

theorem miss_parts (absent : s.find b = none) (ran : cacheAcquire s b = .ok (d,s')) :
    s' = {s with head := initBlock b (s.device b) :: (manageBlockNum s.blockNum s.head.reverse).2.reverse,blockNum := (manageBlockNum s.blockNum s.head.reverse).1+1} := by
  simp only [cacheAcquire,absent,Except.ok.injEq,Prod.mk.injEq] at ran
  exact ran.2.symm

theorem hit_parts {block : Block} (found : s.find b = some block) (ran : cacheAcquire s b = .ok (d,s')) :
    ∃ lock, s' = {s with head := {block with acquired := true,lock := lock} :: KeyedList.remove Block.blockNo b s.head} := by
  simp only [cacheAcquire,found] at ran
  split at ran
  · simp only [Except.ok.injEq,Prod.mk.injEq] at ran
    exact ⟨_,ran.2.symm⟩
  · cases ran

theorem Listed.blocks (listed : Listed history s) : s.head.Nodup := List.Nodup.of_map _ listed.distinct

theorem Listed.kept (listed : Listed history s) :
    (manageBlockNum s.blockNum s.head.reverse).2.reverse = s.head.filter (· ∉ s.evicted) := by
  rw [manageBlockNum,manage_filter _ _ _ (List.nodup_reverse.mpr listed.blocks),List.filter_reverse,List.reverse_reverse]
  rfl

theorem Listed.miss (listed : Listed history s) : MissLaw s := by
  intro b d s' absent ran
  rw [miss_parts absent ran]
  refine ⟨by rw [listed.kept],?_⟩
  rcases manage_exit (fun p : Block => !p.acquired && !p.pinned) s.blockNum s.head.reverse with room | busy
  · exact .inl room
  · refine .inr fun x member different => ?_
    rcases List.mem_cons.mp member with rfl | old
    · exact absurd rfl different
    · have used := busy x (List.mem_reverse.mp old)
      simpa [Classical.or_iff_not_imp_left] using used

theorem recent_front {keys : List Usize} (ordered : keys.Sublist (recent history)) (absent : b ∉ keys) :
    (b::keys).Sublist (recent (b::history)) := by
  have others : keys.filter (· ≠ b) = keys := by
    refine List.filter_eq_self.mpr fun c member => ?_
    have different : c ≠ b := fun same => absent (same ▸ member)
    simpa using different
  rw [← others]
  exact (ordered.filter _).cons_cons b

theorem Listed.acquire (listed : Listed history s) (ran : cacheAcquire s b = .ok (d,s')) : Listed (b::history) s' := by
  cases found : s.find b with
  | some block =>
    obtain ⟨lock,rfl⟩ := hit_parts found ran
    have key := find_blockNo found
    refine ⟨listed.count.trans (KeyedList.length_remove found).symm,?_,?_⟩
    · simp only [List.map_cons,key]
      exact KeyedList.front_nodup listed.distinct b
    · simp only [List.map_cons,key]
      exact recent_front (((KeyedList.remove_sublist b s.head).map _).trans listed.ordered) (KeyedList.remove_fresh listed.distinct b)
  | none =>
    have count := manage_count (fun p : Block => !p.acquired && !p.pinned) s.blockNum s.head.reverse
    have parts := miss_parts found ran
    have same := listed.count
    rw [List.length_reverse] at count
    have sub : (s.head.filter (· ∉ s.evicted)).Sublist s.head := List.filter_sublist
    have absent : b ∉ s.head.map Block.blockNo := by
      intro member
      obtain ⟨block,inside,key⟩ := List.mem_map.mp member
      exact KeyedList.find_none.mp found block inside key
    have fresh : b ∉ (s.head.filter (· ∉ s.evicted)).map Block.blockNo := fun member => absent ((sub.map _).subset member)
    subst parts
    refine ⟨?_,?_,?_⟩
    · simp only [List.length_cons,List.length_reverse,manageBlockNum]
      omega
    · simp only [List.map_cons,listed.kept]
      exact List.nodup_cons.mpr ⟨fresh,listed.distinct.sublist (sub.map _)⟩
    · simp only [List.map_cons,listed.kept]
      exact recent_front ((sub.map _).trans listed.ordered) fresh

end Acquire

structure SameList (s s' : BCache) : Prop where
  keys : s'.head.map Block.blockNo = s.head.map Block.blockNo
  count : s'.blockNum = s.blockNum

-- From one state of the cache to another by cache_acquires and by changes that leave the
-- list alone; the blocks acquired are given newest first.
inductive Way (s : BCache) : List Usize → BCache → Prop where
  | here : Way s [] s
  | acquire : Way s blocks t → cacheAcquire t b = .ok (d,t') → Way s (b::blocks) t'
  | keep : Way s blocks t → SameList t t' → Way s blocks t'

-- Newest first, what a loop acquires whose round `i` acquires `f i`.
def gather (f : Nat → List Usize) : Nat → List Usize
  | 0 => []
  | i+1 => f i++gather f i

-- cache_end_op, when it commits, acquires each logged block and its place in the log, then
-- each logged block again.
def logCopies (sb : SuperBlock) (header : LogHeader) : List Usize :=
  gather (fun i => [logSlot sb i,header.blockNo i]) header.numBlocks

def checkpoints (header : LogHeader) : List Usize := gather (fun i => [header.blockNo i]) header.numBlocks

def endOpAcquires (sb : SuperBlock) (s : BCache) : List Usize :=
  if 0 < s.outstanding-1 then [] else checkpoints s.header++logCopies sb s.header

-- init_bcache acquires them the other way round.
def recoveries (sb : SuperBlock) (header : LogHeader) : List Usize :=
  gather (fun i => [header.blockNo i,logSlot sb i]) header.numBlocks

section Ways
variable {sb : SuperBlock} {s s' t : BCache} {b : Usize} {d : BlockData} {blocks more history : List Usize}

theorem Way.trans (first : Way s blocks t) (second : Way t more s') : Way s (more++blocks) s' := by
  induction second with
  | here => exact first
  | acquire _ ran ih => exact .acquire ih ran
  | keep _ same ih => exact .keep ih same

theorem Way.listed (way : Way s blocks t) (listed : Listed history s) : Listed (blocks++history) t := by
  induction way with
  | here => exact listed
  | acquire _ ran ih => exact ih.acquire ran
  | keep _ same ih =>
    refine ⟨?_,same.keys ▸ ih.distinct,same.keys ▸ ih.ordered⟩
    have lengths := congrArg List.length same.keys
    rw [List.length_map,List.length_map] at lengths
    rw [same.count,ih.count,lengths]

theorem modify_sameList (s : BCache) (b : Usize) (f : Block → Block) (keeps : ∀ x, (f x).blockNo = x.blockNo) :
    SameList s (s.modify b f) :=
  ⟨KeyedList.modify_keys b f keeps s.head,rfl⟩

theorem acquire_header (ran : cacheAcquire s b = .ok (d,s')) : s'.header = s.header := by
  cases found : s.find b with
  | some block =>
    obtain ⟨lock,rfl⟩ := hit_parts found ran
    rfl
  | none =>
    rw [miss_parts found ran]

theorem release_parts (ran : cacheRelease s b = .ok s') : SameList s s' ∧ s'.header = s.header := by
  unfold cacheRelease at ran
  split at ran
  · cases ran
  · obtain ⟨⟨who,lock⟩,_,ran⟩ := Runs.bind_ok.mp ran
    cases ran
    exact ⟨modify_sameList _ _ _ fun _ => rfl,rfl⟩

theorem copyBlock_way {source target : Usize} (ran : copyBlock s source target = .ok s') :
    Way s [target,source] s' ∧ s'.header = s.header := by
  obtain ⟨⟨d,s₁⟩,first,ran⟩ := Runs.bind_ok.mp ran
  obtain ⟨⟨d₂,s₂⟩,second,ran⟩ := Runs.bind_ok.mp ran
  obtain ⟨s₃,third,last⟩ := Runs.bind_ok.mp ran
  obtain ⟨same₃,header₃⟩ := release_parts third
  obtain ⟨same₄,header₄⟩ := release_parts last
  have stored : SameList s₂ (deviceWrite (modifyData s₂ target d) target d) :=
    ⟨(modify_sameList s₂ target (fun x => {x with data := d}) fun _ => rfl).keys,rfl⟩
  refine ⟨.keep (.keep (.keep (.acquire (.acquire .here first) second) stored) same₃) same₄,?_⟩
  rw [header₄,header₃]
  exact (acquire_header second).trans (acquire_header first)

theorem headerBlockNo_ok {header : LogHeader} {i : Nat} (ran : headerBlockNo header i = .ok b) :
    b = header.blockNo i := by
  unfold headerBlockNo at ran
  split at ran
  · exact (Except.ok.inj ran).symm
  · cases ran

theorem loop_way {body : Nat → BCache → Except Fault BCache} (f : LogHeader → Nat → List Usize) (n : Nat)
    (each : ∀ i t t', body i t = .ok t' → Way t (f t.header i) t' ∧ t'.header = t.header)
    (ran : upTo body n 0 s = .ok s') :
    Way s (gather (f s.header) n) s' ∧ s'.header = s.header := by
  have all := Runs.upTo_invariant (fun i t => Way s (gather (f s.header) i) t ∧ t.header = s.header) n 0 ⟨.here,rfl⟩ (by
    rintro i t t' _ _ ⟨way,header⟩ ran
    obtain ⟨step,same⟩ := each i t t' ran
    rw [header] at step
    exact ⟨way.trans step,same.trans header⟩) ran
  rwa [Nat.zero_add] at all

theorem logCopy_way {i : Nat} (ran : logCopy sb i s = .ok s') : Way s [logSlot sb i,s.header.blockNo i] s' ∧
    s'.header = s.header := by
  obtain ⟨b,number,ran⟩ := Runs.bind_ok.mp ran
  rw [← headerBlockNo_ok number]
  exact copyBlock_way ran

theorem recoverCopy_way {i : Nat} (ran : recoverCopy sb i s = .ok s') : Way s [s.header.blockNo i,logSlot sb i] s' ∧
    s'.header = s.header := by
  obtain ⟨b,number,ran⟩ := Runs.bind_ok.mp ran
  rw [← headerBlockNo_ok number]
  exact copyBlock_way ran

theorem checkpoint_way {i : Nat} (ran : checkpoint i s = .ok s') :
    Way s [s.header.blockNo i] s' ∧ s'.header = s.header := by
  obtain ⟨b,number,ran⟩ := Runs.bind_ok.mp ran
  obtain ⟨⟨d,s₁⟩,acquired,ran⟩ := Runs.bind_ok.mp ran
  obtain ⟨same,kept⟩ := release_parts ran
  rw [← headerBlockNo_ok number]
  have stored : SameList s₁ ((deviceWrite s₁ b d).modify b (fun x => {x with pinned := false})) :=
    ⟨(modify_sameList s₁ b (fun x => {x with pinned := false}) fun _ => rfl).keys,rfl⟩
  have header : s₁.header = s.header := acquire_header acquired
  exact ⟨.keep (.keep (.acquire .here acquired) stored) same,kept.trans header⟩

theorem endOp_way (ran : cacheEndOp sb s = .ok s') : Way s (endOpAcquires sb s) s' := by
  simp only [cacheEndOp] at ran
  unfold endOpAcquires
  split at ran
  · rename_i more
    rw [if_pos more]
    cases ran
    exact .keep .here ⟨rfl,rfl⟩
  · rename_i last
    rw [if_neg last]
    obtain ⟨s₁,copied,ran⟩ := Runs.bind_ok.mp ran
    obtain ⟨s₂,checkpointed,ran⟩ := Runs.bind_ok.mp ran
    cases ran
    obtain ⟨way₁,header₁⟩ := loop_way (fun header i => [logSlot sb i,header.blockNo i]) _ (fun _ _ _ => logCopy_way) copied
    obtain ⟨way₂,_⟩ := loop_way (fun header i => [header.blockNo i]) _ (fun _ _ _ => checkpoint_way) checkpointed
    change s₁.header = s.header at header₁
    have start : Way s [] {s with outstanding := s.outstanding-1} := .keep .here ⟨rfl,rfl⟩
    have written : SameList s₁ (writeHeader sb s₁) := ⟨rfl,rfl⟩
    have way := ((start.trans way₁).keep written).trans way₂
    simp only [writeHeader,deviceWrite,header₁,List.append_nil] at way
    exact way.keep ⟨rfl,rfl⟩

theorem initBcache_listed {disk : Usize → BlockData} (ran : initBcache sb disk = .ok s) :
    Listed (recoveries sb (disk (sb.logStart.setWidth 64))) s := by
  obtain ⟨s₁,copied,ran⟩ := Runs.bind_ok.mp ran
  cases ran
  obtain ⟨way,_⟩ := loop_way (fun header i => [header.blockNo i,logSlot sb i]) _ (fun _ _ _ => recoverCopy_way) copied
  have empty : Listed [] (⟨disk,[],[],0,disk (sb.logStart.setWidth 64),0⟩ : BCache) := ⟨rfl,List.nodup_nil,List.Sublist.refl _⟩
  have reset : SameList s₁ (writeHeader sb {s₁ with header := s₁.header.reset}) := ⟨rfl,rfl⟩
  have listed := (way.keep reset).listed empty
  rwa [List.append_nil] at listed

end Ways

-- manage_block_num on the nodes themselves; `none` when the fuel ends before the loop.
def manageLoop {Ptr : Type} [DecidableEq Ptr] (idle : Ptr → Bool) (head : Ptr) : Nat → Ptr → Nat → Links Ptr → Option (Nat × Links Ptr)
  | 0,_,_,_ => none
  | fuel+1,p,blockNum,links =>
    if evictionThreshold ≤ blockNum then
      let q := links.prev p
      if p = head then some (blockNum,links)
      else if idle p then manageLoop idle head fuel q (blockNum-1) (detach links p)
      else manageLoop idle head fuel q blockNum links
    else some (blockNum,links)

section Nodes
variable {Ptr : Type} [DecidableEq Ptr] {links : Links Ptr} {head : Ptr} {nodes passed : List Ptr}

-- The walk has `passed` behind it and the nodes before them still to go; it arrives where the
-- walk of the list does.
theorem manageLoop_walk (idle : Ptr → Bool) (n : Nat) (ring : Ring links head (nodes++passed)) :
    ∃ links', Ring links' head ((manageWalk idle n nodes.reverse).2.reverse++passed) ∧ ∀ fuel, nodes.length < fuel →
      manageLoop idle head fuel (nodes.getLastD head) n links = some ((manageWalk idle n nodes.reverse).1,links') := by
  induction nodes using List.reverseRecOn generalizing n links passed with
  | nil =>
    refine ⟨links,ring,fun fuel enough => ?_⟩
    cases fuel with
    | zero => cases enough
    | succ fuel => simp [manageLoop,manageWalk]
  | append_singleton nodes p ih =>
    rw [List.append_assoc,List.singleton_append] at ring
    have notHead : p ≠ head := by
      intro same
      exact (List.nodup_cons.mp ring.distinct).1 (same ▸ List.mem_append_right _ List.mem_cons_self)
    have back : links.prev p = nodes.getLastD head := ring.prev
    simp only [List.getLastD_concat,List.reverse_append,List.reverse_singleton,List.singleton_append,manageWalk]
    -- One look at `p`, with one unit of fuel for each node before it and for the head.
    have look : ∀ fuel, (nodes++[p]).length < fuel → ∃ rest, fuel = rest+1 ∧ nodes.length < rest := by
      intro fuel enough
      rw [List.length_append,List.length_singleton] at enough
      exact ⟨fuel-1,by omega,by omega⟩
    by_cases full : evictionThreshold ≤ n
    · simp only [if_pos full]
      by_cases goes : idle p = true
      · simp only [if_pos goes]
        obtain ⟨links',ring',ran⟩ := ih (n-1) ring.detach
        refine ⟨links',ring',fun fuel enough => ?_⟩
        obtain ⟨rest,rfl,fewer⟩ := look fuel enough
        simp only [manageLoop,if_pos full,if_neg notHead,if_pos goes,back]
        exact ran rest fewer
      · simp only [if_neg goes]
        obtain ⟨links',ring',ran⟩ := ih n ring
        refine ⟨links',by simpa using ring',fun fuel enough => ?_⟩
        obtain ⟨rest,rfl,fewer⟩ := look fuel enough
        simp only [manageLoop,if_pos full,if_neg notHead,if_neg goes,back]
        exact ran rest fewer
    · simp only [if_neg full]
      refine ⟨links,by simpa using ring,fun fuel enough => ?_⟩
      obtain ⟨rest,rfl,_⟩ := look fuel enough
      simp only [manageLoop,if_neg full]

omit [DecidableEq Ptr] in
theorem manageWalk_map (heap : Ptr → Block) (idle : Block → Bool) (n : Nat) (nodes : List Ptr) :
    manageWalk idle n (nodes.map heap) = ((manageWalk (fun p => idle (heap p)) n nodes).1,
        (manageWalk (fun p => idle (heap p)) n nodes).2.map heap) := by
  induction nodes generalizing n with
  | nil => rfl
  | cons p rest ih =>
    simp only [List.map_cons,manageWalk,ih]
    split
    · split
      · rfl
      · rfl
    · rfl

variable {heap : Ptr → Block} {fresh : Ptr} {s s' : BCache} {b : Usize} {d : BlockData}

-- The search of cache_acquire, node by node from `head.next` on.
def findNode (heap : Ptr → Block) (b : Usize) (nodes : List Ptr) : Option Ptr := nodes.find? fun p => (heap p).blockNo == b

-- What cache_acquire does to the links: the node found moves to the front, or nodes are freed
-- and a new one is put there.
def acquireLinks (heap : Ptr → Block) (head fresh : Ptr) (fuel blockNum : Nat) (links : Links Ptr) : Option Ptr → Option (Nat × Links Ptr)
  | some p => some (blockNum,insert (detach links p) head p)
  | none => (manageLoop (fun p => idleBlock (heap p)) head fuel (links.prev head) blockNum links).map fun kept => (kept.1+1,insert kept.2 head fresh)

omit [DecidableEq Ptr] in
theorem find_nodes (holds : nodes.map heap = s.head) (b : Usize) : s.find b = (findNode heap b nodes).map heap := by
  rw [BCache.find,KeyedList.find,← holds,List.find?_map]
  rfl

theorem hit_links {p : Ptr} (ring : Ring links head nodes) (holds : nodes.map heap = s.head)
    (found : findNode heap b nodes = some p) :
    ∃ rest, Ring (insert (detach links p) head p) head (p::rest) ∧
    rest.map heap = KeyedList.remove Block.blockNo b s.head := by
  obtain ⟨here,before,after,rfl,earlier⟩ := List.find?_eq_some_iff_append.mp found
  refine ⟨before++after,ring.detach.insert ?_,?_⟩
  · intro member
    rcases List.mem_cons.mp member with rfl | inside
    · exact (List.nodup_cons.mp ring.distinct).1 (List.mem_append_right _ List.mem_cons_self)
    · have apart := List.nodup_middle.mp (List.nodup_cons.mp ring.distinct).2
      exact (List.nodup_cons.mp apart).1 inside
  · rw [KeyedList.remove,← holds,List.map_append,List.map_append,List.map_cons,List.eraseP_append_right,List.eraseP_cons_of_pos]
    · exact here
    · intro block member
      obtain ⟨q,inside,rfl⟩ := List.mem_map.mp member
      simpa using earlier q inside

theorem manage_links (ring : Ring links head nodes) (holds : nodes.map heap = s.head) :
    ∃ links' kept, Ring links' head kept ∧ kept.Sublist nodes ∧
    kept.map heap = (manageBlockNum s.blockNum s.head.reverse).2.reverse ∧
      ∀ fuel, nodes.length < fuel →
      manageLoop (fun p => idleBlock (heap p)) head fuel (links.prev head) s.blockNum links =
        some ((manageBlockNum s.blockNum s.head.reverse).1,links') := by
  have walk : manageBlockNum s.blockNum s.head.reverse = ((manageWalk (fun p => idleBlock (heap p)) s.blockNum nodes.reverse).1,
      (manageWalk (fun p => idleBlock (heap p)) s.blockNum nodes.reverse).2.map heap) := by
    rw [← holds,← List.map_reverse]
    exact manageWalk_map heap idleBlock s.blockNum nodes.reverse
  have start : Ring links head (nodes++[]) := by rwa [List.append_nil]
  obtain ⟨links',ring',ran⟩ := manageLoop_walk (fun p => idleBlock (heap p)) s.blockNum start
  rw [← ring.prev_head] at ran
  rw [List.append_nil] at ring'
  refine ⟨links',_,ring',?_,?_,fun fuel enough => ?_⟩
  · have sub := (manage_sublist (fun p => idleBlock (heap p)) s.blockNum nodes.reverse).reverse
    rwa [List.reverse_reverse] at sub
  · rw [walk,List.map_reverse]
  · rw [walk]
    exact ran fuel enough

-- Whatever ring of nodes holds the blocks: cache_acquire ends after at most one look at each
-- node and at the head, with a ring that holds the blocks of its result.
def NodesLaw (s : BCache) : Prop :=
  ∀ (Ptr : Type) [DecidableEq Ptr] (links : Links Ptr) (head fresh : Ptr) (nodes : List Ptr) (heap : Ptr → Block)
      (b : Usize) (d : BlockData) (s' : BCache),
    Ring links head nodes → nodes.map heap = s.head → fresh ∉ head::nodes → cacheAcquire s b = .ok (d,s') →
    ∃ links' p rest block, Ring links' head (p::rest) ∧ s'.head = block::rest.map heap ∧
      ∀ fuel, nodes.length < fuel → acquireLinks heap head fresh fuel s.blockNum links (findNode heap b nodes) = some
          (s'.blockNum,links')

theorem acquire_nodes (s : BCache) : NodesLaw s := by
  intro Ptr _ links head fresh nodes heap b d s' ring holds new ran
  have search := find_nodes holds b
  cases found : findNode heap b nodes with
  | some p =>
    rw [found] at search
    obtain ⟨rest,ring',blocks⟩ := hit_links ring holds found
    obtain ⟨lock,rfl⟩ := hit_parts search ran
    exact ⟨_,p,rest,_,ring',by rw [blocks],fun fuel _ => rfl⟩
  | none =>
    rw [found] at search
    obtain ⟨links',kept,ring',sub,blocks,walk⟩ := manage_links ring holds
    have parts := miss_parts search ran
    have still : fresh ∉ head::kept := fun member => new ((sub.cons_cons head).subset member)
    refine ⟨_,fresh,kept,_,ring'.insert still,by rw [parts,blocks],fun fuel enough => ?_⟩
    simp only [acquireLinks,walk fuel enough,Option.map_some,parts]

end Nodes

inductive CacheCall where
  | beginOp
  | acquire (b : Usize)
  | modify (b : Usize) (d : BlockData)
  | sync (ctx : Option OpContext) (b : Usize)
  | release (b : Usize)
  | endOp

-- The cache with the history of its acquisitions, newest first.
structure Acquired where
  cache : BCache
  history : List Usize

def acquiredNext (sb : SuperBlock) (s : Acquired) : CacheCall → Option Acquired
  | .beginOp => (cacheBeginOp s.cache).toOption.map fun result => ⟨result.2,s.history⟩
  | .acquire b => (cacheAcquire s.cache b).toOption.map fun result => ⟨result.2,b::s.history⟩
  | .modify b d => some ⟨modifyData s.cache b d,s.history⟩
  | .sync ctx b => (cacheSync s.cache ctx b).toOption.map fun result => ⟨result.2,s.history⟩
  | .release b => (cacheRelease s.cache b).toOption.map fun cache => ⟨cache,s.history⟩
  | .endOp => (cacheEndOp sb s.cache).toOption.map fun cache => ⟨cache,endOpAcquires sb s.cache++s.history⟩

section Runs
variable {sb : SuperBlock} {disk : Usize → BlockData} {boot : BCache} {s s' : Acquired}

theorem beginOp_sameList {s s' : BCache} (ran : cacheBeginOp s = .ok (ctx,s')) : SameList s s' := by
  unfold cacheBeginOp at ran
  split at ran
  · cases ran
    exact ⟨rfl,rfl⟩
  · cases ran

theorem sync_sameList {s s' : BCache} (ran : cacheSync s ctx b = .ok (ctx',s')) : SameList s s' := by
  cases ctx with
  | none =>
    simp only [cacheSync] at ran
    split at ran
    · cases ran
    · cases ran
      exact ⟨rfl,rfl⟩
  | some c =>
    obtain ⟨⟨header,rm⟩,_,ran⟩ := Runs.bind_ok.mp ran
    cases ran
    exact ⟨(modify_sameList s b (fun x => {x with pinned := true}) fun _ => rfl).keys,rfl⟩

theorem call_way (ran : acquiredNext sb s call = some s') : ∃ blocks, s'.history = blocks++s.history ∧
    Way s.cache blocks s'.cache := by
  cases call with
  | modify b d =>
    cases ran
    exact ⟨[],rfl,.keep .here (modify_sameList _ _ _ fun _ => rfl)⟩
  | beginOp =>
    obtain ⟨result,returned,rfl⟩ := Option.map_eq_some_iff.mp ran
    exact ⟨[],rfl,.keep .here (beginOp_sameList (Runs.toOption_some returned))⟩
  | acquire b =>
    obtain ⟨result,returned,rfl⟩ := Option.map_eq_some_iff.mp ran
    exact ⟨[b],rfl,.acquire .here (Runs.toOption_some returned)⟩
  | sync ctx b =>
    obtain ⟨result,returned,rfl⟩ := Option.map_eq_some_iff.mp ran
    exact ⟨[],rfl,.keep .here (sync_sameList (Runs.toOption_some returned))⟩
  | release b =>
    obtain ⟨cache,returned,rfl⟩ := Option.map_eq_some_iff.mp ran
    exact ⟨[],rfl,.keep .here (release_parts (Runs.toOption_some returned)).1⟩
  | endOp =>
    obtain ⟨cache,returned,rfl⟩ := Option.map_eq_some_iff.mp ran
    exact ⟨_,rfl,endOp_way (Runs.toOption_some returned)⟩

theorem run_listed (booted : initBcache sb disk = .ok boot)
    (path : Runs.Reached (acquiredNext sb) ⟨boot,recoveries sb (disk (sb.logStart.setWidth 64))⟩ s) :
    Listed s.history s.cache := by
  refine path.invariant (fun s => Listed s.history s.cache) (initBcache_listed booted) fun s call s' listed _ ran => ?_
  obtain ⟨blocks,history,way⟩ := call_way ran
  rw [history]
  exact way.listed listed

-- The list of cached blocks over every run from the boot on, and inside cache_end_op too:
-- each state passed there is a state that `Way` arrives at.
theorem cache_replacement (booted : initBcache sb disk = .ok boot)
    (path : Runs.Reached (acquiredNext sb) ⟨boot,recoveries sb (disk (sb.logStart.setWidth 64))⟩ s) :
    Listed s.history s.cache ∧ (∀ cache, cacheEndOp sb s.cache = .ok cache →
    Way s.cache (endOpAcquires sb s.cache) cache) ∧
    ∀ blocks cache, Way s.cache blocks cache → Listed (blocks++s.history) cache ∧ MissLaw cache ∧ NodesLaw cache := by
  have listed := run_listed booted path
  refine ⟨listed,fun cache ran => endOp_way ran,fun blocks cache way => ?_⟩
  have there := way.listed listed
  exact ⟨there,there.miss,acquire_nodes cache⟩

theorem cache_replacement_full :
    ∃ (boot : BCache) (s : Acquired), initBcache mkfsSuperBlock (fun _ => 0#4096) = .ok boot ∧
    Runs.Reached (acquiredNext mkfsSuperBlock) ⟨boot,recoveries mkfsSuperBlock 0#4096⟩ s ∧ s.cache.blockNum = 20 ∧
    MissLaw s.cache := by
  obtain ⟨boot,booted,facts⟩ := Runs.ok_such (x := initBcache mkfsSuperBlock (fun _ => 0#4096))
    (p := fun boot => (Runs.exec (acquiredNext mkfsSuperBlock) ⟨boot,recoveries mkfsSuperBlock 0#4096⟩
      ((List.range 22).flatMap fun i =>
          [.acquire (BitVec.ofNat 64 i),.release (BitVec.ofNat 64 i)])).any fun s : Acquired => decide
          (s.cache.blockNum = 20)) (by decide +kernel)
  obtain ⟨s,ran,full⟩ := Runs.some_such facts
  have path := Runs.exec_reached .start ran
  obtain ⟨_,_,laws⟩ := cache_replacement booted path
  exact ⟨boot,s,booted,path,of_decide_eq_true full,(laws [] s.cache .here).2.1⟩

end Runs

end BlockCache
