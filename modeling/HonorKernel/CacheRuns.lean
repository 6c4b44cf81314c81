import HonorKernel.LogCommit

namespace BlockCache
open DiskFormat Semaphores

inductive Action where
  | beginOp (ctx : Nat)
  | acquire (b : Usize)
  | modify (b : Usize) (d : BlockData)
  | sync (ctx : Option Nat) (b : Usize)
  | release (b : Usize)
  | endOp (ctx : Nat)
  | alloc (ctx : Option Nat)
  | free (ctx : Option Nat) (b : Usize)
  deriving DecidableEq

-- The cache and the OpContext structures in its callers' memory.
structure System where
  cache : BCache
  ctxs : Nat → OpContext

def System.store (s : System) (cache : BCache) : Option Nat → Option OpContext → System
  | some op,some ctx => ⟨cache,Function.update s.ctxs op ctx⟩
  | _,_ => ⟨cache,s.ctxs⟩

def perform (sb : SuperBlock) (s : System) : Action → Except Fault System
  | .beginOp op => do
    let (ctx,cache) ← cacheBeginOp s.cache
    .ok (s.store cache (some op) (some ctx))
  | .acquire b => do
    let (_,cache) ← cacheAcquire s.cache b
    .ok ⟨cache,s.ctxs⟩
  | .modify b d => .ok ⟨modifyData s.cache b d,s.ctxs⟩
  | .sync op b => do
    let (ctx,cache) ← cacheSync s.cache (op.map s.ctxs) b
    .ok (s.store cache op ctx)
  | .release b => do
    let cache ← cacheRelease s.cache b
    .ok ⟨cache,s.ctxs⟩
  | .endOp _ => do
    let cache ← cacheEndOp sb s.cache
    .ok ⟨cache,s.ctxs⟩
  | .alloc op => do
    let (_,ctx,cache) ← cacheAlloc sb s.cache (op.map s.ctxs)
    .ok (s.store cache op ctx)
  | .free op b => do
    let (ctx,cache) ← cacheFree sb s.cache (op.map s.ctxs) b
    .ok (s.store cache op ctx)

-- The callers' side of the interface: operations running, blocks held, and blocks
-- modified since they were last synchronised.
structure Client where
  running : List Nat
  held : List Usize
  unsynced : List Usize

def Client.idle : Client := ⟨[],[],[]⟩

-- `area`: blocks the callers use. `strict`: a modified block is synchronised before
-- its release. `commits`: an end_op may be the last one. `direct`: cache_sync(NULL, ..).
structure Rules where
  area : Usize → Prop
  strict : Prop
  commits : Prop
  direct : Prop
  allocs : Prop

inductive Permits (rules : Rules) (k : Client) : Action → Client → Prop where
  | beginOp : op ∉ k.running → Permits rules k (.beginOp op) {k with running := op::k.running}
  | acquire : b ∉ k.held → Permits rules k (.acquire b) {k with held := b::k.held}
  | modify : b ∈ k.held → Permits rules k (.modify b d) {k with unsynced := b::k.unsynced}
  | sync : b ∈ k.held → op ∈ k.running →
      Permits rules k (.sync (some op) b) {k with unsynced := k.unsynced.filter (· ≠ b)}
  | syncNull : rules.direct → b ∈ k.held →
      Permits rules k (.sync none b) {k with unsynced := k.unsynced.filter (· ≠ b)}
  | release : b ∈ k.held → (rules.strict → b ∉ k.unsynced) →
      Permits rules k (.release b) {k with held := k.held.filter (· ≠ b)}
  | endOp : op ∈ k.running → (k.running = [op] → rules.commits ∧ k.held = []) →
      Permits rules k (.endOp op) {k with running := k.running.erase op}
  | alloc : rules.allocs → (∀ i, op = some i → i ∈ k.running) → Permits rules k (.alloc op) k
  | free : rules.allocs → (∀ i, op = some i → i ∈ k.running) → Permits rules k (.free op b) k

-- The blocks an action acquires, read off the contents it sees.
def touches (sb : SuperBlock) (view : Usize → BlockData) : Action → List Usize
  | .acquire b => [b]
  | .alloc _ => sb.bitmapStart.setWidth 64 ::
    match firstClear (view (sb.bitmapStart.setWidth 64)) sb.numBlocks.toNat 0 with
    | .ok (some i) => [BitVec.ofNat 64 i]
    | _ => []
  | .free _ _ => [sb.bitmapStart.setWidth 64]
  | _ => []

inductive Run (sb : SuperBlock) (rules : Rules) (s : System) (k : Client) : List Action → System → Client → Prop where
  | nil : Run sb rules s k [] s k
  | step : Run sb rules s k actions middle between → Permits rules between action after →
      (∀ b ∈ touches sb middle.cache.view action, rules.area b) → perform sb middle action = .ok next →
      Run sb rules s k (actions++[action]) next after

-- Everything a sequential run keeps about the cache and its callers together.
structure Good (sb : SuperBlock) (strict : Prop) (k : Client) (s : BCache) : Prop where
  shape : Shape (fun c => c = logHead sb ∨ c ∈ k.unsynced) s
  held : ∀ b, Held s b ↔ b ∈ k.held
  outside : ∀ b ∈ k.held, ¬ LogArea sb b
  synced : strict → ∀ b ∈ k.unsynced, b ∈ k.held
  loggable : RedoLog.Loggable (logLayout sb) s.header.blocks
  pinned : ∀ b, s.pin b = true ↔ b ∈ s.header.blocks
  retired : LogHeader.blocks (s.device (logHead sb)) = []
  running : s.outstanding = k.running.length
  idle : k.running = [] → s.header.blocks = []

theorem boot_good {sb : SuperBlock} {disk : Usize → BlockData} {s : BCache} (strict : Prop)
    (ran : initBcache sb disk = .ok s) : Good sb strict .idle s := by
  obtain ⟨quiet,header,retired⟩ := boot_quiet ran
  refine ⟨quiet.shape.weaken (fun c same => .inl same),?_,?_,?_,?_,?_,retired,?_,fun _ => header⟩
  · intro b; simp [Client.idle,quiet.free b]
  · intro b member; cases member
  · intro _ b member; cases member
  · rw [header]
    exact ⟨List.nodup_nil,fun b member => (List.not_mem_nil member).elim,Nat.zero_le _⟩
  · intro b; simp [quiet.pin b,header]
  · simp [quiet.outstanding,Client.idle]

section Primitives
variable {sb : SuperBlock} {strict : Prop} {k : Client} {s : BCache} {b : Usize}

theorem Good.stable (good : Good sb strict k s) (on : strict) (c : Usize) (out : ¬ LogArea sb c) :
    ¬ (c = logHead sb ∨ c ∈ k.unsynced) ∨ s.pin c = true ∨ Held s c := by
  by_cases dirty : c ∈ k.unsynced
  · exact .inr (.inr ((good.held c).mpr (good.synced on c dirty)))
  · refine .inl ?_
    rintro (same | present)
    · exact out (.inl same)
    · exact dirty present

theorem Good.acquire (good : Good sb strict k s) (out : ¬ LogArea sb b) (fresh : b ∉ k.held) :
    ∃ s', cacheAcquire s b = .ok (s.view b,s') ∧ Good sb strict {k with held := b::k.held} s' ∧ SameDisk s s' ∧
      (strict → ∀ c, ¬ LogArea sb c → s'.view c = s.view c) := by
  obtain ⟨s',ran,spec⟩ := acquire_spec good.shape (fun held => fresh ((good.held b).mp held))
  refine ⟨s',ran,⟨spec.shape,?_,?_,?_,?_,?_,?_,?_,?_⟩,spec.disk,?_⟩
  · intro c
    rw [spec.held,good.held,List.mem_cons]
  · intro c member
    rcases List.mem_cons.mp member with rfl | old
    · exact out
    · exact good.outside c old
  · intro on c member
    exact List.mem_cons_of_mem _ (good.synced on c member)
  · rw [spec.disk.header]; exact good.loggable
  · intro c; rw [spec.pin,spec.disk.header]; exact good.pinned c
  · rw [spec.disk.device]; exact good.retired
  · rw [spec.disk.outstanding]; exact good.running
  · rw [spec.disk.header]; exact good.idle
  · intro on c outside
    exact spec.view c (.inr (good.stable on c outside))

theorem Good.modify (good : Good sb strict k s) (held : b ∈ k.held) (d : BlockData) :
    Good sb strict {k with unsynced := b::k.unsynced} (modifyData s b d) ∧ SameDisk s (modifyData s b d) ∧
      ∀ c, (modifyData s b d).view c = if c = b then d else s.view c := by
  obtain ⟨disk,shape,helds,pins,views⟩ := modifyData_spec good.shape ((good.held b).mpr held) d
  refine ⟨⟨shape.weaken ?_,?_,good.outside,?_,good.loggable,?_,good.retired,good.running,good.idle⟩,disk,views⟩
  · rintro c (same | same | member)
    · exact .inr (same ▸ List.mem_cons_self)
    · exact .inl same
    · exact .inr (List.mem_cons_of_mem _ member)
  · intro c; rw [helds]; exact good.held c
  · intro on c member
    rcases List.mem_cons.mp member with rfl | old
    · exact held
    · exact good.synced on c old
  · intro c; rw [pins]; exact good.pinned c

theorem Good.release (good : Good sb strict k s) (held : b ∈ k.held) (clean : strict → b ∉ k.unsynced) :
    ∃ s', cacheRelease s b = .ok s' ∧ Good sb strict {k with held := k.held.filter (· ≠ b)} s' ∧ SameDisk s s' ∧
      ∀ c, s'.view c = s.view c := by
  obtain ⟨s',ran,disk,shape,helds,pins,views⟩ := release_spec good.shape ((good.held b).mpr held)
  refine ⟨s',ran,⟨shape,?_,?_,?_,?_,?_,?_,?_,?_⟩,disk,views⟩
  · intro c
    rw [helds,good.held]
    simp [and_comm]
  · intro c member
    exact good.outside c (List.mem_of_mem_filter member)
  · intro on c member
    have different : c ≠ b := fun same => clean on (same ▸ member)
    exact List.mem_filter.mpr ⟨good.synced on c member,by simpa using different⟩
  · rw [disk.header]; exact good.loggable
  · intro c; rw [pins,disk.header]; exact good.pinned c
  · rw [disk.device]; exact good.retired
  · rw [disk.outstanding]; exact good.running
  · rw [disk.header]; exact good.idle

-- The header half of cache_sync, on success: the block is listed afterwards.
theorem logSync_parts {h h' : LogHeader} {rm rm' : Nat} (ran : logSync h rm b = .ok (h',rm')) :
    (b ∈ h.blocks ∧ h' = h ∧ rm' = rm) ∨
    (b ∉ h.blocks ∧ h.numBlocks+1 < logMaxSize ∧ 0 < rm ∧ h' = h.record b ∧ rm' = rm-1) := by
  unfold logSync at ran
  split at ran
  · rename_i present
    cases ran
    exact .inl ⟨by simpa using present,rfl,rfl⟩
  · rename_i absent
    split at ran
    · cases ran
    · rename_i room
      split at ran
      · cases ran
      · rename_i allowed
        cases ran
        rw [not_or,LogHeader.numBlocks_record h b (by omega)] at allowed
        exact .inr ⟨by simpa using absent,by omega,by omega,rfl,rfl⟩

theorem logSync_loggable {h h' : LogHeader} {rm rm' : Nat} (ok : RedoLog.Loggable (logLayout sb) h.blocks)
    (out : ¬ LogArea sb b) (ran : logSync h rm b = .ok (h',rm')) :
    RedoLog.Loggable (logLayout sb) h'.blocks ∧ ∀ c, c ∈ h'.blocks ↔ c = b ∨ c ∈ h.blocks := by
  rcases logSync_parts ran with ⟨present,rfl,_⟩ | ⟨absent,room,_,rfl,_⟩
  · refine ⟨ok,fun c => ⟨.inr,?_⟩⟩
    rintro (rfl | member)
    · exact present
    · exact member
  · have blocks := LogHeader.blocks_record h b (by omega)
    have size : logMaxSize = 63 := rfl
    refine ⟨⟨?_,?_,?_⟩,?_⟩
    · rw [blocks]
      refine List.nodup_append.mpr ⟨ok.distinct,List.nodup_singleton b,?_⟩
      intro x inside y here equal
      rw [List.mem_singleton.mp here] at equal
      exact absent (equal ▸ inside)
    · intro c member
      rw [blocks,List.mem_append] at member
      rcases member with old | new
      · exact ok.outside c old
      · rw [List.mem_singleton.mp new]; exact out
    · rw [blocks,List.length_append,LogHeader.blocks_length]
      change h.numBlocks+1 ≤ logMaxSize-1
      omega
    · intro c
      rw [blocks,List.mem_append,List.mem_singleton,or_comm]

theorem Good.sync (good : Good sb strict k s) (held : b ∈ k.held) (some : k.running ≠ [])
    (ran : cacheSync s (.some ctx) b = .ok (ctx',s')) :
    Good sb strict {k with unsynced := k.unsynced.filter (· ≠ b)} s' ∧ s'.device = s.device ∧ s'.written = s.written ∧
      (∀ c, c ∈ s'.header.blocks ↔ c = b ∨ c ∈ s.header.blocks) ∧ (∃ x, ctx' = .some x) ∧ ∀ c, s'.view c = s.view c := by
  cases logged : logSync s.header ctx.rm b with
  | error fault => simp [cacheSync,logged,bind,Except.bind] at ran
  | ok result =>
    obtain ⟨header,rm⟩ := result
    simp only [cacheSync,logged,bind,Except.bind,Except.ok.injEq,Prod.mk.injEq] at ran
    obtain ⟨rfl,rfl⟩ := ran
    obtain ⟨loggable,listed⟩ := logSync_loggable good.loggable (good.outside b held) logged
    obtain ⟨disk,shape,helds,pins,views⟩ := setPinned_spec (E := fun c => c = logHead sb ∨ c ∈ k.unsynced.filter (· ≠ b))
      good.shape ((good.held b).mpr held) true (fun off => by cases off) (by
        rintro c different (same | member)
        · exact .inl same
        · exact .inr (List.mem_filter.mpr ⟨member,by simpa using different⟩))
    refine ⟨⟨shape.setHeader header,?_,good.outside,?_,loggable,?_,good.retired,good.running,?_⟩,rfl,rfl,listed,⟨_,rfl⟩,views⟩
    · intro c; exact (helds c).trans (good.held c)
    · intro on c member
      exact good.synced on c (List.mem_of_mem_filter member)
    · intro c
      change (s.modify b _).pin c = true ↔ c ∈ header.blocks
      rw [pins,listed]
      by_cases same : c = b
      · simp [same]
      · simp [same,good.pinned c]
    · intro none; exact absurd none some

theorem Good.syncNull (good : Good sb strict k s) (held : b ∈ k.held) (ran : cacheSync s none b = .ok (ctx',s')) :
    Good sb strict {k with unsynced := k.unsynced.filter (· ≠ b)} s' ∧ ctx' = none ∧ ∀ c, s'.view c = s.view c := by
  obtain ⟨block,found,taken⟩ := (good.held b).mpr held
  simp only [cacheSync,found,Except.ok.injEq,Prod.mk.injEq] at ran
  obtain ⟨rfl,rfl⟩ := ran
  rw [← view_some found]
  obtain ⟨shape,helds,pins,views⟩ := deviceWrite_spec (b := b) (E := fun c => c = logHead sb ∨ c ∈ k.unsynced.filter (· ≠ b))
    good.shape (by
      rintro c different (same | member)
      · exact .inl same
      · exact .inr (List.mem_filter.mpr ⟨member,by simpa using different⟩))
  refine ⟨⟨shape,?_,good.outside,?_,good.loggable,?_,?_,good.running,good.idle⟩,rfl,views⟩
  · intro c; exact (helds c).trans (good.held c)
  · intro on c member
    exact good.synced on c (List.mem_of_mem_filter member)
  · intro c; exact good.pinned c
  · have different : logHead sb ≠ b := fun same => good.outside b held (.inl same.symm)
    change LogHeader.blocks (Function.update s.device b _ (logHead sb)) = []
    rw [Function.update_of_ne different]
    exact good.retired

theorem Good.beginOp (good : Good sb strict k s) (op : Nat) (ran : cacheBeginOp s = .ok (ctx,s')) :
    Good sb strict {k with running := op::k.running} s' ∧ s'.device = s.device ∧ s'.written = s.written ∧
      s'.header = s.header ∧ ∀ c, s'.view c = s.view c := by
  unfold cacheBeginOp at ran
  split at ran
  · cases ran
    refine ⟨⟨good.shape.setOutstanding _,good.held,good.outside,good.synced,
      good.loggable,good.pinned,good.retired,?_,?_⟩,rfl,rfl,rfl,fun _ => rfl⟩
    · simp [good.running]
    · intro none; cases none
  · cases ran

theorem Good.leave (good : Good sb strict k s) (member : op ∈ k.running) (more : k.running ≠ [op]) :
    cacheEndOp sb s = .ok {s with outstanding := s.outstanding-1} ∧
      Good sb strict {k with running := k.running.erase op} {s with outstanding := s.outstanding-1} := by
  have length := List.length_erase_of_mem member
  have positive : 0 < k.running.length := List.length_pos_of_mem member
  have several : k.running.length ≠ 1 := by
    intro one
    obtain ⟨x,same⟩ := List.length_eq_one_iff.mp one
    rw [same,List.mem_singleton] at member
    exact more (member ▸ same)
  have running := good.running
  refine ⟨?_,⟨good.shape.setOutstanding _,good.held,good.outside,good.synced,
    good.loggable,good.pinned,good.retired,?_,?_⟩⟩
  · simp only [cacheEndOp]
    rw [if_pos (by omega)]
  · change s.outstanding-1 = ((k.running.erase op).length : Int)
    omega
  · intro none
    change k.running.erase op = [] at none
    rw [none,List.length_nil] at length
    omega

theorem Good.committable (good : Good sb strict k s) (free : k.held = []) :
    Committable sb (fun c => c = logHead sb ∨ c ∈ k.unsynced) s := by
  refine ⟨good.shape,good.loggable,fun b member => (good.pinned b).mpr member,?_,.inl rfl⟩
  intro b held
  rw [good.held,free] at held
  cases held

theorem Good.commit (good : Good sb strict k s) (last : k.running = [op]) (free : k.held = []) :
    ∃ s', cacheEndOp sb s = .ok s' ∧ CommitSpec sb (fun c => c = logHead sb ∨ c ∈ k.unsynced) s s' ∧
      Good sb strict {k with running := k.running.erase op} s' := by
  obtain ⟨s',ran,spec⟩ := endOp_commits sb (good.committable free) (by rw [good.running,last]; rfl)
  have empty : s'.header.blocks = [] := by rw [spec.header]; exact LogHeader.blocks_clear _
  refine ⟨s',ran,spec,⟨spec.shape,?_,good.outside,good.synced,?_,?_,?_,?_,fun _ => empty⟩⟩
  · intro b; exact (spec.held b).trans (good.held b)
  · rw [empty]
    exact ⟨List.nodup_nil,fun b member => (List.not_mem_nil member).elim,Nat.zero_le _⟩
  · intro b
    rw [spec.pin,empty,good.pinned]
    simp
  · rw [spec.device,RedoLog.commitWrites,StoreWrites.apply_append,StoreWrites.apply_cons,StoreWrites.apply_append]
    change LogHeader.blocks (Function.update (_ : Usize → BlockData) (logHead sb) _ (logHead sb)) = []
    rw [Function.update_self]
    exact LogHeader.blocks_clear _
  · rw [spec.outstanding,good.running,last]
    simp

theorem Good.widen (good : Good sb strict {k with unsynced := fewer} s) (sub : ∀ c ∈ fewer, c ∈ k.unsynced)
    (synced : strict → ∀ c ∈ k.unsynced, c ∈ k.held) : Good sb strict k s :=
  ⟨good.shape.weaken (fun c => Or.imp id (sub c)),good.held,good.outside,synced,good.loggable,good.pinned,good.retired,
    good.running,good.idle⟩

theorem Good.syncAny (good : Good sb strict k s) (held : b ∈ k.held) (some : ctx.isSome → k.running ≠ [])
    (ran : cacheSync s ctx b = .ok (ctx',s')) :
    Good sb strict {k with unsynced := k.unsynced.filter (· ≠ b)} s' ∧ ctx'.isSome = ctx.isSome ∧
      ∀ c, s'.view c = s.view c := by
  cases ctx with
  | none =>
    obtain ⟨next,rfl,views⟩ := good.syncNull held ran
    exact ⟨next,rfl,views⟩
  | some x =>
    obtain ⟨next,_,_,_,⟨y,rfl⟩,views⟩ := good.sync held (some rfl) ran
    exact ⟨next,rfl,views⟩

-- The pattern of cache_alloc and cache_free: acquire, store, sync, release.
theorem Good.rewrite (good : Good sb strict k s) (out : ¬ LogArea sb b) (some : ctx.isSome → k.running ≠ [])
    (first : cacheAcquire s b = .ok (old,s₁)) (second : cacheSync (modifyData s₁ b d) ctx b = .ok (ctx',s₂))
    (third : cacheRelease s₂ b = .ok s₃) :
    old = s.view b ∧ Good sb strict k s₃ ∧ ctx'.isSome = ctx.isSome ∧
      (strict → ∀ c, ¬ LogArea sb c → s₃.view c = if c = b then d else s.view c) := by
  have fresh : b ∉ k.held := by
    intro member
    rw [acquire_held good.shape ((good.held b).mpr member)] at first
    cases first
  obtain ⟨t₁,ran₁,good₁,_,view₁⟩ := good.acquire out fresh
  rw [first] at ran₁
  cases ran₁
  obtain ⟨good₂,_,view₂⟩ := good₁.modify List.mem_cons_self d
  obtain ⟨good₃,same,view₃⟩ := good₂.syncAny List.mem_cons_self some second
  obtain ⟨t₃,ran₃,good₄,_,view₄⟩ := good₃.release List.mem_cons_self (by simp)
  rw [third] at ran₃
  cases ran₃
  have back : (b::k.held).filter (· ≠ b) = k.held := by
    rw [List.filter_cons_of_neg (by simp),List.filter_eq_self]
    intro c member
    simpa using fun equal : c = b => fresh (equal ▸ member)
  simp only [back] at good₄
  refine ⟨rfl,good₄.widen ?_ good.synced,same,?_⟩
  · intro c member
    obtain ⟨present,different⟩ := List.mem_filter.mp member
    exact (List.mem_cons.mp present).resolve_left (by simpa using different)
  · intro on c outside
    rw [view₄,view₃,view₂]
    split
    · rfl
    · exact view₁ on c outside

end Primitives

-- The flat array of blocks that the cache, the log and the device stand for.
def effect (sb : SuperBlock) (flat : Usize → BlockData) : Action → Usize → BlockData
  | .modify b d => Function.update flat b d
  | .alloc _ =>
    match firstClear (flat (sb.bitmapStart.setWidth 64)) sb.numBlocks.toNat 0 with
    | .ok (some i) => Function.update (Function.update flat (sb.bitmapStart.setWidth 64)
        (bitmapSet (flat (sb.bitmapStart.setWidth 64)) i)) (BitVec.ofNat 64 i) 0#4096
    | _ => flat
  | .free _ b => Function.update flat (sb.bitmapStart.setWidth 64)
      (bitmapClear (flat (sb.bitmapStart.setWidth 64)) b.toNat)
  | _ => flat

section Composites
variable {sb : SuperBlock} {strict : Prop} {k : Client} {s s' : BCache} {ctx ctx' : Option OpContext}

theorem Good.alloc (good : Good sb strict k s) (out : ∀ b ∈ touches sb s.view (.alloc op), ¬ LogArea sb b)
    (some : ctx.isSome → k.running ≠ []) (ran : cacheAlloc sb s ctx = .ok (i,ctx',s')) :
    Good sb strict k s' ∧ (strict → ∀ c, ¬ LogArea sb c → s'.view c = effect sb s.view (.alloc op) c) := by
  have outBitmap := out (sb.bitmapStart.setWidth 64) List.mem_cons_self
  obtain ⟨⟨d,s₁⟩,acquired,ran⟩ := Runs.bind_ok.mp ran
  obtain ⟨found,walk,ran⟩ := Runs.bind_ok.mp ran
  cases found with
  | none => cases ran
  | some n =>
    obtain ⟨⟨ctx₁,s₂⟩,synced,ran⟩ := Runs.bind_ok.mp ran
    obtain ⟨s₃,released,ran⟩ := Runs.bind_ok.mp ran
    obtain ⟨⟨d₄,s₄⟩,acquired',ran⟩ := Runs.bind_ok.mp ran
    obtain ⟨⟨ctx₂,s₅⟩,synced',ran⟩ := Runs.bind_ok.mp ran
    obtain ⟨s₆,released',ran⟩ := Runs.bind_ok.mp ran
    cases ran
    obtain ⟨rfl,good₃,same₃,view₃⟩ := good.rewrite outBitmap some acquired synced released
    have outBlock : ¬ LogArea sb (BitVec.ofNat 64 n) := by
      refine out _ (List.mem_cons_of_mem _ ?_)
      rw [walk]
      exact List.mem_singleton_self _
    obtain ⟨_,good₆,_,view₆⟩ := good₃.rewrite outBlock (fun is => some (same₃ ▸ is)) acquired' synced' released'
    refine ⟨good₆,?_⟩
    intro on c outside
    simp only [view₆ on c outside,effect,walk]
    by_cases last : c = BitVec.ofNat 64 n
    · rw [if_pos last,last,Function.update_self]
    · rw [if_neg last,Function.update_of_ne last,view₃ on c outside,Function.update_apply]

theorem Good.free (good : Good sb strict k s) (out : ¬ LogArea sb (sb.bitmapStart.setWidth 64))
    (some : ctx.isSome → k.running ≠ []) (ran : cacheFree sb s ctx b = .ok (ctx',s')) :
    Good sb strict k s' ∧ (strict → ∀ c, ¬ LogArea sb c → s'.view c = effect sb s.view (.free op b) c) := by
  obtain ⟨⟨d,s₁⟩,acquired,ran⟩ := Runs.bind_ok.mp ran
  dsimp only at ran
  split at ran
  · cases ran
  · obtain ⟨⟨ctx₁,s₂⟩,synced,ran⟩ := Runs.bind_ok.mp ran
    obtain ⟨s₃,released,ran⟩ := Runs.bind_ok.mp ran
    cases ran
    obtain ⟨rfl,good₃,_,view₃⟩ := good.rewrite out some acquired synced released
    refine ⟨good₃,?_⟩
    intro on c outside
    rw [view₃ on c outside,effect,Function.update_apply]

end Composites

section Steps
variable {sb : SuperBlock} {rules : Rules} {k k' : Client} {s s' : System} {action : Action}

-- One step of a caller that keeps the rules: the invariant stays, and outside the log
-- the cache looks as the flat array after the same step.
theorem step_good (good : Good sb rules.strict k s.cache) (area : ∀ b, rules.area b → ¬ LogArea sb b)
    (permitted : Permits rules k action k') (inside : ∀ b ∈ touches sb s.cache.view action, rules.area b)
    (ran : perform sb s action = .ok s') :
    Good sb rules.strict k' s'.cache ∧
      (rules.strict → ∀ c, ¬ LogArea sb c → s'.cache.view c = effect sb s.cache.view action c) := by
  have out : ∀ b ∈ touches sb s.cache.view action, ¬ LogArea sb b := fun b member => area b (inside b member)
  cases permitted with
  | beginOp fresh =>
    obtain ⟨⟨ctx,cache⟩,begun,ran⟩ := Runs.bind_ok.mp ran
    cases ran
    obtain ⟨next,_,_,_,views⟩ := good.beginOp _ begun
    exact ⟨next,fun _ c _ => views c⟩
  | acquire fresh =>
    obtain ⟨⟨d,cache⟩,acquired,ran⟩ := Runs.bind_ok.mp ran
    cases ran
    obtain ⟨cache',acquired',next,_,views⟩ := good.acquire (out _ List.mem_cons_self) fresh
    rw [acquired] at acquired'
    cases acquired'
    exact ⟨next,views⟩
  | @modify b d held =>
    cases ran
    obtain ⟨next,_,views⟩ := good.modify held d
    refine ⟨next,fun _ c _ => ?_⟩
    simp only [effect,Function.update_apply]
    exact views c
  | sync held running =>
    obtain ⟨⟨ctx,cache⟩,synced,ran⟩ := Runs.bind_ok.mp ran
    cases ran
    obtain ⟨next,_,_,_,⟨x,rfl⟩,views⟩ := good.sync held (List.ne_nil_of_mem running) synced
    exact ⟨next,fun _ c _ => views c⟩
  | syncNull direct held =>
    obtain ⟨⟨ctx,cache⟩,synced,ran⟩ := Runs.bind_ok.mp ran
    cases ran
    obtain ⟨next,rfl,views⟩ := good.syncNull held synced
    exact ⟨next,fun _ c _ => views c⟩
  | release held clean =>
    obtain ⟨cache,released,ran⟩ := Runs.bind_ok.mp ran
    cases ran
    obtain ⟨cache',released',next,_,views⟩ := good.release held clean
    rw [released] at released'
    cases released'
    exact ⟨next,fun _ c _ => views c⟩
  | @endOp op member last =>
    obtain ⟨cache,ended,ran⟩ := Runs.bind_ok.mp ran
    cases ran
    by_cases only : k.running = [op]
    · obtain ⟨cache',ended',spec,next⟩ := good.commit only (last only).2
      rw [ended] at ended'
      cases ended'
      refine ⟨next,fun on c outside => spec.view c outside ?_⟩
      rintro (same | dirty)
      · exact outside (.inl same)
      · have held := good.synced on c dirty
        rw [(last only).2] at held
        cases held
    · obtain ⟨ended',next⟩ := good.leave member only
      rw [ended] at ended'
      cases ended'
      exact ⟨next,fun _ c _ => rfl⟩
  | @alloc op on running =>
    obtain ⟨⟨i,ctx,cache⟩,allocated,ran⟩ := Runs.bind_ok.mp ran
    cases ran
    have store : (s.store cache op ctx).cache = cache := by cases op <;> cases ctx <;> rfl
    rw [store]
    refine good.alloc out ?_ allocated
    intro is
    obtain ⟨j,rfl⟩ := Option.isSome_iff_exists.mp (Option.isSome_map .. ▸ is)
    exact List.ne_nil_of_mem (running j rfl)
  | @free op b on running =>
    obtain ⟨⟨ctx,cache⟩,freed,ran⟩ := Runs.bind_ok.mp ran
    cases ran
    have store : (s.store cache op ctx).cache = cache := by cases op <;> cases ctx <;> rfl
    rw [store]
    refine good.free (out _ List.mem_cons_self) ?_ freed
    intro is
    obtain ⟨j,rfl⟩ := Option.isSome_iff_exists.mp (Option.isSome_map .. ▸ is)
    exact List.ne_nil_of_mem (running j rfl)

end Steps

def performAll (sb : SuperBlock) : System → List Action → Except Fault System
  | s,[] => .ok s
  | s,action::rest => do
    let s ← perform sb s action
    performAll sb s rest

inductive PermitsAll (rules : Rules) : Client → List Action → Client → Prop where
  | nil : PermitsAll rules k [] k
  | cons : Permits rules k action between → PermitsAll rules between rest after →
      PermitsAll rules k (action::rest) after

theorem Run.extend {sb : SuperBlock} {rules : Rules} {s middle s' : System} {k between k' : Client}
    (run : Run sb rules s k actions middle between) (permitted : PermitsAll rules between rest k')
    (inside : ∀ action ∈ rest, ∀ view, ∀ b ∈ touches sb view action, rules.area b)
    (ran : performAll sb middle rest = .ok s') : Run sb rules s k (actions++rest) s' k' := by
  induction permitted generalizing actions middle with
  | nil =>
    cases ran
    rw [List.append_nil]
    exact run
  | @cons k action between rest after first _ ih =>
    obtain ⟨next,stepped,ran⟩ := Runs.bind_ok.mp ran
    have one := run.step first (inside action List.mem_cons_self _) stepped
    have whole := ih one (fun other member => inside other (List.mem_cons_of_mem _ member)) ran
    rw [List.append_assoc] at whole
    exact whole

theorem run_good {sb : SuperBlock} {rules : Rules} {s s' : System} {k k' : Client}
    (good : Good sb rules.strict k s.cache) (area : ∀ b, rules.area b → ¬ LogArea sb b)
    (run : Run sb rules s k actions s' k') :
    Good sb rules.strict k' s'.cache := by
  induction run with
  | nil => exact good
  | step _ permitted inside ran ih => exact (step_good ih area permitted inside ran).1

end BlockCache
