import HonorKernel.CacheRuns

namespace BlockCache
open DiskFormat Semaphores

def syncedBy (actions : List Action) : List Usize :=
  actions.filterMap fun action => match action with
    | .sync (some _) b => some b
    | _ => none

-- The device writes of init_bcache, in order.
def bootWrites (sb : SuperBlock) (disk : Usize → BlockData) : List (Usize × BlockData) :=
  match initBcache sb disk with
  | .ok s => s.written
  | .error _ => []

-- `history` is whatever the cache did since it was initialised; `group` begins with no
-- operation running and ends before the end_op of its last one. A crash keeps a prefix
-- `ws` of the writes of that end_op, and any number of later boots may crash as well.
def CrashAtomic (sb : SuperBlock) (area : Usize → Prop) : Prop :=
  ∀ (disk : Usize → BlockData) (boot : BCache) (ctxs : Nat → OpContext) (history group : List Action)
    (start before : System) (k₁ k₂ : Client) (op : Nat),
    initBcache sb disk = .ok boot →
    Run sb ⟨area,False,True,True,True⟩ ⟨boot,ctxs⟩ .idle history start k₁ → k₁.running = [] →
    Run sb ⟨area,False,False,False,False⟩ start k₁ group before k₂ → k₂.running = [op] → k₂.held = [] →
    ∃ after, cacheEndOp sb before.cache = .ok after ∧
      ∀ ws, before.cache.written++ws <+: after.written →
        ∀ d, RedoLog.CrashedBoots (bootWrites sb) (StoreWrites.apply ws before.cache.device) d →
          ∃ fresh, initBcache sb d = .ok fresh ∧
            ((∀ b, ¬ LogArea sb b → fresh.device b = start.cache.device b) ∨
              ∀ b, ¬ LogArea sb b → fresh.device b =
                if b ∈ syncedBy group then before.cache.view b else start.cache.device b)

section Group
variable {sb : SuperBlock} {rules : Rules} {k k' : Client} {s s' : System} {action : Action}

theorem syncedBy_append (one two : List Action) : syncedBy (one++two) = syncedBy one++syncedBy two :=
  List.filterMap_append

-- Nothing an operation does before it ends reaches the device, and the header lists
-- exactly the blocks that were synchronised.
theorem step_logs (good : Good sb rules.strict k s.cache) (quiet : ¬ rules.commits ∧ ¬ rules.direct ∧ ¬ rules.allocs)
    (area : ∀ b, rules.area b → ¬ LogArea sb b) (permitted : Permits rules k action k')
    (inside : ∀ b ∈ touches sb s.cache.view action, rules.area b) (ran : perform sb s action = .ok s') :
    s'.cache.device = s.cache.device ∧ s'.cache.written = s.cache.written ∧
      ∀ b, b ∈ s'.cache.header.blocks ↔ b ∈ s.cache.header.blocks ∨ b ∈ syncedBy [action] := by
  cases permitted with
  | @beginOp op fresh =>
    obtain ⟨⟨ctx,cache⟩,begun,ran⟩ := Runs.bind_ok.mp ran
    cases ran
    obtain ⟨_,device,written,header,_⟩ := good.beginOp op begun
    exact ⟨device,written,fun b => by simp [System.store,header,syncedBy]⟩
  | acquire fresh =>
    obtain ⟨⟨d,cache⟩,acquired,ran⟩ := Runs.bind_ok.mp ran
    cases ran
    obtain ⟨cache',acquired',_,disk,_⟩ := good.acquire (area _ (inside _ List.mem_cons_self)) fresh
    rw [acquired] at acquired'
    cases acquired'
    exact ⟨disk.device,disk.written,fun b => by simp [disk.header,syncedBy]⟩
  | @modify b d held =>
    cases ran
    obtain ⟨_,disk,_⟩ := good.modify held d
    exact ⟨disk.device,disk.written,fun b => by simp [disk.header,syncedBy]⟩
  | sync held running =>
    obtain ⟨⟨ctx,cache⟩,synced,ran⟩ := Runs.bind_ok.mp ran
    cases ran
    obtain ⟨_,device,written,listed,⟨x,rfl⟩,_⟩ := good.sync held (List.ne_nil_of_mem running) synced
    refine ⟨device,written,fun b => ?_⟩
    simp [System.store,listed b,syncedBy,or_comm]
  | syncNull direct held => exact absurd direct quiet.2.1
  | release held clean =>
    obtain ⟨cache,released,ran⟩ := Runs.bind_ok.mp ran
    cases ran
    obtain ⟨cache',released',_,disk,_⟩ := good.release held clean
    rw [released] at released'
    cases released'
    exact ⟨disk.device,disk.written,fun b => by simp [disk.header,syncedBy]⟩
  | @endOp op member last =>
    obtain ⟨cache,ended,ran⟩ := Runs.bind_ok.mp ran
    cases ran
    obtain ⟨ended',_⟩ := good.leave member (fun only => quiet.1 (last only).1)
    rw [ended] at ended'
    cases ended'
    exact ⟨rfl,rfl,fun b => by simp [syncedBy]⟩
  | alloc on => exact absurd on quiet.2.2
  | free on => exact absurd on quiet.2.2

theorem run_logs (good : Good sb rules.strict k s.cache) (quiet : ¬ rules.commits ∧ ¬ rules.direct ∧ ¬ rules.allocs)
    (area : ∀ b, rules.area b → ¬ LogArea sb b) (run : Run sb rules s k actions s' k') :
    s'.cache.device = s.cache.device ∧ s'.cache.written = s.cache.written ∧
      ∀ b, b ∈ s'.cache.header.blocks ↔ b ∈ s.cache.header.blocks ∨ b ∈ syncedBy actions := by
  induction run with
  | nil => exact ⟨rfl,rfl,fun b => by simp [syncedBy]⟩
  | step earlier permitted inside ran ih =>
    obtain ⟨device,written,listed⟩ := ih
    obtain ⟨device',written',listed'⟩ := step_logs (run_good good area earlier) quiet area permitted inside ran
    refine ⟨device'.trans device,written'.trans written,fun b => ?_⟩
    rw [listed',listed,syncedBy_append,List.mem_append,or_assoc]

end Group

-- A settled disk always carries a well-formed log: none, or that of the commit.
theorem settled_loggable {sb : SuperBlock} {hs : List Usize} {value base d : Usize → BlockData}
    (ok : RedoLog.Loggable (logLayout sb) hs) (settled : RedoLog.Settled (logLayout sb) hs value base d) :
    RedoLog.Loggable (logLayout sb) (LogHeader.blocks (d (logHead sb))) := by
  have none : RedoLog.Loggable (logLayout sb) [] :=
    ⟨List.nodup_nil,fun b member => (List.not_mem_nil member).elim,Nat.zero_le _⟩
  rcases settled with ⟨empty,_⟩ | pending | ⟨empty,_⟩
  · exact Eq.subst (motive := RedoLog.Loggable (logLayout sb)) empty.symm none
  · exact Eq.subst (motive := RedoLog.Loggable (logLayout sb)) pending.header.symm ok
  · exact Eq.subst (motive := RedoLog.Loggable (logLayout sb)) empty.symm none

theorem crashed_boots_settled {sb : SuperBlock} {hs : List Usize} {value base d d' : Usize → BlockData}
    (ok : RedoLog.Loggable (logLayout sb) hs) (settled : RedoLog.Settled (logLayout sb) hs value base d)
    (boots : RedoLog.CrashedBoots (bootWrites sb) d d') : RedoLog.Settled (logLayout sb) hs value base d' := by
  induction boots with
  | none => exact settled
  | @crash middle _ _ cut ih =>
    obtain ⟨fresh,ran,_,written⟩ := initBcache_spec sb middle (settled_loggable ok ih)
    rw [bootWrites,ran] at cut
    change _ <+: fresh.written at cut
    rw [written] at cut
    exact (RedoLog.recover_settled ih ok LogHeader.reset LogHeader.blocks_reset).1 _ cut

theorem endOp_crash_atomic (sb : SuperBlock) : CrashAtomic sb (fun b => ¬ LogArea sb b) := by
  intro disk boot ctxs history group start before k₁ k₂ op booted past idle run last free
  have good₁ : Good sb False k₁ start.cache := run_good (boot_good False booted) (fun _ out => out) past
  let rules : Rules := ⟨fun b => ¬ LogArea sb b,False,False,False,False⟩
  have first : Good sb rules.strict k₁ start.cache := good₁
  have good₂ : Good sb False k₂ before.cache := run_good first (fun _ out => out) run
  obtain ⟨device,_,listed⟩ := run_logs first ⟨not_false,not_false,not_false⟩ (fun _ out => out) run
  obtain ⟨after,ended,spec,_⟩ := good₂.commit last free
  refine ⟨after,ended,?_⟩
  intro ws cut d boots
  rw [spec.written,List.prefix_append_right_inj] at cut
  have clean : RedoLog.Clean (logLayout sb) start.cache.device before.cache.device :=
    ⟨good₂.retired,fun a _ => by rw [device]⟩
  have settled : RedoLog.Settled (logLayout sb) before.cache.header.blocks before.cache.view start.cache.device
      (StoreWrites.apply ws before.cache.device) :=
    RedoLog.commit_along good₂.loggable clean rfl (LogHeader.blocks_clear before.cache.header) ws cut
  have rebooted := crashed_boots_settled good₂.loggable settled boots
  obtain ⟨fresh,ran,result,_⟩ := initBcache_spec sb d (settled_loggable good₂.loggable rebooted)
  refine ⟨fresh,ran,?_⟩
  have outcome := (RedoLog.recover_settled rebooted good₂.loggable LogHeader.reset LogHeader.blocks_reset).2
  rw [← result] at outcome
  rcases outcome with ⟨_,old⟩ | ⟨_,new⟩
  · exact .inl old
  · refine .inr fun b out => ?_
    rw [new b out,RedoLog.installed]
    refine if_congr ?_ rfl rfl
    rw [listed b,good₁.idle idle]
    simp

-- An operation that rewrites blocks `one` and `two`, up to its end_op.
def rewriteTwo (one two : Usize) : List Action :=
  [.beginOp 0,.acquire one,.modify one 1#4096,.sync (some 0) one,.release one,
    .acquire two,.modify two 2#4096,.sync (some 0) two,.release two]

theorem rewriteTwo_permitted (rules : Rules) (one two : Usize) :
    ∃ k, PermitsAll rules .idle (rewriteTwo one two) k ∧ k.running = [0] ∧ k.held = [] := by
  refine ⟨_,.cons (.beginOp List.not_mem_nil) (.cons (.acquire List.not_mem_nil) (.cons (.modify List.mem_cons_self)
    (.cons (.sync List.mem_cons_self List.mem_cons_self) (.cons (.release List.mem_cons_self ?_)
    (.cons (.acquire ?_) (.cons (.modify List.mem_cons_self) (.cons (.sync List.mem_cons_self List.mem_cons_self)
    (.cons (.release List.mem_cons_self ?_) .nil)))))))),?_,?_⟩ <;> simp [Client.idle]

theorem rewriteTwo_touches (sb : SuperBlock) (one two : Usize) (action : Action) (member : action ∈ rewriteTwo one two)
    (view : Usize → BlockData) (b : Usize) (touched : b ∈ touches sb view action) : b = one ∨ b = two := by
  simp only [rewriteTwo,List.mem_cons,List.not_mem_nil,or_false] at member
  rcases member with rfl | rfl | rfl | rfl | rfl | rfl | rfl | rfl | rfl <;> simp [touches] at touched <;> simp [touched]

-- Boot on an empty disk, the operation, its end_op cut after `n` writes, and a boot.
def cutShort (one two : Usize) (n : Nat) : Except Fault (BCache × System × BCache × BCache) := do
  let boot ← initBcache mkfsSuperBlock (fun _ => 0#4096)
  let before ← performAll mkfsSuperBlock ⟨boot,fun _ => ⟨0⟩⟩ (rewriteTwo one two)
  let after ← cacheEndOp mkfsSuperBlock before.cache
  let ws := (after.written.drop before.cache.written.length).take n
  let fresh ← initBcache mkfsSuperBlock (StoreWrites.apply ws before.cache.device)
  .ok (boot,before,after,fresh)

-- Block 4 is the second log slot: the copy of block 100 goes there, and recovery
-- overwrites it with block 4's own copy before it is read.
theorem crash_mixes_log_blocks : ¬ CrashAtomic mkfsSuperBlock (fun _ => True) := by
  intro atomic
  obtain ⟨⟨boot,before,after,fresh⟩,scene,facts⟩ := Runs.ok_such (x := cutShort 4#64 100#64 3)
    (p := fun r => decide (r.1.device 100#64 = 0#4096 ∧ r.2.1.cache.view 100#64 = 2#4096 ∧ r.2.2.2.device 100#64 = 1#4096 ∧
      r.2.1.cache.written++(r.2.2.1.written.drop r.2.1.cache.written.length).take 3 <+: r.2.2.1.written))
    (by decide +kernel)
  obtain ⟨old,new,mixed,cut⟩ := of_decide_eq_true facts
  obtain ⟨_,booted,scene⟩ := Runs.bind_ok.mp scene
  obtain ⟨_,ran,scene⟩ := Runs.bind_ok.mp scene
  obtain ⟨_,ended,scene⟩ := Runs.bind_ok.mp scene
  obtain ⟨_,rebooted,scene⟩ := Runs.bind_ok.mp scene
  cases scene
  obtain ⟨k,permitted,running,held⟩ := rewriteTwo_permitted ⟨fun _ => True,False,False,False,False⟩ 4#64 100#64
  obtain ⟨_,ended',crashes⟩ := atomic _ boot _ [] _ _ before .idle k 0 booted .nil rfl
    (Run.extend .nil permitted (fun _ _ _ _ _ => trivial) ran) running held
  rw [ended] at ended'
  cases ended'
  obtain ⟨_,rebooted',outcome⟩ := crashes _ cut _ .none
  rw [rebooted] at rebooted'
  cases rebooted'
  have out : ¬ LogArea mkfsSuperBlock 100#64 := by decide
  rcases outcome with unchanged | replaced
  · have wrong := unchanged 100#64 out
    rw [mixed,old] at wrong
    exact absurd wrong (by decide +kernel)
  · have wrong := replaced 100#64 out
    rw [mixed,new,old] at wrong
    exact absurd wrong (by decide +kernel)

theorem endOp_crash_atomic_two_blocks : ∃ boot before after, initBcache mkfsSuperBlock (fun _ => 0#4096) = .ok boot ∧
    performAll mkfsSuperBlock ⟨boot,fun _ => ⟨0⟩⟩ (rewriteTwo 100#64 101#64) = .ok before ∧
    cacheEndOp mkfsSuperBlock before.cache = .ok after ∧ before.cache.header.blocks = [100#64,101#64] ∧
    ∀ ws, before.cache.written++ws <+: after.written →
      ∀ d, RedoLog.CrashedBoots (bootWrites mkfsSuperBlock) (StoreWrites.apply ws before.cache.device) d →
        ∃ fresh, initBcache mkfsSuperBlock d = .ok fresh ∧
          ((∀ b, ¬ LogArea mkfsSuperBlock b → fresh.device b = boot.device b) ∨
            ∀ b, ¬ LogArea mkfsSuperBlock b → fresh.device b =
              if b ∈ [100#64,101#64] then before.cache.view b else boot.device b) := by
  obtain ⟨⟨boot,before,after,fresh⟩,scene,facts⟩ := Runs.ok_such (x := cutShort 100#64 101#64 3)
    (p := fun r => decide (r.2.1.cache.header.blocks = [100#64,101#64])) (by decide +kernel)
  obtain ⟨_,booted,scene⟩ := Runs.bind_ok.mp scene
  obtain ⟨_,ran,scene⟩ := Runs.bind_ok.mp scene
  obtain ⟨_,ended,scene⟩ := Runs.bind_ok.mp scene
  obtain ⟨_,rebooted,scene⟩ := Runs.bind_ok.mp scene
  cases scene
  obtain ⟨k,permitted,running,held⟩ := rewriteTwo_permitted
    ⟨fun b => ¬ LogArea mkfsSuperBlock b,False,False,False,False⟩ 100#64 101#64
  have inside : ∀ action ∈ rewriteTwo 100#64 101#64, ∀ view, ∀ b ∈ touches mkfsSuperBlock view action,
      ¬ LogArea mkfsSuperBlock b := by
    intro action member view b touched
    rcases rewriteTwo_touches _ _ _ action member view b touched with rfl | rfl <;> decide
  obtain ⟨_,ended',crashes⟩ := endOp_crash_atomic mkfsSuperBlock _ boot _ [] _ _ before .idle k 0 booted .nil rfl
    (Run.extend .nil permitted inside ran) running held
  rw [ended] at ended'
  cases ended'
  exact ⟨boot,before,after,booted,ran,ended,of_decide_eq_true facts,crashes⟩

end BlockCache
