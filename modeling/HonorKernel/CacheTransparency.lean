import HonorKernel.CrashAtomicity

namespace BlockCache
open DiskFormat Semaphores

-- What the flat array holds after a whole run.
def contents (sb : SuperBlock) (flat : Usize → BlockData) (actions : List Action) : Usize → BlockData :=
  actions.foldl (effect sb) flat

-- Callers use the blocks of `area`, synchronise what they modify before they release it,
-- never acquire a block they hold and hold none when the last operation ends. Then
-- cache_acquire returns what the flat array holds, and after a commit so does the device.
def Transparent (sb : SuperBlock) (area : Usize → Prop) : Prop :=
  ∀ (disk : Usize → BlockData) (boot : BCache) (ctxs : Nat → OpContext) (actions : List Action) (s : System) (k : Client),
    initBcache sb disk = .ok boot → Run sb ⟨area,True,True,True,True⟩ ⟨boot,ctxs⟩ .idle actions s k →
    (∀ b, area b → b ∉ k.held → ∃ s', cacheAcquire s.cache b = .ok (contents sb boot.device actions b,s')) ∧
    (∀ earlier op, actions = earlier++[.endOp op] → s.cache.outstanding = 0 →
      ∀ b, ¬ LogArea sb b → s.cache.device b = contents sb boot.device actions b)

theorem effect_congr (sb : SuperBlock) {one two : Usize → BlockData} {P : Usize → Prop} (action : Action)
    (same : ∀ c, ¬ P c → one c = two c) (out : ∀ b ∈ touches sb one action, ¬ P b) (c : Usize) (outside : ¬ P c) :
    effect sb one action c = effect sb two action c := by
  cases action with
  | modify b d =>
    simp only [effect,Function.update_apply]
    split
    · rfl
    · exact same c outside
  | alloc op =>
    have bitmap := same _ (out (sb.bitmapStart.setWidth 64) List.mem_cons_self)
    rcases walk : firstClear (two (sb.bitmapStart.setWidth 64)) sb.numBlocks.toNat 0 with fault | (_ | i)
    · simpa only [effect,bitmap,walk] using same c outside
    · simpa only [effect,bitmap,walk] using same c outside
    · simp only [effect,bitmap,walk,Function.update_apply,same c outside]
  | free op b =>
    have bitmap := same _ (out (sb.bitmapStart.setWidth 64) List.mem_cons_self)
    simp only [effect,bitmap,Function.update_apply]
    split
    · rfl
    · exact same c outside
  | beginOp op => exact same c outside
  | acquire b => exact same c outside
  | sync op b => exact same c outside
  | release b => exact same c outside
  | endOp op => exact same c outside

theorem run_contents {sb : SuperBlock} {rules : Rules} {s s' : System} {k k' : Client} {flat : Usize → BlockData}
    (good : Good sb rules.strict k s.cache) (on : rules.strict) (area : ∀ b, rules.area b → ¬ LogArea sb b)
    (same : ∀ c, ¬ LogArea sb c → s.cache.view c = flat c) (run : Run sb rules s k actions s' k') :
    ∀ c, ¬ LogArea sb c → s'.cache.view c = contents sb flat actions c := by
  induction run with
  | nil => exact same
  | step earlier permitted inside ran ih =>
    obtain ⟨_,views⟩ := step_good (run_good good area earlier) area permitted inside ran
    intro c outside
    rw [views on c outside,contents,List.foldl_append]
    exact effect_congr sb _ ih (fun b member => area b (inside b member)) c outside

-- With no operation running the log is empty, so nothing is pinned: what is neither
-- held nor dirty is on the device.
theorem Good.settled {sb : SuperBlock} {strict : Prop} {k : Client} {s : BCache} (good : Good sb strict k s)
    (on : strict) (idle : k.running = []) (free : k.held = []) (b : Usize) (out : ¬ LogArea sb b) :
    s.view b = s.device b := by
  refine good.shape.view_device b ?_ ?_
  · rintro (same | dirty)
    · exact out (.inl same)
    · have held := good.synced on b dirty
      rw [free] at held
      cases held
  · have unlisted : ¬ s.pin b = true := by
      rw [good.pinned,good.idle idle]
      exact List.not_mem_nil
    simpa using unlisted

-- An end_op that leaves no operation running was the last one, and nothing was held.
theorem Run.ended {sb : SuperBlock} {rules : Rules} {s s' : System} {k k' : Client} {earlier : List Action}
    (run : Run sb rules s k actions s' k') (last : actions = earlier++[.endOp op]) (idle : k'.running = []) :
    k'.held = [] := by
  cases run with
  | nil => cases earlier <;> cases last
  | @step _ _ between _ _ _ _ permitted _ _ =>
    obtain ⟨_,rfl⟩ := List.append_inj' last rfl |>.imp id (fun same => List.singleton_inj.mp same)
    cases permitted with
    | endOp member only =>
      refine (only ?_).2
      have erased := List.length_erase_of_mem member
      have positive := List.length_pos_of_mem member
      change List.erase _ _ = [] at idle
      rw [idle,List.length_nil] at erased
      obtain ⟨x,same⟩ := List.length_eq_one_iff.mp (show between.running.length = 1 by omega)
      rw [same,List.mem_singleton] at member
      rw [member]
      exact same

theorem cache_transparent (sb : SuperBlock) : Transparent sb (fun b => ¬ LogArea sb b) := by
  intro disk boot ctxs actions s k booted run
  have fresh := boot_good True booted
  have good : Good sb True k s.cache := run_good fresh (fun _ out => out) run
  have same : ∀ c, ¬ LogArea sb c → s.cache.view c = contents sb boot.device actions c :=
    run_contents fresh trivial (fun _ out => out) (fresh.settled trivial rfl rfl) run
  refine ⟨?_,?_⟩
  · intro b out free
    obtain ⟨s',ran,_⟩ := good.acquire out free
    rw [same b out] at ran
    exact ⟨s',ran⟩
  · intro earlier op last outstanding b out
    have idle : k.running = [] := by
      have running := good.running
      rw [outstanding] at running
      exact List.length_eq_zero_iff.mp (by omega)
    rw [← same b out,good.settled trivial idle (run.ended last idle) b out]

-- Boot on an empty disk, a whole operation, and what cache_acquire(b) returns then.
def readAfter (one two b : Usize) : Except Fault (BCache × System × BlockData × BCache) := do
  let boot ← initBcache mkfsSuperBlock (fun _ => 0#4096)
  let s ← performAll mkfsSuperBlock ⟨boot,fun _ => ⟨0⟩⟩ (rewriteTwo one two++[.endOp 0])
  let (d,s') ← cacheAcquire s.cache b
  .ok (boot,s,d,s')

theorem rewriteTwo_ended (rules : Rules) (one two : Usize) (on : rules.commits) :
    ∃ k, PermitsAll rules .idle (rewriteTwo one two++[.endOp 0]) k ∧ k.held = [] := by
  refine ⟨_,.cons (.beginOp List.not_mem_nil) (.cons (.acquire List.not_mem_nil) (.cons (.modify List.mem_cons_self)
    (.cons (.sync List.mem_cons_self List.mem_cons_self) (.cons (.release List.mem_cons_self ?_)
    (.cons (.acquire ?_) (.cons (.modify List.mem_cons_self) (.cons (.sync List.mem_cons_self List.mem_cons_self)
    (.cons (.release List.mem_cons_self ?_) (.cons (.endOp List.mem_cons_self ?_) .nil))))))))),?_⟩ <;>
    simp [Client.idle,on]

-- A commit writes the header block past the cache, so its content changes although
-- nobody held it.
theorem log_header_not_transparent : ¬ Transparent mkfsSuperBlock (fun _ => True) := by
  intro transparent
  obtain ⟨⟨boot,s,d,s'⟩,scene,facts⟩ := Runs.ok_such (x := readAfter 100#64 101#64 2#64)
    (p := fun r => decide (r.2.2.1 ≠ r.1.device 2#64)) (by decide +kernel)
  have changed := of_decide_eq_true facts
  obtain ⟨_,booted,scene⟩ := Runs.bind_ok.mp scene
  obtain ⟨_,ran,scene⟩ := Runs.bind_ok.mp scene
  obtain ⟨⟨_,_⟩,acquired,scene⟩ := Runs.bind_ok.mp scene
  cases scene
  obtain ⟨k,permitted,held⟩ := rewriteTwo_ended ⟨fun _ => True,True,True,True,True⟩ 100#64 101#64 trivial
  obtain ⟨reads,_⟩ := transparent _ boot _ _ s k booted (Run.extend .nil permitted (fun _ _ _ _ _ => trivial) ran)
  obtain ⟨_,acquired'⟩ := reads 2#64 trivial (by rw [held]; exact List.not_mem_nil)
  rw [acquired] at acquired'
  cases acquired'
  exact changed (by simp [contents,rewriteTwo,effect])

theorem cache_transparent_two_blocks : ∃ boot s, initBcache mkfsSuperBlock (fun _ => 0#4096) = .ok boot ∧
    performAll mkfsSuperBlock ⟨boot,fun _ => ⟨0⟩⟩ (rewriteTwo 100#64 101#64++[.endOp 0]) = .ok s ∧
    (∀ b, ¬ LogArea mkfsSuperBlock b → ∃ s', cacheAcquire s.cache b =
      .ok (contents mkfsSuperBlock boot.device (rewriteTwo 100#64 101#64++[.endOp 0]) b,s')) ∧
    ∀ b, ¬ LogArea mkfsSuperBlock b →
      s.cache.device b = contents mkfsSuperBlock boot.device (rewriteTwo 100#64 101#64++[.endOp 0]) b := by
  obtain ⟨⟨boot,s,d,s'⟩,scene,facts⟩ := Runs.ok_such (x := readAfter 100#64 101#64 100#64)
    (p := fun r => decide (r.2.1.cache.outstanding = 0)) (by decide +kernel)
  obtain ⟨_,booted,scene⟩ := Runs.bind_ok.mp scene
  obtain ⟨_,ran,scene⟩ := Runs.bind_ok.mp scene
  obtain ⟨⟨_,_⟩,_,scene⟩ := Runs.bind_ok.mp scene
  cases scene
  obtain ⟨k,permitted,held⟩ := rewriteTwo_ended ⟨fun b => ¬ LogArea mkfsSuperBlock b,True,True,True,True⟩ 100#64 101#64 trivial
  have inside : ∀ action ∈ rewriteTwo 100#64 101#64++[.endOp 0], ∀ view, ∀ b ∈ touches mkfsSuperBlock view action,
      ¬ LogArea mkfsSuperBlock b := by
    intro action member view b touched
    rcases List.mem_append.mp member with first | last
    · rcases rewriteTwo_touches _ _ _ action first view b touched with rfl | rfl <;> decide
    · rw [List.mem_singleton.mp last] at touched
      cases touched
  obtain ⟨reads,stored⟩ := cache_transparent mkfsSuperBlock _ boot _ _ s k booted (Run.extend .nil permitted inside ran)
  refine ⟨boot,s,booted,ran,?_,stored _ 0 rfl (of_decide_eq_true facts)⟩
  intro b out
  exact reads b out (by rw [held]; exact List.not_mem_nil)

end BlockCache
