import HonorKernel.WriteAhead

namespace LogThreads
open DiskFormat Semaphores BlockCache
open Runs (upTo)

-- The states from the call of cache_end_op by `t` up to some later one, oldest first;
-- the call has returned as soon as the thread is idle again.
inductive During (sb : SuperBlock) (guard : State n → Action n → Prop) (t : Fin n) (s : State n) :
    List (State n) → State n → Prop where
  | call : next sb s (.endOp t) = some m → During sb guard t s [s,m] m
  | step : During sb guard t s visited m → (m.threads t).pc ≠ .idle → guard m a → next sb m a = some m' →
      During sb guard t s (visited++[m']) m'

-- A crash right after the return: every block synced with the ctx comes back with a
-- content it had when cache_end_op was called or later.
def Durable (sb : SuperBlock) (guard : State n → Action n → Prop) (t : Fin n) (s : State n) : Prop :=
  ∀ visited m, During sb guard t s visited m → (m.threads t).pc = .idle → ∀ b ∈ (s.threads t).synced,
    ∃ fresh, initBcache sb m.cache.device = .ok fresh ∧ ∃ seen ∈ visited, fresh.device b = seen.cache.view b

def Action.thread : Action n → Fin n
  | .beginOp t | .testLog t | .waitLog t | .acquire t _ | .modify t _ _ | .sync t _ | .syncNull t _ | .release t _
  | .endOp t | .writeHome t | .proceed t => t

section Frames
variable {sb : SuperBlock} {s s' : State n} {t u : Fin n}

theorem put_elsewhere (thread : Thread) (cache : BCache) (sem : Semaphore) (other : u ≠ t) :
    (s.put t thread cache sem).threads u = s.threads u := by simp [other]

theorem wake_elsewhere (thread : Thread) (cache : BCache) (old sem : Semaphore) (procs : List Nat) (other : u ≠ t) :
    ((s.put t thread cache old).wake procs sem).threads u = s.threads u ∨
      ((s.put t thread cache old).wake procs sem).threads u = (s.threads u).wake := by
  simp only [State.wake,put_elsewhere _ _ _ other]
  split
  · exact .inr rfl
  · exact .inl rfl

theorem tryEnter_elsewhere (other : u ≠ t) : (tryEnter s t).threads u = s.threads u := by
  unfold tryEnter
  split <;> simp [other]

theorem checkpointAt_elsewhere (other : u ≠ t) (ran : checkpointAt sb s t i h = some s') :
    s'.threads u = s.threads u ∨ s'.threads u = (s.threads u).wake := by
  unfold checkpointAt at ran
  split at ran
  · split at ran
    · cases ran
    · split at ran
      · cases ran; exact .inl (put_elsewhere _ _ _ other)
      · cases ran
  · cases ran
    exact wake_elsewhere _ _ _ _ _ other

theorem step_elsewhere (action : Action n) (ran : next sb s action = some s') (other : u ≠ action.thread) :
    s'.threads u = s.threads u ∨ s'.threads u = (s.threads u).wake := by
  cases action with
  | beginOp t =>
    simp only [next,beginOp] at ran
    split at ran
    · cases ran
      exact .inl ((tryEnter_elsewhere other).trans (put_elsewhere _ _ _ other))
    · cases ran
  | testLog t =>
    simp only [next,testLog] at ran
    split at ran
    · cases ran; exact .inl (tryEnter_elsewhere other)
    · cases ran
  | waitLog t =>
    simp only [next,waitLog] at ran
    split at ran
    · split at ran <;> cases ran <;> exact .inl (put_elsewhere _ _ _ other)
    · cases ran
  | acquire t b =>
    simp only [next,acquire] at ran
    split at ran
    · split at ran
      · cases ran; exact .inl (put_elsewhere _ _ _ other)
      · cases ran
    · cases ran
  | modify t b d =>
    simp only [next,modify] at ran
    split at ran <;> cases ran
    exact .inl rfl
  | sync t b =>
    simp only [next,sync] at ran
    split at ran
    · split at ran
      · cases ran; exact .inl (put_elsewhere _ _ _ other)
      · cases ran
    · cases ran
  | syncNull t b =>
    simp only [next,syncNull] at ran
    split at ran
    · split at ran
      · cases ran; exact .inl rfl
      · cases ran
    · cases ran
  | release t b =>
    simp only [next,release] at ran
    split at ran
    · split at ran
      · cases ran; exact .inl (put_elsewhere _ _ _ other)
      · cases ran
    · cases ran
  | endOp t =>
    simp only [next,endOp] at ran
    split at ran
    · split at ran
      · split at ran
        · cases ran
          exact wake_elsewhere _ _ _ _ _ other
        · cases ran
      · split at ran
        · have moved := checkpointAt_elsewhere other ran
          exact moved
        · cases ran
    · cases ran
  | writeHome t =>
    simp only [next,writeHome] at ran
    split at ran
    · obtain ⟨block,_,rfl⟩ := Option.map_eq_some_iff.mp ran
      exact .inl (put_elsewhere _ _ _ other)
    · cases ran
  | proceed t =>
    simp only [next,proceed] at ran
    split at ran
    · split at ran
      · have moved := checkpointAt_elsewhere other ran
        exact moved
      · cases ran
    · cases ran

theorem logCopies_device {D : Usize → Prop} {cache cache' : BCache} (count i : Nat) (shape : Shape D cache)
    (ran : upTo (logCopy sb) count i cache = .ok cache') (b : Usize) (out : ∀ j, j < i+count → b ≠ logSlot sb j) :
    cache'.device b = cache.device b := by
  induction count generalizing i cache with
  | zero => cases ran; rfl
  | succ count ih =>
    obtain ⟨middle,copied,rest⟩ := Runs.bind_ok.mp ran
    obtain ⟨_,_,copied⟩ := Runs.bind_ok.mp copied
    obtain ⟨_,_,spec⟩ := copyBlock_parts shape copied
    rw [ih (i+1) spec.shape rest (fun j small => out j (by omega)),spec.device,
      Function.update_of_ne (out i (by omega))]

theorem checkpointAt_device (ran : checkpointAt sb s t i h = some s') (b : Usize) (out : b ≠ logHead sb) :
    s'.cache.device b = s.cache.device b := by
  unfold checkpointAt at ran
  split at ran
  · split at ran
    · cases ran
    · split at ran
      · rename_i acquired
        cases ran
        simp only [State.put_cache,(acquire_disk acquired).device]
      · cases ran
  · cases ran
    exact Function.update_of_ne out _ _

-- Outside the log area a step writes to the device only what the block holds in memory.
theorem step_device (logged : Logged sb s) (action : Action n) (ran : next sb s action = some s') (b : Usize)
    (out : ¬ LogArea sb b) : s'.cache.device b = s.cache.device b ∨ s'.cache.device b = s.cache.view b := by
  have notHead : b ≠ logHead sb := fun same => out (.inl same)
  have written : ∀ c, Function.update s.cache.device c (s.cache.view c) b = s.cache.device b ∨
      Function.update s.cache.device c (s.cache.view c) b = s.cache.view b := by
    intro c
    by_cases same : b = c
    · subst same; exact .inr (Function.update_self ..)
    · exact .inl (Function.update_of_ne same _ _)
  cases action with
  | beginOp t =>
    simp only [next,beginOp,tryEnter] at ran
    split at ran
    · split at ran <;> cases ran <;> exact .inl rfl
    · cases ran
  | testLog t =>
    simp only [next,testLog,tryEnter] at ran
    split at ran
    · split at ran <;> cases ran <;> exact .inl rfl
    · cases ran
  | waitLog t =>
    simp only [next,waitLog] at ran
    split at ran
    · split at ran <;> cases ran <;> exact .inl rfl
    · cases ran
  | acquire t c =>
    simp only [next,acquire] at ran
    split at ran
    · split at ran
      · rename_i acquired
        cases ran
        simp only [State.put_cache,(acquire_disk acquired).device,true_or]
      · cases ran
    · cases ran
  | modify t c d =>
    simp only [next,modify] at ran
    split at ran <;> cases ran
    exact .inl rfl
  | sync t c =>
    simp only [next,sync] at ran
    split at ran
    · split at ran
      · rename_i synced
        cases ran
        obtain ⟨_,_,synced⟩ := Runs.bind_ok.mp synced
        cases synced
        exact .inl rfl
      · cases ran
    · cases ran
  | syncNull t c =>
    simp only [next,syncNull] at ran
    split at ran
    · split at ran
      · rename_i synced
        cases ran
        unfold cacheSync at synced
        dsimp only at synced
        split at synced
        · cases synced
        · rename_i block found
          cases synced
          rw [← view_some found]
          exact written c
      · cases ran
    · cases ran
  | release t c =>
    simp only [next,release] at ran
    split at ran
    · split at ran
      · rename_i released
        cases ran
        simp only [State.put_cache,(release_disk released).device,true_or]
      · cases ran
    · cases ran
  | endOp t =>
    simp only [next,endOp] at ran
    split at ran
    · split at ran
      · split at ran <;> cases ran
        exact .inl rfl
      · split at ran
        · rename_i cache copied
          have slots : ∀ j, j < 0+s.cache.header.numBlocks → b ≠ logSlot sb j := by
            intro j small same
            rw [Nat.zero_add] at small
            exact out (same ▸ logged.base.slot_area small)
          have copies := logCopies_device _ 0 (logged.base.shape.setOutstanding _) copied b slots
          refine .inl ((checkpointAt_device ran b notHead).trans ?_)
          exact (Function.update_of_ne notHead _ _).trans copies
        · cases ran
    · cases ran
  | writeHome t =>
    simp only [next,writeHome] at ran
    split at ran
    · rename_i i c h here
      obtain ⟨block,found,rfl⟩ := Option.map_eq_some_iff.mp ran
      rw [← view_some found]
      exact written c
    · cases ran
  | proceed t =>
    simp only [next,proceed] at ran
    split at ran
    · split at ran
      · rename_i released
        refine .inl ((checkpointAt_device ran b notHead).trans ?_)
        exact congrFun (release_disk released).device b
      · cases ran
    · cases ran

end Frames

section Return
variable {sb : SuperBlock} {guard : State n → Action n → Prop} {s m m' : State n} {t : Fin n} {visited : List (State n)}

-- Some state seen since the call had in memory what is now on the device.
def Kept (visited : List (State n)) (m : State n) (b : Usize) : Prop :=
  ∃ seen ∈ visited, m.cache.device b = seen.cache.view b

theorem During.last (during : During sb guard t s visited m) : m ∈ visited := by
  cases during <;> simp

theorem Kept.step (kept : Kept visited m b) (logged : Logged sb m) (member : m ∈ visited) (action : Action n)
    (ran : next sb m action = some m') (out : ¬ LogArea sb b) : Kept (visited++[m']) m' b := by
  rcases step_device logged action ran b out with same | wrote
  · obtain ⟨seen,present,equal⟩ := kept
    exact ⟨seen,List.mem_append_left _ present,same.trans equal⟩
  · exact ⟨m,List.mem_append_left _ member,wrote⟩

-- How far the checkpoint loop of this cache_end_op has come.
inductive Tracks (sb : SuperBlock) (t : Fin n) (s : State n) (visited : List (State n)) (m : State n) : Prop where
  | home (i : Nat) (b : Usize) (h : LogHeader) (w : Bool) : (m.threads t).pc = .home i b h w →
      h.blocks = s.cache.header.blocks →
      (∀ j, j < h.numBlocks → j < i ∨ w = true ∧ j = i → Kept visited m (h.blockNo j)) → Tracks sb t s visited m
  | done : (m.threads t).pc = .idle → Calm sb m → (∀ b ∈ s.cache.header.blocks, Kept visited m b) →
      Tracks sb t s visited m

theorem calm_after (logged : Logged sb m') (action : Action n) (ran : next sb m action = some m')
    (own : action.thread = t) (idle : (m'.threads t).pc = .idle) (only : ∀ u, u ≠ t → (m.threads u).pc.block = none) :
    Calm sb m' := by
  rcases logged.phase with calm | ⟨u,i,b,h,w,window⟩
  · exact calm
  · have other : u ≠ t := by
      intro same
      subst same
      have here := window.here
      rw [idle] at here
      cases here
    have none := only u other
    rcases step_elsewhere action ran (own ▸ other) with same | woken
    · rw [← same,window.here] at none
      cases none
    · have here := window.here
      rw [woken] at here
      rcases (m.threads u).wake_parts with same | ⟨_,same⟩
      · rw [same] at here
        rw [here] at none
        cases none
      · rw [same] at here
        cases here

theorem checkpointAt_parts (ran : checkpointAt sb m t i h = some m') :
    (i < m.cache.header.numBlocks ∧ ∃ b, (m'.threads t).pc = .home i b h false) ∨
    (m.cache.header.numBlocks ≤ i ∧ (m'.threads t).pc = .idle) := by
  unfold checkpointAt at ran
  split at ran
  · rename_i small
    split at ran
    · cases ran
    · rename_i b _
      split at ran
      · cases ran
        exact .inl ⟨small,b,by simp⟩
      · cases ran
  · rename_i large
    cases ran
    refine .inr ⟨by omega,?_⟩
    simp only [State.wake,State.put_threads,Function.update_self]
    split <;> rfl

-- The call of the last operation enters the loop, or returns when nothing is logged.
theorem call_tracks (logged : Logged sb s) (last : s.cache.outstanding = 1) (ran : next sb s (.endOp t) = some m) :
    Tracks sb t s [s,m] m := by
  have after := step_logged logged (.endOp t) trivial ran
  have called := ran
  simp only [next,endOp] at ran
  split at ran
  · split at ran
    · omega
    · split at ran
      · rename_i cache copied
        have calm := logged.commit_calm copied
        have header : cache.header = s.cache.header := (logCopies_sameLog _ _ copied).1
        rcases checkpointAt_parts ran with ⟨_,b,here⟩ | ⟨empty,idle⟩
        · refine .home 0 b cache.header false here (by rw [header]) ?_
          intro j _ passed
          rcases passed with passed | ⟨off,_⟩
          · omega
          · cases off
        · refine .done idle (calm_after after _ called rfl idle fun u _ => calm.none u) ?_
          intro b member
          change cache.header.numBlocks ≤ 0 at empty
          obtain ⟨j,small,_⟩ := (s.cache.header.mem_blocks b).mp member
          rw [header] at empty
          omega
      · cases ran
  · cases ran

theorem home_thread (here : (m.threads t).pc = .home i b h w) (action : Action n) (ran : next sb m action = some m')
    (own : action.thread = t) : action = .writeHome t ∧ w = false ∨ action = .proceed t ∧ w = true := by
  cases action with
  | writeHome u =>
    obtain rfl : u = t := own
    simp only [next,writeHome,here] at ran
    cases w with
    | false => exact .inl ⟨rfl,rfl⟩
    | true => cases ran
  | proceed u =>
    obtain rfl : u = t := own
    simp only [next,proceed,here] at ran
    cases w with
    | true => exact .inr ⟨rfl,rfl⟩
    | false => cases ran
  | beginOp u => obtain rfl : u = t := own; simp [next,beginOp,here] at ran
  | testLog u => obtain rfl : u = t := own; simp [next,testLog,here] at ran
  | waitLog u => obtain rfl : u = t := own; simp [next,waitLog,here] at ran
  | acquire u c => obtain rfl : u = t := own; simp [next,acquire,here,Pc.free] at ran
  | modify u c d => obtain rfl : u = t := own; simp [next,modify,here,Pc.free] at ran
  | sync u c => obtain rfl : u = t := own; simp [next,sync,here] at ran
  | syncNull u c => obtain rfl : u = t := own; simp [next,syncNull,here,Pc.free] at ran
  | release u c => obtain rfl : u = t := own; simp [next,release,here,Pc.free] at ran
  | endOp u => obtain rfl : u = t := own; simp [next,endOp,here] at ran

theorem home_stays (here : (m.threads t).pc = .home i b h w) (action : Action n) (ran : next sb m action = some m')
    (other : t ≠ action.thread) : (m'.threads t).pc = .home i b h w := by
  rcases step_elsewhere action ran other with same | woken
  · rw [same]; exact here
  · rcases (m.threads t).wake_parts with same | ⟨asleep,_⟩
    · rw [woken,same]; exact here
    · rw [here] at asleep; cases asleep

theorem step_tracks (logged : Logged sb m) (member : m ∈ visited) (tracks : Tracks sb t s visited m)
    (busy : (m.threads t).pc ≠ .idle) (action : Action n) (careful : Careful sb m action)
    (ran : next sb m action = some m') : Tracks sb t s (visited++[m']) m' := by
  cases tracks with
  | done idle => exact absurd idle busy
  | home i b h w here same kept =>
    have after := step_logged logged action careful ran
    have window := logged.window here
    have out : ∀ j, j < h.numBlocks → ¬ LogArea sb (h.blockNo j) := by
      intro j small
      refine logged.base.loggable.outside _ ?_
      rw [window.remaining.header]
      exact (h.mem_blocks _).mpr ⟨j,small,rfl⟩
    have keeps : ∀ j, j < h.numBlocks → j < i ∨ w = true ∧ j = i → Kept (visited++[m']) m' (h.blockNo j) :=
      fun j small passed => (kept j small passed).step logged member action ran (out j small)
    by_cases own : action.thread = t
    · rcases home_thread here action ran own with ⟨rfl,rfl⟩ | ⟨rfl,rfl⟩
      · simp only [next,writeHome,here] at ran
        obtain ⟨block,found,rfl⟩ := Option.map_eq_some_iff.mp ran
        refine .home i b h true (by simp) same ?_
        intro j small passed
        rcases passed with earlier | ⟨_,now⟩
        · exact keeps j small (.inl earlier)
        · subst now
          -- The block just written: the device has what it held before the step.
          refine ⟨m,List.mem_append_left _ member,?_⟩
          rw [window.block]
          exact (Function.update_self ..).trans (view_some found).symm
      · have upTo : ∀ j, j < i+1 → j < i ∨ true = true ∧ j = i := by
          intro j small
          rcases Nat.lt_succ_iff_lt_or_eq.mp small with below | equal
          · exact .inl below
          · exact .inr ⟨rfl,equal⟩
        have called := ran
        simp only [next,proceed,here] at ran
        split at ran
        · rename_i cache released
          have header : cache.header = h := (release_disk released).header.trans window.remaining.header
          rcases checkpointAt_parts ran with ⟨_,c,there⟩ | ⟨large,idle⟩
          · refine .home (i+1) c h false there same ?_
            intro j small passed
            rcases passed with earlier | ⟨off,_⟩
            · exact keeps j small (upTo j earlier)
            · cases off
          · refine .done idle (calm_after after _ called rfl idle window.only) ?_
            intro c listed
            rw [← same] at listed
            obtain ⟨j,small,rfl⟩ := (h.mem_blocks c).mp listed
            change cache.header.numBlocks ≤ i+1 at large
            rw [header] at large
            exact keeps j small (upTo j (by omega))
        · cases ran
    · exact .home i b h w (home_stays here action ran (Ne.symm own)) same keeps

theorem during_tracks (logged : Logged sb s) (last : s.cache.outstanding = 1)
    (during : During sb (Careful sb) t s visited m) : Logged sb m ∧ Tracks sb t s visited m := by
  induction during with
  | call ran => exact ⟨step_logged logged (.endOp t) trivial ran,call_tracks logged last ran⟩
  | step earlier busy careful ran ih =>
    exact ⟨step_logged ih.1 _ careful ran,step_tracks ih.1 earlier.last ih.2 busy _ careful ran⟩

theorem reboot_calm (calm : Calm sb m) (b : Usize) (out : ¬ LogArea sb b) :
    ∃ fresh, initBcache sb m.cache.device = .ok fresh ∧ fresh.device b = m.cache.device b := by
  have loggable : RedoLog.Loggable (logLayout sb) (LogHeader.blocks (m.cache.device (logHead sb))) := by
    rw [calm.retired]
    exact ⟨List.nodup_nil,fun b member => (List.not_mem_nil member).elim,Nat.zero_le _⟩
  obtain ⟨fresh,ran,device,_⟩ := initBcache_spec sb m.cache.device loggable
  have clean : RedoLog.Clean (logLayout sb) m.cache.device m.cache.device := ⟨calm.retired,fun _ _ => rfl⟩
  refine ⟨fresh,ran,?_⟩
  rw [device]
  exact (RedoLog.recover_clean clean LogHeader.reset LogHeader.blocks_reset).2.2 b out

theorem endOp_durable_last (logged : Logged sb s) (last : s.cache.outstanding = 1)
    (running : (s.threads t).pc = .running) (calm : Calm sb s) : Durable sb (Careful sb) t s := by
  intro visited m during idle b member
  obtain ⟨after,tracks⟩ := during_tracks logged last during
  have listed := calm.synced t running b member
  cases tracks with
  | home i c h w here => rw [idle] at here; cases here
  | done _ settled kept =>
    obtain ⟨fresh,ran,device⟩ := reboot_calm settled b (logged.base.loggable.outside b listed)
    obtain ⟨seen,present,same⟩ := kept b listed
    exact ⟨fresh,ran,seen,present,device.trans same⟩

theorem endOp_returns (running : (s.threads t).pc = .running) (more : 1 < s.cache.outstanding)
    (ran : next sb s (.endOp t) = some m) :
    (m.threads t).pc = .idle ∧ m.cache = {s.cache with outstanding := s.cache.outstanding-1} := by
  simp only [next,endOp,running,if_true] at ran
  rw [if_pos (by omega)] at ran
  split at ran
  · cases ran
    refine ⟨?_,rfl⟩
    simp only [State.wake,State.put_threads,Function.update_self]
    split <;> rfl
  · cases ran

theorem During.returned (called : next sb s (.endOp t) = some m) (idle : (m.threads t).pc = .idle)
    (during : During sb guard t s visited m') : m' = m ∧ s ∈ visited := by
  induction during with
  | call ran =>
    rw [called] at ran
    cases ran
    exact ⟨rfl,List.mem_cons_self⟩
  | step _ busy _ _ ih => exact absurd (ih.1 ▸ idle) busy

theorem endOp_durable_other (logged : Logged sb s) (running : (s.threads t).pc = .running)
    (more : 1 < s.cache.outstanding) (called : next sb s (.endOp t) = some m) :
    Durable sb (Careful sb) t s ↔ ∀ b ∈ (s.threads t).synced, s.cache.device b = s.cache.view b := by
  obtain ⟨idle,cache⟩ := endOp_returns running more called
  have reboots : ∀ b ∈ (s.threads t).synced,
      ∃ fresh, initBcache sb m.cache.device = .ok fresh ∧ fresh.device b = s.cache.device b := by
    intro b member
    rcases logged.phase with calm | ⟨u,i,c,h,w,window⟩
    · rw [cache]
      exact reboot_calm calm b (logged.base.loggable.outside b (calm.synced t running b member))
    · rw [window.synced t (by rw [running]; rfl)] at member
      cases member
  constructor
  · intro durable b member
    obtain ⟨fresh,ran,seen,present,same⟩ := durable _ m (.call called) idle b member
    obtain ⟨fresh',ran',device⟩ := reboots b member
    rw [ran] at ran'
    cases ran'
    have views : seen.cache.view b = s.cache.view b := by
      simp only [List.mem_cons,List.not_mem_nil,or_false] at present
      rcases present with rfl | rfl
      · rfl
      · rw [cache]; rfl
    rw [← device,same,views]
  · intro clean visited m' during _ b member
    obtain ⟨rfl,present⟩ := during.returned called idle
    obtain ⟨fresh,boots,device⟩ := reboots b member
    exact ⟨fresh,boots,s,present,device.trans (clean b member)⟩

end Return

theorem endOp_durable_iff {sb : SuperBlock} {start s m : State n} {t : Fin n} (boot : Booted sb start)
    (path : Runs.Guarded (next sb) (Careful sb) start s) (called : next sb s (.endOp t) = some m) :
    Durable sb (Careful sb) t s ↔
      s.cache.outstanding = 1 ∨ ∀ b ∈ (s.threads t).synced, s.cache.device b = s.cache.view b := by
  have logged := guarded_logged boot path
  have running : (s.threads t).pc = .running := by
    by_contra other
    simp [next,endOp,other] at called
  have positive : 1 ≤ s.cache.outstanding := by
    have own : (s.threads t).count = 1 := if_pos running
    have least := Runs.le_total Thread.count s.threads t
    have outstanding := logged.fits.outstanding
    omega
  by_cases last : s.cache.outstanding = 1
  · have calm : Calm sb s := by
      have ran := called
      simp only [next,endOp,running,if_true] at ran
      rw [if_neg (by omega)] at ran
      split at ran
      · rename_i copied
        exact logged.commit_calm copied
      · cases ran
    simp [last,endOp_durable_last logged last running calm]
  · rw [endOp_durable_other logged running (by omega) called]
    simp [last]

-- Two operations overlap: the first to end returns while its block is only in memory.
theorem early_return_not_durable : ¬ ∀ (start s m : State 2) (t : Fin 2), Booted mkfsSuperBlock start →
    Runs.Reached (next mkfsSuperBlock) start s → next mkfsSuperBlock s (.endOp t) = some m →
    Durable mkfsSuperBlock (fun _ _ => True) t s := by
  intro durable
  obtain ⟨⟨start,s⟩,ran,facts⟩ := Runs.some_such
    (x := fromBoot 2 (Runs.exec (next mkfsSuperBlock) · (.beginOp 1::update 0 100#64 1#4096)))
    (p := fun r => decide (100#64 ∈ (r.2.threads 0).synced ∧ r.2.cache.view 100#64 = 1#4096) &&
      (next mkfsSuperBlock r.2 (.endOp 0)).any fun (m : State 2) =>
        decide ((m.threads 0).pc = .idle ∧ m.cache.view 100#64 = 1#4096) &&
          (initBcache mkfsSuperBlock m.cache.device).toOption.any fun (fresh : BCache) => fresh.device 100#64 = 0#4096)
    (by decide +kernel)
  obtain ⟨boot,path⟩ := fromBoot_parts ran
  obtain ⟨before,facts⟩ := Bool.and_eq_true_iff.mp facts
  obtain ⟨synced,view⟩ := of_decide_eq_true before
  obtain ⟨m,called,facts⟩ := Runs.some_such facts
  obtain ⟨after,facts⟩ := Bool.and_eq_true_iff.mp facts
  obtain ⟨idle,view'⟩ := of_decide_eq_true after
  obtain ⟨fresh,boots,lost⟩ := Runs.some_such facts
  obtain ⟨fresh',boots',seen,present,same⟩ :=
    durable start s m 0 boot (Runs.exec_reached .start path) called _ m (.call called) idle 100#64 synced
  rw [Runs.toOption_some boots] at boots'
  cases boots'
  have lost : fresh.device 100#64 = 0#4096 := of_decide_eq_true lost
  have old : seen.cache.view 100#64 = 1#4096 := by
    simp only [List.mem_cons,List.not_mem_nil,or_false] at present
    rcases present with rfl | rfl
    · exact view
    · exact view'
  rw [lost,old] at same
  exact absurd same (by decide +kernel)

theorem endOp_durable_single : ∃ (s m : State 1) (visited : List (State 1)), (s.threads 0).synced = [100#64] ∧
    During mkfsSuperBlock (Careful mkfsSuperBlock) 0 s visited m ∧ (m.threads 0).pc = .idle ∧
    Durable mkfsSuperBlock (Careful mkfsSuperBlock) 0 s := by
  obtain ⟨⟨start,s⟩,ran,facts⟩ := Runs.some_such
    (x := fromBoot 1 (Runs.execGuarded (next mkfsSuperBlock) (Careful mkfsSuperBlock) · (update 0 100#64 1#4096)))
    (p := fun r => decide ((r.2.threads 0).synced = [100#64] ∧ r.2.cache.outstanding = 1) &&
      (next mkfsSuperBlock r.2 (.endOp 0)).any fun (m₁ : State 1) => decide ((m₁.threads 0).pc ≠ .idle) &&
        (next mkfsSuperBlock m₁ (.writeHome 0)).any fun (m₂ : State 1) => decide ((m₂.threads 0).pc ≠ .idle) &&
          (next mkfsSuperBlock m₂ (.proceed 0)).any fun (m : State 1) => decide ((m.threads 0).pc = .idle))
    (by decide +kernel)
  obtain ⟨boot,path⟩ := fromBoot_parts ran
  obtain ⟨before,facts⟩ := Bool.and_eq_true_iff.mp facts
  obtain ⟨synced,last⟩ := of_decide_eq_true before
  obtain ⟨m₁,called,facts⟩ := Runs.some_such facts
  obtain ⟨busy₁,facts⟩ := Bool.and_eq_true_iff.mp facts
  obtain ⟨m₂,wrote,facts⟩ := Runs.some_such facts
  obtain ⟨busy₂,facts⟩ := Bool.and_eq_true_iff.mp facts
  obtain ⟨m,proceeded,idle⟩ := Runs.some_such facts
  have careful₁ : Careful mkfsSuperBlock m₁ (.writeHome 0) := trivial
  have careful₂ : Careful mkfsSuperBlock m₂ (.proceed 0) := trivial
  exact ⟨s,m,_,synced,.step (.step (.call called) (of_decide_eq_true busy₁) careful₁ wrote) (of_decide_eq_true busy₂)
    careful₂ proceeded,of_decide_eq_true idle,
    (endOp_durable_iff boot (Runs.exec_guarded .start path) called).mpr (.inl last)⟩

end LogThreads
