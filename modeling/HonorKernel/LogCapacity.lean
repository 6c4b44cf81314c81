import HonorKernel.LogThreads

namespace LogThreads
open DiskFormat Semaphores BlockCache
open Runs (upTo)

-- What none of the list and device operations of the cache touches.
def SameLog (s s' : BCache) : Prop := s'.header = s.header ∧ s'.outstanding = s.outstanding

theorem acquire_disk (ran : cacheAcquire s b = .ok (d,s')) : SameDisk s s' := by
  unfold cacheAcquire at ran
  split at ran
  · split at ran
    · cases ran; exact ⟨rfl,rfl,rfl,rfl⟩
    · cases ran
  · cases ran; exact ⟨rfl,rfl,rfl,rfl⟩

theorem release_disk (ran : cacheRelease s b = .ok s') : SameDisk s s' := by
  unfold cacheRelease at ran
  split at ran
  · cases ran
  · obtain ⟨_,_,ran⟩ := Runs.bind_ok.mp ran
    cases ran
    exact ⟨rfl,rfl,rfl,rfl⟩

theorem acquire_sameLog (ran : cacheAcquire s b = .ok (d,s')) : SameLog s s' :=
  ⟨(acquire_disk ran).header,(acquire_disk ran).outstanding⟩

theorem release_sameLog (ran : cacheRelease s b = .ok s') : SameLog s s' :=
  ⟨(release_disk ran).header,(release_disk ran).outstanding⟩

theorem copyBlock_sameLog (ran : copyBlock s source target = .ok s') : SameLog s s' := by
  obtain ⟨⟨_,s₁⟩,first,ran⟩ := Runs.bind_ok.mp ran
  obtain ⟨⟨_,s₂⟩,second,ran⟩ := Runs.bind_ok.mp ran
  obtain ⟨s₃,third,fourth⟩ := Runs.bind_ok.mp ran
  have one := acquire_sameLog first
  have two := acquire_sameLog second
  have three := release_sameLog third
  have four := release_sameLog fourth
  exact ⟨four.1.trans (three.1.trans (two.1.trans one.1)),four.2.trans (three.2.trans (two.2.trans one.2))⟩

theorem logCopies_sameLog (count i : Nat) (ran : upTo (logCopy sb) count i s = .ok s') : SameLog s s' := by
  refine Runs.upTo_invariant (fun _ t => SameLog s t) count i ⟨rfl,rfl⟩ ?_ ran
  intro j t t' _ _ before copied
  obtain ⟨_,_,copied⟩ := Runs.bind_ok.mp copied
  have last := copyBlock_sameLog copied
  exact ⟨last.1.trans before.1,last.2.trans before.2⟩

-- A thread between the call of cache_begin_op and that of cache_end_op.
def Pc.inside : Pc → Bool
  | .testing | .waiting | .asleep | .running => true
  | _ => false

def Thread.count (thread : Thread) : Nat := if thread.pc = .running then 1 else 0
def Thread.charge (thread : Thread) : Nat := if thread.pc = .running then thread.rm else 0

-- header.num_blocks and the budgets of the running operations share 62 slots.
structure Fits (s : State n) : Prop where
  distinct : s.cache.header.blocks.Nodup
  outstanding : s.cache.outstanding = Runs.total Thread.count s.threads
  budget : s.cache.header.numBlocks+Runs.total Thread.charge s.threads ≤ 62
  charged : ∀ t, (s.threads t).pc.inside = true → (s.threads t).rm+(s.threads t).added = opMaxNumBlocks

theorem roomFor_iff (header : LogHeader) (outstanding : Int) :
    roomFor header outstanding = true ↔ header.numBlocks+(outstanding+1)*10 < 63 := by
  unfold roomFor
  rw [Bool.not_eq_true',decide_eq_false_iff_not,Int.not_le]
  rfl

section Rules
variable {s s' : State n} {t : Fin n}

-- The accounting sees a thread only through these.
structure Alike (a b : Thread) : Prop where
  running : b.pc = .running ↔ a.pc = .running
  inside : b.pc.inside = true → a.pc.inside = true
  rm : b.rm = a.rm
  added : b.added = a.added

theorem Alike.refl (a : Thread) : Alike a a := ⟨Iff.rfl,id,rfl,rfl⟩

theorem Alike.trans {a b c : Thread} (left : Alike a b) (right : Alike b c) : Alike a c :=
  ⟨right.running.trans left.running,fun is => left.inside (right.inside is),right.rm.trans left.rm,
    right.added.trans left.added⟩

theorem Alike.wake (a : Thread) : Alike a a.wake := by
  unfold Thread.wake
  split
  · rename_i asleep
    exact ⟨by simp [asleep],fun _ => by simp [asleep,Pc.inside],rfl,rfl⟩
  · exact .refl a

theorem Fits.same (fits : Fits s) (log : SameLog s.cache s'.cache) (alike : ∀ u, Alike (s.threads u) (s'.threads u)) :
    Fits s' := by
  have counts : Runs.total Thread.count s'.threads = Runs.total Thread.count s.threads :=
    Runs.total_congr fun u => by simp [Thread.count,(alike u).running]
  have charges : Runs.total Thread.charge s'.threads = Runs.total Thread.charge s.threads :=
    Runs.total_congr fun u => by simp [Thread.charge,(alike u).running,(alike u).rm]
  refine ⟨?_,?_,?_,?_⟩
  · simpa only [log.1] using fits.distinct
  · simpa only [log.2,counts] using fits.outstanding
  · simpa only [log.1,charges] using fits.budget
  · intro u is
    simpa only [(alike u).rm,(alike u).added] using fits.charged u ((alike u).inside is)

theorem Fits.wake (fits : Fits s) (procs : List Nat) (sem : Semaphore) : Fits (s.wake procs sem) := by
  refine fits.same ⟨rfl,rfl⟩ ?_
  intro u
  simp only [State.wake]
  split
  · exact .wake _
  · exact .refl _

theorem Fits.withCache (fits : Fits s) {cache : BCache} (log : SameLog s.cache cache) : Fits {s with cache := cache} :=
  fits.same log fun _ => .refl _

theorem Fits.set (fits : Fits s) {cache : BCache} (log : SameLog s.cache cache) (sem : Semaphore) (thread : Thread)
    (alike : Alike (s.threads t) thread) : Fits (s.put t thread cache sem) := by
  refine fits.same log ?_
  intro u
  by_cases here : u = t
  · subst here; simpa using alike
  · simpa [here] using Alike.refl (s.threads u)

theorem Fits.charged_set (fits : Fits s) (thread : Thread)
    (full : thread.pc.inside = true → thread.rm+thread.added = opMaxNumBlocks) (u : Fin n)
    (is : (Function.update s.threads t thread u).pc.inside = true) :
    (Function.update s.threads t thread u).rm+(Function.update s.threads t thread u).added = opMaxNumBlocks := by
  by_cases here : u = t
  · subst here
    simp only [Function.update_self] at is ⊢
    exact full is
  · simp only [Function.update_of_ne here] at is ⊢
    exact fits.charged u is

theorem Fits.move (fits : Fits s) {cache : BCache} (log : SameLog s.cache cache) (sem : Semaphore)
    (before : (s.threads t).pc ≠ .running) (thread : Thread) (after : thread.pc ≠ .running)
    (full : thread.pc.inside = true → thread.rm+thread.added = opMaxNumBlocks) : Fits (s.put t thread cache sem) := by
  have counts := Runs.total_update Thread.count s.threads t thread
  have charges := Runs.total_update Thread.charge s.threads t thread
  simp only [Thread.count,Thread.charge,before,after,if_false] at counts charges
  have outstanding := fits.outstanding
  have budget := fits.budget
  refine ⟨?_,?_,?_,fits.charged_set thread full⟩
  · simpa only [State.put_cache,log.1] using fits.distinct
  · simp only [State.put_cache,State.put_threads,log.2]
    omega
  · simp only [State.put_cache,State.put_threads,log.1]
    omega

-- A thread is admitted: every running operation holds at most ten slots, so the test
-- of cache_begin_op leaves ten for the new one.
theorem Fits.enter (fits : Fits s) (room : roomFor s.cache.header s.cache.outstanding = true)
    (before : (s.threads t).pc ≠ .running) (full : (s.threads t).rm+(s.threads t).added = opMaxNumBlocks) :
    Fits (s.put t ((s.threads t).goto .running) {s.cache with outstanding := s.cache.outstanding+1} s.logSem) := by
  have counts := Runs.total_update Thread.count s.threads t ((s.threads t).goto .running)
  have charges := Runs.total_update Thread.charge s.threads t ((s.threads t).goto .running)
  have bound : Runs.total Thread.charge s.threads ≤ 10*Runs.total Thread.count s.threads := by
    refine Runs.total_le 10 ?_
    intro u
    by_cases runs : (s.threads u).pc = .running
    · have charged := fits.charged u (by simp [runs,Pc.inside])
      simp only [opMaxNumBlocks] at charged
      simp only [Thread.charge,Thread.count,runs,if_true]
      omega
    · simp [Thread.charge,runs]
  simp only [Thread.count,Thread.charge,Thread.goto_pc,Thread.goto_rm,if_neg before,if_true] at counts charges
  rw [roomFor_iff] at room
  have ten : opMaxNumBlocks = 10 := rfl
  have outstanding := fits.outstanding
  refine ⟨fits.distinct,?_,?_,fits.charged_set _ fun _ => full⟩
  · simp only [State.put_cache,State.put_threads]
    omega
  · simp only [State.put_cache,State.put_threads]
    omega

theorem Fits.leave (fits : Fits s) (before : (s.threads t).pc = .running) (pc : Pc) (out : pc.inside = false)
    (sem : Semaphore) :
    Fits (s.put t ((s.threads t).goto pc) {s.cache with outstanding := s.cache.outstanding-1} sem) := by
  have counts := Runs.total_update Thread.count s.threads t ((s.threads t).goto pc)
  have charges := Runs.total_update Thread.charge s.threads t ((s.threads t).goto pc)
  have after : pc ≠ .running := by intro same; simp [same,Pc.inside] at out
  simp only [Thread.count,Thread.charge,Thread.goto_pc,if_pos before,after,if_false] at counts charges
  have outstanding := fits.outstanding
  have budget := fits.budget
  refine ⟨fits.distinct,?_,?_,fits.charged_set _ fun is => by simp [out] at is⟩
  · simp only [State.put_cache,State.put_threads]
    omega
  · simp only [State.put_cache,State.put_threads]
    omega

theorem Fits.clear (fits : Fits s) (sb : SuperBlock) :
    Fits {s with cache := writeHeader sb {s.cache with header := s.cache.header.setNumBlocks 0}} := by
  refine ⟨?_,fits.outstanding,?_,fits.charged⟩
  · change (s.cache.header.setNumBlocks 0).blocks.Nodup
    rw [LogHeader.blocks_clear]
    exact List.nodup_nil
  · have budget := fits.budget
    have none : (s.cache.header.setNumBlocks 0).numBlocks = 0 := LogHeader.numBlocks_setNumBlocks _ 0 (by decide)
    change (s.cache.header.setNumBlocks 0).numBlocks+Runs.total Thread.charge s.threads ≤ 62
    omega

-- cache_sync moves one slot from the operation's budget to the header, or none.
theorem Fits.record (fits : Fits s) (cache : BCache) (before : (s.threads t).pc = .running)
    (logged : logSync s.cache.header (s.threads t).rm b = .ok (header,rm)) (log : cache.header = header)
    (outstanding : cache.outstanding = s.cache.outstanding) :
    Fits (s.put t ((s.threads t).log b rm) cache s.logSem) := by
  have counts := Runs.total_update Thread.count s.threads t ((s.threads t).log b rm)
  have charges := Runs.total_update Thread.charge s.threads t ((s.threads t).log b rm)
  simp only [Thread.count,Thread.charge,Thread.log_pc,Thread.log_rm,before,if_true] at counts charges
  have full := fits.charged t (by simp [before,Pc.inside])
  have budget := fits.budget
  have known := fits.outstanding
  have parts := logSync_parts logged
  have size : logMaxSize = 63 := rfl
  refine ⟨?_,?_,?_,fits.charged_set _ fun _ => ?_⟩
  · simp only [State.put_cache,log]
    rcases parts with ⟨_,rfl,_⟩ | ⟨absent,room,_,rfl,_⟩
    · exact fits.distinct
    · rw [LogHeader.blocks_record _ _ (by omega)]
      refine List.nodup_append.mpr ⟨fits.distinct,List.nodup_singleton b,?_⟩
      intro x inside y here equal
      rw [List.mem_singleton.mp here] at equal
      exact absent (equal ▸ inside)
  · simp only [State.put_cache,State.put_threads]
    omega
  · simp only [State.put_cache,State.put_threads,log]
    rcases parts with ⟨_,same,_⟩ | ⟨_,room,_,same,_⟩
    · rw [same]; omega
    · rw [same,LogHeader.numBlocks_record _ _ (by omega)]
      omega
  · simp only [Thread.log_rm,Thread.log_added]
    rcases parts with ⟨_,_,same⟩ | ⟨_,_,positive,_,one⟩ <;> omega

theorem Fits.tryEnter (fits : Fits s) (before : (s.threads t).pc ≠ .running)
    (full : (s.threads t).rm+(s.threads t).added = opMaxNumBlocks) : Fits (tryEnter s t) := by
  unfold LogThreads.tryEnter
  split
  · rename_i room
    exact fits.enter room before full
  · exact fits.move ⟨rfl,rfl⟩ _ before _ (by simp) (fun _ => full)

-- The loop sets the thread's place itself, wherever the thread was before.
theorem checkpointAt_goto (sb : SuperBlock) (s : State n) (t : Fin n) (pc : Pc) (i : Nat) (h : LogHeader) :
    checkpointAt sb (s.put t ((s.threads t).goto pc) s.cache s.logSem) t i h = checkpointAt sb s t i h := by
  have again : ∀ last cache sem, (s.put t ((s.threads t).goto pc) s.cache s.logSem).put t
      (((s.threads t).goto pc).goto last) cache sem = s.put t ((s.threads t).goto last) cache sem := by
    intro last cache sem
    simp [State.put,Thread.goto]
  simp only [LogThreads.checkpointAt,State.put_cache,State.put_logSem,State.put_threads,Function.update_self]
  simp only [again]

theorem Fits.checkpointAt (fits : Fits s) (sb : SuperBlock) (before : (s.threads t).pc ≠ .running)
    (ran : checkpointAt sb s t i h = some s') : Fits s' := by
  unfold LogThreads.checkpointAt at ran
  split at ran
  · split at ran
    · cases ran
    · rename_i b _
      split at ran
      · rename_i acquired
        cases ran
        exact fits.move (acquire_sameLog acquired) _ before _ (by simp) (by simp [Pc.inside])
      · cases ran
  · cases ran
    have moved : Fits (s.put t ((s.threads t).goto .idle) s.cache s.logSem) :=
      fits.move ⟨rfl,rfl⟩ _ before _ (by simp) (by simp [Pc.inside])
    exact (moved.clear sb).wake _ _

end Rules

theorem boot_fits {sb : SuperBlock} {s : State n} (boot : Booted sb s) : Fits s := by
  obtain ⟨disk,ran⟩ := boot.cache
  obtain ⟨quiet,empty,_⟩ := boot_quiet ran
  have idle : ∀ t, (s.threads t).pc = .idle := fun t => by rw [boot.threads t]; rfl
  have none : s.cache.header.numBlocks = 0 := by rw [← LogHeader.blocks_length,empty]; rfl
  have counts : Runs.total Thread.count s.threads = 0 := by simp [Runs.total,Thread.count,idle]
  have charges : Runs.total Thread.charge s.threads = 0 := by simp [Runs.total,Thread.charge,idle]
  refine ⟨?_,?_,?_,?_⟩
  · rw [empty]; exact List.nodup_nil
  · rw [quiet.outstanding,counts]; rfl
  · omega
  · intro t is
    simp [idle t,Pc.inside] at is

theorem step_fits {sb : SuperBlock} {s s' : State n} (fits : Fits s) (action : Action n)
    (ran : next sb s action = some s') : Fits s' := by
  cases action with
  | beginOp t =>
    simp only [next,beginOp] at ran
    split at ran
    · rename_i idle
      cases ran
      have entered : Fits (s.put t (s.threads t).enter s.cache s.logSem) :=
        fits.move ⟨rfl,rfl⟩ _ (by simp [idle]) _ (by simp [idle]) (by simp [idle,Pc.inside])
      exact entered.tryEnter (by simp [idle]) (by simp)
    · cases ran
  | testLog t =>
    simp only [next,testLog] at ran
    split at ran
    · rename_i testing
      cases ran
      exact fits.tryEnter (by simp [testing]) (fits.charged t (by simp [testing,Pc.inside]))
    · cases ran
  | waitLog t =>
    simp only [next,waitLog] at ran
    split at ran
    · rename_i waiting
      have full := fits.charged t (by simp [waiting,Pc.inside])
      split at ran
      · cases ran
        exact fits.move ⟨rfl,rfl⟩ _ (by simp [waiting]) _ (by simp) (fun _ => full)
      · cases ran
        exact fits.move ⟨rfl,rfl⟩ _ (by simp [waiting]) _ (by simp) (fun _ => full)
    · cases ran
  | acquire t b =>
    simp only [next,acquire] at ran
    split at ran
    · split at ran
      · rename_i acquired
        cases ran
        exact fits.set (acquire_sameLog acquired) _ _ ⟨Iff.rfl,id,rfl,rfl⟩
      · cases ran
    · cases ran
  | modify t b d =>
    simp only [next,modify] at ran
    split at ran
    · cases ran
      exact fits.withCache ⟨rfl,rfl⟩
    · cases ran
  | sync t b =>
    simp only [next,sync] at ran
    split at ran
    · rename_i running
      split at ran
      · rename_i ctx cache synced
        cases ran
        obtain ⟨⟨header,rm⟩,logged,synced⟩ := Runs.bind_ok.mp synced
        cases synced
        exact fits.record {s.cache.modify b (fun x => {x with pinned := true}) with header := header} running.1 logged
          rfl rfl
      · cases ran
    · cases ran
  | syncNull t b =>
    simp only [next,syncNull] at ran
    split at ran
    · split at ran
      · rename_i synced
        cases ran
        unfold cacheSync at synced
        dsimp only at synced
        split at synced
        · cases synced
        · cases synced
          exact fits.withCache ⟨rfl,rfl⟩
      · cases ran
    · cases ran
  | release t b =>
    simp only [next,release] at ran
    split at ran
    · split at ran
      · rename_i released
        cases ran
        exact fits.set (release_sameLog released) _ _ ⟨Iff.rfl,id,rfl,rfl⟩
      · cases ran
    · cases ran
  | endOp t =>
    simp only [next,endOp] at ran
    split at ran
    · rename_i running
      have left := fits.leave running .idle rfl s.logSem
      split at ran
      · split at ran
        · cases ran
          exact left.wake _ _
        · cases ran
      · split at ran
        · rename_i cache copied
          rw [← checkpointAt_goto sb _ t .idle] at ran
          have log := logCopies_sameLog _ _ copied
          have copies : Fits (s.put t ((s.threads t).goto .idle) (writeHeader sb cache) s.logSem) :=
            left.withCache ⟨log.1,log.2⟩
          exact copies.checkpointAt sb (by simp) ran
        · cases ran
    · cases ran
  | writeHome t =>
    simp only [next,writeHome] at ran
    split at ran
    · rename_i i b h pc
      obtain ⟨block,_,rfl⟩ := Option.map_eq_some_iff.mp ran
      have before : (s.threads t).pc ≠ .running := by simp [pc]
      have log : SameLog s.cache (deviceWrite s.cache b block.data) := ⟨rfl,rfl⟩
      exact fits.move log _ before _ (by simp) (by simp [Pc.inside])
    · cases ran
  | proceed t =>
    simp only [next,proceed] at ran
    split at ran
    · rename_i i b h pc
      split at ran
      · rename_i cache released
        have log := release_sameLog released
        have freed : Fits {s with cache := cache} := fits.withCache ⟨log.1,log.2⟩
        exact freed.checkpointAt sb (by simp [pc]) ran
      · cases ran
    · cases ran

theorem reached_fits {sb : SuperBlock} {start s : State n} (boot : Booted sb start)
    (path : Runs.Reached (next sb) start s) : Fits s :=
  path.invariant Fits (boot_fits boot) fun _ action _ fits _ ran => step_fits fits action ran

theorem rm_le_charges {s : State n} {t : Fin n} (running : (s.threads t).pc = .running) :
    (s.threads t).rm ≤ Runs.total Thread.charge s.threads := by
  have own : (s.threads t).charge = (s.threads t).rm := if_pos running
  have least := Runs.le_total Thread.charge s.threads t
  omega

-- The operation that brings log.outstanding to zero is the only one running.
theorem Fits.last {s : State n} (fits : Fits s) {t u : Fin n} (one : s.cache.outstanding ≤ 1)
    (running : (s.threads t).pc = .running) (other : u ≠ t) : (s.threads u).pc ≠ .running := by
  intro runs
  have outstanding := fits.outstanding
  have rest := Runs.total_update Thread.count s.threads t .new
  have least := Runs.le_total Thread.count (Function.update s.threads t .new) u
  rw [Function.update_of_ne other] at least
  have self : (s.threads t).count = 1 := if_pos running
  have second : (s.threads u).count = 1 := if_pos runs
  have none : Thread.new.count = 0 := rfl
  omega

-- A running operation charges at most one slot for a block that is not listed yet, and
-- only its eleventh such block can stop it.
theorem Fits.sync_fails {s : State n} (fits : Fits s) {t : Fin n} (running : (s.threads t).pc = .running)
    (failed : logSync s.cache.header (s.threads t).rm b = .error fault) :
    fault = .logLimit ∧ (s.threads t).added = 10 ∧ b ∉ s.cache.header.blocks := by
  have budget := fits.budget
  have charged := fits.charged t (by simp [running,Pc.inside])
  simp only [opMaxNumBlocks] at charged
  have own := rm_le_charges running
  unfold logSync at failed
  split at failed
  · cases failed
  · rename_i absent
    split at failed
    · rename_i full
      simp only [logMaxSize,blockSize] at full
      omega
    · rename_i room
      have recorded := LogHeader.numBlocks_record s.cache.header b (by omega)
      split at failed
      · rename_i stops
        cases failed
        refine ⟨rfl,?_,by simpa using absent⟩
        rw [recorded] at stops
        simp only [logMaxSize,blockSize] at stops
        omega
      · cases failed

end LogThreads
