import HonorKernel.WriteAhead

namespace LogThreads
open DiskFormat Semaphores BlockCache

-- A block that its operation has synced before is still in the header.
def Listed (s : State n) : Action n → Prop
  | .sync t b => b ∈ (s.threads t).synced → b ∈ s.cache.header.blocks
  | _ => True

-- Nobody syncs with a ctx while a checkpoint loop has log_lock released.
def Apart (s : State n) : Action n → Prop
  | .sync _ _ => ¬ Committing s
  | _ => True

-- An operation that has not been let in yet has synced nothing.
def Fresh (s : State n) : Prop :=
  ∀ t, (s.threads t).pc.inside = true → (s.threads t).pc ≠ .running → (s.threads t).synced = [] ∧ (s.threads t).added = 0

-- What a step other than a sync does to the operations: each of them begins, or stays as
-- it is; the header is emptied by a commit that was under way, or finds nobody running.
structure Around (s s' : State n) : Prop where
  threads : ∀ t, (s'.threads t).pc.inside = true → (s'.threads t).synced = [] ∧ (s'.threads t).added = 0 ∨
    (s'.threads t).pc = .running ∧ (s.threads t).pc = .running ∧ (s'.threads t).synced = (s.threads t).synced ∧
      (s'.threads t).added = (s.threads t).added
  header : s'.cache.header = s.cache.header ∨ Committing s ∨ ∀ t, (s'.threads t).pc ≠ .running
  commit : Committing s' → Committing s ∨ ∀ t, (s'.threads t).pc ≠ .running

instance (s : State n) (action : Action n) : Decidable (Listed s action) :=
  match action with
  | .sync t b => inferInstanceAs (Decidable (b ∈ (s.threads t).synced → b ∈ s.cache.header.blocks))
  | .beginOp _ | .testLog _ | .waitLog _ | .acquire _ _ | .modify _ _ _ | .syncNull _ _ | .release _ _ | .endOp _
  | .writeHome _ | .proceed _ => instDecidableTrue

instance (s : State n) (action : Action n) : Decidable (Apart s action) :=
  match action with
  | .sync _ _ => inferInstanceAs (Decidable (¬ Committing s))
  | .beginOp _ | .testLog _ | .waitLog _ | .acquire _ _ | .modify _ _ _ | .syncNull _ _ | .release _ _ | .endOp _
  | .writeHome _ | .proceed _ => instDecidableTrue

section Steps
variable {sb : SuperBlock} {s s' : State n} {t : Fin n} {b : Usize}

theorem Fresh.stays (fresh : Fresh s) (u : Fin n) (inside : (s.threads u).pc.inside = true) :
    (s.threads u).synced = [] ∧ (s.threads u).added = 0 ∨ (s.threads u).pc = .running := by
  by_cases running : (s.threads u).pc = .running
  · exact .inr running
  · exact .inl (fresh u inside running)

theorem Around.put (fresh : Fresh s) {thread : Thread} {cache : BCache} {sem : Semaphore}
    (header : cache.header = s.cache.header) (operation : thread.pc.inside = true → thread.synced = [] ∧
    thread.added = 0 ∨
      thread.pc = .running ∧ (s.threads t).pc = .running ∧ thread.synced = (s.threads t).synced ∧
      thread.added = (s.threads t).added)
    (commit : thread.pc.block.isSome = true → (s.threads t).pc.block.isSome = true) :
    Around s (s.put t thread cache sem) := by
  refine ⟨?_,.inl header,?_⟩
  · intro u inside
    by_cases here : u = t
    · subst here
      simp only [State.put_threads,Function.update_self] at inside ⊢
      exact operation inside
    · simp only [State.put_threads,Function.update_of_ne here] at inside ⊢
      exact (fresh.stays u inside).imp_right fun running => ⟨running,running,trivial,trivial⟩
  · rintro ⟨u,block⟩
    refine .inl ?_
    by_cases here : u = t
    · subst here
      simp only [State.put_threads,Function.update_self] at block
      exact ⟨u,commit block⟩
    · simp only [State.put_threads,Function.update_of_ne here] at block
      exact ⟨u,block⟩

theorem Around.fresh (around : Around s s') : Fresh s' := by
  intro t inside other
  rcases around.threads t inside with empty | ⟨running,_⟩
  · exact empty
  · exact absurd running other

theorem State.put_self (s : State n) (t : Fin n) : s.put t (s.threads t) s.cache s.logSem = s := by
  simp [State.put]

theorem wake_thread (s : State n) (procs : List Nat) (sem : Semaphore) (u : Fin n) :
    (s.wake procs sem).threads u = s.threads u ∨
    (s.threads u).pc = .asleep ∧ (s.wake procs sem).threads u = (s.threads u).goto .testing := by
  simp only [State.wake]
  split
  · exact (s.threads u).wake_parts
  · exact .inl rfl

theorem Around.wake (around : Around s s') (procs : List Nat) (sem : Semaphore) : Around s (s'.wake procs sem) := by
  have idle : (∀ u, (s'.threads u).pc ≠ .running) → ∀ u, ((s'.wake procs sem).threads u).pc ≠ .running := by
    intro none u
    rcases wake_thread s' procs sem u with same | ⟨_,same⟩ <;> rw [same]
    · exact none u
    · simp
  refine ⟨?_,around.header.imp_right fun rest => rest.imp_right idle,?_⟩
  · intro u inside
    rcases wake_thread s' procs sem u with same | ⟨asleep,same⟩
    · rw [same] at inside ⊢
      exact around.threads u inside
    · rw [same]
      exact .inl (around.fresh u (by rw [asleep]; rfl) (by simp [asleep]))
  · rintro ⟨u,block⟩
    refine (around.commit ⟨u,?_⟩).imp_right idle
    rcases wake_thread s' procs sem u with same | ⟨asleep,same⟩
    · rwa [same] at block
    · rw [same] at block
      cases block

-- The checkpoint loop at its test: nobody is running, or a commit was under way before.
theorem checkpointAt_around (fresh : Fresh s) (outside : (s.threads t).pc.inside = false)
    (alone : Committing s ∨ ∀ u, (s.threads u).pc ≠ .running) (ran : checkpointAt sb s t i h = some s') :
    Around s s' := by
  have still : ∀ (pc : Pc) cache sem, pc.inside = false → (∀ u, (s.threads u).pc ≠ .running) →
      ∀ u, ((s.put t ((s.threads t).goto pc) cache sem).threads u).pc ≠ .running := by
    intro pc cache sem out none u
    by_cases here : u = t
    · subst here
      simp only [State.put_threads,Function.update_self,Thread.goto_pc]
      rintro rfl
      cases out
    · simp only [State.put_threads,Function.update_of_ne here]
      exact none u
  have moved : ∀ (pc : Pc) cache sem, pc.inside = false → Around s (s.put t ((s.threads t).goto pc) cache sem) := by
    intro pc cache sem out
    refine ⟨?_,.inr (alone.imp_right (still pc cache sem out)),fun _ => alone.imp_right (still pc cache sem out)⟩
    intro u inside
    by_cases here : u = t
    · subst here
      simp only [State.put_threads,Function.update_self,Thread.goto_pc] at inside
      rw [out] at inside
      cases inside
    · simp only [State.put_threads,Function.update_of_ne here] at inside ⊢
      exact (fresh.stays u inside).imp_right fun running => ⟨running,running,trivial,trivial⟩
  unfold LogThreads.checkpointAt at ran
  split at ran
  · split at ran
    · cases ran
    · split at ran
      · cases ran
        exact moved _ _ _ rfl
      · cases ran
  · cases ran
    exact (moved .idle _ _ rfl).wake _ _

theorem Around.after {s₁ : State n} (around : Around s₁ s') (header : s₁.cache.header = s.cache.header)
    (out : (s₁.threads t).pc = .idle) (others : ∀ u, u ≠ t → s₁.threads u = s.threads u) : Around s s' := by
  have busy : ∀ u, (s₁.threads u).pc ≠ .idle → s₁.threads u = s.threads u :=
    fun u there => others u fun same => there (same ▸ out)
  have commit : Committing s₁ → Committing s := by
    rintro ⟨u,block⟩
    rw [busy u fun idle => by rw [idle] at block; cases block] at block
    exact ⟨u,block⟩
  refine ⟨?_,?_,fun after => (around.commit after).imp_left commit⟩
  · intro u inside
    rcases around.threads u inside with empty | ⟨after,before,synced,added⟩
    · exact .inl empty
    · have same : s₁.threads u = s.threads u := by
        refine busy u fun idle => ?_
        rw [idle] at before
        cases before
      rw [same] at before synced added
      exact .inr ⟨after,before,synced,added⟩
  · rw [← header]
    exact around.header.imp_right fun rest => rest.imp_left commit

theorem tryEnter_around (fresh : Fresh s) (thread : Thread) (empty : thread.synced = [] ∧ thread.added = 0) :
    Around s (tryEnter (s.put t thread s.cache s.logSem) t) := by
  have again : ∀ (last : Thread) cache sem, (s.put t thread s.cache s.logSem).put t last cache sem = s.put t last cache sem := by
    intro last cache sem
    simp [State.put]
  unfold tryEnter
  simp only [State.put_cache,State.put_logSem,State.put_threads,Function.update_self,again]
  split
  · exact .put fresh rfl (fun _ => .inl empty) fun block => by cases block
  · exact .put fresh rfl (fun _ => .inl empty) fun block => by cases block

theorem Around.work (fresh : Fresh s) {thread : Thread} {cache : BCache} {sem : Semaphore}
    (header : cache.header = s.cache.header) (pc : thread.pc = (s.threads t).pc)
    (synced : thread.synced = (s.threads t).synced) (added : thread.added = (s.threads t).added) :
    Around s (s.put t thread cache sem) := by
  refine .put fresh header ?_ fun block => pc ▸ block
  intro inside
  rw [pc] at inside
  rw [pc,synced,added]
  exact (fresh.stays t inside).imp_right fun running => ⟨running,running,rfl,rfl⟩

theorem Around.withCache (fresh : Fresh s) {cache : BCache} (header : cache.header = s.cache.header) : Around s {s with cache := cache} :=
  ⟨fun u inside => (fresh.stays u inside).imp_right fun running => ⟨running,running,rfl,rfl⟩,.inl header,.inl⟩

theorem step_around (fresh : Fresh s) (fits : Fits s) (a : Action n) (other : ∀ t b, a ≠ .sync t b)
    (ran : next sb s a = some s') :
    Around s s' := by
  cases a with
  | beginOp t =>
    simp only [next,beginOp] at ran
    split at ran
    · cases ran
      exact tryEnter_around fresh _ ⟨rfl,rfl⟩
    · cases ran
  | testLog t =>
    simp only [next,testLog] at ran
    split at ran
    · rename_i testing
      cases ran
      have around := tryEnter_around (t := t) fresh (s.threads t) (fresh t (by rw [testing]; rfl) (by simp [testing]))
      rwa [State.put_self] at around
    · cases ran
  | waitLog t =>
    simp only [next,waitLog] at ran
    split at ran
    · rename_i waiting
      have empty := fresh t (by rw [waiting]; rfl) (by simp [waiting])
      split at ran
      · cases ran
        exact .put fresh rfl (fun _ => .inl empty) fun block => by cases block
      · cases ran
        exact .put fresh rfl (fun _ => .inl empty) fun block => by cases block
    · cases ran
  | acquire t b =>
    simp only [next,acquire] at ran
    split at ran
    · split at ran
      · rename_i acquired
        cases ran
        exact .work fresh (acquire_sameLog acquired).1 rfl rfl rfl
      · cases ran
    · cases ran
  | modify t b d =>
    simp only [next,modify] at ran
    split at ran
    · cases ran
      exact .withCache fresh rfl
    · cases ran
  | sync t b => exact absurd rfl (other t b)
  | syncNull t b =>
    simp only [next,syncNull] at ran
    split at ran
    · split at ran
      · rename_i synced
        cases ran
        unfold cacheSync at synced
        dsimp only at synced
        split at synced
        · cases synced
        · cases synced
          exact .withCache fresh rfl
      · cases ran
    · cases ran
  | release t b =>
    simp only [next,release] at ran
    split at ran
    · split at ran
      · rename_i released
        cases ran
        exact .work fresh (release_sameLog released).1 rfl rfl rfl
      · cases ran
    · cases ran
  | endOp t =>
    simp only [next,endOp] at ran
    split at ran
    · rename_i running
      split at ran
      · split at ran
        · cases ran
          have left : Around s (s.put t ((s.threads t).goto .idle) {s.cache with outstanding := s.cache.outstanding-1} s.logSem) :=
            .put fresh rfl (fun inside => by cases inside) fun block => by cases block
          exact left.wake _ _
        · cases ran
      · rename_i last
        split at ran
        · rename_i cache copied
          rw [← checkpointAt_goto sb _ t .idle] at ran
          have log := logCopies_sameLog _ _ copied
          have one : s.cache.outstanding ≤ 1 := by
            have ended : s.cache.outstanding-1 ≤ 0 := Int.not_lt.mp last
            omega
          refine Around.after (checkpointAt_around (t := t) ?_ ?_ (.inr ?_) ran) (t := t) log.1 ?_ ?_
          · intro u inside other
            by_cases here : u = t
            · subst here
              simp [Pc.inside] at inside
            · simp only [State.put_threads,Function.update_of_ne here] at inside other ⊢
              exact fresh u inside other
          · simp [Pc.inside]
          · intro u
            by_cases here : u = t
            · subst here
              simp
            · simpa [here] using fits.last one running here
          · simp
          · intro u here
            simp [here]
        · cases ran
    · cases ran
  | writeHome t =>
    simp only [next,writeHome] at ran
    split at ran
    · rename_i i b h pc
      obtain ⟨block,_,rfl⟩ := Option.map_eq_some_iff.mp ran
      exact .put fresh rfl (fun inside => by cases inside) fun _ => by rw [pc]; rfl
    · cases ran
  | proceed t =>
    simp only [next,proceed] at ran
    split at ran
    · rename_i i b h pc
      split at ran
      · rename_i cache released
        have log := release_sameLog released
        have around := checkpointAt_around (s := {s with cache := cache}) (t := t) fresh (by simp only [pc]; rfl)
          (.inl ⟨t,by simp only [pc]; rfl⟩) ran
        exact ⟨around.threads,.inr (.inl ⟨t,by rw [pc]; rfl⟩),around.commit⟩
      · cases ran
    · cases ran

-- A sync adds its block to what the operation has synced and to the header.
theorem sync_parts (ran : next sb s (.sync t b) = some s') : (s.threads t).pc = .running ∧ ∃ header rm cache,
    logSync s.cache.header (s.threads t).rm b = .ok (header,rm) ∧ cache.header = header ∧
    s' = s.put t ((s.threads t).log b rm) cache s.logSem := by
  simp only [next,sync] at ran
  split at ran
  · rename_i running
    split at ran
    · rename_i ctx cache synced
      cases ran
      obtain ⟨⟨header,rm⟩,logged,synced⟩ := Runs.bind_ok.mp synced
      cases synced
      exact ⟨running.1,header,rm,_,logged,rfl,rfl⟩
    · cases ran
  · cases ran

theorem logSync_lists {header header' : LogHeader} {rm rm' : Nat} (logged : logSync header rm b = .ok (header',rm')) :
    ∀ c, c = b ∨ c ∈ header.blocks → c ∈ header'.blocks := by
  rcases logSync_parts logged with ⟨present,rfl,_⟩ | ⟨_,room,_,rfl,_⟩
  · rintro c (rfl | member)
    · exact present
    · exact member
  · have blocks := LogHeader.blocks_record header b (by omega)
    rintro c (rfl | member)
    · simp [blocks]
    · simp [blocks,member]

theorem Fresh.sync (fresh : Fresh s) (ran : next sb s (.sync t b) = some s') : Fresh s' := by
  obtain ⟨running,header,rm,cache,_,_,rfl⟩ := sync_parts ran
  intro u inside other
  by_cases here : u = t
  · subst here
    simp only [State.put_threads,Function.update_self,Thread.log_pc] at other
    exact absurd running other
  · simp only [State.put_threads,Function.update_of_ne here] at inside other ⊢
    exact fresh u inside other

theorem step_fresh (fresh : Fresh s) (fits : Fits s) (a : Action n) (ran : next sb s a = some s') : Fresh s' := by
  by_cases syncs : ∃ t b, a = .sync t b
  · obtain ⟨t,b,rfl⟩ := syncs
    exact fresh.sync ran
  · exact (step_around fresh fits a (fun t b is => syncs ⟨t,b,is⟩) ran).fresh

-- The header entries an operation was charged for are blocks of its own.
structure Charged (s : State n) : Prop where
  fits : Fits s
  fresh : Fresh s
  distinct : ∀ t, (s.threads t).pc = .running → (s.threads t).added ≤ (s.threads t).synced.toFinset.card

theorem step_charged (charged : Charged s) (a : Action n) (listed : Listed s a) (ran : next sb s a = some s') :
    Charged s' := by
  refine ⟨step_fits charged.fits a ran,step_fresh charged.fresh charged.fits a ran,?_⟩
  by_cases syncs : ∃ t b, a = .sync t b
  · obtain ⟨t,b,rfl⟩ := syncs
    obtain ⟨running,header,rm,cache,logged,_,rfl⟩ := sync_parts ran
    intro u runs
    by_cases here : u = t
    · subst here
      simp only [State.put_threads,Function.update_self,Thread.log_added,Thread.log_synced,List.toFinset_cons]
      have before := charged.distinct u running
      rcases logSync_parts logged with ⟨_,_,same⟩ | ⟨absent,_,positive,_,one⟩
      · have more := Finset.card_le_card (Finset.subset_insert b (s.threads u).synced.toFinset)
        omega
      · have new : b ∉ (s.threads u).synced.toFinset := fun member => absent (listed (List.mem_toFinset.mp member))
        rw [Finset.card_insert_of_notMem new]
        omega
    · simp only [State.put_threads,Function.update_of_ne here] at runs ⊢
      exact charged.distinct u runs
  · have around := step_around charged.fresh charged.fits a (fun t b is => syncs ⟨t,b,is⟩) ran
    intro u runs
    rcases around.threads u (by rw [runs]; rfl) with ⟨synced,added⟩ | ⟨_,before,synced,added⟩
    · rw [synced,added]
      exact Nat.zero_le _
    · rw [synced,added]
      exact charged.distinct u before

-- What the running operations have synced is in the header, and none of them has synced
-- anything while a commit is under way.
structure Retained (s : State n) : Prop where
  fits : Fits s
  fresh : Fresh s
  commit : Committing s → ∀ t, (s.threads t).pc = .running → (s.threads t).synced = []
  header : ∀ t, (s.threads t).pc = .running → ∀ b ∈ (s.threads t).synced, b ∈ s.cache.header.blocks

theorem step_retained (kept : Retained s) (a : Action n) (apart : Apart s a) (ran : next sb s a = some s') :
    Retained s' := by
  refine ⟨step_fits kept.fits a ran,step_fresh kept.fresh kept.fits a ran,?_,?_⟩
  · intro commits u runs
    by_cases syncs : ∃ t b, a = .sync t b
    · obtain ⟨t,b,rfl⟩ := syncs
      obtain ⟨running,header,rm,cache,logged,_,rfl⟩ := sync_parts ran
      obtain ⟨v,block⟩ := commits
      refine absurd ⟨v,?_⟩ apart
      have same : ((s.put t ((s.threads t).log b rm) cache s.logSem).threads v).pc = (s.threads v).pc := put_pc (Thread.log_pc ..) v
      rwa [same] at block
    · have around := step_around kept.fresh kept.fits a (fun t b is => syncs ⟨t,b,is⟩) ran
      rcases around.commit commits with before | nobody
      · rcases around.threads u (by rw [runs]; rfl) with ⟨synced,_⟩ | ⟨_,was,synced,_⟩
        · exact synced
        · rw [synced]
          exact kept.commit before u was
      · exact absurd runs (nobody u)
  · intro u runs c member
    by_cases syncs : ∃ t b, a = .sync t b
    · obtain ⟨t,b,rfl⟩ := syncs
      obtain ⟨running,header,rm,cache,logged,same,rfl⟩ := sync_parts ran
      rw [State.put_cache,same]
      refine logSync_lists logged c ?_
      by_cases here : u = t
      · subst here
        simp only [State.put_threads,Function.update_self,Thread.log_synced] at member
        rcases List.mem_cons.mp member with new | old
        · exact .inl new
        · exact .inr (kept.header u running c old)
      · simp only [State.put_threads,Function.update_of_ne here] at runs member
        exact .inr (kept.header u runs c member)
    · have around := step_around kept.fresh kept.fits a (fun t b is => syncs ⟨t,b,is⟩) ran
      rcases around.threads u (by rw [runs]; rfl) with ⟨synced,_⟩ | ⟨_,was,synced,_⟩
      · rw [synced] at member
        cases member
      · rw [synced] at member
        rcases around.header with same | before | nobody
        · rw [same]
          exact kept.header u was c member
        · rw [kept.commit before u was] at member
          cases member
        · exact absurd runs (nobody u)

end Steps

theorem boot_fresh {s : State n} (boot : Booted sb s) : Fresh s := by
  intro t inside
  rw [boot.threads t] at inside
  cases inside

theorem guarded_charged {sb : SuperBlock} {start s : State n} (boot : Booted sb start)
    (path : Runs.Guarded (next sb) Listed start s) : Charged s := by
  refine path.invariant Charged ⟨boot_fits boot,boot_fresh boot,?_⟩ fun _ a _ charged listed ran => step_charged charged a listed ran
  intro t running
  rw [boot.threads t] at running
  cases running

theorem guarded_retained {sb : SuperBlock} {start s : State n} (boot : Booted sb start)
    (path : Runs.Guarded (next sb) Apart start s) : Retained s := by
  have none : ∀ t, (start.threads t).pc ≠ .running := by
    intro t running
    rw [boot.threads t] at running
    cases running
  refine path.invariant Retained ⟨boot_fits boot,boot_fresh boot,?_,?_⟩ fun _ a _ kept apart ran => step_retained kept a apart ran
  · intro _ t running
    exact absurd running (none t)
  · intro t running
    exact absurd running (none t)

-- An operation without budget stops at a block that is not in the header.
theorem logSync_stops {header : LogHeader} (room : header.numBlocks < logMaxSize) (absent : b ∉ header.blocks) :
    logSync header 0 b = .error .logLimit := by
  unfold logSync
  rw [if_neg (by simpa using absent),if_neg (by omega),if_pos (.inl rfl)]

-- Exactly when a sync stops at the eleventh block of its operation, if it stops.
theorem Charged.eleventh {s : State n} (charged : Charged s) {t : Fin n} (running : (s.threads t).pc = .running)
    (b : Usize) :
    (∀ fault, logSync s.cache.header (s.threads t).rm b = .error fault →
      fault = .logLimit ∧ opMaxNumBlocks < (b::(s.threads t).synced).toFinset.card) ↔
    (b ∈ (s.threads t).synced → b ∈ s.cache.header.blocks) ∨ 0 < (s.threads t).rm ∨
    opMaxNumBlocks < (s.threads t).synced.toFinset.card := by
  have distinct := charged.distinct t running
  have budget := charged.fits.budget
  have size : logMaxSize = 63 := rfl
  have ten : opMaxNumBlocks = 10 := rfl
  constructor
  · intro stops
    by_contra neither
    simp only [not_or,Classical.not_imp,not_lt] at neither
    obtain ⟨⟨again,absent⟩,spent,few⟩ := neither
    rw [Nat.le_zero.mp spent] at stops
    have more := (stops _ (logSync_stops (by omega) absent)).2
    rw [List.toFinset_cons,Finset.insert_eq_of_mem (List.mem_toFinset.mpr again)] at more
    omega
  · intro met fault failed
    obtain ⟨limit,full,absent⟩ := charged.fits.sync_fails running failed
    refine ⟨limit,?_⟩
    have full' := charged.fits.charged t (by rw [running]; rfl)
    rw [List.toFinset_cons]
    rcases met with listed | positive | many
    · have new : b ∉ (s.threads t).synced.toFinset := fun member => absent (listed (List.mem_toFinset.mp member))
      rw [Finset.card_insert_of_notMem new]
      omega
    · omega
    · have more := Finset.card_le_card (Finset.subset_insert b (s.threads t).synced.toFinset)
      omega

theorem guarded_listed {sb : SuperBlock} {start s : State n} (boot : Booted sb start)
    (path : Runs.Guarded (next sb) Apart start s) :
    Runs.Guarded (next sb) Listed start s := by
  refine path.imp fun s action s' path apart ran => ?_
  unfold Listed
  split
  · rename_i t b
    obtain ⟨running,_⟩ := sync_parts ran
    exact fun again => (guarded_retained boot path).header t running b again
  · trivial

theorem log_capacity {sb : SuperBlock} (layout : sb.inodeStart.toNat = sb.logStart.toNat+logMaxSize)
    {start : State n} (boot : Booted sb start) :
    (∀ s, Runs.Reached (next sb) start s →
      s.cache.header.numBlocks+∑ t with (s.threads t).pc = .running, (s.threads t).rm ≤ 62 ∧
      s.cache.header.numBlocks < logMaxSize ∧
      (∀ t b, (s.threads t).pc = .running → 0 < (s.threads t).rm → (s.cache.header.record b).numBlocks < logMaxSize) ∧
      (∀ i, i < s.cache.header.numBlocks → (logSlot sb i).toNat < sb.inodeStart.toNat) ∧
      s.cache.header.blocks.Nodup ∧
      ∀ t b fault, (s.threads t).pc = .running → logSync s.cache.header (s.threads t).rm b = .error fault →
        fault = .logLimit ∧ (s.threads t).rm = 0 ∧ b ∉ s.cache.header.blocks) ∧
    (∀ s, Runs.Guarded (next sb) Listed start s → ∀ t b, (s.threads t).pc = .running →
      ((∀ fault, logSync s.cache.header (s.threads t).rm b = .error fault →
        fault = .logLimit ∧ opMaxNumBlocks < (b::(s.threads t).synced).toFinset.card) ↔
      (b ∈ (s.threads t).synced → b ∈ s.cache.header.blocks) ∨ 0 < (s.threads t).rm ∨
        opMaxNumBlocks < (s.threads t).synced.toFinset.card)) ∧
    ∀ s, Runs.Guarded (next sb) Apart start s → ∀ t b fault, (s.threads t).pc = .running →
      logSync s.cache.header (s.threads t).rm b = .error fault →
      fault = .logLimit ∧ opMaxNumBlocks < (b::(s.threads t).synced).toFinset.card := by
  refine ⟨?_,fun s path t b running => (guarded_charged boot path).eleventh running b,?_⟩
  · intro s path
    have fits := reached_fits boot path
    have budget := fits.budget
    have size : logMaxSize = 63 := rfl
    have total : ∑ t with (s.threads t).pc = .running, (s.threads t).rm = Runs.total Thread.charge s.threads :=
      Finset.sum_filter _ _
    refine ⟨by omega,by omega,?_,?_,fits.distinct,?_⟩
    · intro t b running positive
      have own := rm_le_charges running
      rw [LogHeader.numBlocks_record _ _ (by omega)]
      omega
    · intro i small
      rw [logSlot_toNat sb i (by omega)]
      omega
    · intro t b fault running failed
      obtain ⟨limit,full,absent⟩ := fits.sync_fails running failed
      have charged := fits.charged t (by rw [running]; rfl)
      have ten : opMaxNumBlocks = 10 := rfl
      exact ⟨limit,by omega,absent⟩
  · intro s path t b fault running failed
    have kept := guarded_retained boot path
    exact ((guarded_charged boot (guarded_listed boot path)).eleventh running b).mpr (.inl (kept.header t running b)) fault failed

theorem log_capacity_two_blocks : ∃ s : State 2, s.cache.header.blocks = [100#64,101#64] ∧
    s.cache.header.numBlocks+∑ t with (s.threads t).pc = .running, (s.threads t).rm ≤ 62 ∧
    (∀ i, i < s.cache.header.numBlocks → (logSlot mkfsSuperBlock i).toNat < mkfsSuperBlock.inodeStart.toNat) ∧
    ∀ t b fault, (s.threads t).pc = .running → logSync s.cache.header (s.threads t).rm b = .error fault →
      fault = .logLimit ∧ opMaxNumBlocks < (b::(s.threads t).synced).toFinset.card := by
  obtain ⟨⟨start,s⟩,ran,facts⟩ := Runs.some_such (p := fun r => decide (r.2.cache.header.blocks = [100#64,101#64]))
    (x := fromBoot 2 (Runs.execGuarded (next mkfsSuperBlock) Apart · [.beginOp 0,.beginOp 1,.acquire 0 100#64,.sync 0 100#64,
      .release 0 100#64,.acquire 1 101#64,.sync 1 101#64])) (by decide +kernel)
  obtain ⟨boot,path⟩ := fromBoot_parts ran
  obtain ⟨capacity,_,apart⟩ := log_capacity (by decide) boot
  have guarded := Runs.exec_guarded .start path
  obtain ⟨budget,_,_,below,_⟩ := capacity s guarded.reached
  exact ⟨s,of_decide_eq_true facts,budget,below,apart s guarded⟩

-- Thread 0 writes block 100 home while thread 1 begins and syncs block 200; then thread 0
-- writes 200 home, empties the header, and thread 1 syncs nine more blocks and 200 again.
theorem tenth_block_stops : ¬ ∀ start s : State 2, Booted mkfsSuperBlock start →
    Runs.Reached (next mkfsSuperBlock) start s →
    ∀ t b fault, (s.threads t).pc = .running → b ∈ (s.threads t).held →
      logSync s.cache.header (s.threads t).rm b = .error fault →
      opMaxNumBlocks < (b::(s.threads t).synced).toFinset.card := by
  intro eleventh
  obtain ⟨⟨start,s⟩,ran,facts⟩ := Runs.some_such
    (x := fromBoot 2 (Runs.exec (next mkfsSuperBlock) · (update 0 100#64 1#4096++[.endOp 0]++update 1 200#64 2#4096++
      [.writeHome 0,.proceed 0,.writeHome 0,.proceed 0]++
      ((List.range 9).flatMap fun i => [.acquire 1 (BitVec.ofNat 64 (201+i)),.sync 1 (BitVec.ofNat 64 (201+i)),
        .release 1 (BitVec.ofNat 64 (201+i))])++[.acquire 1 200#64])))
    (p := fun r => decide ((r.2.threads 1).pc = .running ∧ 200#64 ∈ (r.2.threads 1).held ∧
      (200#64::(r.2.threads 1).synced).dedup.length = 10 ∧ (r.2.threads 1).rm = 0) &&
      Runs.stopsWith .logLimit (logSync r.2.cache.header (r.2.threads 1).rm 200#64)) (by decide +kernel)
  obtain ⟨boot,path⟩ := fromBoot_parts ran
  simp only [Bool.and_eq_true,decide_eq_true_eq] at facts
  obtain ⟨⟨running,held,ten,_⟩,stops⟩ := facts
  have many := eleventh start s boot (Runs.exec_reached .start path) 1 200#64 _ running held (Runs.stopsWith_iff.mp stops)
  rw [List.card_toFinset,ten] at many
  exact absurd many (by decide)

end LogThreads
