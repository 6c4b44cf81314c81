import HonorKernel.LogCapacity

namespace LogThreads
open DiskFormat Semaphores BlockCache
open Runs (upTo)

-- The block a checkpoint loop has acquired and not released yet.
def Pc.block : Pc → Option Usize
  | .home _ b _ _ => some b
  | _ => none

def Holds (s : State n) (t : Fin n) (b : Usize) : Prop := b ∈ (s.threads t).held ∨ (s.threads t).pc.block = some b

def Committing (s : State n) : Prop := ∃ t, (s.threads t).pc.block.isSome = true

def Pc.before (j : Nat) : Pc → Bool
  | .home i _ _ _ => decide (i ≤ j)
  | _ => false

-- A block that a checkpoint loop is at or has still to come to.
def Ahead (s : State n) (b : Usize) : Prop :=
  ∃ t, ∃ j, j < s.cache.header.numBlocks ∧ (s.threads t).pc.before j = true ∧ s.cache.header.blockNo j = b

instance (s : State n) : Decidable (Committing s) :=
  inferInstanceAs (Decidable (∃ t, (s.threads t).pc.block.isSome = true))
instance (s : State n) (b : Usize) : Decidable (Ahead s b) :=
  inferInstanceAs (Decidable (∃ t, ∃ j, j < s.cache.header.numBlocks ∧
    (s.threads t).pc.before j = true ∧ s.cache.header.blockNo j = b))

-- While a commit is writing blocks home nobody synchronises with a ctx and nobody
-- stores into a block that is still to be written; the log area is left alone.
def Careful (sb : SuperBlock) (s : State n) : Action n → Prop
  | .acquire _ b => ¬ LogArea sb b
  | .sync _ _ => ¬ Committing s
  | .modify _ b _ => ¬ Ahead s b
  | _ => True

instance (sb : SuperBlock) (s : State n) (action : Action n) : Decidable (Careful sb s action) := by
  cases action <;> unfold Careful <;> infer_instance

structure Base (sb : SuperBlock) (s : State n) : Prop where
  shape : Shape (fun _ => True) s.cache
  loggable : RedoLog.Loggable (logLayout sb) s.cache.header.blocks
  owned : ∀ t b, Holds s t b → Held s.cache b ∧ ¬ LogArea sb b
  alone : ∀ t u b, Holds s t b → Holds s u b → t = u
  apart : ∀ t b, (s.threads t).pc.block = some b → b ∉ (s.threads t).held
  fresh : ∀ t, (s.threads t).pc.inside = true → (s.threads t).pc ≠ .running → (s.threads t).synced = []

-- No commit is writing blocks home: the log on disk is retired.
structure Calm (sb : SuperBlock) (s : State n) : Prop where
  none : ∀ t, (s.threads t).pc.block = none
  retired : LogHeader.blocks (s.cache.device (logHead sb)) = []
  pinned : ∀ b ∈ s.cache.header.blocks, s.cache.pin b = true
  synced : ∀ t, (s.threads t).pc = .running → ∀ b ∈ (s.threads t).synced, b ∈ s.cache.header.blocks

-- From index `i` on, the blocks of the header `h` are as they were logged.
structure Remaining (sb : SuperBlock) (cache : BCache) (i : Nat) (h : LogHeader) : Prop where
  header : cache.header = h
  published : cache.device (logHead sb) = h
  pinned : ∀ j, i ≤ j → j < h.numBlocks → cache.pin (h.blockNo j) = true
  logged : ∀ j, i ≤ j → j < h.numBlocks → cache.device (logSlot sb j) = cache.view (h.blockNo j)

structure Window (sb : SuperBlock) (s : State n) (t : Fin n) (i : Nat) (b : Usize) (h : LogHeader) (w : Bool) : Prop where
  here : (s.threads t).pc = .home i b h w
  only : ∀ u, u ≠ t → (s.threads u).pc.block = none
  remaining : Remaining sb s.cache i h
  index : i < h.numBlocks
  block : h.blockNo i = b
  synced : ∀ u, (s.threads u).pc.inside = true → (s.threads u).synced = []

def Phase (sb : SuperBlock) (s : State n) : Prop := Calm sb s ∨ ∃ t i b h w, Window sb s t i b h w

theorem Pc.before_none {pc : Pc} (none : pc.block = none) : pc.before j = false := by
  cases pc with
  | home i b h w => cases none
  | _ => rfl

theorem Window.ahead {sb : SuperBlock} {s : State n} (window : Window sb s t i b h w) (c : Usize) :
    Ahead s c ↔ ∃ j, i ≤ j ∧ j < h.numBlocks ∧ h.blockNo j = c := by
  have header := window.remaining.header
  constructor
  · intro ahead
    obtain ⟨u,j,high,before,same⟩ := ahead
    by_cases self : u = t
    · subst self
      rw [window.here] at before
      exact ⟨j,of_decide_eq_true before,header ▸ high,header ▸ same⟩
    · have none := window.only u self
      rw [Pc.before_none none] at before
      cases before
  · intro found
    obtain ⟨j,low,high,same⟩ := found
    exact ⟨t,j,header.symm ▸ high,by rw [window.here]; exact decide_eq_true low,header.symm ▸ same⟩

-- What both phases ask of the cache, so that steps on other blocks keep them.
structure SameLogView (sb : SuperBlock) (s s' : State n) : Prop where
  header : s'.cache.header = s.cache.header
  device : ∀ b, LogArea sb b → s'.cache.device b = s.cache.device b
  pin : ∀ b, s'.cache.pin b = s.cache.pin b
  view : ∀ b, Ahead s b → s'.cache.view b = s.cache.view b
  pc : ∀ t, (s'.threads t).pc = (s.threads t).pc
  synced : ∀ t, (s'.threads t).synced = (s.threads t).synced

theorem Base.slot_area (base : Base sb s) (small : j < s.cache.header.numBlocks) : LogArea sb (logSlot sb j) := by
  refine .inr ⟨j,?_,rfl⟩
  have fits := base.loggable.fits
  rw [LogHeader.blocks_length] at fits
  exact Nat.lt_of_lt_of_le small fits

theorem Phase.keep {sb : SuperBlock} {s s' : State n} (phase : Phase sb s) (base : Base sb s)
    (same : SameLogView sb s s') :
    Phase sb s' := by
  rcases phase with calm | ⟨t,i,b,h,w,window⟩
  · refine .inl ⟨?_,?_,?_,?_⟩
    · intro t; rw [same.pc]; exact calm.none t
    · rw [same.device (logHead sb) (.inl rfl)]; exact calm.retired
    · intro b member; rw [same.header] at member; rw [same.pin]; exact calm.pinned b member
    · intro t running b member
      rw [same.pc] at running
      rw [same.synced] at member
      rw [same.header]
      exact calm.synced t running b member
  · have rest := window.remaining
    refine .inr ⟨t,i,b,h,w,?_,?_,⟨?_,?_,?_,?_⟩,window.index,window.block,?_⟩
    · rw [same.pc]; exact window.here
    · intro u other; rw [same.pc]; exact window.only u other
    · rw [same.header]; exact rest.header
    · rw [same.device (logHead sb) (.inl rfl)]; exact rest.published
    · intro j low high; rw [same.pin]; exact rest.pinned j low high
    · intro j low high
      rw [same.device _ (base.slot_area (rest.header.symm ▸ high)),same.view _ ((window.ahead _).mpr ⟨j,low,high,rfl⟩)]
      exact rest.logged j low high
    · intro u inside
      rw [same.pc] at inside
      rw [same.synced]
      exact window.synced u inside

structure Logged (sb : SuperBlock) (s : State n) : Prop where
  fits : Fits s
  base : Base sb s
  phase : Phase sb s

section Steps
variable {sb : SuperBlock} {s s' : State n} {t : Fin n}

-- A step that only moves threads through cache_begin_op or out of an operation.
structure Relabel (s s' : State n) : Prop where
  cache : s'.cache = {s.cache with outstanding := s'.cache.outstanding}
  held : ∀ u, (s'.threads u).held = (s.threads u).held
  pc : ∀ u, (s'.threads u).pc = (s.threads u).pc ∨ (s.threads u).pc.block = none ∧ (s'.threads u).pc.block = none
  synced : ∀ u, (s'.threads u).pc.inside = true → (s'.threads u).synced = [] ∨
    (s'.threads u).pc = .running ∧ (s.threads u).pc = .running ∧ (s'.threads u).synced = (s.threads u).synced

theorem Relabel.block (move : Relabel s s') (u : Fin n) : (s'.threads u).pc.block = (s.threads u).pc.block := by
  rcases move.pc u with same | ⟨before,after⟩
  · rw [same]
  · rw [before,after]

theorem Relabel.holds (move : Relabel s s') (u : Fin n) (b : Usize) : Holds s' u b ↔ Holds s u b := by
  simp only [Holds,move.held,move.block]

theorem Base.relabel (base : Base sb s) (move : Relabel s s') : Base sb s' := by
  refine ⟨?_,?_,?_,?_,?_,?_⟩
  · rw [move.cache]
    exact base.shape.setOutstanding _
  · rw [move.cache]; exact base.loggable
  · intro u b holds
    rw [move.cache]
    exact base.owned u b ((move.holds u b).mp holds)
  · intro u v b one two
    exact base.alone u v b ((move.holds u b).mp one) ((move.holds v b).mp two)
  · intro u b block
    rw [move.block] at block
    rw [move.held]
    exact base.apart u b block
  · intro u inside other
    rcases move.synced u inside with empty | ⟨running,_⟩
    · exact empty
    · exact absurd running other

theorem Phase.relabel (phase : Phase sb s) (move : Relabel s s') : Phase sb s' := by
  rcases phase with calm | ⟨t,i,b,h,w,window⟩
  · refine .inl ⟨?_,?_,?_,?_⟩
    · intro u; rw [move.block]; exact calm.none u
    · rw [move.cache]; exact calm.retired
    · rw [move.cache]; exact calm.pinned
    · intro u running b member
      rw [move.cache]
      rcases move.synced u (by rw [running]; rfl) with empty | ⟨_,before,same⟩
      · rw [empty] at member; cases member
      · rw [same] at member; exact calm.synced u before b member
  · refine .inr ⟨t,i,b,h,w,?_,?_,?_,window.index,window.block,?_⟩
    · rcases move.pc t with same | ⟨before,_⟩
      · rw [same]; exact window.here
      · simp [window.here,Pc.block] at before
    · intro u other; rw [move.block]; exact window.only u other
    · rw [move.cache]
      exact ⟨window.remaining.header,window.remaining.published,window.remaining.pinned,window.remaining.logged⟩
    · intro u inside
      rcases move.synced u inside with empty | ⟨_,before,same⟩
      · exact empty
      · rw [same]; exact window.synced u (by rw [before]; rfl)

-- Threads that are not in a checkpoint loop move freely, as long as what they have
-- synced is forgotten or they stay in the operation.
theorem Relabel.set (base : Base sb s) (outstanding : Int) (sem : Semaphore) (thread : Thread)
    (held : thread.held = (s.threads t).held) (before : (s.threads t).pc.block = none) (after : thread.pc.block = none)
    (synced : thread.pc.inside = true → thread.synced = []) :
    Relabel s (s.put t thread {s.cache with outstanding := outstanding} sem) := by
  refine ⟨rfl,?_,?_,?_⟩
  · intro u
    by_cases here : u = t
    · subst here; simpa using held
    · simp [here]
  · intro u
    by_cases here : u = t
    · subst here; simp [before,after]
    · simp [here]
  · intro u inside
    by_cases here : u = t
    · subst here
      simp only [State.put_threads,Function.update_self] at inside ⊢
      exact .inl (synced inside)
    · simp only [State.put_threads,Function.update_of_ne here] at inside ⊢
      by_cases running : (s.threads u).pc = .running
      · exact .inr ⟨running,running,trivial⟩
      · exact .inl (base.fresh u inside running)

theorem Thread.wake_parts (thread : Thread) : thread.wake = thread ∨
    thread.pc = .asleep ∧ thread.wake = thread.goto .testing := by
  unfold Thread.wake
  split
  · rename_i asleep; exact .inr ⟨asleep,rfl⟩
  · exact .inl rfl

theorem Relabel.wake (base : Base sb s) (procs : List Nat) (sem : Semaphore) : Relabel s (s.wake procs sem) := by
  have kind : ∀ u, ((s.wake procs sem).threads u) = s.threads u ∨
      (s.threads u).pc = .asleep ∧ (s.wake procs sem).threads u = (s.threads u).goto .testing := by
    intro u
    simp only [State.wake]
    split
    · exact (s.threads u).wake_parts
    · exact .inl rfl
  refine ⟨rfl,?_,?_,?_⟩
  · intro u
    rcases kind u with same | ⟨_,same⟩ <;> simp [same]
  · intro u
    rcases kind u with same | ⟨asleep,same⟩
    · simp [same]
    · simp [same,asleep,Pc.block]
  · intro u inside
    rcases kind u with same | ⟨asleep,same⟩
    · rw [same] at inside ⊢
      by_cases running : (s.threads u).pc = .running
      · exact .inr ⟨running,running,rfl⟩
      · exact .inl (base.fresh u inside running)
    · rw [same]
      exact .inl (base.fresh u (by rw [asleep]; rfl) (by simp [asleep]))

theorem Logged.relabel (logged : Logged sb s) (move : Relabel s s') (fits : Fits s') : Logged sb s' :=
  ⟨fits,logged.base.relabel move,logged.phase.relabel move⟩

end Steps

-- Steps of a thread on a block, outside the two calls: the thread keeps its place and
-- what it has synced, and only its list of held blocks may change.
section Blocks
variable {sb : SuperBlock} {s : State n} {t : Fin n} {b : Usize} {cache : BCache} {sem : Semaphore}

theorem put_pc {thread : Thread} (same : thread.pc = (s.threads t).pc) (u : Fin n) :
    ((s.put t thread cache sem).threads u).pc = (s.threads u).pc := by
  by_cases here : u = t
  · subst here; simpa using same
  · simp [here]

theorem put_synced {thread : Thread} (same : thread.synced = (s.threads t).synced) (u : Fin n) :
    ((s.put t thread cache sem).threads u).synced = (s.threads u).synced := by
  by_cases here : u = t
  · subst here; simpa using same
  · simp [here]

theorem holds_hold (u : Fin n) (c : Usize) :
    Holds (s.put t ((s.threads t).hold b) cache sem) u c ↔ Holds s u c ∨ u = t ∧ c = b := by
  by_cases here : u = t
  · subst here
    simp only [Holds,State.put_threads,Function.update_self,Thread.hold_held,Thread.hold_pc,List.mem_cons]
    tauto
  · simp [Holds,here]

theorem holds_unhold (u : Fin n) (c : Usize) (free : (s.threads t).pc.block = none) :
    Holds (s.put t ((s.threads t).unhold b) cache sem) u c → Holds s u c ∧ (u = t → c ≠ b) := by
  by_cases here : u = t
  · subst here
    simp only [Holds,State.put_threads,Function.update_self,Thread.unhold_held,Thread.unhold_pc,List.mem_filter,
      decide_eq_true_eq,free]
    intro holds
    rcases holds with ⟨member,other⟩ | block
    · exact ⟨.inl member,fun _ => other⟩
    · cases block
  · intro holds
    simp only [Holds,State.put_threads,Function.update_of_ne here] at holds
    exact ⟨holds,fun same => absurd same here⟩

theorem Logged.ahead_pinned (logged : Logged sb s) (ahead : Ahead s c) : s.cache.pin c = true := by
  rcases logged.phase with calm | ⟨u,i,b,h,w,window⟩
  · obtain ⟨u,j,_,before,_⟩ := ahead
    rw [Pc.before_none (calm.none u)] at before
    cases before
  · obtain ⟨j,low,high,same⟩ := (window.ahead c).mp ahead
    rw [← same]
    exact window.remaining.pinned j low high

theorem Base.put (base : Base sb s) {thread : Thread} (pc : thread.pc = (s.threads t).pc)
    (synced : thread.synced = (s.threads t).synced) (free : (s.threads t).pc.block = none)
    (shape : Shape (fun _ => True) cache) (header : cache.header = s.cache.header)
    (owned : ∀ u c, Holds (s.put t thread cache sem) u c → Held cache c ∧ ¬ LogArea sb c)
    (alone : ∀ u v c, Holds (s.put t thread cache sem) u c → Holds (s.put t thread cache sem) v c → u = v) :
    Base sb (s.put t thread cache sem) := by
  refine ⟨shape,?_,owned,alone,?_,?_⟩
  · simpa only [State.put_cache,header] using base.loggable
  · intro u c block
    rw [put_pc pc] at block
    by_cases here : u = t
    · subst here; simp [free] at block
    · simpa [here] using base.apart u c block
  · intro u inside other
    rw [put_pc pc] at inside other
    rw [put_synced synced]
    exact base.fresh u inside other

theorem Base.withCache (base : Base sb s) (shape : Shape (fun _ => True) cache) (header : cache.header = s.cache.header)
    (held : ∀ c, Held cache c ↔ Held s.cache c) : Base sb {s with cache := cache} :=
  ⟨shape,by simpa only [header] using base.loggable,
    fun u c holds => ⟨(held c).mpr (base.owned u c holds).1,(base.owned u c holds).2⟩,base.alone,base.apart,base.fresh⟩

theorem Logged.acquire (logged : Logged sb s) (out : ¬ LogArea sb b) (free : (s.threads t).pc.block = none)
    (ran : cacheAcquire s.cache b = .ok (d,cache)) : Logged sb (s.put t ((s.threads t).hold b) cache s.logSem) := by
  have base := logged.base
  have absent : ¬ Held s.cache b := by
    intro held
    rw [acquire_held base.shape held] at ran
    cases ran
  obtain ⟨cache',ran',spec⟩ := acquire_spec base.shape absent
  rw [ran] at ran'
  cases ran'
  have pcs := Thread.hold_pc (s.threads t) b
  have syncs := Thread.hold_synced (s.threads t) b
  have unheld : ∀ u, ¬ Holds s u b := fun u holds => absent (base.owned u b holds).1
  refine ⟨logged.fits.set (acquire_sameLog ran) _ _ ⟨Iff.rfl,id,rfl,rfl⟩,
    base.put pcs syncs free spec.shape spec.disk.header ?_ ?_,
    logged.phase.keep base ⟨spec.disk.header,?_,spec.pin,?_,put_pc pcs,put_synced syncs⟩⟩
  · intro u c holds
    rw [spec.held]
    rcases (holds_hold u c).mp holds with before | ⟨_,same⟩
    · exact ⟨.inr (base.owned u c before).1,(base.owned u c before).2⟩
    · exact ⟨.inl same,same ▸ out⟩
  · intro u v c one two
    rcases (holds_hold u c).mp one with one | ⟨atU,same⟩
    · rcases (holds_hold v c).mp two with two | ⟨_,same⟩
      · exact base.alone u v c one two
      · exact absurd (same ▸ one) (unheld u)
    · rcases (holds_hold v c).mp two with two | ⟨atV,_⟩
      · exact absurd (same ▸ two) (unheld v)
      · exact atU.trans atV.symm
  · intro c _; simp only [State.put_cache,spec.disk.device]
  · intro c ahead
    exact spec.view c (.inr (.inr (.inl (logged.ahead_pinned ahead))))

theorem Logged.release (logged : Logged sb s) (free : (s.threads t).pc.block = none) (member : b ∈ (s.threads t).held)
    (ran : cacheRelease s.cache b = .ok cache) : Logged sb (s.put t ((s.threads t).unhold b) cache s.logSem) := by
  have base := logged.base
  obtain ⟨cache',ran',disk,shape,helds,pins,views⟩ := release_spec base.shape (base.owned t b (.inl member)).1
  rw [ran] at ran'
  cases ran'
  have pcs := Thread.unhold_pc (s.threads t) b
  have syncs := Thread.unhold_synced (s.threads t) b
  refine ⟨logged.fits.set (release_sameLog ran) _ _ ⟨Iff.rfl,id,rfl,rfl⟩,
    base.put pcs syncs free shape disk.header ?_ ?_,
    logged.phase.keep base ⟨disk.header,?_,pins,fun c _ => views c,put_pc pcs,put_synced syncs⟩⟩
  · intro u c holds
    obtain ⟨before,other⟩ := holds_unhold u c free holds
    obtain ⟨held,out⟩ := base.owned u c before
    refine ⟨(helds c).mpr ⟨?_,held⟩,out⟩
    intro same
    exact other (base.alone u t c before (.inl (same ▸ member))) same
  · intro u v c one two
    exact base.alone u v c (holds_unhold u c free one).1 (holds_unhold v c free two).1
  · intro c _; simp only [State.put_cache,disk.device]

theorem Logged.modify (logged : Logged sb s) (member : b ∈ (s.threads t).held) (careful : ¬ Ahead s b) (d : BlockData) :
    Logged sb {s with cache := modifyData s.cache b d} := by
  have base := logged.base
  obtain ⟨disk,shape,helds,pins,views⟩ := modifyData_spec base.shape (base.owned t b (.inl member)).1 d
  refine ⟨logged.fits.withCache ⟨rfl,rfl⟩,base.withCache (shape.weaken fun _ _ => trivial) rfl helds,
    logged.phase.keep base ⟨rfl,fun _ _ => rfl,pins,?_,fun _ => rfl,fun _ => rfl⟩⟩
  intro c ahead
  have other : c ≠ b := fun same => careful (same ▸ ahead)
  exact (views c).trans (if_neg other)

-- Writing a held block through to the device: the log area is elsewhere.
theorem Logged.deviceWrite (logged : Logged sb s) (holds : Holds s t b) :
    Logged sb {s with cache := deviceWrite s.cache b (s.cache.view b)} := by
  have base := logged.base
  have out := (base.owned t b holds).2
  have spec := deviceWrite_spec (b := b) base.shape (E := fun _ => True) (fun _ _ _ => trivial)
  obtain ⟨shape,helds,pins,views⟩ := spec
  refine ⟨logged.fits.withCache ⟨rfl,rfl⟩,base.withCache shape rfl helds,
    logged.phase.keep base ⟨rfl,?_,pins,fun c _ => views c,fun _ => rfl,fun _ => rfl⟩⟩
  intro c area
  have other : c ≠ b := fun same => out (same ▸ area)
  exact Function.update_of_ne other _ _

theorem Logged.sync (logged : Logged sb s) (running : (s.threads t).pc = .running) (member : b ∈ (s.threads t).held)
    (careful : ¬ Committing s) (synced : logSync s.cache.header (s.threads t).rm b = .ok (header,rm)) :
    Logged sb (s.put t ((s.threads t).log b rm)
      {s.cache.modify b (fun x => {x with pinned := true}) with header := header} s.logSem) := by
  have base := logged.base
  obtain ⟨held,out⟩ := base.owned t b (.inl member)
  obtain ⟨loggable,listed⟩ := logSync_loggable base.loggable out synced
  obtain ⟨disk,shape,helds,pins,views⟩ := setPinned_spec (E := fun _ => True) base.shape held true
    (fun off => by cases off) (fun _ _ _ => trivial)
  have pcs := Thread.log_pc (s.threads t) b rm
  have holds : ∀ u c cache, Holds (s.put t ((s.threads t).log b rm) cache s.logSem) u c → Holds s u c := by
    intro u c cache holds
    by_cases here : u = t
    · subst here; simpa [Holds] using holds
    · simpa [Holds,here] using holds
  refine ⟨logged.fits.record _ running synced rfl rfl,⟨shape.setHeader header,loggable,?_,?_,?_,?_⟩,?_⟩
  · intro u c held
    have before := base.owned u c (holds u c _ held)
    exact ⟨(helds c).mpr before.1,before.2⟩
  · intro u v c one two
    exact base.alone u v c (holds u c _ one) (holds v c _ two)
  · intro u c block
    rw [put_pc pcs] at block
    exact absurd ⟨u,by rw [block]; rfl⟩ careful
  · intro u inside other
    rw [put_pc pcs] at inside other
    have elsewhere : u ≠ t := fun same => other (same ▸ running)
    simpa [elsewhere] using base.fresh u inside other
  · rcases logged.phase with calm | ⟨u,i,c,h,w,window⟩
    · refine .inl ⟨?_,calm.retired,?_,?_⟩
      · intro u; rw [put_pc pcs]; exact calm.none u
      · intro c present
        change (s.cache.modify b _).pin c = true
        rw [pins]
        split
        · rfl
        · rename_i other
          exact calm.pinned c (((listed c).mp present).resolve_left other)
      · intro u active c present
        rw [put_pc pcs] at active
        refine (listed c).mpr ?_
        by_cases here : u = t
        · subst here
          simp only [State.put_threads,Function.update_self,Thread.log_synced,List.mem_cons] at present
          exact present.imp id (calm.synced u active c)
        · simp only [State.put_threads,Function.update_of_ne here] at present
          exact .inr (calm.synced u active c present)
    · exact absurd ⟨u,by rw [window.here]; rfl⟩ careful

end Blocks

section Commit
variable {sb : SuperBlock} {s s' : State n} {t : Fin n}

theorem holds_goto (pc : Pc) (cache : BCache) (sem : Semaphore) (u : Fin n) (c : Usize)
    (holds : Holds (s.put t ((s.threads t).goto pc) cache sem) u c) : Holds s u c ∨ u = t ∧ pc.block = some c := by
  by_cases here : u = t
  · subst here
    simp only [Holds,State.put_threads,Function.update_self,Thread.goto_held,Thread.goto_pc] at holds
    exact holds.imp .inl (fun block => ⟨rfl,block⟩)
  · simp only [Holds,State.put_threads,Function.update_of_ne here] at holds
    exact .inl holds

theorem fresh_goto (base : Base sb s) (pc : Pc) (cache : BCache) (sem : Semaphore) (out : pc.inside = false) (u : Fin n)
    (inside : ((s.put t ((s.threads t).goto pc) cache sem).threads u).pc.inside = true)
    (other : ((s.put t ((s.threads t).goto pc) cache sem).threads u).pc ≠ .running) :
    ((s.put t ((s.threads t).goto pc) cache sem).threads u).synced = [] := by
  by_cases here : u = t
  · subst here; simp [out] at inside
  · simp only [State.put_threads,Function.update_of_ne here] at inside other ⊢
    exact base.fresh u inside other

theorem Logged.toBlock (fits : Fits s) (base : Base sb s) (none : ∀ u, (s.threads u).pc.block = none)
    (rest : Remaining sb s.cache i h) (quiet : ∀ u, (s.threads u).pc.inside = true → (s.threads u).synced = [])
    (before : (s.threads t).pc ≠ .running) (small : i < h.numBlocks)
    (ran : cacheAcquire s.cache (h.blockNo i) = .ok (d,cache)) :
    Logged sb (s.put t ((s.threads t).goto (.home i (h.blockNo i) h false)) cache s.logSem) := by
  have absent : ¬ Held s.cache (h.blockNo i) := by
    intro held
    rw [acquire_held base.shape held] at ran
    cases ran
  obtain ⟨cache',ran',spec⟩ := acquire_spec base.shape absent
  rw [ran] at ran'
  cases ran'
  have unheld : ∀ u, ¬ Holds s u (h.blockNo i) := fun u holds => absent (base.owned u _ holds).1
  have listed : h.blockNo i ∈ s.cache.header.blocks := by
    rw [rest.header]
    exact (h.mem_blocks _).mpr ⟨i,small,rfl⟩
  refine ⟨fits.move (acquire_sameLog ran) _ before _ (by simp) (by simp [Pc.inside]),⟨spec.shape,?_,?_,?_,?_,?_⟩,
    .inr ⟨t,i,h.blockNo i,h,false,?_,?_,⟨?_,?_,?_,?_⟩,small,rfl,?_⟩⟩
  · simpa only [State.put_cache,spec.disk.header] using base.loggable
  · intro u c holds
    rw [State.put_cache,spec.held]
    rcases holds_goto _ _ _ u c holds with old | ⟨_,block⟩
    · exact ⟨.inr (base.owned u c old).1,(base.owned u c old).2⟩
    · cases block
      exact ⟨.inl rfl,base.loggable.outside _ listed⟩
  · intro u v c one two
    rcases holds_goto _ _ _ u c one with one | ⟨atU,block⟩
    · rcases holds_goto _ _ _ v c two with two | ⟨_,block⟩
      · exact base.alone u v c one two
      · cases block; exact absurd one (unheld u)
    · rcases holds_goto _ _ _ v c two with two | ⟨atV,_⟩
      · cases block; exact absurd two (unheld v)
      · exact atU.trans atV.symm
  · intro u c block
    by_cases here : u = t
    · subst here
      simp only [State.put_threads,Function.update_self,Thread.goto_pc,Thread.goto_held] at block ⊢
      cases block
      exact fun member => unheld u (.inl member)
    · simp only [State.put_threads,Function.update_of_ne here] at block ⊢
      exact base.apart u c block
  · exact fresh_goto base _ _ _ rfl
  · simp
  · intro u other; simpa [other] using none u
  · exact spec.disk.header.trans rest.header
  · simpa only [State.put_cache,spec.disk.device] using rest.published
  · intro j low high
    exact (spec.pin _).trans (rest.pinned j low high)
  · intro j low high
    simp only [State.put_cache,spec.disk.device]
    rw [rest.logged j low high,spec.view _ (.inr (.inr (.inl (rest.pinned j low high))))]
  · intro u inside
    by_cases here : u = t
    · subst here; simp [Pc.inside] at inside
    · simp only [State.put_threads,Function.update_of_ne here] at inside ⊢
      exact quiet u inside

theorem Logged.retire (fits : Fits s) (base : Base sb s) (none : ∀ u, (s.threads u).pc.block = none)
    (quiet : ∀ u, (s.threads u).pc.inside = true → (s.threads u).synced = []) (before : (s.threads t).pc ≠ .running) :
    Logged sb (s.put t ((s.threads t).goto .idle)
      (writeHeader sb {s.cache with header := s.cache.header.setNumBlocks 0}) s.logSem) := by
  have empty := LogHeader.blocks_clear s.cache.header
  have moved : Fits (s.put t ((s.threads t).goto .idle) s.cache s.logSem) :=
    fits.move ⟨rfl,rfl⟩ _ before _ (by simp) (by simp [Pc.inside])
  obtain ⟨wrote,_⟩ := writeHeader_spec sb (base.shape.setHeader (s.cache.header.setNumBlocks 0)) trivial
  have holds : ∀ u c cache, Holds (s.put t ((s.threads t).goto .idle) cache s.logSem) u c → Holds s u c := by
    intro u c cache holds
    rcases holds_goto _ _ _ u c holds with old | ⟨_,block⟩
    · exact old
    · cases block
  refine ⟨moved.clear sb,⟨wrote.shape,?_,?_,?_,?_,fresh_goto base _ _ _ rfl⟩,.inl ⟨?_,?_,?_,?_⟩⟩
  · change RedoLog.Loggable (logLayout sb) (s.cache.header.setNumBlocks 0).blocks
    rw [empty]
    exact ⟨List.nodup_nil,fun b member => (List.not_mem_nil member).elim,Nat.zero_le _⟩
  · intro u c held
    exact base.owned u c (holds u c _ held)
  · intro u v c one two
    exact base.alone u v c (holds u c _ one) (holds v c _ two)
  · intro u c block
    by_cases here : u = t
    · subst here; simp [Pc.block] at block
    · simp only [State.put_threads,Function.update_of_ne here] at block ⊢
      exact base.apart u c block
  · intro u
    by_cases here : u = t
    · subst here; simp [Pc.block]
    · simpa [here] using none u
  · change LogHeader.blocks (Function.update s.cache.device (logHead sb) (s.cache.header.setNumBlocks 0) (logHead sb)) = []
    rw [Function.update_self]
    exact empty
  · intro c member
    change c ∈ (s.cache.header.setNumBlocks 0).blocks at member
    rw [empty] at member
    cases member
  · intro u running c member
    by_cases here : u = t
    · subst here; simp at running
    · simp only [State.put_threads,Function.update_of_ne here] at running member
      rw [quiet u (by rw [running]; rfl)] at member
      cases member

theorem Logged.checkpointAt (fits : Fits s) (base : Base sb s) (none : ∀ u, (s.threads u).pc.block = none)
    (rest : Remaining sb s.cache i h) (quiet : ∀ u, (s.threads u).pc.inside = true → (s.threads u).synced = [])
    (before : (s.threads t).pc ≠ .running) (ran : checkpointAt sb s t i h = some s') : Logged sb s' := by
  unfold LogThreads.checkpointAt at ran
  split at ran
  · rename_i small
    rw [rest.header] at small ran
    split at ran
    · cases ran
    · rename_i b found
      have same : h.blockNo i = b := by
        unfold headerBlockNo at found
        split at found
        · cases found; rfl
        · cases found
      subst same
      split at ran
      · rename_i acquired
        cases ran
        exact Logged.toBlock fits base none rest quiet before small acquired
      · cases ran
  · cases ran
    have retired := Logged.retire fits base none quiet before
    exact retired.relabel (.wake retired.base _ _) (retired.fits.wake _ _)

theorem logCopies_free {D : Usize → Prop} {cache cache' : BCache} (count i : Nat) (shape : Shape D cache)
    (ran : upTo (logCopy sb) count i cache = .ok cache') (j : Nat) (low : i ≤ j) (high : j < i+count) :
    ¬ Held cache (cache.header.blockNo j) ∧ ¬ Held cache (logSlot sb j) := by
  induction count generalizing i cache with
  | zero => omega
  | succ count ih =>
    obtain ⟨middle,copied,rest⟩ := Runs.bind_ok.mp ran
    obtain ⟨b,found,copied⟩ := Runs.bind_ok.mp copied
    have same : cache.header.blockNo i = b := by
      unfold headerBlockNo at found
      split at found
      · cases found; rfl
      · cases found
    subst same
    obtain ⟨source,target,spec⟩ := copyBlock_parts shape copied
    rcases Nat.eq_or_lt_of_le low with here | later
    · subst here; exact ⟨source,target⟩
    · have tail := ih (i+1) spec.shape rest later (by omega)
      rw [spec.header,spec.held,spec.held] at tail
      exact tail

theorem Logged.commit_calm (logged : Logged sb s)
    (ran : upTo (logCopy sb) s.cache.header.numBlocks 0 {s.cache with outstanding := o} = .ok cache) : Calm sb s := by
  rcases logged.phase with calm | ⟨u,i,b,h,w,window⟩
  · exact calm
  · have free := (logCopies_free _ 0 (logged.base.shape.setOutstanding o) ran i (Nat.zero_le i)
      (by rw [window.remaining.header,Nat.zero_add]; exact window.index)).1
    have held := (logged.base.owned u b (.inr (by rw [window.here]; rfl))).1
    rw [← window.block,← window.remaining.header] at held
    exact absurd held free

theorem Logged.publish (logged : Logged sb s) (running : (s.threads t).pc = .running) (last : s.cache.outstanding ≤ 1)
    (ran : upTo (logCopy sb) s.cache.header.numBlocks 0 {s.cache with outstanding := s.cache.outstanding-1} = .ok cache) :
    let s₁ := s.put t ((s.threads t).goto .idle) (writeHeader sb cache) s.logSem
    Fits s₁ ∧ Base sb s₁ ∧ (∀ u, (s₁.threads u).pc.block = none) ∧ Remaining sb s₁.cache 0 cache.header ∧
      ∀ u, (s₁.threads u).pc.inside = true → (s₁.threads u).synced = [] := by
  have base := logged.base
  have calm := logged.commit_calm ran
  have shape := base.shape.setOutstanding (s.cache.outstanding-1)
  obtain ⟨cache',ran',pins,wrote⟩ := logCopies_spec (s := {s.cache with outstanding := s.cache.outstanding-1}) sb shape
    base.loggable calm.pinned (fun j small => logCopies_free _ 0 shape ran j (Nat.zero_le j) (by rw [Nat.zero_add]; exact small))
  have same : cache' = cache := by rw [ran] at ran'; cases ran'; rfl
  subst same
  have header : cache'.header = s.cache.header := wrote.header
  obtain ⟨head,headPins⟩ := writeHeader_spec sb wrote.shape trivial
  have holds : ∀ u c sem, Holds (s.put t ((s.threads t).goto .idle) (writeHeader sb cache') sem) u c → Holds s u c := by
    intro u c sem holds
    rcases holds_goto _ _ _ u c holds with old | ⟨_,block⟩
    · exact old
    · cases block
  have none : ∀ u, ((s.put t ((s.threads t).goto .idle) (writeHeader sb cache') s.logSem).threads u).pc.block = none := by
    intro u
    by_cases here : u = t
    · subst here; simp [Pc.block]
    · simpa [here] using calm.none u
  have log := logCopies_sameLog _ _ ran
  refine ⟨(logged.fits.leave running .idle rfl s.logSem).withCache ⟨log.1,log.2⟩,
    ⟨head.shape,?_,?_,?_,?_,fresh_goto base _ _ _ rfl⟩,none,⟨rfl,?_,?_,?_⟩,?_⟩
  · change RedoLog.Loggable (logLayout sb) cache'.header.blocks
    rw [header]
    exact base.loggable
  · intro u c held
    have before := base.owned u c (holds u c _ held)
    exact ⟨(head.held c).mpr ((wrote.held c).mpr before.1),before.2⟩
  · intro u v c one two
    exact base.alone u v c (holds u c _ one) (holds v c _ two)
  · intro u c block
    rw [none u] at block
    cases block
  · change Function.update cache'.device (logHead sb) cache'.header (logHead sb) = cache'.header
    exact Function.update_self ..
  · intro j _ small
    rw [State.put_cache,headPins,pins]
    rw [header] at small ⊢
    exact calm.pinned _ ((s.cache.header.mem_blocks _).mpr ⟨j,small,rfl⟩)
  · intro j _ small
    rw [header] at small ⊢
    have listed : s.cache.header.blockNo j ∈ s.cache.header.blocks := (s.cache.header.mem_blocks _).mpr ⟨j,small,rfl⟩
    have out := base.loggable.outside _ listed
    have bounded : j < s.cache.header.blocks.length := by rw [LogHeader.blocks_length]; exact small
    -- The slot holds the copy; the block itself is pinned, so no copy evicted it.
    have slot : StoreWrites.apply (RedoLog.logWrites (logLayout sb) s.cache.header.blocks s.cache.view) s.cache.device
        (logSlot sb j) = s.cache.view s.cache.header.blocks[j] := RedoLog.logWrites_slot base.loggable s.cache.device j bounded
    rw [LogHeader.blocks_getElem] at slot
    have copied : cache'.device (logSlot sb j) = s.cache.view (s.cache.header.blockNo j) := by
      rw [wrote.device]
      exact slot
    have read : (writeHeader sb cache').view (s.cache.header.blockNo j) = s.cache.view (s.cache.header.blockNo j) := by
      have stays : cache'.pin (s.cache.header.blockNo j) = true := (pins _).trans (calm.pinned _ listed)
      rw [head.view _ (fun same => out (.inl same)) (.inr (.inl stays)),
        wrote.view _ out (.inr (.inl (calm.pinned _ listed)))]
      rfl
    have apart : logSlot sb j ≠ logHead sb :=
      (logLayout sb).slot_head j (Nat.lt_of_lt_of_le bounded base.loggable.fits)
    rw [State.put_cache,read,← copied]
    exact Function.update_of_ne apart _ _
  · intro u inside
    by_cases here : u = t
    · subst here; simp [Pc.inside] at inside
    · simp only [State.put_threads,Function.update_of_ne here] at inside ⊢
      exact base.fresh u inside (logged.fits.last last running here)

theorem Logged.window (logged : Logged sb s) (here : (s.threads t).pc = .home i b h w) : Window sb s t i b h w := by
  rcases logged.phase with calm | ⟨u,i',b',h',w',window⟩
  · have none := calm.none t
    simp [here,Pc.block] at none
  · by_cases self : u = t
    · subst self
      have same := window.here
      rw [here] at same
      cases same
      exact window
    · have none := window.only t (Ne.symm self)
      simp [here,Pc.block] at none

theorem Logged.written (logged : Logged sb s) (here : (s.threads t).pc = .home i b h false) :
    Logged sb (s.put t ((s.threads t).goto (.home i b h true)) s.cache s.logSem) := by
  have base := logged.base
  have before : (s.threads t).pc ≠ .running := by simp [here]
  have blocks : ∀ u, ((s.put t ((s.threads t).goto (.home i b h true)) s.cache s.logSem).threads u).pc.block =
      (s.threads u).pc.block := by
    intro u
    by_cases self : u = t
    · subst self; simp [here,Pc.block]
    · simp [self]
  have helds : ∀ u, ((s.put t ((s.threads t).goto (.home i b h true)) s.cache s.logSem).threads u).held =
      (s.threads u).held := by
    intro u
    by_cases self : u = t
    · subst self; simp
    · simp [self]
  refine ⟨logged.fits.move ⟨rfl,rfl⟩ _ before _ (by simp) (by simp [Pc.inside]),
    ⟨base.shape,base.loggable,?_,?_,?_,fresh_goto base _ _ _ rfl⟩,?_⟩
  · intro u c holds
    simp only [Holds,blocks,helds] at holds
    exact base.owned u c holds
  · intro u v c one two
    simp only [Holds,blocks,helds] at one two
    exact base.alone u v c one two
  · intro u c block
    rw [blocks] at block
    rw [helds]
    exact base.apart u c block
  · have window := logged.window here
    refine .inr ⟨t,i,b,h,true,by simp,?_,window.remaining,window.index,window.block,?_⟩
    · intro u other; rw [blocks]; exact window.only u other
    · intro u inside
      by_cases self : u = t
      · subst self; simp [Pc.inside] at inside
      · simp only [State.put_threads,Function.update_of_ne self] at inside ⊢
        exact window.synced u inside

-- Back under log_lock: the block is unpinned and released, and the rest stays logged.
theorem Logged.letGo (logged : Logged sb s) (here : (s.threads t).pc = .home i b h true)
    (ran : cacheRelease (s.cache.modify b (fun x => {x with pinned := false})) b = .ok cache) :
    let s₁ := s.put t ((s.threads t).goto .idle) cache s.logSem
    Fits s₁ ∧ Base sb s₁ ∧ (∀ u, (s₁.threads u).pc.block = none) ∧ Remaining sb s₁.cache (i+1) h ∧
      ∀ u, (s₁.threads u).pc.inside = true → (s₁.threads u).synced = [] := by
  have base := logged.base
  have window := logged.window here
  have own : Holds s t b := .inr (by rw [here]; rfl)
  obtain ⟨_,shape₁,held₁,pin₁,view₁⟩ := setPinned_spec (E := fun _ => True) base.shape (base.owned t b own).1 false
    (fun _ small => absurd trivial small) (fun _ _ _ => trivial)
  obtain ⟨cache',ran',disk,shape₂,held₂,pin₂,view₂⟩ := release_spec shape₁ ((held₁ b).mpr (base.owned t b own).1)
  rw [ran] at ran'
  cases ran'
  have before : (s.threads t).pc ≠ .running := by simp [here]
  have device : cache.device = s.cache.device := disk.device
  have header : cache.header = s.cache.header := disk.header
  have later : ∀ j, i+1 ≤ j → j < h.numBlocks → h.blockNo j ≠ b := by
    intro j low high same
    have distinct := base.loggable.distinct
    rw [window.remaining.header,LogHeader.blocks] at distinct
    have small := window.index
    rw [← window.block] at same
    have equal := List.inj_on_of_nodup_map distinct (List.mem_range.mpr high) (List.mem_range.mpr small) same
    omega
  have log := release_sameLog ran
  have none : ∀ u, ((s.put t ((s.threads t).goto .idle) cache s.logSem).threads u).pc.block = none := by
    intro u
    by_cases self : u = t
    · subst self; simp [Pc.block]
    · simpa [self] using window.only u self
  have holds : ∀ u c, Holds (s.put t ((s.threads t).goto .idle) cache s.logSem) u c → Holds s u c ∧ c ≠ b := by
    intro u c holds
    have member : c ∈ (s.threads u).held := by
      rcases holds with member | block
      · by_cases self : u = t
        · subst self; simpa using member
        · simpa [self] using member
      · rw [none u] at block; cases block
    refine ⟨.inl member,fun same => ?_⟩
    subst same
    have self := base.alone u t c (.inl member) own
    subst self
    exact base.apart u c (by rw [here]; rfl) member
  refine ⟨logged.fits.move ⟨log.1,log.2⟩ _ before _ (by simp) (by simp [Pc.inside]),
    ⟨shape₂,?_,?_,?_,?_,fresh_goto base _ _ _ rfl⟩,none,⟨?_,?_,?_,?_⟩,?_⟩
  · simpa only [State.put_cache,header] using base.loggable
  · intro u c held
    obtain ⟨old,other⟩ := holds u c held
    obtain ⟨still,out⟩ := base.owned u c old
    exact ⟨(held₂ c).mpr ⟨other,(held₁ c).mpr still⟩,out⟩
  · intro u v c one two
    exact base.alone u v c (holds u c one).1 (holds v c two).1
  · intro u c block
    rw [none u] at block
    cases block
  · exact header.trans window.remaining.header
  · simpa only [State.put_cache,device] using window.remaining.published
  · intro j low high
    rw [State.put_cache,pin₂,pin₁,if_neg (later j low high)]
    exact window.remaining.pinned j (by omega) high
  · intro j low high
    simp only [State.put_cache,device]
    rw [view₂,view₁]
    exact window.remaining.logged j (by omega) high
  · intro u inside
    by_cases self : u = t
    · subst self; simp [Pc.inside] at inside
    · simp only [State.put_threads,Function.update_of_ne self] at inside ⊢
      exact window.synced u inside

end Commit

theorem boot_logged {sb : SuperBlock} {s : State n} (boot : Booted sb s) : Logged sb s := by
  obtain ⟨disk,ran⟩ := boot.cache
  obtain ⟨quiet,empty,retired⟩ := boot_quiet ran
  have idle : ∀ t, s.threads t = .new := boot.threads
  have unheld : ∀ t b, ¬ Holds s t b := by
    intro t b holds
    simp [Holds,idle,Thread.new,Pc.block] at holds
  refine ⟨boot_fits boot,⟨quiet.shape.weaken fun _ _ => trivial,?_,?_,?_,?_,?_⟩,.inl ⟨?_,retired,?_,?_⟩⟩
  · rw [empty]
    exact ⟨List.nodup_nil,fun b member => (List.not_mem_nil member).elim,Nat.zero_le _⟩
  · intro t b holds; exact absurd holds (unheld t b)
  · intro t u b holds; exact absurd holds (unheld t b)
  · intro t b block; simp [idle,Thread.new,Pc.block] at block
  · intro t inside; simp [idle,Thread.new,Pc.inside] at inside
  · intro t; simp [idle,Thread.new,Pc.block]
  · intro b member; rw [empty] at member; cases member
  · intro t running; simp [idle,Thread.new] at running

theorem Pc.free_block {pc : Pc} (free : pc.free = true) : pc.block = none := by
  cases pc <;> simp_all [Pc.free,Pc.block]

theorem tryEnter_logged {sb : SuperBlock} {s : State n} {t : Fin n} (logged : Logged sb s) (fits : Fits (tryEnter s t))
    (before : (s.threads t).pc.block = none) (synced : (s.threads t).synced = []) : Logged sb (tryEnter s t) := by
  refine logged.relabel ?_ fits
  unfold tryEnter
  split
  · exact .set logged.base _ _ _ rfl before rfl (fun _ => synced)
  · exact .set logged.base _ _ _ rfl before rfl (fun _ => synced)

theorem step_logged {sb : SuperBlock} {s s' : State n} (logged : Logged sb s) (action : Action n)
    (careful : Careful sb s action) (ran : next sb s action = some s') : Logged sb s' := by
  have fits : Fits s' := step_fits logged.fits action ran
  cases action with
  | beginOp t =>
    simp only [next,beginOp] at ran
    split at ran
    · rename_i idle
      cases ran
      have enteredFits : Fits (s.put t (s.threads t).enter s.cache s.logSem) :=
        logged.fits.move ⟨rfl,rfl⟩ _ (by simp [idle]) _ (by simp [idle]) (by simp [idle,Pc.inside])
      have entered : Logged sb (s.put t (s.threads t).enter s.cache s.logSem) :=
        logged.relabel (.set logged.base _ _ _ rfl (by simp [idle,Pc.block]) (by simp [idle,Pc.block]) (fun _ => rfl))
          enteredFits
      exact tryEnter_logged entered fits (by simp [idle,Pc.block]) (by simp)
    · cases ran
  | testLog t =>
    simp only [next,testLog] at ran
    split at ran
    · rename_i testing
      cases ran
      exact tryEnter_logged logged fits (by simp [testing,Pc.block])
        (logged.base.fresh t (by simp [testing,Pc.inside]) (by simp [testing]))
    · cases ran
  | waitLog t =>
    simp only [next,waitLog] at ran
    split at ran
    · rename_i waiting
      have synced := logged.base.fresh t (by simp [waiting,Pc.inside]) (by simp [waiting])
      have block : (s.threads t).pc.block = none := by simp [waiting,Pc.block]
      split at ran
      · cases ran
        exact logged.relabel (.set logged.base _ _ _ rfl block rfl (fun _ => synced)) fits
      · cases ran
        exact logged.relabel (.set logged.base _ _ _ rfl block rfl (fun _ => synced)) fits
    · cases ran
  | acquire t b =>
    simp only [next,acquire] at ran
    split at ran
    · rename_i free
      split at ran
      · rename_i acquired
        cases ran
        exact logged.acquire careful (Pc.free_block free) acquired
      · cases ran
    · cases ran
  | modify t b d =>
    simp only [next,modify] at ran
    split at ran
    · rename_i held
      cases ran
      exact logged.modify held.2 careful d
    · cases ran
  | sync t b =>
    simp only [next,sync] at ran
    split at ran
    · rename_i running
      split at ran
      · rename_i ctx cache synced
        cases ran
        obtain ⟨⟨header,rm⟩,recorded,synced⟩ := Runs.bind_ok.mp synced
        cases synced
        exact logged.sync running.1 running.2 careful recorded
      · cases ran
    · cases ran
  | syncNull t b =>
    simp only [next,syncNull] at ran
    split at ran
    · rename_i held
      split at ran
      · rename_i synced
        cases ran
        unfold cacheSync at synced
        dsimp only at synced
        split at synced
        · cases synced
        · rename_i block found
          cases synced
          rw [← view_some found]
          exact logged.deviceWrite (.inl held.2)
      · cases ran
    · cases ran
  | release t b =>
    simp only [next,release] at ran
    split at ran
    · rename_i held
      split at ran
      · rename_i released
        cases ran
        exact logged.release (Pc.free_block held.1) held.2 released
      · cases ran
    · cases ran
  | endOp t =>
    simp only [next,endOp] at ran
    split at ran
    · rename_i running
      split at ran
      · split at ran
        · cases ran
          have left := logged.fits.leave running .idle rfl s.logSem
          have out : Logged sb (s.put t ((s.threads t).goto .idle) {s.cache with outstanding := s.cache.outstanding-1}
              s.logSem) :=
            logged.relabel (.set logged.base _ _ _ rfl (by simp [running,Pc.block]) rfl (by simp [Pc.inside])) left
          exact out.relabel (.wake out.base _ _) fits
        · cases ran
      · rename_i last
        split at ran
        · rename_i cache copied
          rw [← checkpointAt_goto sb _ t .idle] at ran
          obtain ⟨fits₁,base₁,none₁,rest₁,quiet₁⟩ := logged.publish running (by omega) copied
          exact Logged.checkpointAt fits₁ base₁ none₁ rest₁ quiet₁ (by simp) ran
        · cases ran
    · cases ran
  | writeHome t =>
    simp only [next,writeHome] at ran
    split at ran
    · rename_i i b h here
      obtain ⟨block,found,rfl⟩ := Option.map_eq_some_iff.mp ran
      rw [← view_some found]
      have wrote := logged.deviceWrite (t := t) (b := b) (.inr (by rw [here]; rfl))
      exact wrote.written here
    · cases ran
  | proceed t =>
    simp only [next,proceed] at ran
    split at ran
    · rename_i i b h here
      split at ran
      · rename_i cache released
        rw [← checkpointAt_goto sb _ t .idle] at ran
        obtain ⟨fits₁,base₁,none₁,rest₁,quiet₁⟩ := logged.letGo here released
        exact Logged.checkpointAt fits₁ base₁ none₁ rest₁ quiet₁ (by simp) ran
      · cases ran
    · cases ran

theorem guarded_logged {sb : SuperBlock} {start s : State n} (boot : Booted sb start)
    (path : Runs.Guarded (next sb) (Careful sb) start s) : Logged sb s :=
  path.invariant (Logged sb) (boot_logged boot) fun _ action _ logged careful ran => step_logged logged action careful ran

end LogThreads
