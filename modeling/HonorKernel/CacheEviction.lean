import HonorKernel.CacheThreads

namespace CacheThreads
open DiskFormat Semaphores BlockCache

-- A step in which manage_block_num detaches and frees structure `p`.
def Frees (s : State n) (p : Ptr) : Action n → Prop
  | .lookup _ b _ => s.find b = none ∧ s.heap p ≠ none ∧ s.swept p = none
  | _ => False

-- An eviction pass is made only while nobody who holds or waits for an unpinned block
-- has been overtaken.
def Unovertaken (s : State n) : Action n → Prop
  | .lookup _ b _ => s.find b = none → evictionThreshold ≤ s.blockNum →
      ∀ u, ∀ use ∈ (s.threads u).uses, s.overtaken u use.1 = true → (s.heap use.1).any (·.pinned) = true
  | _ => True

instance (s : State n) (p : Ptr) (action : Action n) : Decidable (Frees s p action) :=
  match action with
  | .lookup _ b _ => inferInstanceAs (Decidable (s.find b = none ∧ s.heap p ≠ none ∧ s.swept p = none))
  | .read _ | .link _ | .wait _ | .relink _ | .release _ _ _ | .modify _ _ _ _ | .sync _ _ _ | .unpin _ _ _
  | .syncNull _ _ _ => inferInstanceAs (Decidable False)

instance (s : State n) (action : Action n) : Decidable (Unovertaken s action) :=
  match action with
  | .lookup _ b _ => inferInstanceAs (Decidable (s.find b = none → evictionThreshold ≤ s.blockNum →
      ∀ u, ∀ use ∈ (s.threads u).uses, s.overtaken u use.1 = true → (s.heap use.1).any (·.pinned) = true))
  | .read _ | .link _ | .wait _ | .relink _ | .release _ _ _ | .modify _ _ _ _ | .sync _ _ _ | .unpin _ _ _
  | .syncNull _ _ _ => inferInstanceAs (Decidable True)

-- A structure in use is live, and its flag is down only for those it has overtaken.
structure Sound (s : State n) : Prop where
  live : ∀ t p b, (p,b) ∈ (s.threads t).uses → s.heap p ≠ none
  flagged : ∀ p x, s.heap p = some x → x.acquired = false → ∀ u b, (p,b) ∈ (s.threads u).uses → s.overtaken u p = true

theorem manage_below (idle : Node → Bool) (xs : List Node) (small : n < evictionThreshold) :
    manageWalk idle n xs = (n,xs) := by
  cases xs with
  | nil => rfl
  | cons p rest =>
    unfold manageWalk
    rw [if_neg (by omega)]

section Uses
variable {s : State n} {t u : Fin n} {use : Ptr × Usize}

theorem usesPtr_iff (thread : Thread) (p : Ptr) : thread.usesPtr p = true ↔ ∃ b, (p,b) ∈ thread.uses := by
  simp [Thread.usesPtr]

theorem uses_goto (thread : Thread) (pc : Pc) : (thread.goto pc).uses = pc.target.toList++thread.held := rfl

theorem uses_take (thread : Thread) (p : Ptr) (b : Usize) (found : thread.pc.target = some (p,b)) :
    (thread.take p b).uses = thread.uses := by
  unfold Thread.uses
  rw [found]
  rfl

theorem uses_drop (thread : Thread) (p : Ptr) (b : Usize) (member : use ∈ (thread.drop p b).uses) :
    use ∈ thread.uses := by
  simp only [Thread.uses,Thread.drop,List.mem_append] at member ⊢
  exact member.imp id List.mem_of_mem_erase

theorem uses_grant (p : Ptr) (who : Option Nat) (v : Nat) (thread : Thread) :
    (grant p who v thread).uses = thread.uses := by
  unfold grant
  split
  · rename_i q b asleep
    split
    · simp [Thread.uses,Thread.goto,asleep,Pc.target]
    · rfl
  · rfl

theorem uses_afterRelease (s : State n) (p : Ptr) (b : Usize) (who : Option Nat)
    (member : use ∈ (afterRelease s t p b who u).uses) : use ∈ (s.threads u).uses := by
  unfold afterRelease at member
  rw [uses_grant] at member
  by_cases here : u = t
  · subst here
    rw [Function.update_self] at member
    exact uses_drop _ p b member
  · rw [Function.update_of_ne here] at member
    exact member

theorem uses_update (thread : Thread) (member : use ∈ (Function.update s.threads t thread u).uses) :
    u = t ∧ use ∈ thread.uses ∨ u ≠ t ∧ use ∈ (s.threads u).uses := by
  by_cases here : u = t
  · subst here
    rw [Function.update_self] at member
    exact .inl ⟨rfl,member⟩
  · rw [Function.update_of_ne here] at member
    exact .inr ⟨here,member⟩

theorem uses_found (pc : Pc) (p : Ptr) (b : Usize) (target : pc.target = some (p,b))
    (member : use ∈ (Function.update s.threads t ((s.threads t).goto pc) u).uses) :
    u = t ∧ use = (p,b) ∨ use ∈ (s.threads u).uses := by
  rcases uses_update _ member with ⟨here,member⟩ | ⟨_,member⟩
  · rw [uses_goto,target] at member
    rw [here]
    rcases List.mem_cons.mp member with same | old
    · exact .inl ⟨rfl,same⟩
    · exact .inr (List.mem_append_right _ old)
  · exact .inr member

end Uses

theorem find_parts {s : State n} (found : s.find b = some p) : p ∈ s.list ∧ ∃ x, s.heap p = some x ∧ x.blockNo = b := by
  unfold State.find at found
  have test := List.find?_some found
  obtain ⟨x,live,number⟩ := Runs.some_such test
  exact ⟨List.mem_of_find?_eq_some found,x,live,of_decide_eq_true number⟩

theorem find_absent {s : State n} (missed : s.find b = none) (member : p ∈ s.list) (live : s.heap p = some x) :
    x.blockNo ≠ b := by
  unfold State.find at missed
  have test := List.find?_eq_none.mp missed p member
  simpa [live] using test

section Sweep
variable {s : State n} {p : Ptr}

theorem swept_parts (freed : s.swept p = none) : s.heap p = none ∨
    p ∈ s.list ∧ evictionThreshold ≤ s.blockNum ∧ ∃ x, s.heap p = some x ∧ x.acquired = false ∧ x.pinned = false := by
  unfold State.swept at freed
  split at freed
  · rename_i gone
    by_cases large : evictionThreshold ≤ s.blockNum
    · refine .inr ⟨gone.1,large,?_⟩
      have idle : s.idleAt p = true := by
        by_contra busy
        exact gone.2 (manage_keeps s.idleAt _ _ p (List.mem_reverse.mpr gone.1) (by simpa using busy))
      unfold State.idleAt at idle
      obtain ⟨x,found,flags⟩ := Runs.some_such idle
      simp only [Bool.and_eq_true,Bool.not_eq_true'] at flags
      exact ⟨x,found,flags.1,flags.2⟩
    · have all : s.kept.2 = s.list.reverse := by
        rw [State.kept,manage_below _ _ (by omega)]
      rw [all,List.mem_reverse] at gone
      exact absurd gone.1 gone.2
  · exact .inl freed

theorem swept_some (kept : s.swept p = some x) : s.heap p = some x := by
  unfold State.swept at kept
  split at kept
  · cases kept
  · exact kept

theorem Sound.spares (sound : Sound s) (unovertaken : Unovertaken s (.lookup t b fresh)) (missed : s.find b = none)
    (used : (p,c) ∈ (s.threads u).uses) : s.swept p = s.heap p ∧ s.swept p ≠ none := by
  have stays : s.swept p ≠ none := by
    intro freed
    rcases swept_parts freed with dead | ⟨_,large,x,found,lowered,unpinned⟩
    · exact sound.live u p c used dead
    · have marked := sound.flagged p x found lowered u c used
      have pinned := unovertaken missed large u (p,c) used marked
      simp [found,unpinned] at pinned
  refine ⟨?_,stays⟩
  cases kept : s.swept p with
  | none => exact absurd kept stays
  | some x => exact (swept_some kept).symm

end Sweep

section Steps
variable {s s' : State n} {t : Fin n}

-- The thread's uses stay, and one live structure changes without lowering its flag.
theorem Sound.touch (sound : Sound s) (found : s.heap p = some x) (y : Block) (flag : y.acquired = x.acquired)
    (device : Usize → BlockData) (list : List Ptr) (thread : Thread) (uses : thread.uses = (s.threads t).uses) :
    Sound ⟨device,Function.update s.heap p (some y),list,s.blockNum,Function.update s.threads t thread,s.overtaken⟩ := by
  have same : ∀ u use, use ∈ (Function.update s.threads t thread u).uses → use ∈ (s.threads u).uses := by
    intro u use member
    rcases uses_update thread member with ⟨here,member⟩ | ⟨_,member⟩
    · rw [here,← uses]; exact member
    · exact member
  refine ⟨?_,?_⟩
  · intro u q b member
    by_cases here : q = p
    · subst here; simp
    · simpa [here] using sound.live u q b (same u _ member)
  · intro q z live lowered u b member
    by_cases here : q = p
    · subst here
      simp only [Function.update_self,Option.some.injEq] at live
      subst live
      exact sound.flagged q x found (flag ▸ lowered) u b (same u _ member)
    · simp only [Function.update_of_ne here] at live
      exact sound.flagged q z live lowered u b (same u _ member)

theorem Sound.hit (sound : Sound s) (live : s.heap p = some x) (b : Usize) :
    Sound {s with
      heap := Function.update s.heap p ((s.heap p).map fun x => {x with acquired := true}),
      threads := Function.update s.threads t ((s.threads t).goto (.selected p b)),
      overtaken := forget s.overtaken p} := by
  refine ⟨?_,?_⟩
  · intro u q c member
    by_cases here : q = p
    · subst here; simp [live]
    · rcases uses_found _ p b rfl member with ⟨_,same⟩ | old
      · cases same; exact absurd rfl here
      · simpa [here] using sound.live u q c old
  · intro q z found lowered u c member
    by_cases here : q = p
    · subst here
      simp only [Function.update_self,live,Option.map_some,Option.some.injEq] at found
      subst found
      cases lowered
    · simp only [Function.update_of_ne here] at found
      rcases uses_found _ p b rfl member with ⟨_,same⟩ | old
      · cases same; exact absurd rfl here
      · simpa [forget,here] using sound.flagged q z found lowered u c old

theorem Sound.miss (sound : Sound s) (unovertaken : Unovertaken s (.lookup t b fresh)) (missed : s.find b = none) :
    Sound {s with
      heap := Function.update s.swept fresh (some (initBlock b 0#4096)),
      list := s.kept.2.reverse,
      blockNum := s.kept.1+1,
      threads := Function.update s.threads t ((s.threads t).goto (.reading fresh b)),
      overtaken := forget s.overtaken fresh} := by
  refine ⟨?_,?_⟩
  · intro u q c member
    by_cases here : q = fresh
    · subst here; simp
    · rcases uses_found _ fresh b rfl member with ⟨_,same⟩ | old
      · cases same; exact absurd rfl here
      · simpa [here] using (sound.spares unovertaken missed old).2
  · intro q z found lowered u c member
    by_cases here : q = fresh
    · subst here
      simp only [Function.update_self,Option.some.injEq] at found
      subst found
      cases lowered
    · simp only [Function.update_of_ne here] at found
      rcases uses_found _ fresh b rfl member with ⟨_,same⟩ | old
      · cases same; exact absurd rfl here
      · simpa [forget,here] using sound.flagged q z (swept_some found) lowered u c old

theorem Sound.release (sound : Sound s) (p : Ptr) (b : Usize) (who : Option Nat) (y : Block) :
    Sound {s with
      heap := Function.update s.heap p (some y),
      threads := afterRelease s t p b who,
      overtaken := fun u q => if q = p then (afterRelease s t p b who u).usesPtr p else s.overtaken u q} := by
  refine ⟨?_,?_⟩
  · intro u q c member
    by_cases here : q = p
    · subst here; simp
    · simpa [here] using sound.live u q c (uses_afterRelease s p b who member)
  · intro q z found lowered u c member
    by_cases here : q = p
    · subst here
      simpa using (usesPtr_iff _ q).mpr ⟨c,member⟩
    · simp only [Function.update_of_ne here] at found
      simpa [here] using sound.flagged q z found lowered u c (uses_afterRelease s p b who member)

theorem Sound.store (sound : Sound s) {f : Block → Block} (keeps : ∀ x, (f x).acquired = x.acquired)
    (ran : store s t p b f = some s') : Sound s' := by
  unfold CacheThreads.store at ran
  split at ran
  · obtain ⟨x,live,rfl⟩ := Option.map_eq_some_iff.mp ran
    have touched := sound.touch (t := t) live (f x) (keeps x) s.device s.list (s.threads t) rfl
    rw [Function.update_eq_self] at touched
    exact touched
  · cases ran

end Steps

theorem step_sound {s s' : State n} (sound : Sound s) (action : Action n) (unovertaken : Unovertaken s action)
    (ran : next s action = some s') : Sound s' := by
  cases action with
  | lookup t b fresh =>
    simp only [next,lookup] at ran
    split at ran
    · split at ran
      · rename_i p found
        cases ran
        obtain ⟨_,x,live,_⟩ := find_parts found
        exact sound.hit live b
      · rename_i missed
        split at ran
        · cases ran; exact sound.miss unovertaken missed
        · cases ran
    · cases ran
  | read t =>
    simp only [next,read] at ran
    split at ran
    · rename_i p b here
      obtain ⟨x,live,rfl⟩ := Option.map_eq_some_iff.mp ran
      refine sound.touch live {x with data := s.device x.blockNo} rfl s.device s.list _ ?_
      simp [Thread.uses,Thread.goto,here,Pc.target]
    · cases ran
  | link t =>
    simp only [next,link] at ran
    split at ran
    · rename_i p b here
      cases ran
      have used : (p,b) ∈ (s.threads t).uses := by simp [Thread.uses,here,Pc.target]
      obtain ⟨x,live⟩ := Option.ne_none_iff_exists'.mp (sound.live t p b used)
      have touched := sound.touch live x rfl s.device (p::s.list) _ (uses_take (s.threads t) p b (by rw [here]; rfl))
      rw [← live,Function.update_eq_self] at touched
      exact touched
    · cases ran
  | wait t =>
    simp only [next,wait] at ran
    split at ran
    · rename_i p b here
      obtain ⟨x,live,rfl⟩ := Option.map_eq_some_iff.mp ran
      refine sound.touch live {x with lock := (waitSem x.lock t.val).2} rfl s.device s.list _ ?_
      rw [uses_goto]
      split <;> simp [Thread.uses,here,Pc.target]
    · cases ran
  | relink t =>
    simp only [next,relink] at ran
    split at ran
    · rename_i p b here
      split at ran
      · cases ran
        have used : (p,b) ∈ (s.threads t).uses := by simp [Thread.uses,here,Pc.target]
        obtain ⟨x,live⟩ := Option.ne_none_iff_exists'.mp (sound.live t p b used)
        have touched := sound.touch live x rfl s.device (p::s.list.erase p) _
          (uses_take (s.threads t) p b (by rw [here]; rfl))
        rw [← live,Function.update_eq_self] at touched
        exact touched
      · cases ran
    · cases ran
  | release t p b =>
    simp only [next,release] at ran
    split at ran
    · split at ran
      · cases ran
      · split at ran
        · cases ran
        · cases ran; exact sound.release p b _ _
    · cases ran
  | modify t p b d => exact sound.store (f := fun x => {x with data := d}) (fun _ => rfl) ran
  | sync t p b => exact sound.store (f := fun x => {x with pinned := true}) (fun _ => rfl) ran
  | unpin t p b => exact sound.store (f := fun x => {x with pinned := false}) (fun _ => rfl) ran
  | syncNull t p b =>
    simp only [next,syncNull] at ran
    split at ran
    · obtain ⟨x,live,rfl⟩ := Option.map_eq_some_iff.mp ran
      exact ⟨sound.live,sound.flagged⟩
    · cases ran

theorem boot_sound {sb : SuperBlock} {s : State n} (boot : Booted sb s) : Sound s := by
  have none : ∀ t, (s.threads t).uses = [] := fun t => by rw [boot.threads t]; rfl
  refine ⟨?_,?_⟩
  · intro t p b member; rw [none] at member; cases member
  · intro p x _ _ u b member; rw [none] at member; cases member

theorem eviction_spares_users {sb : SuperBlock} {start s s' : State n} (boot : Booted sb start)
    (path : Runs.Guarded next Unovertaken start s) (action : Action n) (unovertaken : Unovertaken s action)
    (ran : next s action = some s') (freed : Frees s p action) (t : Fin n) : (s.threads t).usesPtr p = false := by
  have sound : Sound s := path.invariant Sound (boot_sound boot) fun _ action _ sound met ran => step_sound sound action met ran
  cases action with
  | lookup u b fresh =>
    obtain ⟨missed,_,gone⟩ := freed
    by_contra used
    obtain ⟨c,member⟩ := (usesPtr_iff _ p).mp (by simpa using used)
    exact (sound.spares unovertaken missed member).2 gone
  | read u => cases freed
  | link u => cases freed
  | wait u => cases freed
  | relink u => cases freed
  | release u q b => cases freed
  | modify u q b d => cases freed
  | sync u q b => cases freed
  | unpin u q b => cases freed
  | syncNull u q b => cases freed

-- Twenty blocks, the first of them (100 at address 0) still held.
def fillCache : List (Action 2) :=
  load 0 100#64 0++(List.range 19).flatMap fun i =>
    load 0 (BitVec.ofNat 64 (101+i)) (i+1)++[.release 0 (i+1) (BitVec.ofNat 64 (101+i))]

-- Thread 1 has found block 100 and is about to wait for it; the release by thread 0
-- lowers the flag, and the next miss frees the structure under thread 1.
theorem waited_block_freed : ¬ ∀ (start s s' : State 2) (action : Action 2) (p : Ptr) (t : Fin 2),
    Booted mkfsSuperBlock start → Runs.Reached next start s → next s action = some s' → Frees s p action →
    (s.threads t).usesPtr p = false := by
  intro spared
  obtain ⟨⟨start,s⟩,ran,facts⟩ := Runs.some_such
    (x := fromBoot 2 (Runs.exec next · (fillCache++[.lookup 1 100#64 0,.release 0 0 100#64])))
    (p := fun r => (next r.2 (.lookup 0 200#64 50)).isSome &&
      decide (Frees r.2 0 (.lookup 0 200#64 50) ∧ (r.2.threads 1).usesPtr 0 = true)) (by decide +kernel)
  obtain ⟨boot,path⟩ := fromBoot_parts ran
  obtain ⟨runs,facts⟩ := Bool.and_eq_true_iff.mp facts
  obtain ⟨s',stepped⟩ := Option.isSome_iff_exists.mp runs
  obtain ⟨freed,used⟩ := of_decide_eq_true facts
  rw [spared start s s' _ 0 1 boot (Runs.exec_reached .start path) stepped freed] at used
  cases used

theorem eviction_spares_users_of_full_cache : ∃ s s' : State 2, (s.threads 1).usesPtr 1 = true ∧
    next s (.lookup 0 200#64 50) = some s' ∧ Frees s 2 (.lookup 0 200#64 50) ∧ ∀ t,
    (s.threads t).usesPtr 2 = false := by
  obtain ⟨⟨start,s⟩,ran,facts⟩ := Runs.some_such
    (x := fromBoot 2 (Runs.execGuarded next Unovertaken · (fillCache++[.release 0 0 100#64,.lookup 1 101#64 0,
      .lookup 0 100#64 0,.wait 0,.relink 0])))
    (p := fun r => (next r.2 (.lookup 0 200#64 50)).isSome && decide (Unovertaken r.2 (.lookup 0 200#64 50) ∧
      Frees r.2 2 (.lookup 0 200#64 50) ∧ (r.2.threads 1).usesPtr 1 = true)) (by decide +kernel)
  obtain ⟨boot,path⟩ := fromBoot_parts ran
  obtain ⟨runs,facts⟩ := Bool.and_eq_true_iff.mp facts
  obtain ⟨s',stepped⟩ := Option.isSome_iff_exists.mp runs
  obtain ⟨unovertaken,freed,used⟩ := of_decide_eq_true facts
  exact ⟨s,s',used,stepped,freed,
    eviction_spares_users boot (Runs.exec_guarded .start path) _ unovertaken stepped freed⟩

end CacheThreads
