import HonorKernel.CacheEviction
import HonorKernel.LogCommit

namespace CacheThreads
open DiskFormat Semaphores BlockCache

def State.numberAt (s : State n) (p : Ptr) : Option Usize := (s.heap p).map (·.blockNo)

-- At most one live structure carries a block's number and at most one thread holds it.
structure OneCopy (s : State n) : Prop where
  structures : ∀ p q b, s.numberAt p = some b → s.numberAt q = some b → p = q
  holders : ∀ t u p q b, (p,b) ∈ (s.threads t).held → (q,b) ∈ (s.threads u).held → t = u

-- The thread is between its miss on `b` and the insertion of the new structure.
def Pc.loads (pc : Pc) (p : Ptr) (b : Usize) : Prop := pc = .reading p b ∨ pc = .loaded p b

def Pc.loadsBlock : Pc → Usize → Bool
  | .reading _ c,b | .loaded _ c,b => c = b
  | _,_ => false

-- Nobody looks a block up while another thread is still loading it, and no eviction
-- pass is made over somebody who has been overtaken.
def Separate (s : State n) : Action n → Prop
  | .lookup t b fresh => (∀ u, (s.threads u).pc.loadsBlock b = false) ∧ Unovertaken s (.lookup t b fresh)
  | _ => True

instance (s : State n) (action : Action n) : Decidable (Separate s action) :=
  match action with
  | .lookup t b fresh => inferInstanceAs (Decidable ((∀ u, (s.threads u).pc.loadsBlock b = false) ∧
      Unovertaken s (.lookup t b fresh)))
  | .read _ | .link _ | .wait _ | .relink _ | .release _ _ _ | .modify _ _ _ _ | .sync _ _ _ | .unpin _ _ _
  | .syncNull _ _ _ => inferInstanceAs (Decidable True)

theorem Separate.unovertaken {s : State n} {action : Action n} (separate : Separate s action) :
    Unovertaken s action := by
  cases action with
  | lookup t b fresh => exact separate.2
  | read t => trivial
  | link t => trivial
  | wait t => trivial
  | relink t => trivial
  | release t p b => trivial
  | modify t p b d => trivial
  | sync t p b => trivial
  | unpin t p b => trivial
  | syncNull t p b => trivial

theorem loadsBlock_of_loads {pc : Pc} (loads : pc.loads p b) : pc.loadsBlock b = true := by
  rcases loads with here | here <;> simp [here,Pc.loadsBlock]

-- A structure is used under its own number, no two carry one number, and a live
-- structure is on the list unless its loader has still to insert it.
structure Named (s : State n) : Prop where
  number : ∀ t p b, (p,b) ∈ (s.threads t).uses → s.numberAt p = some b
  unique : ∀ p q b, s.numberAt p = some b → s.numberAt q = some b → p = q
  placed : ∀ p b, s.numberAt p = some b → p ∈ s.list ∨ ∃ t, (s.threads t).pc.loads p b

-- Those who have the sleeplock of `p`: the holders, and the threads in cache_acquire
-- behind their wait_sem.
def Pc.locked : Pc → Option (Ptr × Usize)
  | .reading p b | .loaded p b | .granted p b => some (p,b)
  | .idle | .selected _ _ | .asleep _ _ => none

def Thread.owns (p : Ptr) (thread : Thread) : Nat := ((thread.pc.locked.toList++thread.held).map Prod.fst).count p

def owners (threads : Fin n → Thread) (p : Ptr) : Nat := Runs.total (Thread.owns p) threads

-- The permits of a sleeplock and its owners together are at most one.
def Locked (s : State n) : Prop := ∀ p x, s.heap p = some x → (owners s.threads p : Int)+max x.lock.val 0 ≤ 1

section Naming
variable {s s' : State n} {t : Fin n}

theorem numbers_update (live : s.heap p = some x) (y : Block) (same : y.blockNo = x.blockNo) (q : Ptr) :
    (Function.update s.heap p (some y) q).map (·.blockNo) = s.numberAt q := by
  by_cases here : q = p
  · subst here; simp [State.numberAt,live,same]
  · simp [here,State.numberAt]

theorem loads_afterRelease {s : State n} (p : Ptr) (b : Usize) (who : Option Nat) (u : Fin n) (q : Ptr) (c : Usize)
    (loads : (s.threads u).pc.loads q c) : (afterRelease s t p b who u).pc.loads q c := by
  have kept : (Function.update s.threads t ((s.threads t).drop p b) u).pc = (s.threads u).pc := by
    by_cases here : u = t
    · subst here; simp [Thread.drop]
    · simp [Function.update_of_ne here]
  unfold afterRelease grant
  rw [kept]
  rcases loads with here | here
  · simp [here,kept,Pc.loads]
  · simp [here,kept,Pc.loads]

-- Every step but a miss leaves the numbers of the live structures alone.
theorem Named.keep (named : Named s) (numbers : ∀ p, s'.numberAt p = s.numberAt p)
    (uses : ∀ t p b, (p,b) ∈ (s'.threads t).uses → (p,b) ∈ (s.threads t).uses ∨ s.numberAt p = some b)
    (listed : ∀ p, p ∈ s.list → p ∈ s'.list)
    (loads : ∀ t p b, (s.threads t).pc.loads p b → (s'.threads t).pc.loads p b ∨ p ∈ s'.list) : Named s' := by
  refine ⟨?_,?_,?_⟩
  · intro t p b member
    rw [numbers]
    rcases uses t p b member with old | same
    · exact named.number t p b old
    · exact same
  · intro p q b left right
    exact named.unique p q b (numbers p ▸ left) (numbers q ▸ right)
  · intro p b number
    rcases named.placed p b (numbers p ▸ number) with member | ⟨t,loading⟩
    · exact .inl (listed p member)
    · rcases loads t p b loading with still | inserted
      · exact .inr ⟨t,still⟩
      · exact .inl inserted

theorem Named.move (named : Named s) (thread : Thread) (heap : Ptr → Option Block) (list : List Ptr)
    (numbers : ∀ p, (heap p).map (·.blockNo) = s.numberAt p)
    (uses : ∀ p b, (p,b) ∈ thread.uses → (p,b) ∈ (s.threads t).uses ∨ s.numberAt p = some b)
    (listed : ∀ p, p ∈ s.list → p ∈ list)
    (loads : ∀ p b, (s.threads t).pc.loads p b → thread.pc.loads p b ∨ p ∈ list)
    (device : Usize → BlockData) (blockNum : Nat) (overtaken : Fin n → Ptr → Bool) :
    Named ⟨device,heap,list,blockNum,Function.update s.threads t thread,overtaken⟩ := by
  refine named.keep numbers ?_ listed ?_
  · intro u p b member
    rcases uses_update thread member with ⟨here,member⟩ | ⟨_,member⟩
    · rw [here]; exact uses p b member
    · exact .inl member
  · intro u p b loading
    by_cases here : u = t
    · subst here
      simpa using loads p b loading
    · simpa [Function.update_of_ne here] using Or.inl loading

-- No structure carries the number of a block that is neither listed nor being loaded.
theorem Named.absent (named : Named s) (missed : s.find b = none)
    (unloaded : ∀ u, (s.threads u).pc.loadsBlock b = false) (p : Ptr) : s.numberAt p ≠ some b := by
  intro number
  rcases named.placed p b number with member | ⟨u,loading⟩
  · obtain ⟨x,live,same⟩ := Option.map_eq_some_iff.mp number
    exact find_absent missed member live same
  · have busy := loadsBlock_of_loads loading
    rw [unloaded u] at busy
    cases busy

theorem Named.miss (named : Named s) (sound : Sound s) (separate : Separate s (.lookup t b fresh))
    (missed : s.find b = none) (free : s.swept fresh = none) (idle : (s.threads t).pc = .idle) :
    Named {s with
      heap := Function.update s.swept fresh (some (initBlock b 0#4096)),
      list := s.kept.2.reverse,
      blockNum := s.kept.1+1,
      threads := Function.update s.threads t ((s.threads t).goto (.reading fresh b)),
      overtaken := forget s.overtaken fresh} := by
  have absent := named.absent missed separate.1
  refine ⟨?_,?_,?_⟩
  · intro u p c member
    rcases uses_found _ fresh b rfl member with ⟨_,same⟩ | old
    · cases same; simp [State.numberAt,initBlock]
    · obtain ⟨same,stays⟩ := sound.spares separate.2 missed old
      have other : p ≠ fresh := fun equal => stays (equal ▸ free)
      have number := named.number u p c old
      simpa [State.numberAt,other,same] using number
  · have carries : ∀ p c, (Function.update s.swept fresh (some (initBlock b 0#4096)) p).map (·.blockNo) = some c →
        p = fresh ∧ c = b ∨ p ≠ fresh ∧ s.numberAt p = some c := by
      intro p c number
      by_cases here : p = fresh
      · subst here
        simp only [Function.update_self,Option.map_some,Option.some.injEq] at number
        exact .inl ⟨rfl,number.symm⟩
      · simp only [Function.update_of_ne here] at number
        obtain ⟨x,live,same⟩ := Option.map_eq_some_iff.mp number
        refine .inr ⟨here,?_⟩
        simp [State.numberAt,swept_some live,same]
    intro p q c left right
    rcases carries p c left with ⟨here,same⟩ | ⟨_,old⟩
    · rcases carries q c right with ⟨there,_⟩ | ⟨_,other⟩
      · rw [here,there]
      · exact absurd (same ▸ other) (absent q)
    · rcases carries q c right with ⟨_,same⟩ | ⟨_,other⟩
      · exact absurd (same ▸ old) (absent p)
      · exact named.unique p q c old other
  · intro p c number
    by_cases here : p = fresh
    · subst here
      simp only [State.numberAt,Function.update_self,Option.map_some,Option.some.injEq] at number
      subst number
      refine .inr ⟨t,.inl ?_⟩
      simp [Thread.goto,initBlock]
    · simp only [State.numberAt,Function.update_of_ne here] at number
      obtain ⟨x,kept,same⟩ := Option.map_eq_some_iff.mp number
      have old : s.numberAt p = some c := by simp [State.numberAt,swept_some kept,same]
      rcases named.placed p c old with member | ⟨u,loading⟩
      · left
        by_contra gone
        unfold State.swept at kept
        rw [if_pos ⟨member,fun stays => gone (List.mem_reverse.mpr stays)⟩] at kept
        cases kept
      · refine .inr ⟨u,?_⟩
        have other : u ≠ t := by
          intro same
          subst same
          rw [idle] at loading
          rcases loading with loading | loading <;> cases loading
        simpa [Function.update_of_ne other] using loading

theorem Named.store (named : Named s) {f : Block → Block} (keeps : ∀ x, (f x).blockNo = x.blockNo)
    (ran : store s t p b f = some s') : Named s' := by
  unfold CacheThreads.store at ran
  split at ran
  · obtain ⟨x,live,rfl⟩ := Option.map_eq_some_iff.mp ran
    exact named.keep (numbers_update live (f x) (keeps x)) (fun _ _ _ member => .inl member) (fun _ member => member)
      (fun _ _ _ loads => .inl loads)
  · cases ran

theorem step_named (named : Named s) (sound : Sound s) (action : Action n) (separate : Separate s action)
    (ran : next s action = some s') : Named s' := by
  cases action with
  | lookup t b fresh =>
    simp only [next,lookup] at ran
    split at ran
    · rename_i idle
      split at ran
      · rename_i p found
        cases ran
        obtain ⟨_,x,live,number⟩ := find_parts found
        rw [live]
        refine named.move _ _ _ (numbers_update live {x with acquired := true} rfl) ?_ (fun _ member => member) ?_ _ _ _
        · intro q c member
          rw [uses_goto] at member
          rcases List.mem_cons.mp member with same | old
          · cases same; exact .inr (by simp [State.numberAt,live,number])
          · exact .inl (List.mem_append_right _ old)
        · intro q c loads
          rw [idle] at loads
          rcases loads with loads | loads <;> cases loads
      · rename_i missed
        split at ran
        · rename_i free
          cases ran
          exact named.miss sound separate missed free idle
        · cases ran
    · cases ran
  | read t =>
    simp only [next,read] at ran
    split at ran
    · rename_i p b here
      obtain ⟨x,live,rfl⟩ := Option.map_eq_some_iff.mp ran
      refine named.move _ _ _ (numbers_update live {x with data := s.device x.blockNo} rfl) ?_ (fun _ member => member) ?_ _ _ _
      · intro q c member
        left
        simpa [Thread.uses,Thread.goto,here,Pc.target] using member
      · intro q c loads
        left
        rw [here] at loads
        rcases loads with loads | loads
        · cases loads; exact .inr rfl
        · cases loads
    · cases ran
  | link t =>
    simp only [next,link] at ran
    split at ran
    · rename_i p b here
      cases ran
      refine named.move _ _ _ (fun _ => rfl) ?_ (fun _ member => List.mem_cons_of_mem _ member) ?_ _ _ _
      · intro q c member
        rw [uses_take _ p b (by rw [here]; rfl)] at member
        exact .inl member
      · intro q c loads
        right
        rw [here] at loads
        rcases loads with loads | loads
        · cases loads
        · cases loads; exact List.mem_cons_self
    · cases ran
  | wait t =>
    simp only [next,wait] at ran
    split at ran
    · rename_i p b here
      obtain ⟨x,live,rfl⟩ := Option.map_eq_some_iff.mp ran
      refine named.move _ _ _ (numbers_update live {x with lock := (waitSem x.lock t.val).2} rfl) ?_ (fun _ member => member) ?_ _ _ _
      · intro q c member
        left
        rw [uses_goto] at member
        split at member <;> simpa [Thread.uses,here,Pc.target] using member
      · intro q c loads
        rw [here] at loads
        rcases loads with loads | loads <;> cases loads
    · cases ran
  | relink t =>
    simp only [next,relink] at ran
    split at ran
    · rename_i p b here
      split at ran
      · cases ran
        refine named.move _ _ _ (fun _ => rfl) ?_ ?_ ?_ _ _ _
        · intro q c member
          rw [uses_take _ p b (by rw [here]; rfl)] at member
          exact .inl member
        · intro q member
          by_cases same : q = p
          · subst same; exact List.mem_cons_self
          · exact List.mem_cons_of_mem _ ((List.mem_erase_of_ne same).mpr member)
        · intro q c loads
          rw [here] at loads
          rcases loads with loads | loads <;> cases loads
      · cases ran
    · cases ran
  | release t p b =>
    simp only [next,release] at ran
    split at ran
    · split at ran
      · cases ran
      · rename_i x live
        split at ran
        · cases ran
        · cases ran
          exact named.keep (numbers_update live _ rfl) (fun _ _ _ member => .inl (uses_afterRelease s p b _ member))
            (fun _ member => member) (fun u q c loads => .inl (loads_afterRelease p b _ u q c loads))
    · cases ran
  | modify t p b d => exact named.store (f := fun x => {x with data := d}) (fun _ => rfl) ran
  | sync t p b => exact named.store (f := fun x => {x with pinned := true}) (fun _ => rfl) ran
  | unpin t p b => exact named.store (f := fun x => {x with pinned := false}) (fun _ => rfl) ran
  | syncNull t p b =>
    simp only [next,syncNull] at ran
    split at ran
    · obtain ⟨x,live,rfl⟩ := Option.map_eq_some_iff.mp ran
      exact named.keep (fun _ => rfl) (fun _ _ _ member => .inl member) (fun _ member => member) (fun _ _ _ loads => .inl loads)
    · cases ran

end Naming

section Locks
variable {s s' : State n} {t : Fin n}

theorem owns_used (thread : Thread) (p : Ptr) (owns : thread.owns p ≠ 0) : ∃ b, (p,b) ∈ thread.uses := by
  have positive := List.count_pos_iff.mp (Nat.pos_of_ne_zero owns)
  obtain ⟨use,member,same⟩ := List.mem_map.mp positive
  refine ⟨use.2,?_⟩
  rw [← same]
  rcases List.mem_append.mp member with locked | held
  · refine List.mem_append_left _ ?_
    cases here : thread.pc <;> simp [here,Pc.locked,Pc.target] at locked ⊢ <;> exact locked
  · exact List.mem_append_right _ held

theorem owns_take (thread : Thread) (p : Ptr) (b : Usize) (locked : thread.pc.locked = some (p,b)) (q : Ptr) :
    (thread.take p b).owns q = thread.owns q := by
  unfold Thread.owns
  rw [locked]
  rfl

theorem owns_goto (thread : Thread) (pc : Pc) (same : pc.locked = thread.pc.locked) (q : Ptr) :
    (thread.goto pc).owns q = thread.owns q := by
  simp [Thread.owns,Thread.goto,same]

-- What one thread gains or loses shows in the owners of `q` and nothing else does.
theorem owners_update (threads : Fin n → Thread) (t : Fin n) (thread : Thread) (q : Ptr) :
    owners (Function.update threads t thread) q+(threads t).owns q = owners threads q+thread.owns q :=
  Runs.total_update (Thread.owns q) threads t thread

theorem Locked.keep (locked : Locked s) (smaller : ∀ p x', s'.heap p = some x' → ∃ x, s.heap p = some x ∧
    (owners s'.threads p : Int)+max x'.lock.val 0 ≤ owners s.threads p+max x.lock.val 0) : Locked s' := by
  intro p x' live
  obtain ⟨x,before,less⟩ := smaller p x' live
  have bound := locked p x before
  omega

-- One thread moves and one structure changes; the owners and permits of that
-- structure do not grow together, and the thread gets no other lock.
theorem Locked.move (locked : Locked s) (live : s.heap p = some x) (y : Block) (thread : Thread)
    (here : (thread.owns p : Int)+max y.lock.val 0 ≤ (s.threads t).owns p+max x.lock.val 0)
    (others : ∀ q, q ≠ p → thread.owns q ≤ (s.threads t).owns q)
    (device : Usize → BlockData) (list : List Ptr) (blockNum : Nat) (overtaken : Fin n → Ptr → Bool) :
    Locked ⟨device,Function.update s.heap p (some y),list,blockNum,Function.update s.threads t thread,overtaken⟩ := by
  refine locked.keep ?_
  intro q z found
  have moved := owners_update s.threads t thread q
  by_cases same : q = p
  · subst same
    simp only [Function.update_self,Option.some.injEq] at found
    subst found
    refine ⟨x,live,?_⟩
    simp only
    omega
  · simp only [Function.update_of_ne same] at found
    refine ⟨z,found,?_⟩
    have gained := others q same
    simp only
    omega

theorem Locked.stay (locked : Locked s) (live : s.heap p = some x) (y : Block) (lock : y.lock = x.lock)
    (thread : Thread) (same : ∀ q, thread.owns q = (s.threads t).owns q)
    (device : Usize → BlockData) (list : List Ptr) (blockNum : Nat) (overtaken : Fin n → Ptr → Bool) :
    Locked ⟨device,Function.update s.heap p (some y),list,blockNum,Function.update s.threads t thread,overtaken⟩ :=
  locked.move live y thread (by rw [same,lock]) (fun q _ => Nat.le_of_eq (same q)) device list blockNum overtaken

theorem Locked.wait (locked : Locked s) (live : s.heap p = some x) (here : (s.threads t).pc = .selected p b) :
    Locked {s with
      heap := Function.update s.heap p (some {x with lock := (waitSem x.lock t.val).2}),
      threads := Function.update s.threads t ((s.threads t).goto
        (if (waitSem x.lock t.val).1 then .granted p b else .asleep p b))} := by
  by_cases goes : 0 ≤ x.lock.val-1
  · have granted : waitSem x.lock t.val = (true,⟨x.lock.val-1,x.lock.sleeplist⟩) := by
      unfold waitSem
      rw [if_pos goes]
    rw [granted]
    refine locked.move live _ _ ?_ ?_ _ _ _ _
    · simp only [Thread.owns,Thread.goto,here,Pc.locked]
      simp
      omega
    · intro q other
      simp [Thread.owns,Thread.goto,here,Pc.locked,Ne.symm other]
  · have asleep : waitSem x.lock t.val = (false,⟨x.lock.val-1,t.val::x.lock.sleeplist⟩) := by
      unfold waitSem
      rw [if_neg goes]
    rw [asleep]
    have same := owns_goto (s.threads t) (.asleep p b) (by rw [here]; rfl)
    refine locked.move live _ _ ?_ (fun q _ => Nat.le_of_eq (same q)) _ _ _ _
    simp only [same]
    omega

theorem Locked.miss (locked : Locked s) (sound : Sound s) (unovertaken : Unovertaken s (.lookup t b fresh))
    (missed : s.find b = none) (free : s.swept fresh = none) (idle : (s.threads t).pc = .idle) :
    Locked {s with
      heap := Function.update s.swept fresh (some (initBlock b 0#4096)),
      list := s.kept.2.reverse,
      blockNum := s.kept.1+1,
      threads := Function.update s.threads t ((s.threads t).goto (.reading fresh b)),
      overtaken := forget s.overtaken fresh} := by
  have unowned : ∀ u, (s.threads u).owns fresh = 0 := by
    intro u
    by_contra owns
    obtain ⟨c,used⟩ := owns_used _ fresh owns
    exact (sound.spares unovertaken missed used).2 free
  have nobody : owners s.threads fresh = 0 := Runs.total_zero unowned
  intro p x live
  have moved := owners_update s.threads t ((s.threads t).goto (.reading fresh b)) p
  simp only
  by_cases here : p = fresh
  · subst here
    simp only [Function.update_self,Option.some.injEq] at live
    subst live
    have gained : ((s.threads t).goto (.reading p b)).owns p = (s.threads t).owns p+1 := by
      simp [Thread.owns,Thread.goto,idle,Pc.locked]
    simp only [initBlock]
    omega
  · simp only [Function.update_of_ne here] at live
    have bound := locked p x (swept_some live)
    have same : ((s.threads t).goto (.reading fresh b)).owns p = (s.threads t).owns p := by
      simp [Thread.owns,Thread.goto,idle,Pc.locked,Ne.symm here]
    omega

theorem owns_drop (thread : Thread) (p : Ptr) (b : Usize) (held : (p,b) ∈ thread.held) (q : Ptr) :
    (thread.drop p b).owns q+(if q = p then 1 else 0) = thread.owns q := by
  have parts : (thread.held.map Prod.fst).count q =
      ((thread.held.erase (p,b)).map Prod.fst).count q+(if q = p then 1 else 0) := by
    have perm := ((List.perm_cons_erase held).map Prod.fst).count_eq q
    rw [perm,List.map_cons]
    by_cases same : q = p
    · subst same; simp
    · simp [same,Ne.symm same]
  simp only [Thread.owns,Thread.drop,List.map_append,List.count_append,parts]
  omega

theorem owns_grant (p : Ptr) (who : Option Nat) (v : Nat) (thread : Thread) (q : Ptr) :
    (grant p who v thread).owns q ≤ thread.owns q+(if q = p then 1 else 0) := by
  unfold grant
  split
  · rename_i r b asleep
    split
    · rename_i woken
      rw [woken.1]
      simp only [Thread.owns,Thread.goto,asleep,Pc.locked]
      by_cases same : q = p
      · subst same; simp
      · simp [same,Ne.symm same]
    · omega
  · omega

theorem grant_other (p : Ptr) {who : Option Nat} {v : Nat} (thread : Thread) (other : who ≠ some v) :
    grant p who v thread = thread := by
  unfold grant
  split
  · rw [if_neg (fun woken => other woken.2)]
  · rfl

theorem owners_grant (threads : Fin n → Thread) (p : Ptr) (who : Option Nat) (q : Ptr) :
    owners (fun u => grant p who u.val (threads u)) q ≤ owners threads q+(if q = p ∧ who ≠ none then 1 else 0) := by
  by_cases named : ∃ u : Fin n, who = some u.val
  · obtain ⟨u,woken⟩ := named
    have one : (fun v => grant p who v.val (threads v)) = Function.update threads u (grant p who u.val (threads u)) := by
      funext v
      by_cases here : v = u
      · subst here; simp
      · have other : who ≠ some v.val := by
          intro same
          exact here (Fin.ext (Option.some.inj (same.symm.trans woken)))
        simp [Function.update_of_ne here,grant_other p (threads v) other]
    have moved := owners_update threads u (grant p who u.val (threads u)) q
    have gained := owns_grant p who u.val (threads u) q
    rw [one]
    simp only [woken,ne_eq,reduceCtorEq,not_false_eq_true,and_true] at moved gained ⊢
    omega
  · have same : (fun v : Fin n => grant p who v.val (threads v)) = threads := by
      funext v
      exact grant_other p (threads v) (fun woken => named ⟨v,woken⟩)
    rw [same]
    omega

theorem postSem_parts (ran : postSem sem = .ok (who,sem')) : sem'.val = sem.val+1 ∧ (who ≠ none → sem'.val ≤ 0) := by
  unfold postSem at ran
  split at ran
  · rename_i waiting
    split at ran
    · cases ran
    · cases ran; exact ⟨rfl,fun _ => waiting⟩
  · cases ran; exact ⟨rfl,fun some => absurd rfl some⟩

theorem Locked.release (locked : Locked s) (held : (p,b) ∈ (s.threads t).held) (live : s.heap p = some x)
    (posted : postSem x.lock = .ok (who,lock)) (overtaken : Fin n → Ptr → Bool) :
    Locked {s with
      heap := Function.update s.heap p (some {x with acquired := false,lock := lock}),
      threads := afterRelease s t p b who,
      overtaken := overtaken} := by
  obtain ⟨raised,waiting⟩ := postSem_parts posted
  intro q z found
  have dropped := owns_drop (s.threads t) p b held q
  have moved := owners_update s.threads t ((s.threads t).drop p b) q
  have granted := owners_grant (Function.update s.threads t ((s.threads t).drop p b)) p who q
  change owners (afterRelease s t p b who) q ≤ _ at granted
  simp only
  by_cases here : q = p
  · subst here
    simp only [Function.update_self,Option.some.injEq] at found
    subst found
    have bound := locked q x live
    simp only [if_true] at dropped
    change _+max lock.val 0 ≤ _
    -- The releaser was the one owner: what is left is the sleeper that was woken.
    by_cases woken : who = none
    · rw [if_neg (fun both => both.2 woken)] at granted
      omega
    · have small := waiting woken
      rw [if_pos ⟨rfl,woken⟩] at granted
      omega
  · simp only [Function.update_of_ne here] at found
    have bound := locked q z found
    simp only [here,if_false,false_and] at dropped granted
    omega

theorem Locked.store (locked : Locked s) {f : Block → Block} (keeps : ∀ x, (f x).lock = x.lock)
    (ran : store s t p b f = some s') : Locked s' := by
  unfold CacheThreads.store at ran
  split at ran
  · obtain ⟨x,live,rfl⟩ := Option.map_eq_some_iff.mp ran
    have stays := locked.stay (t := t) live (f x) (keeps x) (s.threads t) (fun _ => rfl) s.device s.list s.blockNum s.overtaken
    rw [Function.update_eq_self] at stays
    exact stays
  · cases ran

theorem step_locked (locked : Locked s) (sound : Sound s) (action : Action n) (unovertaken : Unovertaken s action)
    (ran : next s action = some s') : Locked s' := by
  cases action with
  | lookup t b fresh =>
    simp only [next,lookup] at ran
    split at ran
    · rename_i idle
      split at ran
      · rename_i p found
        cases ran
        obtain ⟨_,x,live,_⟩ := find_parts found
        rw [live]
        exact locked.stay live {x with acquired := true} rfl _ (owns_goto _ _ (by rw [idle]; rfl)) _ _ _ _
      · rename_i missed
        split at ran
        · rename_i free
          cases ran
          exact locked.miss sound unovertaken missed free idle
        · cases ran
    · cases ran
  | read t =>
    simp only [next,read] at ran
    split at ran
    · rename_i p b here
      obtain ⟨x,live,rfl⟩ := Option.map_eq_some_iff.mp ran
      exact locked.stay live {x with data := s.device x.blockNo} rfl _ (owns_goto _ _ (by rw [here]; rfl)) _ _ _ _
    · cases ran
  | link t =>
    simp only [next,link] at ran
    split at ran
    · rename_i p b here
      cases ran
      obtain ⟨x,live⟩ := Option.ne_none_iff_exists'.mp (sound.live t p b (by simp [Thread.uses,here,Pc.target]))
      have stays := locked.stay live x rfl _ (owns_take (s.threads t) p b (by rw [here]; rfl)) s.device (p::s.list)
        s.blockNum s.overtaken
      rw [← live,Function.update_eq_self] at stays
      exact stays
    · cases ran
  | wait t =>
    simp only [next,wait] at ran
    split at ran
    · rename_i p b here
      obtain ⟨x,live,rfl⟩ := Option.map_eq_some_iff.mp ran
      exact locked.wait live here
    · cases ran
  | relink t =>
    simp only [next,relink] at ran
    split at ran
    · rename_i p b here
      split at ran
      · cases ran
        obtain ⟨x,live⟩ := Option.ne_none_iff_exists'.mp (sound.live t p b (by simp [Thread.uses,here,Pc.target]))
        have stays := locked.stay live x rfl _ (owns_take (s.threads t) p b (by rw [here]; rfl)) s.device
          (p::s.list.erase p) s.blockNum s.overtaken
        rw [← live,Function.update_eq_self] at stays
        exact stays
      · cases ran
    · cases ran
  | release t p b =>
    simp only [next,release] at ran
    split at ran
    · rename_i holding
      split at ran
      · cases ran
      · rename_i x live
        split at ran
        · cases ran
        · rename_i who lock posted
          cases ran
          exact locked.release holding.2 live posted _
    · cases ran
  | modify t p b d => exact locked.store (f := fun x => {x with data := d}) (fun _ => rfl) ran
  | sync t p b => exact locked.store (f := fun x => {x with pinned := true}) (fun _ => rfl) ran
  | unpin t p b => exact locked.store (f := fun x => {x with pinned := false}) (fun _ => rfl) ran
  | syncNull t p b =>
    simp only [next,syncNull] at ran
    split at ran
    · obtain ⟨x,live,rfl⟩ := Option.map_eq_some_iff.mp ran
      exact locked
    · cases ran

end Locks

theorem boot_blocks {sb : SuperBlock} {s : State n} (boot : Booted sb s) :
    (s.list.map s.numberAt).Nodup ∧ ∀ p x, s.heap p = some x → x.lock.val ≤ 1 := by
  obtain ⟨disk,cache,booted,blocks,_⟩ := boot.cache
  have quiet := (boot_quiet booted).1
  refine ⟨?_,?_⟩
  · have numbers : s.list.map s.numberAt = (cache.head.map Block.blockNo).map some := by
      have mapped := congrArg (List.map (Option.map Block.blockNo)) blocks
      rw [List.map_map,List.map_map] at mapped
      rw [List.map_map]
      exact mapped
    rw [numbers]
    exact quiet.shape.distinct.map (Option.some_injective _)
  · intro p x live
    have member : some x ∈ cache.head.map some := by
      rw [← blocks,← live]
      exact List.mem_map_of_mem ((boot.live p).mpr (by simp [live]))
    have member : x ∈ cache.head := by simpa using member
    rcases quiet.shape.locks _ x (KeyedList.find_member quiet.shape.distinct member) with ⟨_,lock⟩ | ⟨_,lock⟩
    · simp [lock]
    · simp [lock]

theorem boot_named {sb : SuperBlock} {s : State n} (boot : Booted sb s) : Named s := by
  have listed : ∀ p b, s.numberAt p = some b → p ∈ s.list := by
    intro p b number
    obtain ⟨x,live,_⟩ := Option.map_eq_some_iff.mp number
    exact (boot.live p).mpr (by simp [live])
  refine ⟨?_,?_,?_⟩
  · intro t p b member
    rw [boot.threads t] at member
    cases member
  · intro p q b left right
    exact List.inj_on_of_nodup_map (boot_blocks boot).1 (listed p b left) (listed q b right) (left.trans right.symm)
  · intro p b number
    exact .inl (listed p b number)

theorem boot_locked {sb : SuperBlock} {s : State n} (boot : Booted sb s) : Locked s := by
  intro p x live
  have none : owners s.threads p = 0 := Runs.total_zero fun t => by rw [boot.threads t]; rfl
  have free := (boot_blocks boot).2 p x live
  omega

structure Cached (s : State n) : Prop where
  sound : Sound s
  named : Named s
  locked : Locked s

theorem boot_cached {sb : SuperBlock} {s : State n} (boot : Booted sb s) : Cached s :=
  ⟨boot_sound boot,boot_named boot,boot_locked boot⟩

theorem step_cached {s s' : State n} (cached : Cached s) (action : Action n) (separate : Separate s action)
    (ran : next s action = some s') : Cached s' :=
  ⟨step_sound cached.sound action separate.unovertaken ran,step_named cached.named cached.sound action separate ran,
    step_locked cached.locked cached.sound action separate.unovertaken ran⟩

theorem Cached.oneCopy {s : State n} (cached : Cached s) : OneCopy s := by
  refine ⟨cached.named.unique,?_⟩
  intro t u p q b left right
  have used : ∀ v r, (r,b) ∈ (s.threads v).held → s.numberAt r = some b := fun v r held =>
    cached.named.number v r b (List.mem_append_right _ held)
  -- Both hold one structure, and its sleeplock has one owner.
  have same := cached.named.unique p q b (used t p left) (used u q right)
  subst same
  have owns : ∀ v, (p,b) ∈ (s.threads v).held → 1 ≤ (s.threads v).owns p := by
    intro v held
    refine List.count_pos_iff.mpr ?_
    exact List.mem_map.mpr ⟨(p,b),List.mem_append_right _ held,rfl⟩
  obtain ⟨x,live,_⟩ := Option.map_eq_some_iff.mp (used t p left)
  have bound := cached.locked p x live
  by_contra different
  have both : _ ≤ owners s.threads p := Runs.add_le_total (Thread.owns p) s.threads different
  have first := owns t left
  have second := owns u right
  omega

theorem one_copy_per_block {sb : SuperBlock} {start s : State n} (boot : Booted sb start)
    (path : Runs.Guarded next Separate start s) : OneCopy s := by
  have cached : Cached s := path.invariant Cached (boot_cached boot) fun _ action _ cached met ran =>
    step_cached cached action met ran
  exact cached.oneCopy

-- Two threads miss block 100 one after the other: the second does not see the
-- structure that the first has not inserted yet, and both get a block of their own.
theorem block_loaded_twice : ¬ ∀ start s : State 2, Booted mkfsSuperBlock start → Runs.Reached next start s →
    OneCopy s := by
  intro oneCopy
  obtain ⟨⟨start,s⟩,ran,facts⟩ := Runs.some_such
    (x := fromBoot 2 (Runs.exec next · [.lookup 0 100#64 0,.lookup 1 100#64 1,.read 0,.link 0,.read 1,.link 1]))
    (p := fun r => decide ((0,100#64) ∈ (r.2.threads 0).held ∧ (1,100#64) ∈ (r.2.threads 1).held)) (by decide +kernel)
  obtain ⟨boot,path⟩ := fromBoot_parts ran
  obtain ⟨first,second⟩ := of_decide_eq_true facts
  have same := (oneCopy start s boot (Runs.exec_reached .start path)).holders 0 1 0 1 100#64 first second
  cases same

-- Thread 1 asks for a block that thread 0 holds, sleeps, and gets it.
theorem one_copy_of_handed_over_block : ∃ s : State 2, (0,100#64) ∈ (s.threads 1).held ∧
    (1,101#64) ∈ (s.threads 0).held ∧ OneCopy s := by
  obtain ⟨⟨start,s⟩,ran,facts⟩ := Runs.some_such
    (x := fromBoot 2 (Runs.execGuarded next Separate · (load 0 100#64 0++[.lookup 1 100#64 0,.wait 1,.release 0 0 100#64,
      .relink 1]++load 0 101#64 1)))
    (p := fun r => decide ((0,100#64) ∈ (r.2.threads 1).held ∧ (1,101#64) ∈ (r.2.threads 0).held)) (by decide +kernel)
  obtain ⟨boot,path⟩ := fromBoot_parts ran
  obtain ⟨handed,other⟩ := of_decide_eq_true facts
  exact ⟨s,handed,other,one_copy_per_block boot (Runs.exec_guarded .start path)⟩

end CacheThreads
