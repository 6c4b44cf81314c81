import HonorKernel.BlockCache

namespace BlockCache
open DiskFormat Semaphores

-- What a holder of block `b` would see, whether or not `b` is cached.
def BCache.view (s : BCache) (b : Usize) : BlockData :=
  match s.find b with
  | some block => block.data
  | none => s.device b

def BCache.pin (s : BCache) (b : Usize) : Bool := (s.find b).any (·.pinned)

def Held (s : BCache) (b : Usize) : Prop := ∃ block, s.find b = some block ∧ block.acquired = true

def LockState (block : Block) : Prop :=
  block.acquired = true ∧ block.lock = ⟨0,[]⟩ ∨ block.acquired = false ∧ block.lock = ⟨1,[]⟩

-- `D` is the set of blocks that may differ from the device without being pinned:
-- blocks a holder has modified and not synchronised since.
structure Shape (D : Usize → Prop) (s : BCache) : Prop where
  distinct : (s.head.map Block.blockNo).Nodup
  count : s.blockNum = s.head.length
  locks : ∀ b block, s.find b = some block → LockState block
  clean : ∀ b block, s.find b = some block → block.pinned = false → ¬ D b → block.data = s.device b

-- The parts of the cache that no list operation touches.
structure SameDisk (s s' : BCache) : Prop where
  device : s'.device = s.device
  written : s'.written = s.written
  header : s'.header = s.header
  outstanding : s'.outstanding = s.outstanding

theorem SameDisk.refl (s : BCache) : SameDisk s s := ⟨rfl,rfl,rfl,rfl⟩
theorem SameDisk.trans {a b c : BCache} (left : SameDisk a b) (right : SameDisk b c) : SameDisk a c :=
  ⟨right.device.trans left.device,right.written.trans left.written,right.header.trans left.header,
    right.outstanding.trans left.outstanding⟩

theorem Shape.weaken {D E : Usize → Prop} {s : BCache} (shape : Shape D s) (larger : ∀ b, D b → E b) : Shape E s :=
  ⟨shape.distinct,shape.count,shape.locks,
    fun b block found unpinned small => shape.clean b block found unpinned (fun dirty => small (larger b dirty))⟩

theorem find_blockNo {s : BCache} {b : Usize} {block : Block} (found : s.find b = some block) :
    block.blockNo = b := (KeyedList.find_some found).2

theorem view_some {s : BCache} {b : Usize} {block : Block} (found : s.find b = some block) :
    s.view b = block.data := by rw [BCache.view,found]

theorem view_none {s : BCache} {b : Usize} (absent : s.find b = none) : s.view b = s.device b := by
  rw [BCache.view,absent]

theorem view_congr {s s' : BCache} {b : Usize} (same : s'.find b = s.find b) (device : s'.device b = s.device b) :
    s'.view b = s.view b := by rw [BCache.view,BCache.view,same,device]

theorem find_modify (s : BCache) (b : Usize) (f : Block → Block) (keeps : ∀ x, (f x).blockNo = x.blockNo) (c : Usize) :
    (s.modify b f).find c = if c = b then (s.find c).map f else s.find c :=
  KeyedList.find_modify b f keeps s.head c

theorem manage_sublist (idle : Node → Bool) (n : Nat) (xs : List Node) : (manageWalk idle n xs).2.Sublist xs := by
  induction xs generalizing n with
  | nil => exact List.Sublist.refl _
  | cons p rest ih =>
    unfold manageWalk
    split
    · split
      · exact (ih (n-1)).cons p
      · exact (ih n).cons_cons p
    · exact List.Sublist.refl _

theorem manage_keeps (idle : Node → Bool) (n : Nat) (xs : List Node) (x : Node) (member : x ∈ xs)
    (busy : idle x = false) : x ∈ (manageWalk idle n xs).2 := by
  induction xs generalizing n with
  | nil => cases member
  | cons p rest ih =>
    unfold manageWalk
    split
    · split
      · rename_i goes
        rcases List.mem_cons.mp member with rfl | later
        · rw [busy] at goes; cases goes
        · exact ih (n-1) later
      · rcases List.mem_cons.mp member with rfl | later
        · exact List.mem_cons_self
        · exact List.mem_cons_of_mem _ (ih n later)
    · exact member

theorem manage_count (idle : Node → Bool) (n : Nat) (xs : List Node) :
    (manageWalk idle n xs).1+xs.length = n+(manageWalk idle n xs).2.length := by
  induction xs generalizing n with
  | nil => rfl
  | cons p rest ih =>
    unfold manageWalk
    split
    · rename_i full
      have large : 20 ≤ n := full
      split
      · have tail := ih (n-1)
        simp only [List.length_cons]
        omega
      · have tail := ih n
        simp only [List.length_cons]
        omega
    · rfl

variable {D : Usize → Prop} {s : BCache} {b : Usize}

theorem Shape.find_evicted (shape : Shape D s) (n : Nat) (c : Usize) :
    let kept := (manageBlockNum n s.head.reverse).2.reverse
    KeyedList.find Block.blockNo c kept = s.find c ∨
    KeyedList.find Block.blockNo c kept = none ∧
      ∃ block, s.find c = some block ∧ block.acquired = false ∧ block.pinned = false := by
  intro kept
  have sub : kept.Sublist s.head := by
    have walk := (manage_sublist (fun p => !p.acquired && !p.pinned) n s.head.reverse).reverse
    rwa [List.reverse_reverse] at walk
  cases there : KeyedList.find Block.blockNo c kept with
  | some block => exact .inl (KeyedList.find_sublist sub shape.distinct there).symm
  | none =>
    cases before : s.find c with
    | none => exact .inl rfl
    | some block =>
      -- Had the block been acquired or pinned, the walk would have kept it.
      obtain ⟨member,same⟩ := KeyedList.find_some before
      have idle : ¬ (block.acquired = true ∨ block.pinned = true) := by
        intro used
        have stays : block ∈ kept :=
          List.mem_reverse.mpr (manage_keeps _ n s.head.reverse block (List.mem_reverse.mpr member)
            (by rcases used with flag | flag <;> simp [flag]))
        exact KeyedList.find_none.mp there block stays same
      rw [not_or,Bool.not_eq_true,Bool.not_eq_true] at idle
      exact .inr ⟨rfl,block,rfl,idle.1,idle.2⟩

-- The cached structure after a hit or a miss: the same content and pin, held now.
structure Acquires (s : BCache) (b : Usize) (s' : BCache) : Prop where
  disk : SameDisk s s'
  self : ∃ block, s'.find b = some block ∧ block.acquired = true ∧ block.lock = ⟨0,[]⟩ ∧
    block.data = s.view b ∧ block.pinned = s.pin b
  others : ∀ c, c ≠ b → s'.find c = s.find c ∨
    s'.find c = none ∧ ∃ block, s.find c = some block ∧ block.acquired = false ∧ block.pinned = false
  distinct : (s'.head.map Block.blockNo).Nodup
  count : s'.blockNum = s'.head.length

theorem acquire_hit (shape : Shape D s) (found : s.find b = some block) (free : block.acquired = false) :
    ∃ s', cacheAcquire s b = .ok (s.view b,s') ∧ Acquires s b s' := by
  have lock : block.lock = ⟨1,[]⟩ := by
    rcases shape.locks b block found with ⟨taken,_⟩ | ⟨_,lock⟩
    · rw [free] at taken; cases taken
    · exact lock
  refine ⟨{s with head := {block with acquired := true,lock := ⟨0,[]⟩} ::
    KeyedList.remove Block.blockNo b s.head},?_,⟨⟨rfl,rfl,rfl,rfl⟩,?_,?_,?_,?_⟩⟩
  · simp [cacheAcquire,found,lock,BCache.view]
  · refine ⟨{block with acquired := true,lock := ⟨0,[]⟩},?_,rfl,rfl,?_,?_⟩
    · simp [BCache.find,KeyedList.find_cons,find_blockNo found]
    · simp [BCache.view,found]
    · simp [BCache.pin,found]
  · intro c different
    left
    simp only [BCache.find,KeyedList.find_cons,find_blockNo found,if_neg (Ne.symm different)]
    exact KeyedList.find_remove b s.head c different
  · simp only [List.map_cons,find_blockNo found]
    exact KeyedList.front_nodup shape.distinct b
  · exact shape.count.trans (KeyedList.length_remove found).symm

theorem acquire_miss (shape : Shape D s) (absent : s.find b = none) :
    ∃ s', cacheAcquire s b = .ok (s.view b,s') ∧ Acquires s b s' := by
  let kept := manageBlockNum s.blockNum s.head.reverse
  have sub : kept.2.reverse.Sublist s.head := by
    have walk := (manage_sublist (fun p => !p.acquired && !p.pinned) s.blockNum s.head.reverse).reverse
    rwa [List.reverse_reverse] at walk
  refine ⟨{s with head := initBlock b (s.device b) :: kept.2.reverse,blockNum := kept.1+1},?_,
    ⟨⟨rfl,rfl,rfl,rfl⟩,?_,?_,?_,?_⟩⟩
  · simp [cacheAcquire,absent,BCache.view,kept]
  · refine ⟨initBlock b (s.device b),?_,rfl,rfl,?_,?_⟩
    · simp [BCache.find,KeyedList.find_cons,initBlock]
    · simp [BCache.view,absent,initBlock]
    · simp [BCache.pin,absent,initBlock]
  · intro c different
    have evicted := shape.find_evicted s.blockNum c
    simpa [BCache.find,KeyedList.find_cons,initBlock,Ne.symm different] using evicted
  · simp only [List.map_cons,initBlock]
    refine List.nodup_cons.mpr ⟨?_,shape.distinct.sublist (sub.map Block.blockNo)⟩
    intro present
    obtain ⟨block,member,same⟩ := List.mem_map.mp present
    exact KeyedList.find_none.mp absent block (sub.subset member) same
  · have balance : kept.1+s.head.reverse.length = s.blockNum+kept.2.length :=
      manage_count _ s.blockNum s.head.reverse
    have length : s.blockNum = s.head.length := shape.count
    simp only [List.length_cons,List.length_reverse] at balance ⊢
    omega

-- cache_acquire keeps the cache in shape and holds `b`. A block that is held,
-- pinned or clean looks the same afterwards, evicted or not.
structure AcquireSpec (D : Usize → Prop) (s : BCache) (b : Usize) (s' : BCache) : Prop where
  disk : SameDisk s s'
  shape : Shape D s'
  held : ∀ c, Held s' c ↔ c = b ∨ Held s c
  pin : ∀ c, s'.pin c = s.pin c
  view : ∀ c, c = b ∨ ¬ D c ∨ s.pin c = true ∨ Held s c → s'.view c = s.view c

theorem Acquires.held (step : Acquires s b s') (c : Usize) : Held s' c ↔ c = b ∨ Held s c := by
  by_cases same : c = b
  · subst same
    obtain ⟨block,found,taken,_⟩ := step.self
    exact ⟨fun _ => .inl rfl,fun _ => ⟨block,found,taken⟩⟩
  · rcases step.others c same with equal | ⟨gone,block,found,idle,_⟩
    · simp [Held,equal,same]
    · simp [Held,gone,found,idle,same]

theorem Acquires.pin (step : Acquires s b s') (c : Usize) : s'.pin c = s.pin c := by
  by_cases same : c = b
  · subst same
    obtain ⟨block,found,_,_,_,pinned⟩ := step.self
    simp [BCache.pin,found] at pinned ⊢
    exact pinned
  · rcases step.others c same with equal | ⟨gone,block,found,_,idle⟩
    · simp [BCache.pin,equal]
    · simp [BCache.pin,gone,found,idle]

theorem Acquires.view (step : Acquires s b s') (shape : Shape D s) (c : Usize)
    (stable : c = b ∨ ¬ D c ∨ s.pin c = true ∨ Held s c) : s'.view c = s.view c := by
  by_cases same : c = b
  · subst same
    obtain ⟨block,found,_,_,data,_⟩ := step.self
    rw [← data]
    simp [BCache.view,found]
  · rcases step.others c same with equal | ⟨gone,block,found,idle,unpinned⟩
    · simp [BCache.view,equal,step.disk.device]
    · rcases stable with equal | clean | pinned | ⟨other,cached,taken⟩
      · exact absurd equal same
      · have data := shape.clean c block found unpinned clean
        simp [BCache.view,gone,found,data,step.disk.device]
      · simp [BCache.pin,found,unpinned] at pinned
      · rw [found] at cached; cases cached; rw [idle] at taken; cases taken

theorem Acquires.shape (step : Acquires s b s') (shape : Shape D s) : Shape D s' := by
  refine ⟨step.distinct,step.count,?_,?_⟩
  · intro c block found
    by_cases same : c = b
    · subst same
      obtain ⟨own,there,taken,lock,_⟩ := step.self
      rw [found] at there; cases there
      exact .inl ⟨taken,lock⟩
    · rcases step.others c same with equal | ⟨gone,_⟩
      · exact shape.locks c block (equal ▸ found)
      · rw [gone] at found; cases found
  · intro c block found unpinned small
    rw [step.disk.device]
    by_cases same : c = b
    · subst same
      obtain ⟨own,there,_,_,data,pinned⟩ := step.self
      rw [found] at there; cases there
      rw [data]
      cases before : s.find c with
      | none => simp [BCache.view,before]
      | some old =>
        have oldUnpinned : old.pinned = false := by simpa [BCache.pin,before,unpinned] using pinned.symm
        simpa [BCache.view,before] using shape.clean c old before oldUnpinned small
    · rcases step.others c same with equal | ⟨gone,_⟩
      · exact shape.clean c block (equal ▸ found) unpinned small
      · rw [gone] at found; cases found

theorem acquire_spec (shape : Shape D s) (free : ¬ Held s b) :
    ∃ s', cacheAcquire s b = .ok (s.view b,s') ∧ AcquireSpec D s b s' := by
  have acquired : ∃ s', cacheAcquire s b = .ok (s.view b,s') ∧ Acquires s b s' := by
    cases found : s.find b with
    | none => exact acquire_miss shape found
    | some block =>
      have idle : block.acquired = false := by
        cases taken : block.acquired with
        | false => rfl
        | true => exact absurd ⟨block,found,taken⟩ free
      exact acquire_hit shape found idle
  obtain ⟨s',ran,step⟩ := acquired
  exact ⟨s',ran,step.disk,step.shape shape,step.held,step.pin,step.view shape⟩

theorem acquire_held (shape : Shape D s) (held : Held s b) : cacheAcquire s b = .error .blocked := by
  obtain ⟨block,found,taken⟩ := held
  have lock : block.lock = ⟨0,[]⟩ := by
    rcases shape.locks b block found with ⟨_,lock⟩ | ⟨idle,_⟩
    · exact lock
    · rw [taken] at idle; cases idle
  simp [cacheAcquire,found,lock,waitSem]

theorem modify_find (found : s.find b = some block) (f : Block → Block) (keeps : ∀ x, (f x).blockNo = x.blockNo)
    (c : Usize) : (s.modify b f).find c = if c = b then some (f block) else s.find c := by
  rw [find_modify s b f keeps]
  split
  · rename_i same; subst same; simp [found]
  · rfl

theorem modify_shape {E : Usize → Prop} (shape : Shape D s) (found : s.find b = some block) (f : Block → Block)
    (keeps : ∀ x, (f x).blockNo = x.blockNo) (locks : LockState (f block))
    (clean : (f block).pinned = false → ¬ E b → (f block).data = s.device b) (others : ∀ c, c ≠ b → D c → E c) :
    Shape E (s.modify b f) := by
  refine ⟨?_,?_,?_,?_⟩
  · simpa [BCache.modify,KeyedList.modify_keys b f keeps] using shape.distinct
  · simpa [BCache.modify] using shape.count
  · intro c other there
    rw [modify_find found f keeps] at there
    split at there
    · cases there; exact locks
    · exact shape.locks c other there
  · intro c other there unpinned small
    rw [modify_find found f keeps] at there
    split at there
    · rename_i same; subst same; cases there; exact clean unpinned small
    · rename_i different
      exact shape.clean c other there unpinned (fun dirty => small (others c different dirty))

theorem release_spec (shape : Shape D s) (held : Held s b) :
    ∃ s', cacheRelease s b = .ok s' ∧ SameDisk s s' ∧ Shape D s' ∧ (∀ c, Held s' c ↔ c ≠ b ∧ Held s c) ∧
      (∀ c, s'.pin c = s.pin c) ∧ ∀ c, s'.view c = s.view c := by
  obtain ⟨block,found,taken⟩ := held
  have lock : block.lock = ⟨0,[]⟩ := by
    rcases shape.locks b block found with ⟨_,lock⟩ | ⟨idle,_⟩
    · exact lock
    · rw [taken] at idle; cases idle
  have finds := modify_find found (fun x => {x with acquired := false,lock := ⟨1,[]⟩}) (fun _ => rfl)
  refine ⟨s.modify b (fun x => {x with acquired := false,lock := ⟨1,[]⟩}),?_,⟨rfl,rfl,rfl,rfl⟩,?_,?_,?_,?_⟩
  · simp [cacheRelease,found,lock,bind,Except.bind]
  · exact modify_shape shape found _ (fun _ => rfl) (.inr ⟨rfl,rfl⟩) (shape.clean b block found)
      (fun c _ dirty => dirty)
  · intro c
    by_cases same : c = b
    · simp [Held,finds,same]
    · simp [Held,finds,same]
  · intro c
    by_cases same : c = b
    · subst same; simp [BCache.pin,finds,found]
    · simp [BCache.pin,finds,same]
  · intro c
    by_cases same : c = b
    · subst same; simp [BCache.view,finds,found]
    · exact view_congr (by rw [finds,if_neg same]) rfl

theorem modifyData_spec (shape : Shape D s) (held : Held s b) (d : BlockData) :
    SameDisk s (modifyData s b d) ∧ Shape (fun c => c = b ∨ D c) (modifyData s b d) ∧
      (∀ c, Held (modifyData s b d) c ↔ Held s c) ∧ (∀ c, (modifyData s b d).pin c = s.pin c) ∧
      ∀ c, (modifyData s b d).view c = if c = b then d else s.view c := by
  obtain ⟨block,found,taken⟩ := held
  have finds := modify_find found (fun x => {x with data := d}) (fun _ => rfl)
  refine ⟨⟨rfl,rfl,rfl,rfl⟩,?_,?_,?_,?_⟩
  · exact modify_shape shape found _ (fun _ => rfl) (shape.locks b block found)
      (fun _ small => absurd (.inl rfl) small) (fun c _ dirty => .inr dirty)
  · intro c
    by_cases same : c = b
    · subst same; simp [modifyData,Held,finds,found]
    · simp [modifyData,Held,finds,same]
  · intro c
    by_cases same : c = b
    · subst same; simp [modifyData,BCache.pin,finds,found]
    · simp [modifyData,BCache.pin,finds,same]
  · intro c
    by_cases same : c = b
    · subst same; simp [modifyData,BCache.view,finds]
    · rw [if_neg same]; exact view_congr ((finds c).trans (if_neg same)) rfl

theorem setPinned_spec {E : Usize → Prop} (shape : Shape D s) (held : Held s b) (flag : Bool)
    (clean : flag = false → ¬ E b → s.view b = s.device b) (others : ∀ c, c ≠ b → D c → E c) :
    let s' := s.modify b (fun x => {x with pinned := flag})
    SameDisk s s' ∧ Shape E s' ∧ (∀ c, Held s' c ↔ Held s c) ∧
      (∀ c, s'.pin c = if c = b then flag else s.pin c) ∧ ∀ c, s'.view c = s.view c := by
  obtain ⟨block,found,taken⟩ := held
  have finds := modify_find found (fun x => {x with pinned := flag}) (fun _ => rfl)
  refine ⟨⟨rfl,rfl,rfl,rfl⟩,?_,?_,?_,?_⟩
  · refine modify_shape shape found _ (fun _ => rfl) (shape.locks b block found) ?_ others
    intro off small
    simpa [BCache.view,found] using clean off small
  · intro c
    by_cases same : c = b
    · subst same; simp [Held,finds,found]
    · simp [Held,finds,same]
  · intro c
    by_cases same : c = b
    · subst same; simp [BCache.pin,finds]
    · simp [BCache.pin,finds,same]
  · intro c
    by_cases same : c = b
    · subst same; simp [BCache.view,finds,found]
    · exact view_congr (by rw [finds,if_neg same]) rfl

theorem deviceWrite_spec {E : Usize → Prop} (shape : Shape D s) (others : ∀ c, c ≠ b → D c → E c) :
    let s' := deviceWrite s b (s.view b)
    Shape E s' ∧ (∀ c, Held s' c ↔ Held s c) ∧ (∀ c, s'.pin c = s.pin c) ∧ ∀ c, s'.view c = s.view c := by
  have finds : ∀ c, (deviceWrite s b (s.view b)).find c = s.find c := fun _ => rfl
  refine ⟨⟨shape.distinct,shape.count,shape.locks,?_⟩,fun c => Iff.rfl,fun c => rfl,?_⟩
  · intro c block found unpinned small
    by_cases same : c = b
    · subst same
      rw [finds] at found
      simp [deviceWrite,BCache.view,found]
    · simp only [deviceWrite,Function.update_of_ne same]
      exact shape.clean c block found unpinned (fun dirty => small (others c same dirty))
  · intro c
    by_cases same : c = b
    · subst same
      cases found : s.find c with
      | some block => rw [view_some ((finds c).trans found),view_some found]
      | none => rw [view_none ((finds c).trans found)]; simp [deviceWrite]
    · exact view_congr (finds c) (Function.update_of_ne same _ _)

end BlockCache
