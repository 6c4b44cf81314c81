import HonorKernel.CacheLaws
import HonorKernel.RedoLog
import HonorKernel.Runs

namespace BlockCache
open DiskFormat Semaphores
open Runs (upTo)

theorem Shape.view_device {D : Usize → Prop} {s : BCache} (shape : Shape D s) (c : Usize) (clean : ¬ D c)
    (unpinned : s.pin c = false) : s.view c = s.device c := by
  cases found : s.find c with
  | none => exact view_none found
  | some block =>
    rw [view_some found]
    exact shape.clean c block found (by simpa [BCache.pin,found] using unpinned) clean

theorem empty_shape {D : Usize → Prop} {s : BCache} (empty : s.head = []) (count : s.blockNum = 0) : Shape D s := by
  have none : ∀ c, s.find c = none := fun c => by simp [BCache.find,empty,KeyedList.find]
  refine ⟨by simp [empty],by simp [empty,count],?_,?_⟩
  · intro c block found; simp [none c] at found
  · intro c block found; simp [none c] at found

theorem empty_free {s : BCache} (empty : s.head = []) (c : Usize) : ¬ Held s c := by
  rintro ⟨block,found,_⟩
  simp [BCache.find,empty,KeyedList.find] at found

-- What copy_block does to the device, and that the cache looks as before.
structure CopySpec (D : Usize → Prop) (s : BCache) (source target : Usize) (s' : BCache) : Prop where
  shape : Shape D s'
  device : s'.device = Function.update s.device target (s.view source)
  written : s'.written = s.written++[(target,s.view source)]
  header : s'.header = s.header
  outstanding : s'.outstanding = s.outstanding
  held : ∀ c, Held s' c ↔ Held s c
  pin : ∀ c, s'.pin c = s.pin c
  view : ∀ c, c ≠ target → c = source ∨ ¬ D c ∨ s.pin c = true ∨ Held s c → s'.view c = s.view c

theorem copyBlock_spec {D : Usize → Prop} {s : BCache} {source target : Usize} (shape : Shape D s)
    (freeSource : ¬ Held s source) (freeTarget : ¬ Held s target) (apart : source ≠ target) :
    ∃ s', copyBlock s source target = .ok s' ∧ CopySpec D s source target s' := by
  obtain ⟨s₁,ran₁,one⟩ := acquire_spec shape freeSource
  have free : ¬ Held s₁ target := by
    rw [one.held]; rintro (same | held)
    · exact apart same.symm
    · exact freeTarget held
  obtain ⟨s₂,ran₂,two⟩ := acquire_spec one.shape free
  have heldTarget : Held s₂ target := (two.held target).mpr (.inl rfl)
  have heldSource : Held s₂ source := (two.held source).mpr (.inr ((one.held source).mpr (.inl rfl)))
  obtain ⟨disk₃,shape₃,held₃,pin₃,view₃⟩ := modifyData_spec two.shape heldTarget (s.view source)
  have stored : (modifyData s₂ target (s.view source)).view target = s.view source := by rw [view₃,if_pos rfl]
  have wrote := deviceWrite_spec (b := target) (E := D) shape₃ (fun c other dirty => dirty.resolve_left other)
  rw [stored] at wrote
  obtain ⟨shape₄,held₄,pin₄,view₄⟩ := wrote
  have releaseSource : Held (deviceWrite (modifyData s₂ target (s.view source)) target (s.view source)) source :=
    (held₄ source).mpr ((held₃ source).mpr heldSource)
  obtain ⟨s₅,ran₅,disk₅,shape₅,held₅,pin₅,view₅⟩ := release_spec shape₄ releaseSource
  have releaseTarget : Held s₅ target :=
    (held₅ target).mpr ⟨apart.symm,(held₄ target).mpr ((held₃ target).mpr heldTarget)⟩
  obtain ⟨s₆,ran₆,disk₆,shape₆,held₆,pin₆,view₆⟩ := release_spec shape₅ releaseTarget
  refine ⟨s₆,?_,⟨shape₆,?_,?_,?_,?_,?_,?_,?_⟩⟩
  · simp [copyBlock,ran₁,ran₂,ran₅,ran₆,bind,Except.bind]
  · rw [disk₆.device,disk₅.device]
    simp [deviceWrite,disk₃.device,two.disk.device,one.disk.device]
  · rw [disk₆.written,disk₅.written]
    simp [deviceWrite,disk₃.written,two.disk.written,one.disk.written]
  · rw [disk₆.header,disk₅.header]
    exact disk₃.header.trans (two.disk.header.trans one.disk.header)
  · rw [disk₆.outstanding,disk₅.outstanding]
    exact disk₃.outstanding.trans (two.disk.outstanding.trans one.disk.outstanding)
  · intro c
    rw [held₆,held₅,held₄,held₃,two.held,one.held]
    constructor
    · rintro ⟨notTarget,notSource,same | same | held⟩
      · exact absurd same notTarget
      · exact absurd same notSource
      · exact held
    · intro held
      exact ⟨fun same => freeTarget (same ▸ held),fun same => freeSource (same ▸ held),.inr (.inr held)⟩
  · intro c
    rw [pin₆,pin₅,pin₄,pin₃,two.pin,one.pin]
  · intro c notTarget stable
    rw [view₆,view₅,view₄,view₃,if_neg notTarget]
    have first : s₁.view c = s.view c := one.view c stable
    rw [two.view c ?_,first]
    -- The second acquire may evict, but not the source, which is held by now.
    rcases stable with same | small | pinned | held
    · exact .inr (.inr (.inr ((one.held c).mpr (.inl same))))
    · exact .inr (.inl small)
    · exact .inr (.inr (.inl ((one.pin c).trans pinned)))
    · exact .inr (.inr (.inr ((one.held c).mpr (.inr held))))

-- A copy that returns found both blocks free: held ones, or one block named twice,
-- would have made it wait.
theorem copyBlock_parts {D : Usize → Prop} {s s' : BCache} (shape : Shape D s)
    (ran : copyBlock s source target = .ok s') :
    ¬ Held s source ∧ ¬ Held s target ∧ CopySpec D s source target s' := by
  by_cases heldSource : Held s source
  · simp [copyBlock,acquire_held shape heldSource,bind,Except.bind] at ran
  · obtain ⟨s₁,first,spec⟩ := acquire_spec shape heldSource
    by_cases heldTarget : Held s₁ target
    · simp [copyBlock,first,acquire_held spec.shape heldTarget,bind,Except.bind] at ran
    · rw [spec.held,not_or] at heldTarget
      obtain ⟨t,ran',copy⟩ := copyBlock_spec shape heldSource heldTarget.2 (Ne.symm heldTarget.1)
      rw [ran] at ran'
      cases ran'
      exact ⟨heldSource,heldTarget.2,copy⟩

-- A stretch of code made the device writes `ws`; off `touched` the cache looks the same.
structure Wrote (D touched : Usize → Prop) (s : BCache) (ws : List (Usize × BlockData)) (s' : BCache) : Prop where
  shape : Shape D s'
  device : s'.device = StoreWrites.apply ws s.device
  written : s'.written = s.written++ws
  header : s'.header = s.header
  outstanding : s'.outstanding = s.outstanding
  held : ∀ c, Held s' c ↔ Held s c
  view : ∀ c, ¬ touched c → ¬ D c ∨ s.pin c = true ∨ Held s c → s'.view c = s.view c

section Copies
variable {D : Usize → Prop} {h : LogHeader} {body : Nat → BCache → Except Fault BCache}
  {source target : Nat → Usize} {n : Nat}

-- Both copy loops of cache.c: into the log when committing, out of it when recovering.
theorem copies_spec (same : ∀ i s, i < n → s.header = h → body i s = copyBlock s (source i) (target i))
    (apart : ∀ i j, i < n → j < n → source i ≠ target j) (count : Nat) :
    ∀ i s, i+count ≤ n → s.header = h → Shape D s → (∀ j, j < n → ¬ Held s (source j)) →
      (∀ j, j < n → ¬ Held s (target j)) → (∀ j, j < n → ¬ D (source j) ∨ s.pin (source j) = true) →
      ∃ s', upTo body count i s = .ok s' ∧ (∀ c, s'.pin c = s.pin c) ∧
        Wrote D (fun c => ∃ j, j < n ∧ c = target j) s
          ((List.range' i count).map (fun j => (target j,s.view (source j)))) s' := by
  induction count with
  | zero =>
    intro i s _ _ shape _ _ _
    exact ⟨s,rfl,fun _ => rfl,shape,by simp,by simp,rfl,rfl,fun _ => Iff.rfl,fun _ _ _ => rfl⟩
  | succ count ih =>
    intro i s bound header shape freeSource freeTarget stable
    have here : i < n := by omega
    obtain ⟨s₁,ran,copy⟩ := copyBlock_spec shape (freeSource i here) (freeTarget i here) (apart i i here here)
    obtain ⟨s₂,rest,pins,wrote⟩ := ih (i+1) s₁ (by omega) (copy.header.trans header) copy.shape
      (fun j small held => freeSource j small ((copy.held _).mp held))
      (fun j small held => freeTarget j small ((copy.held _).mp held))
      (fun j small => (stable j small).imp id (fun pinned => (copy.pin _).trans pinned))
    -- A source is never a target, so the first copy leaves the later values alone.
    have values : (List.range' (i+1) count).map (fun j => (target j,s₁.view (source j))) =
        (List.range' (i+1) count).map (fun j => (target j,s.view (source j))) := by
      refine List.map_congr_left ?_
      intro j member
      have small : j < n := by have := List.mem_range'_1.mp member; omega
      rw [copy.view (source j) (apart j i small here) (.inr ((stable j small).imp id .inl))]
    rw [values] at wrote
    refine ⟨s₂,?_,fun c => (pins c).trans (copy.pin c),wrote.shape,?_,?_,wrote.header.trans copy.header,
      wrote.outstanding.trans copy.outstanding,fun c => (wrote.held c).trans (copy.held c),?_⟩
    · simp [upTo,same i s here header,ran,rest,bind,Except.bind]
    · rw [wrote.device,copy.device,List.range'_succ,List.map_cons,StoreWrites.apply_cons]
    · rw [wrote.written,copy.written,List.range'_succ,List.map_cons,List.append_assoc,List.singleton_append]
    · intro c untouched stableC
      have first : s₁.view c = s.view c := copy.view c (fun equal => untouched ⟨i,here,equal⟩) (.inr stableC)
      rw [wrote.view c untouched ?_,first]
      rcases stableC with small | pinned | held
      · exact .inl small
      · exact .inr (.inl ((copy.pin c).trans pinned))
      · exact .inr (.inr ((copy.held c).mpr held))

end Copies

section Checkpoint
variable {D : Usize → Prop} {s : BCache}

theorem checkpoint_spec (i : Nat) (small : i < logMaxSize) (shape : Shape D s) (free : ¬ Held s (s.header.blockNo i)) :
    ∃ s', checkpoint i s = .ok s' ∧ (∀ c, s'.pin c = if c = s.header.blockNo i then false else s.pin c) ∧
      Wrote D (fun _ => False) s [(s.header.blockNo i,s.view (s.header.blockNo i))] s' := by
  obtain ⟨s₁,ran₁,one⟩ := acquire_spec shape free
  have read : s₁.view (s.header.blockNo i) = s.view (s.header.blockNo i) := one.view _ (.inl rfl)
  have held₁ : Held s₁ (s.header.blockNo i) := (one.held _).mpr (.inl rfl)
  have wrote := deviceWrite_spec (b := s.header.blockNo i) (E := D) one.shape (fun c _ dirty => dirty)
  rw [read] at wrote
  obtain ⟨shape₂,held₂,pin₂,view₂⟩ := wrote
  have clean : (deviceWrite s₁ (s.header.blockNo i) (s.view (s.header.blockNo i))).view (s.header.blockNo i) =
      (deviceWrite s₁ (s.header.blockNo i) (s.view (s.header.blockNo i))).device (s.header.blockNo i) := by
    rw [view₂,read]; simp [deviceWrite]
  obtain ⟨disk₃,shape₃,held₃,pin₃,view₃⟩ := setPinned_spec shape₂ ((held₂ _).mpr held₁) false
    (fun _ _ => clean) (fun c _ dirty => dirty)
  obtain ⟨s₄,ran₄,disk₄,shape₄,held₄,pin₄,view₄⟩ := release_spec shape₃ ((held₃ _).mpr ((held₂ _).mpr held₁))
  refine ⟨s₄,?_,?_,shape₄,?_,?_,?_,?_,?_,?_⟩
  · simp [checkpoint,headerBlockNo,small,ran₁,ran₄,bind,Except.bind]
  · intro c
    rw [pin₄,pin₃,pin₂,one.pin]
  · rw [disk₄.device,disk₃.device]
    simp [deviceWrite,one.disk.device]
  · rw [disk₄.written,disk₃.written]
    simp [deviceWrite,one.disk.written]
  · rw [disk₄.header,disk₃.header]
    exact one.disk.header
  · rw [disk₄.outstanding,disk₃.outstanding]
    exact one.disk.outstanding
  · intro c
    rw [held₄,held₃,held₂,one.held]
    constructor
    · rintro ⟨different,same | held⟩
      · exact absurd same different
      · exact held
    · intro held
      exact ⟨fun same => free (same ▸ held),.inr held⟩
  · intro c _ stable
    rw [view₄,view₃,view₂]
    exact one.view c (.inr stable)

-- Once its home copy is written a block is unpinned and may leave the cache, so
-- only blocks outside `D` are known to look the same at the end of the loop.
theorem checkpoints_spec (h : LogHeader) (room : h.numBlocks ≤ logMaxSize) (distinct : h.blocks.Nodup) (count : Nat) :
    ∀ i s, i+count = h.numBlocks → s.header = h → Shape D s → (∀ b ∈ h.blocks, ¬ Held s b) →
      (∀ j, i ≤ j → j < h.numBlocks → s.pin (h.blockNo j) = true) →
      ∃ s', upTo checkpoint count i s = .ok s' ∧
        (∀ c, s'.pin c = true ↔ s.pin c = true ∧ ∀ j, i ≤ j → j < h.numBlocks → c ≠ h.blockNo j) ∧
        Wrote D D s ((List.range' i count).map (fun j => (h.blockNo j,s.view (h.blockNo j)))) s' := by
  induction count with
  | zero =>
    intro i s bound _ shape _ _
    refine ⟨s,rfl,?_,shape,by simp,by simp,rfl,rfl,fun _ => Iff.rfl,fun _ _ _ => rfl⟩
    intro c
    exact ⟨fun pinned => ⟨pinned,fun j low high => by omega⟩,fun both => both.1⟩
  | succ count ih =>
    intro i s bound header shape free pinned
    have here : i < h.numBlocks := by omega
    have listed : h.blockNo i ∈ h.blocks := (h.mem_blocks _).mpr ⟨i,here,rfl⟩
    obtain ⟨s₁,ran,pin₁,first⟩ := checkpoint_spec i (Nat.lt_of_lt_of_le here room) shape (by rw [header]; exact free _ listed)
    rw [header] at pin₁ first
    -- Distinct entries: unpinning the i-th leaves the later ones pinned.
    have later : ∀ j, i+1 ≤ j → j < h.numBlocks → h.blockNo j ≠ h.blockNo i := by
      intro j above inside equal
      have left : j < h.blocks.length := by simpa using inside
      have right : i < h.blocks.length := by simpa using here
      have same : h.blocks.get ⟨j,left⟩ = h.blocks.get ⟨i,right⟩ := by simpa [LogHeader.blocks_getElem] using equal
      have positions := congrArg Fin.val (List.nodup_iff_injective_get.mp distinct same)
      simp only at positions
      omega
    obtain ⟨s₂,rest,pin₂,wrote⟩ := ih (i+1) s₁ (by omega) (first.header.trans header) first.shape
      (fun b member held => free b member ((first.held b).mp held))
      (fun j above inside => by rw [pin₁,if_neg (later j above inside)]; exact pinned j (by omega) inside)
    have values : (List.range' (i+1) count).map (fun j => (h.blockNo j,s₁.view (h.blockNo j))) =
        (List.range' (i+1) count).map (fun j => (h.blockNo j,s.view (h.blockNo j))) := by
      refine List.map_congr_left ?_
      intro j member
      have inside := List.mem_range'_1.mp member
      rw [first.view _ not_false (.inr (.inl (pinned j (by omega) (by omega))))]
    rw [values] at wrote
    refine ⟨s₂,?_,?_,wrote.shape,?_,?_,wrote.header.trans first.header,wrote.outstanding.trans first.outstanding,
      fun c => (wrote.held c).trans (first.held c),?_⟩
    · simp [upTo,ran,rest,bind,Except.bind]
    · intro c
      rw [pin₂,pin₁]
      constructor
      · rintro ⟨still,others⟩
        by_cases same : c = h.blockNo i
        · rw [if_pos same] at still; cases still
        · rw [if_neg same] at still
          refine ⟨still,fun j low high => ?_⟩
          rcases Nat.eq_or_lt_of_le low with rfl | above
          · exact same
          · exact others j above high
      · rintro ⟨still,others⟩
        rw [if_neg (others i (Nat.le_refl i) here)]
        exact ⟨still,fun j low high => others j (by omega) high⟩
    · rw [wrote.device,first.device,List.range'_succ,List.map_cons,StoreWrites.apply_cons]; rfl
    · rw [wrote.written,first.written,List.range'_succ,List.map_cons,List.append_assoc,List.singleton_append]
    · intro c clean _
      rw [wrote.view c clean (.inl clean),first.view c not_false (.inl clean)]

end Checkpoint

def logHead (sb : SuperBlock) : Usize := sb.logStart.setWidth 64

theorem logHead_toNat (sb : SuperBlock) : (logHead sb).toNat = sb.logStart.toNat := by
  have := sb.logStart.isLt
  simp only [logHead,BitVec.toNat_setWidth]
  omega

theorem logSlot_toNat (sb : SuperBlock) (i : Nat) (small : i < logMaxSize) :
    (logSlot sb i).toNat = sb.logStart.toNat+i+1 := by
  have bound : i < 63 := small
  have := sb.logStart.isLt
  simp only [logSlot,BitVec.toNat_add,BitVec.toNat_setWidth,BitVec.toNat_ofNat]
  omega

-- The log area mkfs lays out: LOG_MAX_SIZE blocks from log_start on, the header first.
def logLayout (sb : SuperBlock) : RedoLog.Layout Usize BlockData where
  head := logHead sb
  slot := logSlot sb
  capacity := logMaxSize-1
  homes := LogHeader.blocks
  slot_inj := by
    intro i j smallI smallJ equal
    have same := congrArg BitVec.toNat equal
    rw [logSlot_toNat sb i (by omega),logSlot_toNat sb j (by omega)] at same
    omega
  slot_head := by
    intro i small equal
    have same := congrArg BitVec.toNat equal
    rw [logSlot_toNat sb i (by omega),logHead_toNat] at same
    omega

abbrev LogArea (sb : SuperBlock) (b : Usize) : Prop := (logLayout sb).Area b

theorem logArea_iff (sb : SuperBlock) (b : Usize) :
    LogArea sb b ↔ sb.logStart.toNat ≤ b.toNat ∧ b.toNat < sb.logStart.toNat+logMaxSize := by
  have size : logMaxSize = 63 := rfl
  constructor
  · rintro (rfl | ⟨i,small,rfl⟩)
    · change _ ≤ (logHead sb).toNat ∧ (logHead sb).toNat < _
      rw [logHead_toNat]; omega
    · change i < logMaxSize-1 at small
      change _ ≤ (logSlot sb i).toNat ∧ (logSlot sb i).toNat < _
      rw [logSlot_toNat sb i (by omega)]; omega
  · rintro ⟨low,high⟩
    rcases Nat.eq_or_lt_of_le low with equal | above
    · exact .inl (BitVec.eq_of_toNat_eq ((logHead_toNat sb).trans equal).symm)
    · refine .inr ⟨b.toNat-sb.logStart.toNat-1,?_,?_⟩
      · change _ < logMaxSize-1; omega
      · apply BitVec.eq_of_toNat_eq
        change _ = (logSlot sb _).toNat
        rw [logSlot_toNat sb _ (by omega)]
        omega

instance (sb : SuperBlock) (b : Usize) : Decidable (LogArea sb b) := decidable_of_iff _ (logArea_iff sb b).symm

-- The header is written past the cache: only the header block itself can go stale.
theorem writeHeader_spec {D : Usize → Prop} {s : BCache} (sb : SuperBlock) (shape : Shape D s)
    (stale : D (logHead sb)) :
    Wrote D (fun c => c = logHead sb) s [(logHead sb,s.header)] (writeHeader sb s) ∧
    ∀ c, (writeHeader sb s).pin c = s.pin c := by
  refine ⟨⟨⟨shape.distinct,shape.count,shape.locks,?_⟩,rfl,rfl,rfl,rfl,fun _ => Iff.rfl,?_⟩,fun _ => rfl⟩
  · intro c block found unpinned clean
    have different : c ≠ logHead sb := fun same => clean (same ▸ stale)
    change block.data = Function.update s.device (logHead sb) s.header c
    rw [Function.update_of_ne different]
    exact shape.clean c block found unpinned clean
  · intro c different _
    exact view_congr rfl (Function.update_of_ne different _ _)

theorem Shape.setHeader {D : Usize → Prop} {s : BCache} (shape : Shape D s) (h : LogHeader) :
    Shape D {s with header := h} := ⟨shape.distinct,shape.count,shape.locks,shape.clean⟩

theorem Shape.setOutstanding {D : Usize → Prop} {s : BCache} (shape : Shape D s) (o : Int) :
    Shape D {s with outstanding := o} := ⟨shape.distinct,shape.count,shape.locks,shape.clean⟩

-- What a commit needs of the in-memory log: it lists distinct, cached and pinned
-- blocks outside the log area, and nobody holds one of them.
structure Committable (sb : SuperBlock) (D : Usize → Prop) (s : BCache) : Prop where
  shape : Shape D s
  loggable : RedoLog.Loggable (logLayout sb) s.header.blocks
  pinned : ∀ b ∈ s.header.blocks, s.pin b = true
  free : ∀ b, ¬ Held s b
  stale : D (logHead sb)

theorem range_mapIdx (n : Nat) (g : Nat → α) (f : Nat → α → β) :
    ((List.range n).map g).mapIdx f = (List.range n).map (fun i => f i (g i)) := by
  apply List.ext_getElem <;> simp

theorem logWrites_range (sb : SuperBlock) (h : LogHeader) (value : Usize → BlockData) :
    RedoLog.logWrites (logLayout sb) h.blocks value =
      (List.range' 0 h.numBlocks).map (fun j => (logSlot sb j,value (h.blockNo j))) := by
  rw [RedoLog.logWrites,LogHeader.blocks,range_mapIdx,List.range_eq_range']
  rfl

theorem homeWrites_range (h : LogHeader) (value : Usize → BlockData) :
    RedoLog.homeWrites h.blocks value = (List.range' 0 h.numBlocks).map (fun j => (h.blockNo j,value (h.blockNo j))) := by
  rw [RedoLog.homeWrites,LogHeader.blocks,List.map_map,List.range_eq_range']
  rfl

structure CommitSpec (sb : SuperBlock) (D : Usize → Prop) (s s' : BCache) : Prop where
  shape : Shape D s'
  device : s'.device = StoreWrites.apply
    (RedoLog.commitWrites (logLayout sb) s.header.blocks s.view s.header (s.header.setNumBlocks 0)) s.device
  written : s'.written = s.written++
    RedoLog.commitWrites (logLayout sb) s.header.blocks s.view s.header (s.header.setNumBlocks 0)
  header : s'.header = s.header.setNumBlocks 0
  outstanding : s'.outstanding = s.outstanding-1
  held : ∀ c, Held s' c ↔ Held s c
  pin : ∀ c, s'.pin c = true ↔ s.pin c = true ∧ c ∉ s.header.blocks
  view : ∀ c, ¬ LogArea sb c → ¬ D c → s'.view c = s.view c

theorem logCopies_spec {D : Usize → Prop} {s : BCache} (sb : SuperBlock) (shape : Shape D s)
    (loggable : RedoLog.Loggable (logLayout sb) s.header.blocks) (pinned : ∀ b ∈ s.header.blocks, s.pin b = true)
    (free : ∀ j, j < s.header.numBlocks → ¬ Held s (s.header.blockNo j) ∧ ¬ Held s (logSlot sb j)) :
    ∃ s', upTo (logCopy sb) s.header.numBlocks 0 s = .ok s' ∧ (∀ c, s'.pin c = s.pin c) ∧
      Wrote D (LogArea sb) s (RedoLog.logWrites (logLayout sb) s.header.blocks s.view) s' := by
  have fits : s.header.numBlocks ≤ 62 := by simpa [logLayout,logMaxSize,blockSize] using loggable.fits
  have listed : ∀ j, j < s.header.numBlocks → s.header.blockNo j ∈ s.header.blocks :=
    fun j small => (s.header.mem_blocks _).mpr ⟨j,small,rfl⟩
  have apart : ∀ i j, i < s.header.numBlocks → j < s.header.numBlocks → s.header.blockNo i ≠ logSlot sb j := by
    intro i j smallI smallJ equal
    exact loggable.outside _ (listed i smallI) (.inr ⟨j,Nat.lt_of_lt_of_le smallJ fits,equal⟩)
  have body : ∀ i t, i < s.header.numBlocks → t.header = s.header →
      logCopy sb i t = copyBlock t (s.header.blockNo i) (logSlot sb i) := by
    intro i t small same
    have inside : i < logMaxSize := by change i < 63; omega
    simp [logCopy,headerBlockNo,same,inside,bind,Except.bind]
  obtain ⟨s',ran,pins,wrote⟩ := copies_spec body apart s.header.numBlocks 0 s (by omega) rfl shape
    (fun j small => (free j small).1) (fun j small => (free j small).2) (fun j small => .inr (pinned _ (listed j small)))
  rw [← logWrites_range] at wrote
  refine ⟨s',ran,pins,wrote.shape,wrote.device,wrote.written,wrote.header,wrote.outstanding,wrote.held,?_⟩
  intro c out stable
  refine wrote.view c ?_ stable
  intro target
  obtain ⟨j,small,same⟩ := target
  exact out (.inr ⟨j,Nat.lt_of_lt_of_le small fits,same⟩)

theorem endOp_commits {D : Usize → Prop} {s : BCache} (sb : SuperBlock) (ok : Committable sb D s)
    (last : s.outstanding ≤ 1) :
    ∃ s', cacheEndOp sb s = .ok s' ∧ CommitSpec sb D s s' := by
  have fits : s.header.numBlocks ≤ 62 := by simpa [logLayout,logMaxSize,blockSize] using ok.loggable.fits
  have listed : ∀ j, j < s.header.numBlocks → s.header.blockNo j ∈ s.header.blocks :=
    fun j small => (s.header.mem_blocks _).mpr ⟨j,small,rfl⟩
  obtain ⟨s₁,ran₁,pin₁,one⟩ := logCopies_spec (s := {s with outstanding := s.outstanding-1}) sb
    (ok.shape.setOutstanding _) ok.loggable ok.pinned
    (fun j _ => ⟨ok.free _,ok.free _⟩)
  have view₁ : ∀ c, ¬ LogArea sb c → ¬ D c ∨ s.pin c = true → s₁.view c = s.view c :=
    fun c out stable => one.view c out (stable.imp id .inl)
  -- The header is published, then the checkpoint loop writes the blocks home.
  have header₁ : s₁.header = s.header := one.header
  obtain ⟨two,pin₂⟩ := writeHeader_spec sb one.shape ok.stale
  have header₂ : (writeHeader sb s₁).header = s.header := header₁
  have values : ∀ b ∈ s.header.blocks, (writeHeader sb s₁).view b = s.view b := by
    intro b member
    have out := ok.loggable.outside b member
    have stays : s₁.pin b = true := (pin₁ b).trans (ok.pinned b member)
    rw [two.view b (fun same => out (.inl same)) (.inr (.inl stays)),view₁ b out (.inr (ok.pinned b member))]
  obtain ⟨s₃,ran₃,pin₃,three⟩ := checkpoints_spec (D := D) s.header (by change _ ≤ 63; omega) ok.loggable.distinct
    s.header.numBlocks 0 (writeHeader sb s₁) (by omega) header₂ two.shape
    (fun b _ held => ok.free b ((one.held b).mp held))
    (fun j _ small => by rw [pin₂,pin₁]; exact ok.pinned _ (listed j small))
  have header₃ : s₃.header = s.header := three.header.trans header₂
  obtain ⟨four,pin₄⟩ := writeHeader_spec sb (three.shape.setHeader (s₃.header.setNumBlocks 0)) ok.stale
  have homes : (List.range' 0 s.header.numBlocks).map
      (fun j => (s.header.blockNo j,(writeHeader sb s₁).view (s.header.blockNo j))) =
      RedoLog.homeWrites s.header.blocks s.view := by
    rw [homeWrites_range]
    refine List.map_congr_left ?_
    intro j member
    have small : j < s.header.numBlocks := by have := List.mem_range'_1.mp member; omega
    rw [values _ (listed j small)]
  have device₁ : s₁.device = StoreWrites.apply (RedoLog.logWrites (logLayout sb) s.header.blocks s.view) s.device :=
    one.device
  have written₁ : s₁.written = s.written++RedoLog.logWrites (logLayout sb) s.header.blocks s.view := one.written
  refine ⟨writeHeader sb {s₃ with header := s₃.header.setNumBlocks 0},?_,four.shape,?_,?_,?_,?_,?_,?_,?_⟩
  · have idle : ¬ (1 < s.outstanding) := by omega
    simp [cacheEndOp,idle,ran₁,header₂,ran₃,bind,Except.bind]
  · have device₃ := three.device
    rw [homes,two.device,header₁] at device₃
    rw [four.device]
    simp only [RedoLog.commitWrites,StoreWrites.apply_append,StoreWrites.apply_cons,StoreWrites.apply_nil,
      ← device₁] at device₃ ⊢
    rw [device₃,header₃]
    rfl
  · rw [four.written,RedoLog.commitWrites]
    have written₃ := three.written
    rw [homes,two.written,header₁,written₁] at written₃
    rw [written₃,header₃]
    simp [logLayout]
  · rw [four.header,header₃]
  · rw [four.outstanding]
    exact three.outstanding.trans one.outstanding
  · intro c
    exact (three.held c).trans (one.held c)
  · intro c
    rw [pin₄]
    change s₃.pin c = true ↔ _
    rw [pin₃,pin₂,pin₁]
    refine and_congr Iff.rfl ?_
    rw [s.header.mem_blocks]
    constructor
    · rintro away ⟨j,small,same⟩
      exact away j (Nat.zero_le j) small same.symm
    · intro away j _ small same
      exact away ⟨j,small,same.symm⟩
  · intro c out clean
    rw [four.view c (fun same => out (.inl same)) (.inl clean)]
    change s₃.view c = _
    rw [three.view c clean (.inl clean),two.view c (fun same => out (.inl same)) (.inl clean),view₁ c out (.inl clean)]

-- From a well-formed log init_bcache succeeds, and its writes are those of a recovery.
theorem initBcache_spec (sb : SuperBlock) (device : Usize → BlockData)
    (ok : RedoLog.Loggable (logLayout sb) (LogHeader.blocks (device (logHead sb)))) :
    ∃ s, initBcache sb device = .ok s ∧
      s.device = StoreWrites.apply (RedoLog.recoverWrites (logLayout sb) LogHeader.reset device) device ∧
      s.written = RedoLog.recoverWrites (logLayout sb) LogHeader.reset device := by
  let h : LogHeader := device (logHead sb)
  let s₀ : BCache := ⟨device,[],[],0,h,0⟩
  have fits : h.numBlocks ≤ 62 := by simpa [logLayout,logMaxSize,blockSize,h] using ok.fits
  have apart : ∀ i j, i < h.numBlocks → j < h.numBlocks → logSlot sb i ≠ h.blockNo j := by
    intro i j smallI smallJ equal
    refine ok.outside _ ((h.mem_blocks _).mpr ⟨j,smallJ,rfl⟩) (.inr ⟨i,Nat.lt_of_lt_of_le smallI fits,?_⟩)
    exact equal.symm
  have body : ∀ i t, i < h.numBlocks → t.header = h →
      recoverCopy sb i t = copyBlock t (logSlot sb i) (h.blockNo i) := by
    intro i t small same
    have inside : i < logMaxSize := by change i < 63; omega
    simp [recoverCopy,headerBlockNo,same,inside,bind,Except.bind]
  have empty : ∀ c, s₀.find c = none := fun _ => rfl
  have free : ∀ c, ¬ Held s₀ c := empty_free rfl
  obtain ⟨s₁,ran,pins,one⟩ := copies_spec (D := fun c => c = logHead sb) body apart h.numBlocks 0 s₀ (by omega) rfl
    (empty_shape rfl rfl) (fun _ _ => free _) (fun _ _ => free _)
    (fun j small => .inl ((logLayout sb).slot_head j (Nat.lt_of_lt_of_le small fits)))
  -- Nothing is cached yet, so the sources are read from the device as it was.
  have writes : (List.range' 0 h.numBlocks).map (fun j => (h.blockNo j,s₀.view (logSlot sb j))) =
      h.blocks.mapIdx (fun i b => (b,device (logSlot sb i))) := by
    rw [LogHeader.blocks,range_mapIdx,List.range_eq_range']
    exact List.map_congr_left (fun j _ => by rw [view_none (empty _)])
  rw [writes] at one
  refine ⟨writeHeader sb {s₁ with header := s₁.header.reset},?_,?_,?_⟩
  · change upTo (recoverCopy sb) h.numBlocks 0 s₀ >>= _ = _
    rw [ran]; rfl
  · change Function.update s₁.device (logHead sb) s₁.header.reset = _
    rw [one.device,one.header,RedoLog.recoverWrites,StoreWrites.apply_append]
    rfl
  · change s₁.written++[(logHead sb,s₁.header.reset)] = _
    rw [one.written,one.header,RedoLog.recoverWrites]
    rfl

-- The cache while nobody uses it: nothing is held and nothing is pinned.
structure Quiet (sb : SuperBlock) (s : BCache) : Prop where
  shape : Shape (fun c => c = logHead sb) s
  free : ∀ c, ¬ Held s c
  pin : ∀ c, s.pin c = false
  outstanding : s.outstanding = 0

theorem copyBlock_quiet {sb : SuperBlock} {s s' : BCache} (quiet : Quiet sb s)
    (ran : copyBlock s source target = .ok s') :
    Quiet sb s' := by
  obtain ⟨_,_,spec⟩ := copyBlock_parts quiet.shape ran
  exact ⟨spec.shape,fun c held => quiet.free c ((spec.held c).mp held),fun c => (spec.pin c).trans (quiet.pin c),
    spec.outstanding.trans quiet.outstanding⟩

theorem recover_quiet {sb : SuperBlock} {s s' : BCache} (count i : Nat) (quiet : Quiet sb s)
    (ran : upTo (recoverCopy sb) count i s = .ok s') : Quiet sb s' := by
  refine Runs.upTo_invariant (fun _ t => Quiet sb t) count i quiet ?_ ran
  intro j t t' _ _ quiet copied
  obtain ⟨b,_,copied⟩ := Runs.bind_ok.mp copied
  exact copyBlock_quiet quiet copied

-- Whatever log it finds, an init_bcache that returns leaves a quiet cache and no log.
theorem boot_quiet {sb : SuperBlock} {disk : Usize → BlockData} {s : BCache} (ran : initBcache sb disk = .ok s) :
    Quiet sb s ∧ s.header.blocks = [] ∧ LogHeader.blocks (s.device (logHead sb)) = [] := by
  obtain ⟨middle,copied,ran⟩ := Runs.bind_ok.mp ran
  cases ran
  have start : Quiet sb ⟨disk,[],[],0,disk (sb.logStart.setWidth 64),0⟩ :=
    ⟨empty_shape rfl rfl,empty_free rfl,fun c => by simp [BCache.pin,BCache.find,KeyedList.find],rfl⟩
  obtain ⟨shape,free,pin,outstanding⟩ := recover_quiet _ _ start copied
  obtain ⟨wrote,pins⟩ := writeHeader_spec sb (shape.setHeader middle.header.reset) rfl
  refine ⟨⟨wrote.shape,fun c held => free c ((wrote.held c).mp held),fun c => (pins c).trans (pin c),outstanding⟩,
    LogHeader.blocks_reset _,?_⟩
  change LogHeader.blocks (Function.update middle.device (logHead sb) middle.header.reset (logHead sb)) = []
  rw [Function.update_self]
  exact LogHeader.blocks_reset _

end BlockCache
