import HonorKernel.CacheRuns

-- cache_alloc and cache_free on a cache that nobody else uses, and the bitmap they work on.
namespace BlockCache
open DiskFormat Semaphores

def bitmapNo (sb : SuperBlock) : Usize := sb.bitmapStart.setWidth 64

def BCache.bit (sb : SuperBlock) (s : BCache) (i : Nat) : Bool := bitmapGet (s.view (bitmapNo sb)) i

-- The syncs of these blocks, in this order, pass the PANIC test of cache_sync.
def affords (header : LogHeader) (rm : Nat) : List Usize → Bool
  | [] => true
  | b::rest =>
    match logSync header rm b with
    | .ok (header,rm) => affords header rm rest
    | .error _ => false

def Affords (s : BCache) (blocks : List Usize) : Option OpContext → Prop
  | none => True
  | some ctx => affords s.header ctx.rm blocks = true

instance (s : BCache) (blocks : List Usize) : (ctx : Option OpContext) → Decidable (Affords s blocks ctx)
  | none => .isTrue trivial
  | some ctx => inferInstanceAs (Decidable (affords s.header ctx.rm blocks = true))

section Rewrites
variable {D : Usize → Prop} {s : BCache} {b : Usize} {rest : List Usize} {ctx : Option OpContext}

theorem sync_spec (shape : Shape (fun c => c = b ∨ D c) s) (held : Held s b) (afford : Affords s (b::rest) ctx) :
    ∃ ctx' s', cacheSync s ctx b = .ok (ctx',s') ∧ Affords s' rest ctx' ∧ Shape D s' ∧ (∀ c, Held s' c ↔ Held s c) ∧
      ∀ c, s'.view c = s.view c := by
  have others : ∀ c, c ≠ b → (c = b ∨ D c) → D c := fun c different dirty => dirty.resolve_left different
  cases ctx with
  | none =>
    obtain ⟨block,found,_⟩ := held
    have spec := deviceWrite_spec (b := b) (E := D) shape others
    rw [view_some found] at spec
    obtain ⟨shape',helds,_,views⟩ := spec
    exact ⟨none,_,by simp only [cacheSync,found],trivial,shape',helds,views⟩
  | some c =>
    simp only [Affords,affords] at afford
    obtain ⟨_,shape',helds,_,views⟩ := setPinned_spec (E := D) shape held true (fun off => by cases off) others
    cases logged : logSync s.header c.rm b with
    | error fault => rw [logged] at afford; cases afford
    | ok result =>
      rw [logged] at afford
      refine ⟨some ⟨result.2⟩,{s.modify b (fun x => {x with pinned := true}) with header := result.1},?_,afford,
          shape'.setHeader _,helds,views⟩
      simp only [cacheSync,logged,bind,Except.bind]

-- The pattern of cache_alloc and cache_free: acquire a block, store into it, sync it and
-- release it.
theorem rewrite_spec (shape : Shape D s) (idle : ∀ c, ¬ Held s c) (afford : Affords s (b::rest) ctx) :
    ∃ s₁, cacheAcquire s b = .ok (s.view b,s₁) ∧ ∀ d, ∃ ctx' s₂ s₃,
    cacheSync (modifyData s₁ b d) ctx b = .ok (ctx',s₂) ∧
      cacheRelease s₂ b = .ok s₃ ∧ Affords s₃ rest ctx' ∧ Shape D s₃ ∧ (∀ c, ¬ Held s₃ c) ∧
      ∀ c, c = b ∨ ¬ D c → s₃.view c = if c = b then d else s.view c := by
  obtain ⟨s₁,acquired,spec⟩ := acquire_spec shape (idle b)
  refine ⟨s₁,acquired,fun d => ?_⟩
  have held₁ : Held s₁ b := (spec.held b).mpr (.inl rfl)
  obtain ⟨disk,shape₁,helds₁,_,views₁⟩ := modifyData_spec spec.shape held₁ d
  have afford₁ : Affords (modifyData s₁ b d) (b::rest) ctx := by
    cases ctx with
    | none => trivial
    | some c =>
      change affords (modifyData s₁ b d).header c.rm (b::rest) = true
      rw [disk.header,spec.disk.header]
      exact afford
  obtain ⟨ctx',s₂,synced,afford₂,shape₂,helds₂,views₂⟩ := sync_spec shape₁ ((helds₁ b).mpr held₁) afford₁
  obtain ⟨s₃,released,disk₃,shape₃,helds₃,_,views₃⟩ := release_spec shape₂ ((helds₂ b).mpr ((helds₁ b).mpr held₁))
  refine ⟨ctx',s₂,s₃,synced,released,?_,shape₃,?_,?_⟩
  · cases ctx' with
    | none => trivial
    | some c =>
      change affords s₃.header c.rm rest = true
      rw [disk₃.header]
      exact afford₂
  · intro c held
    obtain ⟨different,held⟩ := (helds₃ c).mp held
    rw [helds₂,helds₁,spec.held] at held
    exact idle c (held.resolve_left different)
  · intro c stable
    rw [views₃,views₂,views₁]
    split
    · rfl
    · exact spec.view c (stable.imp_right .inl)

end Rewrites

-- The walk of cache_alloc ends at the first clear bit, at num_blocks, or where the one
-- cached block of bitmap ends.
theorem firstClear_spec (d : BlockData) (count i : Nat) (start : i ≤ bitPerBlock) :
    (firstClear d count i = .ok none ∧ i+count ≤ bitPerBlock ∧ ∀ j, i ≤ j → j < i+count → bitmapGet d j = true) ∨
    (∃ k, firstClear d count i = .ok (some k) ∧ i ≤ k ∧ k < i+count ∧ k < bitPerBlock ∧ bitmapGet d k = false ∧
      ∀ j, i ≤ j → j < k → bitmapGet d j = true) ∨
    (firstClear d count i = .error .outOfBounds ∧ bitPerBlock < i+count ∧
      ∀ j, i ≤ j → j < bitPerBlock → bitmapGet d j = true) := by
  induction count generalizing i with
  | zero => exact .inl ⟨rfl,start,fun j lower upper => absurd upper (by omega)⟩
  | succ count ih =>
    unfold firstClear
    by_cases past : bitPerBlock ≤ i
    · rw [if_pos past]
      exact .inr (.inr ⟨rfl,by omega,fun j lower upper => absurd upper (by omega)⟩)
    · rw [if_neg past]
      by_cases used : bitmapGet d i = true
      · rw [if_pos used]
        have extend : ∀ bound, (∀ j, i+1 ≤ j → j < bound → bitmapGet d j = true) → ∀ j, i ≤ j → j < bound → bitmapGet d j = true := by
          intro bound later j lower upper
          by_cases here : j = i
          · rw [here]; exact used
          · exact later j (by omega) upper
        rcases ih (i+1) (by omega) with ⟨ran,fits,all⟩ | ⟨k,ran,above,below,fits,clear,all⟩ | ⟨ran,past,all⟩
        · exact .inl ⟨ran,by omega,extend _ (fun j lower upper => all j lower (by omega))⟩
        · exact .inr (.inl ⟨k,ran,by omega,by omega,fits,clear,extend k all⟩)
        · exact .inr (.inr ⟨ran,by omega,extend _ all⟩)
      · rw [if_neg used]
        exact .inr (.inl ⟨i,rfl,Nat.le_refl i,by omega,by omega,by simpa using used,fun j lower upper => absurd upper (by omega)⟩)

-- No caller holds a block, and every unpinned block outside `D` is as on the device.
structure Idle (D : Usize → Prop) (s : BCache) : Prop where
  shape : Shape D s
  free : ∀ c, ¬ Held s c

structure Allocates (sb : SuperBlock) (D : Usize → Prop) (s : BCache) (b : Usize) (s' : BCache) : Prop where
  below : b.toNat < sb.numBlocks.toNat
  clear : s.bit sb b.toNat = false
  first : ∀ j, j < b.toNat → s.bit sb j = true
  bits : ∀ j, s'.bit sb j = if j = b.toNat then true else s.bit sb j
  zeroed : s'.view b = 0#4096
  others : ∀ c, c ≠ bitmapNo sb → c ≠ b → ¬ D c → s'.view c = s.view c

structure Frees (sb : SuperBlock) (D : Usize → Prop) (s : BCache) (b : Usize) (s' : BCache) : Prop where
  bits : ∀ j, s'.bit sb j = if j = b.toNat then false else s.bit sb j
  others : ∀ c, c ≠ bitmapNo sb → ¬ D c → s'.view c = s.view c

inductive BitmapCall where
  | alloc (ctx : Option OpContext)
  | free (ctx : Option OpContext) (b : Usize)
  deriving DecidableEq

-- The blocks cache_alloc is about to sync.
def allocSyncs (sb : SuperBlock) (s : BCache) : List Usize :=
  match firstClear (s.view (bitmapNo sb)) sb.numBlocks.toNat 0 with
  | .ok (some i) => [bitmapNo sb,BitVec.ofNat 64 i]
  | _ => []

-- Enough budget for the call's syncs; cache_free is called with a block of the disk.
def Budgeted (sb : SuperBlock) (s : BCache) : BitmapCall → Prop
  | .alloc ctx => Affords s (allocSyncs sb s) ctx
  | .free ctx b => b.toNat < sb.numBlocks.toNat ∧ Affords s [bitmapNo sb] ctx

-- The block that cache_alloc is about to return is not the bitmap block itself.
def Spared (sb : SuperBlock) (s : BCache) : BitmapCall → Prop
  | .alloc _ => firstClear (s.view (bitmapNo sb)) sb.numBlocks.toNat 0 ≠ .ok (some (bitmapNo sb).toNat)
  | .free _ _ => True

instance (sb : SuperBlock) (s : BCache) : (call : BitmapCall) → Decidable (Budgeted sb s call)
  | .alloc ctx => inferInstanceAs (Decidable (Affords s _ ctx))
  | .free ctx b => inferInstanceAs (Decidable (b.toNat < sb.numBlocks.toNat ∧ Affords s _ ctx))

instance (sb : SuperBlock) (s : BCache) : (call : BitmapCall) → Decidable (Spared sb s call)
  | .alloc _ => inferInstanceAs (Decidable (_ ≠ _))
  | .free _ _ => .isTrue trivial

def Law (sb : SuperBlock) (D : Usize → Prop) (s : BCache) : BitmapCall → Prop
  | .alloc ctx => ((∃ fault, cacheAlloc sb s ctx = .error fault) ↔ ∀ i, i < sb.numBlocks.toNat → s.bit sb i = true) ∧
      ∀ b ctx' s', cacheAlloc sb s ctx = .ok (b,ctx',s') → Allocates sb D s b s'
  | .free ctx b => ∃ ctx' s', cacheFree sb s ctx b = .ok (ctx',s') ∧ Frees sb D s b s'

section Calls
variable {sb : SuperBlock} {D : Usize → Prop} {s : BCache} {ctx : Option OpContext}

theorem alloc_none (idle : Idle D s) (full : firstClear (s.view (bitmapNo sb)) sb.numBlocks.toNat 0 = .ok none) :
    cacheAlloc sb s ctx = .error .noFreeBlock := by
  obtain ⟨s₁,acquired,_⟩ := acquire_spec idle.shape (idle.free (bitmapNo sb))
  change cacheAcquire s (sb.bitmapStart.setWidth 64) = _ at acquired
  simp only [cacheAlloc,acquired,full,bind,Except.bind]

theorem alloc_some {k : Nat} (idle : Idle D s) (clean : ¬ D (bitmapNo sb))
    (first : firstClear (s.view (bitmapNo sb)) sb.numBlocks.toNat 0 = .ok (some k))
    (afford : Affords s [bitmapNo sb,BitVec.ofNat 64 k] ctx) (spared : k ≠ (bitmapNo sb).toNat) :
    ∃ ctx' s', cacheAlloc sb s ctx = .ok (BitVec.ofNat 64 k,ctx',s') ∧ Idle D s' ∧
    Allocates sb D s (BitVec.ofNat 64 k) s' := by
  obtain ⟨s₁,acquired,rewrite⟩ := rewrite_spec idle.shape idle.free afford
  obtain ⟨ctx₁,s₂,s₃,synced,released,afford₁,shape₁,free₁,views₁⟩ := rewrite (bitmapSet (s.view (bitmapNo sb)) k)
  obtain ⟨s₄,acquired',rewrite'⟩ := rewrite_spec shape₁ free₁ afford₁
  obtain ⟨ctx₂,s₅,s₆,synced',released',_,shape₂,free₂,views₂⟩ := rewrite' 0#4096
  change cacheAcquire s (sb.bitmapStart.setWidth 64) = _ at acquired
  change cacheSync (modifyData s₁ (sb.bitmapStart.setWidth 64) _) ctx (sb.bitmapStart.setWidth 64) = _ at synced
  change cacheRelease s₂ (sb.bitmapStart.setWidth 64) = _ at released
  obtain ⟨above,below,fits,clear,all⟩ : 0 ≤ k ∧ k < 0+sb.numBlocks.toNat ∧ k < bitPerBlock ∧ bitmapGet
      (s.view (bitmapNo sb)) k = false ∧
      ∀ j, 0 ≤ j → j < k → bitmapGet (s.view (bitmapNo sb)) j = true := by
    rcases firstClear_spec (s.view (bitmapNo sb)) sb.numBlocks.toNat 0 (Nat.zero_le _) with ⟨none,_⟩ | ⟨i,found,rest⟩ | ⟨fault,_⟩
    · rw [first] at none; cases none
    · rw [first] at found; cases found; exact rest
    · rw [first] at fault; cases fault
  have number : (BitVec.ofNat 64 k).toNat = k := by
    have bound : bitPerBlock = 4096 := rfl
    rw [BitVec.toNat_ofNat]
    exact Nat.mod_eq_of_lt (by omega)
  have apart : bitmapNo sb ≠ BitVec.ofNat 64 k := fun same => spared (by rw [same,number])
  have bitmap : s₆.view (bitmapNo sb) = bitmapSet (s.view (bitmapNo sb)) k := by
    rw [views₂ _ (.inr clean),if_neg apart,views₁ _ (.inl rfl),if_pos rfl]
  refine ⟨ctx₂,s₆,by simp only [cacheAlloc,acquired,first,synced,released,acquired',synced',released',bind,Except.bind],⟨shape₂,free₂⟩,
    ⟨by rw [number]; omega,by rw [number]; exact clear,?_,?_,?_,?_⟩⟩
  · intro j before
    exact all j (Nat.zero_le j) (number ▸ before)
  · intro j
    rw [BCache.bit,bitmap,bitmapGet_set _ _ _ fits,number]
    rfl
  · rw [views₂ _ (.inl rfl),if_pos rfl]
  · intro c notBitmap notNew outside
    rw [views₂ c (.inr outside),if_neg notNew,views₁ c (.inr outside),if_neg notBitmap]

theorem free_frees {b : Usize} (idle : Idle D s) (small : b.toNat < bitPerBlock)
    (afford : Affords s [bitmapNo sb] ctx) :
    ∃ ctx' s', cacheFree sb s ctx b = .ok (ctx',s') ∧ Idle D s' ∧ Frees sb D s b s' := by
  obtain ⟨s₁,acquired,rewrite⟩ := rewrite_spec idle.shape idle.free afford
  obtain ⟨ctx₁,s₂,s₃,synced,released,_,shape₁,free₁,views₁⟩ := rewrite (bitmapClear (s.view (bitmapNo sb)) b.toNat)
  change cacheAcquire s (sb.bitmapStart.setWidth 64) = _ at acquired
  change cacheSync (modifyData s₁ (sb.bitmapStart.setWidth 64) _) ctx (sb.bitmapStart.setWidth 64) = _ at synced
  change cacheRelease s₂ (sb.bitmapStart.setWidth 64) = _ at released
  refine ⟨ctx₁,s₃,?_,⟨shape₁,free₁⟩,⟨?_,?_⟩⟩
  · simp only [cacheFree,acquired,if_neg (Nat.not_le.mpr small),synced,released,bind,Except.bind]
  · intro j
    rw [BCache.bit,views₁ _ (.inl rfl),if_pos rfl,bitmapGet_clear _ _ _ small]
    rfl
  · intro c notBitmap outside
    rw [views₁ c (.inr outside),if_neg notBitmap]

theorem alloc_cases (idle : Idle D s) (clean : ¬ D (bitmapNo sb)) (small : sb.numBlocks.toNat ≤ bitPerBlock)
    (budget : Budgeted sb s (.alloc ctx)) (spared : Spared sb s (.alloc ctx)) :
    ((∀ i, i < sb.numBlocks.toNat → s.bit sb i = true) ∧ cacheAlloc sb s ctx = .error .noFreeBlock) ∨
    ∃ b ctx' s', cacheAlloc sb s ctx = .ok (b,ctx',s') ∧ Idle D s' ∧ Allocates sb D s b s' := by
  rcases firstClear_spec (s.view (bitmapNo sb)) sb.numBlocks.toNat 0 (Nat.zero_le _) with
    ⟨full,_,all⟩ | ⟨k,first,_⟩ | ⟨_,past,_⟩
  · exact .inl ⟨fun i upper => all i (Nat.zero_le i) (by omega),alloc_none idle full⟩
  · have afford : Affords s [bitmapNo sb,BitVec.ofNat 64 k] ctx := by
      have blocks : allocSyncs sb s = [bitmapNo sb,BitVec.ofNat 64 k] := by simp only [allocSyncs,first]
      simpa only [Budgeted,blocks] using budget
    have own : k ≠ (bitmapNo sb).toNat := fun same => spared (by rw [first,same])
    obtain ⟨ctx',s',returns,idle',allocates⟩ := alloc_some idle clean first afford own
    exact .inr ⟨_,ctx',s',returns,idle',allocates⟩
  · omega

theorem call_law (idle : Idle D s) (clean : ¬ D (bitmapNo sb)) (small : sb.numBlocks.toNat ≤ bitPerBlock)
    (call : BitmapCall) (budget : Budgeted sb s call) (spared : Spared sb s call) : Law sb D s call := by
  cases call with
  | free ctx b =>
    obtain ⟨below,afford⟩ := budget
    obtain ⟨ctx',s',ran,_,frees⟩ := free_frees (b := b) idle (Nat.lt_of_lt_of_le below small) afford
    exact ⟨ctx',s',ran,frees⟩
  | alloc ctx =>
    rcases alloc_cases idle clean small budget spared with ⟨all,fails⟩ | ⟨b,ctx',s',returns,_,allocates⟩
    · refine ⟨⟨fun _ => all,fun _ => ⟨_,fails⟩⟩,?_⟩
      intro b ctx' s' ran
      rw [fails] at ran
      cases ran
    · refine ⟨⟨?_,?_⟩,?_⟩
      · rintro ⟨fault,ran⟩
        rw [returns] at ran
        cases ran
      · intro all
        have set := all b.toNat allocates.below
        rw [allocates.clear] at set
        cases set
      · intro other ctx'' s'' ran
        rw [returns] at ran
        simp only [Except.ok.injEq,Prod.mk.injEq] at ran
        obtain ⟨rfl,rfl,rfl⟩ := ran
        exact allocates

end Calls

-- What the callers have got from the allocator and given back, oldest first.
inductive BitmapEvent where
  | took (b : Usize)
  | gave (b : Usize)
  deriving DecidableEq

structure BitmapRun where
  cache : BCache
  events : List BitmapEvent

def bitmapNext (sb : SuperBlock) (s : BitmapRun) : BitmapCall → Option BitmapRun
  | .alloc ctx => (cacheAlloc sb s.cache ctx).toOption.map fun result => ⟨result.2.2,s.events++[.took result.1]⟩
  | .free ctx b => (cacheFree sb s.cache ctx b).toOption.map fun result => ⟨result.2,s.events++[.gave b]⟩

def Alternates (events : List BitmapEvent) : Prop :=
  ∀ b before between after, events = before++.took b::between++.took b::after → .gave b ∈ between

-- Taken and not given back since.
def Out (events : List BitmapEvent) (b : Usize) : Prop :=
  ∃ before since, events = before++.took b::since ∧ .gave b ∉ since

section Events
variable {events before since : List BitmapEvent} {e f : BitmapEvent} {b : Usize}

theorem last_event (same : events++[e] = before++f::since) :
    (events = before ∧ e = f ∧ since = []) ∨ ∃ earlier, since = earlier++[e] ∧ events = before++f::earlier := by
  rcases List.eq_nil_or_concat since with rfl | ⟨earlier,last,rfl⟩
  · exact .inl ⟨List.append_inj_left' same rfl,List.singleton_inj.mp (List.append_inj_right' same rfl),rfl⟩
  · rw [List.concat_eq_append,← List.cons_append,← List.append_assoc] at same
    have tail := List.singleton_inj.mp (List.append_inj_right' same rfl)
    exact .inr ⟨earlier,by rw [tail,List.concat_eq_append],List.append_inj_left' same rfl⟩

theorem Out.earlier (out : Out (events++[e]) b) (other : e ≠ .took b) : e ≠ .gave b ∧ Out events b := by
  obtain ⟨before,since,same,kept⟩ := out
  rcases last_event same with ⟨_,taken,_⟩ | ⟨earlier,rfl,rfl⟩
  · exact absurd taken other
  · rw [List.mem_append,not_or] at kept
    exact ⟨fun given => kept.2 (List.mem_singleton.mpr given.symm),before,earlier,rfl,kept.1⟩

theorem Alternates.extend (alternates : Alternates events) (fresh : ∀ b, e = .took b → ¬ Out events b) :
    Alternates (events++[e]) := by
  intro b before between after same
  rcases last_event same with ⟨rfl,rfl,_⟩ | ⟨earlier,rfl,rfl⟩
  · by_contra kept
    exact fresh b rfl ⟨before,between,rfl,kept⟩
  · exact alternates b before between earlier rfl

end Events

structure Kept (sb : SuperBlock) (D : Usize → Prop) (s : BitmapRun) : Prop where
  idle : Idle D s.cache
  marked : ∀ b, Out s.events b → s.cache.bit sb b.toNat = true
  alternates : Alternates s.events

section Runs
variable {sb : SuperBlock} {D : Usize → Prop} {start : BCache} {s s' : BitmapRun}

def Careful (sb : SuperBlock) (s : BitmapRun) (call : BitmapCall) : Prop := Budgeted sb s.cache call ∧ Spared sb s.cache call

instance (sb : SuperBlock) (s : BitmapRun) (call : BitmapCall) : Decidable (Careful sb s call) := inferInstanceAs (Decidable (_ ∧ _))

theorem Kept.step (kept : Kept sb D s) (clean : ¬ D (bitmapNo sb)) (small : sb.numBlocks.toNat ≤ bitPerBlock)
    (careful : Careful sb s call) (ran : bitmapNext sb s call = some s') : Kept sb D s' := by
  cases call with
  | alloc ctx =>
    obtain ⟨⟨b,ctx',cache⟩,returned,rfl⟩ := Option.map_eq_some_iff.mp ran
    have returned := Runs.toOption_some returned
    rcases alloc_cases kept.idle clean small careful.1 careful.2 with ⟨_,fails⟩ | ⟨b',ctx'',cache',returns,idle,allocates⟩
    · rw [fails] at returned
      cases returned
    · rw [returns] at returned
      simp only [Except.ok.injEq,Prod.mk.injEq] at returned
      obtain ⟨rfl,rfl,rfl⟩ := returned
      refine ⟨idle,?_,kept.alternates.extend ?_⟩
      · intro c out
        rw [allocates.bits]
        split
        · rfl
        · rename_i different
          have other : BitmapEvent.took b' ≠ .took c := fun same => different (by cases same; rfl)
          exact kept.marked c (out.earlier other).2
      · intro c same out
        cases same
        have set := kept.marked b' out
        rw [allocates.clear] at set
        cases set
  | free ctx b =>
    obtain ⟨⟨ctx',cache⟩,returned,rfl⟩ := Option.map_eq_some_iff.mp ran
    have returned := Runs.toOption_some returned
    obtain ⟨below,afford⟩ := careful.1
    obtain ⟨ctx'',cache',returns,idle,frees⟩ := free_frees (b := b) kept.idle (Nat.lt_of_lt_of_le below small) afford
    rw [returns] at returned
    simp only [Except.ok.injEq,Prod.mk.injEq] at returned
    obtain ⟨rfl,rfl⟩ := returned
    refine ⟨idle,?_,kept.alternates.extend fun c same => by cases same⟩
    intro c out
    obtain ⟨notGiven,before⟩ := out.earlier (by intro same; cases same)
    have different : c.toNat ≠ b.toNat := fun same => notGiven (by rw [BitVec.eq_of_toNat_eq same])
    rw [frees.bits,if_neg different]
    exact kept.marked c before

theorem run_kept (idle : Idle D start) (clean : ¬ D (bitmapNo sb)) (small : sb.numBlocks.toNat ≤ bitPerBlock)
    (path : Runs.Guarded (bitmapNext sb) (Careful sb) ⟨start,[]⟩ s) : Kept sb D s := by
  refine path.invariant (Kept sb D) ⟨idle,?_,?_⟩ fun s call s' kept careful ran => kept.step clean small careful ran
  · rintro b ⟨before,since,none,_⟩
    simp at none
  · intro b before between after none
    simp at none

-- Over every run of cache_alloc and cache_free whose cache_alloc calls never take the
-- bitmap block itself.
theorem block_allocator (idle : Idle D start) (clean : ¬ D (bitmapNo sb)) (small : sb.numBlocks.toNat ≤ bitPerBlock)
    (path : Runs.Guarded (bitmapNext sb) (Careful sb) ⟨start,[]⟩ s) :
    (∀ call, Careful sb s call → Law sb D s.cache call) ∧ Alternates s.events := by
  have kept := run_kept idle clean small path
  exact ⟨fun call careful => call_law kept.idle clean small call careful.1 careful.2,kept.alternates⟩

-- A disk of three blocks, the first one holding the bitmap.
def tinySuperBlock : SuperBlock := {mkfsSuperBlock with numBlocks := 3#32,bitmapStart := 0#32}

def tinyCache (bitmap : BlockData) : BCache := ⟨Function.update (fun _ => 0#4096) 0#64 bitmap,[],[],0,0#4096,0⟩

theorem tiny_idle (bitmap : BlockData) : Idle (fun _ => False) (tinyCache bitmap) := by
  refine ⟨⟨List.nodup_nil,rfl,?_,?_⟩,?_⟩
  · intro b block found
    cases found
  · intro b block found
    cases found
  · rintro b ⟨block,found,_⟩
    cases found

-- With no bit set, not even its own, the bitmap block is taken twice.
theorem bitmap_taken_twice : ¬ ∀ (sb : SuperBlock) (D : Usize → Prop) (start : BCache) (s : BitmapRun),
    Idle D start → ¬ D (bitmapNo sb) →
    sb.numBlocks.toNat ≤ bitPerBlock → Runs.Guarded (bitmapNext sb)
    (fun s call => Budgeted sb s.cache call) ⟨start,[]⟩ s →
      (∀ call, Budgeted sb s.cache call → Law sb D s.cache call) ∧ Alternates s.events := by
  intro lawful
  obtain ⟨s,ran,events⟩ := Runs.some_such (x := Runs.exec (bitmapNext tinySuperBlock) ⟨tinyCache 0#4096,[]⟩ [.alloc none,.alloc none])
    (p := fun s => decide (s.events = [.took 0#64,.took 0#64])) (by decide +kernel)
  have path : Runs.Guarded (bitmapNext tinySuperBlock) (fun s call => Budgeted tinySuperBlock s.cache call)
      ⟨tinyCache 0#4096,[]⟩ s := Runs.exec_always .start (by
    intro call member s
    simp only [List.mem_cons,List.not_mem_nil,or_false,or_self] at member
    rw [member]
    trivial) ran
  have between := (lawful tinySuperBlock (fun _ => False) (tinyCache 0#4096) s (tiny_idle _) id (by decide) path).2 0#64 [] [] []
    (of_decide_eq_true events)
  cases between

theorem block_allocator_tiny : ∃ s, Runs.execGuarded (bitmapNext tinySuperBlock)
    (Careful tinySuperBlock) ⟨tinyCache 1#4096,[]⟩
      [.alloc none,.free none 1#64,.alloc none] = some s ∧ s.events = [.took 1#64,.gave 1#64,.took 1#64] ∧
    Law tinySuperBlock (fun _ => False) s.cache (.alloc (some ⟨2⟩)) := by
  obtain ⟨s,ran,facts⟩ := Runs.some_such (x := Runs.execGuarded (bitmapNext tinySuperBlock) (Careful tinySuperBlock)
      ⟨tinyCache 1#4096,[]⟩
      [.alloc none,.free none 1#64,.alloc none])
    (p := fun s => decide (s.events = [.took 1#64,.gave 1#64,.took 1#64] ∧ Careful tinySuperBlock s
        (.alloc (some ⟨2⟩)))) (by decide +kernel)
  obtain ⟨events,careful⟩ := of_decide_eq_true facts
  exact ⟨s,ran,events,(block_allocator (tiny_idle _) id (by decide) (Runs.exec_guarded .start ran)).1 _ careful⟩

end Runs

-- The eight bytes that bitmap_get, bitmap_set and bitmap_clear address: the block in whose
-- data the macros start counting, and the offset they arrive at.
structure Cell where
  block : Usize
  offset : Nat

def cellOf (sb : SuperBlock) (index : Nat) : Cell := ⟨bitmapNo sb,8*(index/64)⟩

-- The layout: bit `index` of the bitmap is in block `index / BIT_PER_BLOCK` of its area.
def homeOf (sb : SuperBlock) (index : Nat) : Usize := bitmapNo sb+BitVec.ofNat 64 (index/bitPerBlock)

def Inside (sb : SuperBlock) (index : Nat) : Prop :=
  (cellOf sb index).block = homeOf sb index ∧ (cellOf sb index).offset+8 ≤ blockSize

-- The indices cache_alloc passes to bitmap_get, up to the first one outside the cached
-- block; bitmap_set gets the last of them.
def scanned (d : BlockData) : Nat → Nat → List Nat
  | 0,_ => []
  | count+1,i => i :: if i < bitPerBlock ∧ bitmapGet d i = true then scanned d count (i+1) else []

section Addressing
variable {sb : SuperBlock} {D : Usize → Prop} {s : BCache}

theorem inside_iff (index : Nat) : Inside sb index ↔ index < bitPerBlock := by
  have size : blockSize = 512 := rfl
  have bits : bitPerBlock = 4096 := rfl
  constructor
  · rintro ⟨_,fits⟩
    simp only [cellOf] at fits
    omega
  · intro small
    refine ⟨?_,?_⟩
    · have first : index/bitPerBlock = 0 := Nat.div_eq_of_lt small
      simp only [cellOf,homeOf,first,BitVec.add_zero]
    · simp only [cellOf]
      omega

theorem scanned_inside (d : BlockData) (count i : Nat) (start : i ≤ bitPerBlock) :
    (∀ j ∈ scanned d count i, j < bitPerBlock) ↔ firstClear d count i ≠ .error .outOfBounds := by
  induction count generalizing i with
  | zero => simp [scanned,firstClear]
  | succ count ih =>
    unfold scanned firstClear
    by_cases past : bitPerBlock ≤ i
    · rw [if_pos past,if_neg (fun both => absurd both.1 (by omega))]
      simp [past]
    · rw [if_neg past]
      have small : i < bitPerBlock := by omega
      by_cases used : bitmapGet d i = true
      · rw [if_pos used,if_pos ⟨small,used⟩,List.forall_mem_cons,ih (i+1) small]
        exact and_iff_right small
      · rw [if_neg used,if_neg (fun both => used both.2)]
        simp [small]

-- cache_alloc stays inside the bitmap block that holds the bits it looks at.
def AllocInside (sb : SuperBlock) (s : BCache) : Prop :=
  ∀ i ∈ scanned (s.view (bitmapNo sb)) sb.numBlocks.toNat 0, Inside sb i

-- So does cache_free, and a block number that is none of the disk's is ignored.
def FreeInside (sb : SuperBlock) (D : Usize → Prop) (s : BCache) (ctx : Option OpContext) (b : Usize) : Prop :=
  Inside sb b.toNat ∧ (sb.numBlocks.toNat ≤ b.toNat →
    ∃ ctx' s', cacheFree sb s ctx b = .ok (ctx',s') ∧ ∀ c, ¬ D c → s'.view c = s.view c)

theorem allocInside_iff (sb : SuperBlock) (s : BCache) :
    AllocInside sb s ↔ sb.numBlocks.toNat ≤ bitPerBlock ∨ ∃ i, i < bitPerBlock ∧ s.bit sb i = false := by
  simp only [AllocInside,inside_iff]
  rw [scanned_inside _ _ _ (Nat.zero_le _)]
  rcases firstClear_spec (s.view (bitmapNo sb)) sb.numBlocks.toNat 0 (Nat.zero_le _) with
    ⟨full,fits,_⟩ | ⟨k,first,_,_,fits,clear,_⟩ | ⟨fault,past,all⟩
  · refine iff_of_true (by rw [full]; simp) (.inl (by omega))
  · exact iff_of_true (by rw [first]; simp) (.inr ⟨k,fits,clear⟩)
  · refine iff_of_false (fun inside => inside fault) ?_
    rintro (small | ⟨i,small,clear⟩)
    · omega
    · rw [BCache.bit,all i (Nat.zero_le i) small] at clear
      cases clear

theorem freeInside_iff {ctx : Option OpContext} {b : Usize} (idle : Idle D s) (clean : ¬ D (bitmapNo sb))
    (afford : Affords s [bitmapNo sb] ctx) :
    FreeInside sb D s ctx b ↔ b.toNat < bitPerBlock ∧ (b.toNat < sb.numBlocks.toNat ∨ s.bit sb b.toNat = false) := by
  rw [FreeInside,inside_iff]
  refine and_congr_right fun small => ?_
  obtain ⟨ctx₁,s₁,ran,_,frees⟩ := free_frees (b := b) idle small afford
  constructor
  · intro ignored
    rw [or_iff_not_imp_left,Nat.not_lt]
    intro beyond
    obtain ⟨ctx',s',ran',same⟩ := ignored beyond
    rw [ran] at ran'
    simp only [Except.ok.injEq,Prod.mk.injEq] at ran'
    obtain ⟨rfl,rfl⟩ := ran'
    have cleared := frees.bits b.toNat
    rwa [if_pos rfl,BCache.bit,same _ clean] at cleared
  · intro fine beyond
    have clear : s.bit sb b.toNat = false := fine.resolve_left (by omega)
    refine ⟨ctx₁,s₁,ran,fun c outside => ?_⟩
    by_cases bitmap : c = bitmapNo sb
    · subst bitmap
      refine BitVec.eq_of_getLsbD_eq fun j _ => ?_
      have bit := frees.bits j
      rw [BCache.bit,BCache.bit,bitmapGet_bit,bitmapGet_bit] at bit
      rw [bit]
      split
      · rename_i same
        rw [same,← bitmapGet_bit]
        exact clear.symm
      · rfl
    · exact frees.others c bitmap outside

-- Exactly when the two calls address the bitmap as the disk is laid out.
theorem bitmap_addressing (idle : Idle D s) (clean : ¬ D (bitmapNo sb)) :
    (AllocInside sb s ↔ sb.numBlocks.toNat ≤ bitPerBlock ∨ ∃ i, i < bitPerBlock ∧ s.bit sb i = false) ∧
    ∀ ctx b, Affords s [bitmapNo sb] ctx →
      (FreeInside sb D s ctx b ↔ b.toNat < bitPerBlock ∧ (b.toNat < sb.numBlocks.toNat ∨ s.bit sb b.toNat = false)) :=
  ⟨allocInside_iff sb s,fun _ _ afford => freeInside_iff idle clean afford⟩

theorem bitmap_addressing_tiny : AllocInside tinySuperBlock (tinyCache 1#4096) ∧
    FreeInside tinySuperBlock (fun _ => False) (tinyCache 1#4096) (some ⟨1⟩) 7#64 := by
  obtain ⟨allocates,frees⟩ := @bitmap_addressing tinySuperBlock _ _ (tiny_idle 1#4096) id
  exact ⟨allocates.mpr (.inl (by decide)),(frees (some ⟨1⟩) 7#64 (by decide +kernel)).mpr (by decide +kernel)⟩

-- A disk of 8192 blocks has two blocks of bitmap. Freeing its block 5000 clears a bit past
-- the end of the first one.
def wideSuperBlock : SuperBlock := {mkfsSuperBlock with numBlocks := 8192#32,numDataBlocks := 8098#32}

theorem second_bitmap_block_missed : ¬ ∀ (sb : SuperBlock) (D : Usize → Prop) (s : BCache) (ctx : Option OpContext)
    (b : Usize),
    Idle D s → ¬ D (bitmapNo sb) → Affords s [bitmapNo sb] ctx → AllocInside sb s ∧ FreeInside sb D s ctx b := by
  intro inside
  have inside := (inside wideSuperBlock (fun _ => False) (tinyCache 0#4096) none 5000#64 (tiny_idle _) id trivial).2.1
  rw [inside_iff] at inside
  exact absurd inside (by decide)

end Addressing

end BlockCache
