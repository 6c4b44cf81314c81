import HonorKernel.InodeFormat
import HonorKernel.Runs

-- The block cache as the layers above see it: cache->acquire returns the content of a
-- block in memory, wherever it is, and cache->sync says which transaction has it.
namespace CacheView
open DiskFormat

-- `OpContext *`: NULL, or one of the transactions.
abbrev Ctx := Option Nat

-- `synced` has every cache->sync made with a ctx, oldest first.
structure View where
  blocks : Usize → BlockData
  synced : List (Nat × Usize)

def View.store (v : View) (b : Usize) (d : BlockData) : View := ⟨Function.update v.blocks b d,v.synced⟩

def View.sync (v : View) (ctx : Ctx) (b : Usize) : View := ⟨v.blocks,v.synced++(ctx.map fun op => (op,b)).toList⟩

-- The pattern of almost every update: acquire, store, sync, release.
def View.put (v : View) (ctx : Ctx) (b : Usize) (d : BlockData) : View := (v.store b d).sync ctx b

def bitmapBlock (sb : SuperBlock) : Usize := sb.bitmapStart.setWidth 64

-- The loop of cache_alloc; the bitmap has one block, and a bit past its end is read
-- from outside the block.
def findFree (bitmap : BlockData) : Nat → Nat → Except Fault Nat
  | 0,_ => .error .noFreeBlock
  | count+1,i =>
    if bitPerBlock ≤ i then .error .outOfBounds
    else if bitmapGet bitmap i then findFree bitmap count (i+1)
    else .ok i

def cacheAlloc (sb : SuperBlock) (ctx : Ctx) (v : View) : Except Fault (Usize × View) := do
  let i ← findFree (v.blocks (bitmapBlock sb)) sb.numBlocks.toNat 0
  let v := v.put ctx (bitmapBlock sb) (bitmapSet (v.blocks (bitmapBlock sb)) i)
  .ok (BitVec.ofNat 64 i,v.put ctx (BitVec.ofNat 64 i) 0#4096)

def cacheFree (sb : SuperBlock) (ctx : Ctx) (b : Usize) (v : View) : Except Fault View :=
  if b.toNat < bitPerBlock then
    .ok (v.put ctx (bitmapBlock sb) (bitmapClear (v.blocks (bitmapBlock sb)) b.toNat))
  else .error .outOfBounds

@[simp] theorem View.store_blocks (v : View) (b : Usize) (d : BlockData) : (v.store b d).blocks = Function.update v.blocks b d := rfl
@[simp] theorem View.store_synced (v : View) (b : Usize) (d : BlockData) : (v.store b d).synced = v.synced := rfl
@[simp] theorem View.sync_blocks (v : View) (ctx : Ctx) (b : Usize) : (v.sync ctx b).blocks = v.blocks := rfl
@[simp] theorem View.put_blocks (v : View) (ctx : Ctx) (b : Usize) (d : BlockData) :
    (v.put ctx b d).blocks = Function.update v.blocks b d := rfl

theorem findFree_spec (bitmap : BlockData) (count i : Nat) (found : findFree bitmap count i = .ok k) :
    i ≤ k ∧ k < i+count ∧ k < bitPerBlock ∧ bitmapGet bitmap k = false ∧ ∀ j, i ≤ j → j < k →
    bitmapGet bitmap j = true := by
  induction count generalizing i with
  | zero => cases found
  | succ count ih =>
    unfold findFree at found
    split at found
    · cases found
    · rename_i inside
      split at found
      · rename_i used
        obtain ⟨above,below,fits,free,earlier⟩ := ih (i+1) found
        refine ⟨by omega,by omega,fits,free,?_⟩
        intro j lower upper
        by_cases here : j = i
        · rw [here]; exact used
        · exact earlier j (by omega) upper
      · rename_i free
        cases found
        exact ⟨Nat.le_refl _,by omega,by omega,by simpa using free,fun j lower upper => absurd upper (by omega)⟩

theorem findFree_exists (bitmap : BlockData) (count i : Nat) (fits : i+count ≤ bitPerBlock)
    (free : ∃ j, i ≤ j ∧ j < i+count ∧ bitmapGet bitmap j = false) : ∃ k, findFree bitmap count i = .ok k := by
  induction count generalizing i with
  | zero =>
    obtain ⟨j,lower,upper,_⟩ := free
    omega
  | succ count ih =>
    unfold findFree
    rw [if_neg (by omega)]
    split
    · rename_i used
      refine ih (i+1) (by omega) ?_
      obtain ⟨j,lower,upper,clear⟩ := free
      refine ⟨j,?_,by omega,clear⟩
      have other : j ≠ i := fun same => by rw [same,used] at clear; cases clear
      omega
    · exact ⟨i,rfl⟩

theorem cacheAlloc_spec {sb : SuperBlock} {v v' : View} (ran : cacheAlloc sb ctx v = .ok (b,v')) :
    ∃ i, b = BitVec.ofNat 64 i ∧ i < sb.numBlocks.toNat ∧ i < bitPerBlock ∧
      bitmapGet (v.blocks (bitmapBlock sb)) i = false ∧
      (∀ j, j < i → bitmapGet (v.blocks (bitmapBlock sb)) j = true) ∧
      v' = (v.put ctx (bitmapBlock sb) (bitmapSet (v.blocks (bitmapBlock sb)) i)).put ctx (BitVec.ofNat 64 i) 0#4096 := by
  obtain ⟨i,found,ran⟩ := Runs.bind_ok.mp ran
  cases ran
  obtain ⟨_,below,fits,free,earlier⟩ := findFree_spec _ _ _ found
  exact ⟨i,rfl,by omega,fits,free,fun j upper => earlier j (Nat.zero_le j) upper,rfl⟩

theorem cacheFree_spec {sb : SuperBlock} {v v' : View} (ran : cacheFree sb ctx b v = .ok v') :
    b.toNat < bitPerBlock ∧
      v' = v.put ctx (bitmapBlock sb) (bitmapClear (v.blocks (bitmapBlock sb)) b.toNat) := by
  unfold cacheFree at ran
  split at ran
  · rename_i small
    cases ran
    exact ⟨small,rfl⟩
  · cases ran

end CacheView
