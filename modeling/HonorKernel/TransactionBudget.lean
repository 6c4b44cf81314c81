import HonorKernel.FileContents
import HonorKernel.SysFile
import Mathlib.Data.Finset.Card

-- How many blocks a section between begin_op and end_op hands to cache->sync.
namespace InodeLayer
open DiskFormat CacheView Semaphores
open Runs (upTo)

def Numbered (fs : Fs) : Prop := ∀ p inode, fs.inodes p = some inode → inode.inodeNo = p

-- On the way at most the blocks `S` are synced, and with `ctx`.
def ViewAdds (ctx : Ctx) (S : Finset Usize) (v v' : View) : Prop := ∀ x ∈ v'.synced, x ∈ v.synced ∨ ctx = some x.1 ∧ x.2 ∈ S

structure Adds (ctx : Ctx) (S : Finset Usize) (fs fs' : Fs) : Prop where
  blocks : ViewAdds ctx S fs.cache fs'.cache
  numbered : Numbered fs'

section Adding
variable {S T : Finset Usize} {fs fs' fs'' : Fs} {v v' v'' : View} {env : Env} {p : Usize} {inode : Inode}
  {ctx : Ctx} {sb : SuperBlock}

theorem Owned.numbered {live : Usize → Bool} (owned : Owned sb live fs) : Numbered fs := fun q other there => (owned.loaded q other there).2.1

theorem ViewAdds.refl (v : View) : ViewAdds ctx S v v := fun _ member => .inl member

theorem ViewAdds.trans (first : ViewAdds ctx S v v') (second : ViewAdds ctx S v' v'') : ViewAdds ctx S v v'' := by
  intro x member
  rcases second x member with old | new
  · exact first x old
  · exact .inr new

theorem ViewAdds.mono (adds : ViewAdds ctx S v v') (more : S ⊆ T) : ViewAdds ctx T v v' := by
  intro x member
  exact (adds x member).imp_right fun new => ⟨new.1,more new.2⟩

theorem Adds.refl (numbered : Numbered fs) : Adds ctx S fs fs := ⟨.refl _,numbered⟩

theorem Adds.mono (adds : Adds ctx S fs fs') (more : S ⊆ T) : Adds ctx T fs fs' := ⟨adds.blocks.mono more,adds.numbered⟩

theorem Adds.trans (first : Adds ctx S fs fs') (second : Adds ctx S fs' fs'') : Adds ctx S fs fs'' :=
  ⟨first.blocks.trans second.blocks,second.numbered⟩

theorem Numbered.set (numbered : Numbered fs) (number : inode.inodeNo = p) : Numbered (fs.setInode p inode) := by
  intro q other there
  by_cases here : q = p
  · subst here
    simp only [Fs.setInode,Function.update_self,Option.some.injEq] at there
    rw [← there]
    exact number
  · simp only [Fs.setInode,Function.update_of_ne here] at there
    exact numbered q other there

theorem put_viewAdds (member : b ∈ S) (v : View) (d : BlockData) : ViewAdds ctx S v (v.put ctx b d) := by
  intro x there
  cases ctx with
  | none => exact .inl (by simpa [View.put,View.sync] using there)
  | some op =>
    have there : x ∈ v.synced ∨ x = (op,b) := by simpa [View.put,View.sync] using there
    rcases there with old | same
    · exact .inl old
    · rw [same]
      exact .inr ⟨rfl,member⟩

theorem store_viewAdds (v : View) (b : Usize) (d : BlockData) : ViewAdds ctx S v (v.store b d) := fun _ member => .inl member

theorem cacheAlloc_viewAdds (bitmap : bitmapBlock sb ∈ S) (taken : cacheAlloc sb ctx v = .ok (b,v'))
    (fresh : b ∈ S) : ViewAdds ctx S v v' := by
  obtain ⟨i,same,_,_,_,_,rfl⟩ := cacheAlloc_spec taken
  rw [same] at fresh
  exact (put_viewAdds bitmap _ _).trans (put_viewAdds fresh _ _)

theorem cacheAlloc_unsynced (taken : cacheAlloc sb none v = .ok (b,v')) : ViewAdds ctx S v v' := by
  obtain ⟨i,_,_,_,_,_,rfl⟩ := cacheAlloc_spec taken
  intro x there
  exact .inl (by simpa [View.put,View.sync] using there)

theorem cacheFree_viewAdds (bitmap : bitmapBlock sb ∈ S) (ran : cacheFree sb ctx b v = .ok v') :
    ViewAdds ctx S v v' := by
  obtain ⟨_,rfl⟩ := cacheFree_spec ran
  exact put_viewAdds bitmap _ _

theorem inodeSync_adds (numbered : Numbered fs) (table : toBlockNo env.sblock p ∈ S)
    (ran : inodeSync env ctx p true fs = .ok fs') :
    Adds ctx S fs fs' ∧ fs'.inodes = fs.inodes := by
  obtain ⟨inode,there,ran⟩ := Runs.bind_ok.mp ran
  have number := numbered p inode (Fs.inode_ok.mp there)
  cases valid : inode.valid with
  | true =>
    simp only [valid,Bool.and_self,if_true] at ran
    cases ran
    rw [← number] at table
    exact ⟨⟨put_viewAdds table _ _,numbered⟩,rfl⟩
  | false =>
    simp [valid] at ran

theorem inodeLock_adds (numbered : Numbered fs) (ran : inodeLock p fs = .ok fs') : Adds ctx S fs fs' := by
  obtain ⟨inode,lock,found,rfl⟩ := inodeLock_set ran
  exact ⟨.refl _,numbered.set (numbered p inode found)⟩

theorem inodeUnlock_adds (numbered : Numbered fs) (ran : inodeUnlock p fs = .ok fs') : Adds ctx S fs fs' := by
  obtain ⟨inode,lock,found,rfl⟩ := inodeUnlock_set ran
  exact ⟨.refl _,numbered.set (numbered p inode found)⟩

theorem inodeShare_adds (numbered : Numbered fs) (ran : inodeShare p fs = .ok fs') : Adds ctx S fs fs' := by
  obtain ⟨inode,there,ran⟩ := Runs.bind_ok.mp ran
  cases ran
  exact ⟨.refl _,numbered.set (numbered p inode (Fs.inode_ok.mp there))⟩

theorem inodeGet_adds (numbered : Numbered fs) (ran : inodeGet env no fs = .ok (q,fs')) : Adds ctx S fs fs' := by
  rcases inodeGet_cases ran with ⟨_,_,rfl⟩ | ⟨_,_,⟨inode,found,rfl⟩ | ⟨_,rfl⟩⟩
  · exact .refl numbered
  · exact ⟨.refl _,numbered.set (numbered no inode found)⟩
  · exact ⟨.refl _,numbered.set rfl⟩

theorem freeEntry_viewAdds (bitmap : bitmapBlock env.sblock ∈ S) (ran : freeEntry env ctx indirect i v = .ok v') :
    ViewAdds ctx S v v' := by
  unfold freeEntry at ran
  split at ran
  · cases ran
    exact .refl _
  · exact cacheFree_viewAdds bitmap ran

theorem clearIndirect_adds (numbered : Numbered fs) (bitmap : bitmapBlock env.sblock ∈ S)
    (ran : clearIndirect env ctx p fs = .ok fs') :
    Adds ctx S fs fs' := by
  obtain ⟨inode,there,ran⟩ := Runs.bind_ok.mp ran
  have number := numbered p inode (Fs.inode_ok.mp there)
  split at ran
  · cases ran
    exact .refl numbered
  · obtain ⟨v,freed,ran⟩ := Runs.bind_ok.mp ran
    obtain ⟨w,last,ran⟩ := Runs.bind_ok.mp ran
    cases ran
    have entries : ViewAdds ctx S fs.cache v := by
      refine Runs.upTo_invariant (fun _ w => ViewAdds ctx S fs.cache w) _ _ (.refl _) ?_ freed
      intro j t t' _ _ so far
      exact so.trans (freeEntry_viewAdds bitmap far)
    exact ⟨entries.trans (cacheFree_viewAdds bitmap last),Numbered.set numbered number⟩

theorem clearAddr_adds (numbered : Numbered fs) (bitmap : bitmapBlock env.sblock ∈ S)
    (ran : clearAddr env ctx p i fs = .ok fs') :
    Adds ctx S fs fs' := by
  obtain ⟨inode,there,ran⟩ := Runs.bind_ok.mp ran
  have number := numbered p inode (Fs.inode_ok.mp there)
  split at ran
  · split at ran
    · cases ran
      exact .refl numbered
    · obtain ⟨v,freed,ran⟩ := Runs.bind_ok.mp ran
      cases ran
      exact ⟨cacheFree_viewAdds bitmap freed,Numbered.set numbered number⟩
  · cases ran

-- However many blocks the file has, freeing it syncs the bitmap and the inode's block.
theorem inodeClear_adds (numbered : Numbered fs) (bitmap : bitmapBlock env.sblock ∈ S)
    (table : toBlockNo env.sblock p ∈ S) (ran : inodeClear env ctx p fs = .ok fs') : Adds ctx S fs fs' := by
  obtain ⟨one,indirect,ran⟩ := Runs.bind_ok.mp ran
  obtain ⟨two,direct,ran⟩ := Runs.bind_ok.mp ran
  obtain ⟨inode,there,ran⟩ := Runs.bind_ok.mp ran
  have first : Adds ctx S fs one := clearIndirect_adds numbered bitmap indirect
  have addrs : Adds ctx S fs two := by
    refine Runs.upTo_invariant (fun _ t => Adds ctx S fs t) _ _ first ?_ direct
    intro j t t' _ _ so far
    exact so.trans (clearAddr_adds so.numbered bitmap far)
  have number := addrs.numbered p inode (Fs.inode_ok.mp there)
  have emptied : Adds ctx S two (two.setEntry p inode (inode.entry.setNumBytes 0#32)) := ⟨.refl _,addrs.numbered.set number⟩
  exact (addrs.trans emptied).trans (inodeSync_adds emptied.numbered table ran).1

theorem inodePut_adds (numbered : Numbered fs) (bitmap : bitmapBlock env.sblock ∈ S)
    (table : toBlockNo env.sblock p ∈ S) (ran : inodePut env ctx p fs = .ok fs') : Adds ctx S fs fs' := by
  obtain ⟨inode,there,ran⟩ := Runs.bind_ok.mp ran
  have number := numbered p inode (Fs.inode_ok.mp there)
  simp only at ran
  split at ran
  · obtain ⟨one,cleared,ran⟩ := Runs.bind_ok.mp ran
    cases ran
    have counted : Numbered (fs.setInode p {inode with rc := inode.rc-1}) := numbered.set number
    have marked : Numbered ((fs.setInode p {inode with rc := inode.rc-1}).setEntry p {inode with rc := inode.rc-1}
        (inode.entry.setType inodeInvalid)) := counted.set number
    have adds : Adds ctx S _ one := inodeClear_adds marked bitmap table cleared
    refine ⟨adds.blocks,?_⟩
    intro q other there
    by_cases here : q = p
    · subst here
      simp at there
    · simp only [Function.update_of_ne here] at there
      exact adds.numbered q other there
  · cases ran
    exact ⟨.refl _,numbered.set number⟩

theorem wide_of_fresh (taken : cacheAlloc sb ctx v = .ok (b,v')) : (b.setWidth 32).setWidth 64 = b := by
  obtain ⟨i,rfl,_,fits,_,_,_⟩ := cacheAlloc_spec taken
  have small : i < 4096 := fits
  apply BitVec.eq_of_toNat_eq
  simp only [BitVec.toNat_setWidth,BitVec.toNat_ofNat]
  omega

theorem mapDirect_adds (numbered : Numbered fs) (bitmap : bitmapBlock env.sblock ∈ S)
    (table : toBlockNo env.sblock p ∈ S) (found : fs.inodes p = some inode)
    (ran : mapDirect env ctx p i fs = .ok (b,modified,fs')) (data : b ∈ S) :
    Adds ctx S fs fs' ∧ ∃ addrs, fs'.inodes p = some (inode.setBlocks addrs inode.entry.indirect) := by
  simp only [mapDirect,Fs.inode_ok.mpr found] at ran
  change (if inode.entry.addrs i ≠ 0#32 then _ else _) = _ at ran
  split at ran
  · cases ran
    exact ⟨.refl numbered,_,found⟩
  · split at ran
    · cases ran
      exact ⟨.refl numbered,_,found⟩
    · obtain ⟨⟨c,v⟩,taken,ran⟩ := Runs.bind_ok.mp ran
      obtain ⟨last,synced,ran⟩ := Runs.bind_ok.mp ran
      cases ran
      have fresh : c ∈ S := by
        simpa [InodeEntry.setAddr,wide_of_fresh taken] using data
      have entered : Adds ctx S fs ((fs.setCache v).setEntry p inode (inode.entry.setAddr i (c.setWidth 32))) :=
        ⟨cacheAlloc_viewAdds bitmap taken fresh,Numbered.set numbered (numbered p inode found)⟩
      obtain ⟨written,same⟩ : Adds ctx S _ _ ∧ _ := inodeSync_adds entered.numbered table synced
      refine ⟨entered.trans written,(inode.entry.setAddr i (c.setWidth 32)).addrs,?_⟩
      rw [same]
      exact Function.update_self _ _ _

theorem needIndirect_adds (numbered : Numbered fs) (bitmap : bitmapBlock env.sblock ∈ S)
    (found : fs.inodes p = some inode) (ran : needIndirect env ctx p fs = .ok (b,fs'))
    (made : inode.entry.indirect = 0#32 → b ∈ S) : Adds ctx S fs fs' := by
  simp only [needIndirect,Fs.inode_ok.mpr found] at ran
  change (if inode.entry.indirect = 0#32 then _ else _) = _ at ran
  split at ran
  · rename_i absent
    obtain ⟨⟨c,v⟩,taken,ran⟩ := Runs.bind_ok.mp ran
    cases ran
    have fresh : c ∈ S := by
      simpa [wide_of_fresh taken] using made absent
    exact ⟨cacheAlloc_viewAdds bitmap taken fresh,Numbered.set numbered (numbered p inode found)⟩
  · cases ran
    exact .refl numbered

theorem inodeSync_elsewhere (numbered : Numbered fs) (ran : inodeSync env ctx p true fs = .ok fs')
    (other : b ≠ toBlockNo env.sblock p) :
    fs'.cache.blocks b = fs.cache.blocks b := by
  obtain ⟨inode,there,ran⟩ := Runs.bind_ok.mp ran
  have number := numbered p inode (Fs.inode_ok.mp there)
  cases valid : inode.valid with
  | true =>
    simp only [valid,Bool.and_self,if_true] at ran
    cases ran
    rw [number]
    exact Function.update_of_ne other _ _
  | false =>
    simp [valid] at ran

-- The block mapEntry takes from the free ones is the one it returns, unless the indirect
-- block is overwritten with the inode in between.
theorem mapEntry_adds (numbered : Numbered fs) (bitmap : bitmapBlock env.sblock ∈ S)
    (table : toBlockNo env.sblock p ∈ S) (ran : mapEntry env ctx p indirect i fs = .ok (b,modified,fs')) :
    ∃ c, Adds ctx (insert c S) fs fs' ∧ fs'.inodes = fs.inodes ∧
      (indirect ≠ toBlockNo env.sblock p → c = b) := by
  unfold mapEntry at ran
  split at ran
  · cases ran
  · rename_i small
    split at ran
    · cases ran
      exact ⟨_,.refl numbered,rfl,fun _ => rfl⟩
    · split at ran
      · cases ran
        exact ⟨_,.refl numbered,rfl,fun _ => rfl⟩
      · obtain ⟨⟨c,v⟩,taken,ran⟩ := Runs.bind_ok.mp ran
        obtain ⟨last,synced,ran⟩ := Runs.bind_ok.mp ran
        cases ran
        have alloc : ViewAdds ctx (insert c S) fs.cache v :=
          cacheAlloc_viewAdds (Finset.mem_insert_of_mem bitmap) taken (Finset.mem_insert_self c S)
        have stored : Adds ctx (insert c S) fs (fs.setCache (v.store indirect (putAddr (v.blocks indirect) i (c.setWidth 32)))) :=
          ⟨alloc.trans (store_viewAdds _ _ _),numbered⟩
        obtain ⟨written,same⟩ : Adds ctx (insert c S) _ _ ∧ _ := inodeSync_adds stored.numbered (Finset.mem_insert_of_mem table) synced
        refine ⟨c,stored.trans written,same,?_⟩
        intro apart
        rw [inodeSync_elsewhere stored.numbered synced apart]
        simp only [Fs.setCache,View.store_blocks,Function.update_self]
        rw [getAddr_putAddr _ _ _ _ (by omega),if_pos rfl,wide_of_fresh taken]

theorem inodeMap_adds (numbered : Numbered fs) (bitmap : bitmapBlock env.sblock ∈ S)
    (table : toBlockNo env.sblock p ∈ S) (ran : inodeMap env ctx p k fs = .ok (b,modified,fs')) : ∃ X :
    Finset Usize, X.card ≤ 3 ∧ b ∈ X ∧ Adds ctx (X ∪ S) fs fs' := by
  have bitmap' : ∀ X : Finset Usize, bitmapBlock env.sblock ∈ X ∪ S := fun X => Finset.mem_union_right _ bitmap
  have table' : ∀ X : Finset Usize, toBlockNo env.sblock p ∈ X ∪ S := fun X => Finset.mem_union_right _ table
  unfold inodeMap at ran
  split at ran
  · obtain ⟨inode,found⟩ := found_of_bind ran
    refine ⟨{b},by simp,by simp,?_⟩
    exact (mapDirect_adds numbered (bitmap' _) (table' _) found ran (by simp)).1
  · obtain ⟨⟨ib,middle⟩,needed,ran⟩ := Runs.bind_ok.mp ran
    obtain ⟨inode,found⟩ := found_of_bind needed
    have first : Adds ctx ({ib} ∪ S) fs middle := needIndirect_adds numbered (bitmap' _) found needed (by simp)
    obtain ⟨c,second,_,_⟩ : ∃ c, Adds ctx (insert c ({ib} ∪ S)) middle fs' ∧ _ := mapEntry_adds first.numbered
        (bitmap' _) (table' _) ran
    refine ⟨{ib,c,b},Finset.card_le_three,by simp,?_⟩
    refine (first.mono ?_).trans (second.mono ?_)
    · intro x member
      simp only [Finset.mem_union,Finset.mem_singleton,Finset.mem_insert] at member ⊢
      tauto
    · intro x member
      simp only [Finset.mem_union,Finset.mem_singleton,Finset.mem_insert] at member ⊢
      tauto

def missing (e : InodeEntry) : Nat := if e.indirect = 0#32 then 1 else 0

-- In a consistent state: one block, and the indirect block if it is missing.
theorem inodeMap_adds_owned (layout : Layout env.sblock) (owned : Owned env.sblock live fs)
    (found : fs.inodes p = some inode) (bitmap : bitmapBlock env.sblock ∈ S) (table : toBlockNo env.sblock p ∈ S)
    (ran : inodeMap env ctx p k fs = .ok (b,modified,fs')) :
    ∃ X : Finset Usize, b ∈ X ∧ Adds ctx (X ∪ S) fs fs' ∧ ∃ addrs indirect,
    fs'.inodes p = some (inode.setBlocks addrs indirect) ∧
      X.card+missing (inode.setBlocks addrs indirect).entry ≤ 1+missing inode.entry := by
  have numbered := owned.numbered
  have bitmap' : ∀ X : Finset Usize, bitmapBlock env.sblock ∈ X ∪ S := fun X => Finset.mem_union_right _ bitmap
  have table' : ∀ X : Finset Usize, toBlockNo env.sblock p ∈ X ∪ S := fun X => Finset.mem_union_right _ table
  unfold inodeMap at ran
  split at ran
  · obtain ⟨adds,addrs,found'⟩ : Adds ctx ({b} ∪ S) fs fs' ∧ _ := mapDirect_adds numbered (bitmap' _) (table' _) found ran (by simp)
    refine ⟨{b},by simp,adds,addrs,_,found',?_⟩
    rw [Finset.card_singleton]
    exact Nat.le_refl _
  · obtain ⟨⟨ib,middle⟩,needed,ran⟩ := Runs.bind_ok.mp ran
    obtain ⟨maps,inode',found',present,rfl⟩ := needIndirect_maps layout owned found needed
    have inTable := owned.inTable p (owned.loaded p inode found).1
    have apart := (layout.apart inTable (maps.owned.used_of_ref (maps.owned.own_indirect found' present)).1).1
    obtain ⟨addrs,indirect,same⟩ := maps.found
    rw [found'] at same
    cases same
    by_cases absent : inode.entry.indirect = 0#32
    · have first : Adds ctx ({indirect.setWidth 64,b} ∪ S) fs middle := needIndirect_adds numbered
        (bitmap' _) found needed (by simp [Inode.setBlocks])
      obtain ⟨c,second,inodes,fresh⟩ : ∃ c, Adds ctx (insert c ({indirect.setWidth 64,b} ∪ S)) middle fs' ∧ _ :=
        mapEntry_adds first.numbered (bitmap' _) (table' _) ran
      rw [fresh apart,Finset.insert_eq_of_mem (by simp)] at second
      refine ⟨{indirect.setWidth 64,b},by simp,first.trans second,addrs,indirect,by rw [inodes]; exact found',?_⟩
      have two : ({indirect.setWidth 64,b} : Finset Usize).card ≤ 2 := Finset.card_le_two
      simp only [missing,if_pos absent,if_neg present]
      exact two
    · have first : Adds ctx ({b} ∪ S) fs middle := needIndirect_adds numbered (bitmap' _) found needed fun zero => absurd zero absent
      obtain ⟨c,second,inodes,fresh⟩ : ∃ c, Adds ctx (insert c ({b} ∪ S)) middle fs' ∧ _ :=
        mapEntry_adds first.numbered (bitmap' _) (table' _) ran
      rw [fresh apart,Finset.insert_eq_of_mem (by simp)] at second
      refine ⟨{b},by simp,first.trans second,addrs,indirect,by rw [inodes]; exact found',?_⟩
      simp [missing,absent,if_neg present]

theorem writeLoop_adds (layout : Layout env.sblock) (fuel : Nat) (owned : Owned env.sblock live fs)
    (found : fs.inodes p = some inode) (bitmap : bitmapBlock env.sblock ∈ S) (table : toBlockNo env.sblock p ∈ S)
    (ran : writeLoop env ctx p fuel offset src fs = .ok fs') :
    ∃ X : Finset Usize, X.card ≤ rounds offset src.length+missing inode.entry ∧ Adds ctx (X ∪ S) fs fs' := by
  induction fuel generalizing offset src fs inode with
  | zero =>
    cases ran
    exact ⟨∅,by simp,.refl owned.numbered⟩
  | succ fuel ih =>
    simp only [writeLoop] at ran
    split at ran
    · cases ran
      exact ⟨∅,by simp,.refl owned.numbered⟩
    · rename_i more
      have positive : 0 < src.length := List.length_pos_iff.mpr more
      obtain ⟨⟨b,modified,middle⟩,mapped,rest⟩ := Runs.bind_ok.mp ran
      simp only at rest
      split at rest
      · cases rest
      · rename_i nonzero
        obtain ⟨maps,small,data⟩ := inodeMap_maps layout owned found mapped
        obtain ⟨X,member,first,addrs,indirect,found',spent⟩ :
          ∃ X : Finset Usize, b ∈ X ∧ Adds ctx (X ∪ S) fs middle ∧ _ := inodeMap_adds_owned layout owned found bitmap table mapped
        obtain ⟨stored,_⟩ := storeData layout maps.owned found' ⟨_,small⟩ (data nonzero) ctx
          (setBytes (middle.cache.blocks b) (offset%blockSize) (src.take (min (blockSize-offset%blockSize) src.length)))
        obtain ⟨Y,bound,second⟩ := ih stored.owned found' rest
        have put : Adds ctx (X ∪ S) middle
            (middle.setCache (middle.cache.put ctx b (setBytes (middle.cache.blocks b) (offset%blockSize)
            (src.take (min (blockSize-offset%blockSize) src.length))))) :=
          ⟨put_viewAdds (Finset.mem_union_left _ member) _ _,first.numbered⟩
        refine ⟨X ∪ Y,?_,((first.trans put).mono ?_).trans (second.mono ?_)⟩
        · have both := Finset.card_union_le X Y
          have step : rounds (offset+min (blockSize-offset%blockSize) src.length)
              (src.drop (min (blockSize-offset%blockSize) src.length)).length+1 ≤
              rounds offset src.length := by
            rw [List.length_drop]
            unfold rounds blockSize
            split <;> split <;> omega
          omega
        · exact Finset.union_subset_union Finset.subset_union_left (Finset.Subset.refl S)
        · exact Finset.union_subset_union Finset.subset_union_right (Finset.Subset.refl S)

theorem growTo_adds (numbered : Numbered fs) (found : fs.inodes p = some inode) (table : toBlockNo env.sblock p ∈ S)
    (ran : growTo env ctx p inode last fs = .ok fs') : Adds ctx S fs fs' := by
  unfold growTo at ran
  split at ran
  · have grown : Adds ctx S fs (fs.setEntry p inode (inode.entry.setNumBytes (last.setWidth 32))) :=
      ⟨.refl _,Numbered.set numbered (numbered p inode found)⟩
    exact grown.trans (inodeSync_adds grown.numbered table ran).1
  · cases ran
    exact .refl numbered

theorem device_adds (numbered : Numbered fs) (unlocked : inodeUnlock p fs = .ok fs')
    (locked : inodeLock p fs' = .ok fs'') :
    Adds ctx S fs fs'' := by
  have first : Adds ctx S fs fs' := inodeUnlock_adds numbered unlocked
  exact first.trans (inodeLock_adds first.numbered locked)

theorem inodeWrite_adds (layout : Layout env.sblock) (owned : Owned env.sblock live fs)
    (found : fs.inodes p = some inode) (bitmap : bitmapBlock env.sblock ∈ S) (table : toBlockNo env.sblock p ∈ S)
    (ran : inodeWrite env ctx p src offset fs = .ok (n,fs')) :
    ∃ X : Finset Usize, X.card ≤ rounds offset.toNat src.length+1 ∧ Adds ctx (X ∪ S) fs fs' := by
  have numbered := owned.numbered
  obtain ⟨same,there,ran⟩ := Runs.bind_ok.mp ran
  rw [Fs.inode_ok.mpr found] at there
  cases there
  simp only at ran
  split at ran
  · split at ran
    · obtain ⟨one,unlocked,ran⟩ := Runs.bind_ok.mp ran
      obtain ⟨two,locked,ran⟩ := Runs.bind_ok.mp ran
      cases ran
      exact ⟨∅,by simp,device_adds numbered unlocked locked⟩
    · cases ran
  · split at ran
    · obtain ⟨one,grown,ran⟩ := Runs.bind_ok.mp ran
      obtain ⟨two,looped,ran⟩ := Runs.bind_ok.mp ran
      cases ran
      have first : Adds ctx S fs one := growTo_adds numbered found table grown
      have works := growTo_works layout owned found grown
      obtain ⟨inode',found',_⟩ := works.found inode found
      obtain ⟨X,bound,second⟩ : ∃ X : Finset Usize, _ ∧ Adds ctx (X ∪ S) one fs' :=
        writeLoop_adds layout _ works.owned found' bitmap table looped
      refine ⟨X,?_,(first.mono Finset.subset_union_right).trans second⟩
      have atMost : missing inode'.entry ≤ 1 := by
        unfold missing
        split <;> omega
      omega
    · cases ran

theorem inodeWrite_adds_one (numbered : Numbered fs) (bitmap : bitmapBlock env.sblock ∈ S)
    (table : toBlockNo env.sblock p ∈ S) (inside : offset.toNat%blockSize+src.length ≤ blockSize)
    (ran : inodeWrite env ctx p src offset fs = .ok (n,fs')) :
    ∃ X : Finset Usize, X.card ≤ 3 ∧ Adds ctx (X ∪ S) fs fs' := by
  obtain ⟨inode,there,ran⟩ := Runs.bind_ok.mp ran
  have found := Fs.inode_ok.mp there
  simp only at ran
  split at ran
  · split at ran
    · obtain ⟨one,unlocked,ran⟩ := Runs.bind_ok.mp ran
      obtain ⟨two,locked,ran⟩ := Runs.bind_ok.mp ran
      cases ran
      exact ⟨∅,by simp,device_adds numbered unlocked locked⟩
    · cases ran
  · split at ran
    · obtain ⟨one,grown,ran⟩ := Runs.bind_ok.mp ran
      obtain ⟨two,looped,ran⟩ := Runs.bind_ok.mp ran
      cases ran
      have first : Adds ctx S fs one := growTo_adds numbered found table grown
      cases src with
      | nil =>
        cases looped
        exact ⟨∅,by simp,first.mono Finset.subset_union_right⟩
      | cons byte rest =>
        have all : min (blockSize-offset.toNat%blockSize) (byte::rest).length = (byte::rest).length := by omega
        simp only [writeLoop,List.length_cons,List.cons_ne_nil,if_false] at looped
        rw [← List.length_cons (a := byte),all,List.take_length,List.drop_length] at looped
        obtain ⟨⟨b,modified,middle⟩,mapped,looped⟩ := Runs.bind_ok.mp looped
        simp only at looped
        split at looped
        · cases looped
        · obtain ⟨X,bound,member,second⟩ : ∃ X : Finset Usize, _ ∧ b ∈ X ∧ Adds ctx (X ∪ S) one middle :=
            inodeMap_adds first.numbered bitmap table mapped
          have last : fs' = middle.setCache
              (middle.cache.put ctx b (setBytes (middle.cache.blocks b) (offset.toNat%blockSize) (byte::rest))) := by
            cases rest with
            | nil => exact (Except.ok.inj looped).symm
            | cons _ _ =>
              simp only [List.length_cons,writeLoop,if_true] at looped
              exact (Except.ok.inj looped).symm
          rw [last]
          have put : Adds ctx (X ∪ S) middle
              (middle.setCache (middle.cache.put ctx b (setBytes (middle.cache.blocks b) (offset.toNat%blockSize)
              (byte::rest)))) := ⟨put_viewAdds (Finset.mem_union_left _ member) _ _,second.numbered⟩
          exact ⟨X,bound,((first.mono Finset.subset_union_right).trans second).trans put⟩
    · cases ran

theorem inodeMap_unsynced (numbered : Numbered fs) (ran : inodeMap env none p k fs = .ok (b,modified,fs')) :
    Adds ctx S fs fs' := by
  unfold inodeMap at ran
  split at ran
  · obtain ⟨inode,_,ran⟩ := Runs.bind_ok.mp ran
    split at ran
    · cases ran
      exact .refl numbered
    · rw [if_pos rfl] at ran
      cases ran
      exact .refl numbered
  · obtain ⟨⟨ib,middle⟩,needed,ran⟩ := Runs.bind_ok.mp ran
    obtain ⟨inode,there,needed⟩ := Runs.bind_ok.mp needed
    have first : Adds ctx S fs middle := by
      split at needed
      · obtain ⟨⟨c,v⟩,taken,needed⟩ := Runs.bind_ok.mp needed
        cases needed
        exact ⟨cacheAlloc_unsynced taken,Numbered.set numbered (numbered p inode (Fs.inode_ok.mp there))⟩
      · cases needed
        exact .refl numbered
    simp only [mapEntry] at ran
    split at ran
    · cases ran
    · split at ran
      · cases ran
        exact first
      · cases ran
        exact first

theorem readLoop_adds (fuel : Nat) (numbered : Numbered fs)
    (ran : readLoop env p fuel offset left modified dest fs = .ok (bytes,modified',fs')) : Adds ctx S fs fs' := by
  induction fuel generalizing offset left modified dest fs with
  | zero =>
    cases ran
    exact .refl numbered
  | succ fuel ih =>
    simp only [readLoop] at ran
    split at ran
    · cases ran
      exact .refl numbered
    · obtain ⟨⟨b,flag,middle⟩,mapped,rest⟩ := Runs.bind_ok.mp ran
      have first : Adds ctx S fs middle := inodeMap_unsynced numbered mapped
      exact first.trans (ih first.numbered rest)

theorem inodeRead_adds (numbered : Numbered fs) (ran : inodeRead env p offset count fs = .ok (n,bytes,fs')) :
    Adds ctx S fs fs' := by
  obtain ⟨inode,found,ran⟩ := Runs.bind_ok.mp ran
  simp only at ran
  split at ran
  · split at ran
    · obtain ⟨middle,unlocked,ran⟩ := Runs.bind_ok.mp ran
      split at ran
      · cases ran
        exact inodeUnlock_adds numbered unlocked
      · obtain ⟨last,locked,ran⟩ := Runs.bind_ok.mp ran
        cases ran
        exact device_adds numbered unlocked locked
    · cases ran
  · split at ran
    · obtain ⟨⟨read,modified,last⟩,looped,ran⟩ := Runs.bind_ok.mp ran
      simp only at ran
      split at ran
      · cases ran
      · cases ran
        exact readLoop_adds _ numbered looped
    · cases ran

theorem scanDir_adds (fuel : Nat) (numbered : Numbered fs) (aligned : i%dirEntrySize = 0)
    (ran : scanDir env p stop fuel i dir fs = .ok (j,stopped,dir',fs')) : Adds ctx S fs fs' ∧ j%dirEntrySize = 0 := by
  induction fuel generalizing i dir fs with
  | zero =>
    cases ran
    exact ⟨.refl numbered,aligned⟩
  | succ fuel ih =>
    obtain ⟨inode,found,ran⟩ := Runs.bind_ok.mp ran
    split at ran
    · obtain ⟨⟨n,bytes,middle⟩,read,ran⟩ := Runs.bind_ok.mp ran
      have first : Adds ctx S fs middle := inodeRead_adds numbered read
      simp only at ran
      split at ran
      · cases ran
        exact ⟨first,aligned⟩
      · obtain ⟨second,aligned⟩ := ih first.numbered (by rw [Nat.add_mod_right]; exact aligned) ran
        exact ⟨first.trans second,aligned⟩
    · cases ran
      exact ⟨.refl numbered,aligned⟩

theorem scan_adds (numbered : Numbered fs) (ran : scan env p stop fs = .ok (j,stopped,dir',fs')) :
    Adds ctx S fs fs' ∧ j%dirEntrySize = 0 := by
  obtain ⟨inode,found,ran⟩ := Runs.bind_ok.mp ran
  split at ran
  · exact scanDir_adds _ numbered rfl ran
  · cases ran

theorem aligned_block (aligned : j%dirEntrySize = 0) :
    (BitVec.ofNat 64 j).toNat%blockSize+dirEntrySize ≤ blockSize := by
  unfold dirEntrySize blockSize at *
  rw [BitVec.toNat_ofNat]
  omega

theorem inodeLookup_adds (numbered : Numbered fs) (ran : inodeLookup env p name fs = .ok (n,index,fs')) :
    Adds ctx S fs fs' ∧ (index.getD 0#64).toNat%blockSize+dirEntrySize ≤ blockSize := by
  obtain ⟨⟨i,stopped,dir,last⟩,scanned,ran⟩ := Runs.bind_ok.mp ran
  obtain ⟨adds,aligned⟩ : Adds ctx S fs last ∧ _ := scan_adds numbered scanned
  simp only [Except.ok.injEq] at ran
  split at ran
  · cases ran
    exact ⟨adds,aligned_block aligned⟩
  · cases ran
    exact ⟨adds,by decide⟩

theorem inodeInsert_adds (layout : Layout env.sblock) (owned : Owned env.sblock live fs)
    (bitmap : bitmapBlock env.sblock ∈ S) (table : toBlockNo env.sblock p ∈ S)
    (ran : inodeInsert env ctx p name no fs = .ok (n,fs')) :
    ∃ X : Finset Usize, X.card ≤ 2 ∧ Adds ctx (X ∪ S) fs fs' := by
  have numbered := owned.numbered
  obtain ⟨⟨existing,index,middle⟩,looked,ran⟩ := Runs.bind_ok.mp ran
  have first : Adds ctx S fs middle := (inodeLookup_adds numbered looked).1
  have owned₁ := (inodeLookup_works layout owned looked).owned
  simp only at ran
  split at ran
  · cases ran
    exact ⟨∅,by simp,first.mono Finset.subset_union_right⟩
  · obtain ⟨⟨i,stopped,dir,later⟩,scanned,ran⟩ := Runs.bind_ok.mp ran
    obtain ⟨⟨count,last⟩,written,ran⟩ := Runs.bind_ok.mp ran
    cases ran
    obtain ⟨second,aligned⟩ : Adds ctx S middle later ∧ _ := scan_adds first.numbered scanned
    have owned₂ := (scan_works layout owned₁ scanned).owned
    obtain ⟨inode,found⟩ := found_of_bind written
    obtain ⟨X,bound,third⟩ : ∃ X : Finset Usize, _ ∧ Adds ctx (X ∪ S) later last :=
        inodeWrite_adds layout owned₂ found bitmap table written
    refine ⟨X,?_,((first.trans second).mono Finset.subset_union_right).trans third⟩
    have inside := aligned_block aligned
    rw [DirEntry.bytes_length] at bound
    change X.card ≤ rounds (BitVec.ofNat 64 i).toNat dirEntrySize+1 at bound
    have single : rounds (BitVec.ofNat 64 i).toNat dirEntrySize ≤ 1 := by
      unfold rounds dirEntrySize blockSize at *
      split <;> omega
    omega

end Adding

end InodeLayer
