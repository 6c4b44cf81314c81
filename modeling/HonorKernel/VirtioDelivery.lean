import HonorKernel.VirtioQueue

-- Every request goes once to the disk and once back, around both rings.
namespace VirtioBlk
open DiskFormat (Byte U16 U32)
open Semaphores (initSem waitSem postSem)

section system
variable {n : Nat} {vq vq' : Virtq (Fin n)} {pcs pcs' : Fin n → Pc} {b : Fin n} {d0 : U16}

-- The heads that the disk has still to take, those it works on and those it has reported.
structure Delivery (s : State n) (unseen reported : List U16) : Prop where
  avail : Ring.Between s.virtq.availRing s.device.seen s.virtq.availIdx unseen
  used : Ring.Between s.virtq.usedRing s.virtq.lastUsedIdx s.virtq.usedIdx reported
  nodup : (unseen++s.device.pending++reported).Nodup
  asleep : ∀ d, d ∈ unseen++s.device.pending++reported ↔ ∃ b, s.pcs b = .asleep d
  owner : ∀ b d, s.pcs b = .asleep d → (s.virtq.info d).buf = some b
  sleeper : ∀ b d, s.pcs b = .asleep d → s.sem b = ⟨-1,[b.val]⟩
  history : ∃ rest, s.completed = s.posted++rest ∧ reported.map (fun d => (s.virtq.info d).buf) = rest.map some

structure Orderly (s : State n) : Prop where
  sound : Sound s.virtq s.pcs
  delivery : ∃ unseen reported, Delivery s unseen reported

variable {s s' : State n} {unseen reported : List U16}

theorem nodup_bound {xs : List U16} (nodup : xs.Nodup) (small : ∀ d ∈ xs, d.toNat < nqueue) : xs.length ≤ nqueue := by
  have distinct : (xs.map BitVec.toNat).Nodup := nodup.map fun _ _ same => BitVec.eq_of_toNat_eq same
  have inside : xs.map BitVec.toNat ⊆ List.range nqueue := by
    intro k member
    obtain ⟨d,listed,rfl⟩ := List.mem_map.mp member
    exact List.mem_range.mpr (small d listed)
  have bound := (distinct.subperm inside).length_le
  simpa using bound

theorem divides : nqueue ∣ 2^16 := by decide

theorem Delivery.submit {d0 : U16} (delivery : Delivery s unseen reported) (sound : Sound s.virtq s.pcs)
    (idle : s.pcs b = .idle) (made : Submitted s.virtq vq' b d0) :
    Delivery { s with
      virtq := vq'
      sem := Function.update s.sem b ⟨-1,[b.val]⟩
      pcs := Function.update s.pcs b (.asleep d0) } (unseen++[d0]) reported := by
  have mine : d0 ∈ freeList s.virtq := by
    rw [made.list]
    exact List.mem_append_left _ (head_mem_chain vq' d0)
  have fresh : ∀ u d, s.pcs u = .asleep d → d ≠ d0 := by
    rintro u d at_ rfl
    exact sound.apart u d (by rw [at_]; rfl) d (head_mem_chain _ d) mine
  have new : d0 ∉ unseen++s.device.pending++reported := by
    intro listed
    obtain ⟨u,at_⟩ := (delivery.asleep d0).mp listed
    exact fresh u d0 at_ rfl
  have room : unseen.length < nqueue := by
    have bound := nodup_bound (List.nodup_cons.mpr ⟨new,delivery.nodup⟩) (by
      intro d listed
      rcases List.mem_cons.mp listed with rfl | listed
      · exact (sound.cover d).mpr (.inl mine)
      · obtain ⟨u,at_⟩ := (delivery.asleep d).mp listed
        exact sound.head_small (b := u) (by rw [at_]; rfl))
    simp only [List.length_cons,List.length_append] at bound
    omega
  have moved : ∀ d, d ∈ unseen++[d0]++s.device.pending++reported ↔ d = d0 ∨ d ∈ unseen++s.device.pending++reported := by
    intro d
    simp only [List.mem_append,List.mem_singleton]
    tauto
  have infos : ∀ u d, s.pcs u = .asleep d → vq'.info d = s.virtq.info d := by
    intro u d at_
    rw [made.info,Function.update_of_ne (fresh u d at_)]
  have held : ∀ u d, Function.update s.pcs b (.asleep d0) u = .asleep d → (u = b ∧ d = d0) ∨ (u ≠ b ∧ s.pcs u = .asleep d) := by
    intro u d at_
    by_cases same : u = b
    · subst same
      rw [Function.update_self] at at_
      cases at_
      exact .inl ⟨rfl,rfl⟩
    · rw [Function.update_of_ne same] at at_
      exact .inr ⟨same,at_⟩
  refine ⟨?_,?_,?_,?_,?_,?_,?_⟩
  · simp only [made.availRing,made.availIdx]
    exact delivery.avail.push divides room
  · simp only [made.usedRing,made.usedIdx,made.lastUsedIdx]
    exact delivery.used
  · have permuted : (unseen++[d0]++s.device.pending++reported).Perm (d0::(unseen++s.device.pending++reported)) := by
      simp only [List.append_assoc,List.singleton_append]
      exact List.perm_middle
    exact permuted.nodup_iff.mpr (List.nodup_cons.mpr ⟨new,delivery.nodup⟩)
  · intro d
    rw [moved,delivery.asleep]
    constructor
    · rintro (rfl | ⟨u,at_⟩)
      · exact ⟨b,Function.update_self _ _ _⟩
      · refine ⟨u,?_⟩
        simp only
        rw [Function.update_of_ne (by rintro rfl; rw [idle] at at_; cases at_)]
        exact at_
    · rintro ⟨u,at_⟩
      rcases held u d at_ with ⟨_,same⟩ | ⟨_,old⟩
      · exact .inl same
      · exact .inr ⟨u,old⟩
  · intro u d at_
    rcases held u d at_ with ⟨rfl,rfl⟩ | ⟨_,old⟩
    · simp only [made.info,Function.update_self]
    · simp only
      rw [infos u d old]
      exact delivery.owner u d old
  · intro u d at_
    rcases held u d at_ with ⟨rfl,rfl⟩ | ⟨other,old⟩
    · exact Function.update_self _ _ _
    · simp only
      rw [Function.update_of_ne other]
      exact delivery.sleeper u d old
  · obtain ⟨rest,split,bufs⟩ := delivery.history
    refine ⟨rest,split,?_⟩
    rw [← bufs]
    refine List.map_congr_left fun d listed => ?_
    obtain ⟨u,at_⟩ := (delivery.asleep d).mp (List.mem_append_right _ listed)
    simp only [infos u d at_]

-- The list of the heads is used as a set: any other order of it will do.
theorem Delivery.rearrange {unseen' reported' pending' : List U16} {virtq' : Virtq (Fin n)} {seen' : U16}
    {completed' : List (Fin n)} (delivery : Delivery s unseen reported)
    (same : (unseen'++pending'++reported').Perm (unseen++s.device.pending++reported))
    (avail : Ring.Between virtq'.availRing seen' virtq'.availIdx unseen')
    (used : Ring.Between virtq'.usedRing virtq'.lastUsedIdx virtq'.usedIdx reported')
    (bufs : ∀ d, (virtq'.info d).buf = (s.virtq.info d).buf)
    (history : ∃ rest, completed' = s.posted++rest ∧ reported'.map (fun d => (s.virtq.info d).buf) = rest.map some) :
    Delivery { s with virtq := virtq', device := ⟨seen',pending'⟩, completed := completed' } unseen' reported' := by
  refine ⟨avail,used,same.nodup_iff.mpr delivery.nodup,fun d => ?_,fun u d at_ => ?_,delivery.sleeper,?_⟩
  · rw [same.mem_iff]
    exact delivery.asleep d
  · simp only
    rw [bufs]
    exact delivery.owner u d at_
  · simpa only [bufs] using history

theorem Delivery.fetch (delivery : Delivery s unseen reported) (more : s.device.seen ≠ s.virtq.availIdx) :
    ∃ unseen', Delivery { s with device :=
      ⟨s.device.seen+1#16,s.device.pending++[s.virtq.availRing (Ring.slot nqueue s.device.seen.toNat)]⟩ } unseen' reported := by
  cases unseen with
  | nil => exact absurd ((delivery.avail.empty_iff (by decide)).mpr rfl) more
  | cons d rest =>
    obtain ⟨first,left⟩ := delivery.avail.pop divides
    refine ⟨rest,delivery.rearrange ?_ left delivery.used (fun _ => rfl) delivery.history⟩
    rw [first]
    simp only [List.append_assoc,List.cons_append,List.nil_append]
    have moved : (rest++(s.device.pending++d::reported)).Perm (d::(rest++s.device.pending++reported)) := by
      rw [← List.append_assoc]
      exact List.perm_middle
    simpa only [List.append_assoc] using moved

theorem Delivery.complete {d : U16} {status : Byte} (delivery : Delivery s unseen reported)
    (sound : Sound s.virtq s.pcs) (working : d ∈ s.device.pending) (ran : completeHead s d status = some s') :
    Sound s'.virtq s'.pcs ∧ ∃ reported', Delivery s' unseen reported' := by
  obtain ⟨u,at_⟩ := (delivery.asleep d).mp (by simp [working])
  have filled := sound.filled u d (by rw [at_]; rfl)
  unfold completeHead at ran
  simp only at ran
  rw [show (s.virtq.desc (s.virtq.desc d).next).addr = .data u from filled.data,
    show (s.virtq.desc (s.virtq.desc (s.virtq.desc d).next).next).addr = .status d from filled.status] at ran
  cases ran
  refine ⟨sound.congr rfl rfl rfl fun _ => rfl,reported++[d],?_⟩
  have bound := nodup_bound delivery.nodup fun e listed => by
    obtain ⟨v,here⟩ := (delivery.asleep e).mp listed
    exact sound.head_small (b := v) (by rw [here]; rfl)
  have room : reported.length < nqueue := by
    have some := List.length_pos_of_mem working
    simp only [List.length_append] at bound
    omega
  refine delivery.rearrange ?_ delivery.avail (delivery.used.push divides room) (fun e => ?_) ?_
  · have moved : (unseen++s.device.pending.erase d++(reported++[d])).Perm (unseen++(d::s.device.pending.erase d)++reported) := by
      simp only [List.append_assoc,List.cons_append]
      refine List.Perm.append_left _ ?_
      rw [← List.append_assoc]
      exact List.perm_append_singleton d _
    exact moved.trans (((List.perm_cons_erase working).symm.append_left unseen).append_right reported)
  · by_cases mine : e = d
    · subst mine
      simp only [Virtq.setInfo,Function.update_self]
    · simp only [Virtq.setInfo,Function.update_of_ne mine]
  · obtain ⟨rest,split,bufs⟩ := delivery.history
    refine ⟨rest++[u],by rw [split,List.append_assoc],?_⟩
    rw [List.map_append,bufs,List.map_append]
    simp [delivery.owner u d at_]

-- The state behind a round of virtio_blk_intr for the request of `b` with the head `d`.
def State.post (s : State n) (b : Fin n) (d : U16) : State n :=
  { s with
    virtq := { s.virtq.setInfo d { s.virtq.info d with buf := none } with lastUsedIdx := s.virtq.lastUsedIdx+1#16 }
    sem := Function.update s.sem b ⟨0,[]⟩
    pcs := Function.update s.pcs b (.woken d)
    posted := s.posted++[b] }

theorem wake_update {d : U16} (at_ : pcs b = .asleep d) :
    (fun u => wake (some b.val) u (pcs u)) = Function.update pcs b (.woken d) := by
  funext u
  by_cases mine : u = b
  · subst mine
    rw [Function.update_self,at_]
    simp [wake]
  · have other : b.val ≠ u.val := fun same => mine (Fin.ext same.symm)
    rw [Function.update_of_ne mine]
    cases pc : pcs u <;> simp [wake,other]

theorem handleUsed_post {d : U16} (first : s.virtq.usedRing (Ring.slot nqueue s.virtq.lastUsedIdx.toNat) = d)
    (good : (s.virtq.info d).status = 0) (at_ : s.pcs b = .asleep d) (owner : (s.virtq.info d).buf = some b)
    (sleeper : s.sem b = ⟨-1,[b.val]⟩) : handleUsed s = some (s.post b d) := by
  unfold handleUsed
  simp only [first]
  rw [if_neg (by simp [good]),owner]
  simp only [sleeper,State.post]
  rw [← wake_update at_]
  rfl

theorem post_asleep {d e : U16} {u : Fin n} (at_ : (s.post b d).pcs u = .asleep e) : u ≠ b ∧ s.pcs u = .asleep e := by
  change Function.update s.pcs b (.woken d) u = _ at at_
  by_cases mine : u = b
  · subst mine
    rw [Function.update_self] at at_
    cases at_
  · rw [Function.update_of_ne mine] at at_
    exact ⟨mine,at_⟩

theorem post_buf {d e : U16} (other : e ≠ d) : (s.post b d).virtq.info e = s.virtq.info e := by
  simp only [State.post,Virtq.setInfo]
  rw [Function.update_of_ne other]

theorem Sound.post {d : U16} (sound : Sound s.virtq s.pcs) (at_ : s.pcs b = .asleep d) :
    Sound (s.post b d).virtq (s.post b d).pcs := by
  refine sound.congr rfl rfl rfl fun u => ?_
  simp only [State.post]
  by_cases mine : u = b
  · subst mine
    rw [Function.update_self,at_]
    rfl
  · rw [Function.update_of_ne mine]

theorem Delivery.post {d : U16} {rest : List U16} {bufs : List (Fin n)} (delivery : Delivery s unseen (d::rest))
    (sound : Sound s.virtq s.pcs) (at_ : s.pcs b = .asleep d)
    (split : s.completed = s.posted++b::bufs) (tail : rest.map (fun e => (s.virtq.info e).buf) = bufs.map some) :
    Delivery (s.post b d) unseen rest := by
  have apart : d ∉ unseen++s.device.pending++rest := by
    have moved : (unseen++s.device.pending++d::rest).Perm (d::(unseen++s.device.pending++rest)) := List.perm_middle
    exact (List.nodup_cons.mp (moved.nodup_iff.mp delivery.nodup)).1
  have different : ∀ u e, u ≠ b → s.pcs u = .asleep e → e ≠ d := by
    rintro u e other here rfl
    exact other (sound.owner (d := e) (by rw [here]; rfl) (by rw [at_]; rfl))
  refine ⟨delivery.avail,(delivery.used.pop divides).2,?_,fun e => ?_,fun u e here => ?_,fun u e here => ?_,bufs,?_,?_⟩
  · exact List.Sublist.nodup (List.Sublist.append_left (List.sublist_cons_self d rest) _) delivery.nodup
  · have before := delivery.asleep e
    constructor
    · intro listed
      have other : e ≠ d := by
        rintro rfl
        exact apart listed
      obtain ⟨u,here⟩ := before.mp (by
        simp only [List.mem_append,List.mem_cons] at listed ⊢
        tauto)
      have mine : u ≠ b := by
        rintro rfl
        rw [at_] at here
        cases here
        exact other rfl
      refine ⟨u,?_⟩
      simp only [State.post]
      rw [Function.update_of_ne mine]
      exact here
    · rintro ⟨u,here⟩
      obtain ⟨mine,old⟩ := post_asleep here
      have listed := before.mpr ⟨u,old⟩
      have other := different u e mine old
      simp only [List.mem_append,List.mem_cons] at listed ⊢
      tauto
  · obtain ⟨mine,old⟩ := post_asleep here
    rw [post_buf (different u e mine old)]
    exact delivery.owner u e old
  · obtain ⟨mine,old⟩ := post_asleep here
    simp only [State.post]
    rw [Function.update_of_ne mine]
    exact delivery.sleeper u e old
  · simp only [State.post]
    rw [split,List.append_assoc]
    rfl
  · rw [← tail]
    refine List.map_congr_left fun e listed => ?_
    have other : e ≠ d := by
      rintro rfl
      exact apart (List.mem_append_right _ listed)
    rw [post_buf other]

theorem Delivery.handle (delivery : Delivery s unseen reported) (sound : Sound s.virtq s.pcs)
    (more : s.virtq.lastUsedIdx ≠ s.virtq.usedIdx)
    (good : (s.virtq.info (s.virtq.usedRing (Ring.slot nqueue s.virtq.lastUsedIdx.toNat))).status = 0) :
    ∃ b d0 reported', handleUsed s = some (s.post b d0) ∧ s.pcs b = .asleep d0 ∧
    s.completed[s.posted.length]? = some b ∧
      Delivery (s.post b d0) unseen reported' := by
  cases reported with
  | nil => exact absurd ((delivery.used.empty_iff (by decide)).mpr rfl) more
  | cons d rest =>
    obtain ⟨first,_⟩ := delivery.used.pop divides
    rw [first] at good
    obtain ⟨b,at_⟩ := (delivery.asleep d).mp (by simp)
    have owner := delivery.owner b d at_
    obtain ⟨bufs,split,mapped⟩ := delivery.history
    rw [List.map_cons,owner] at mapped
    cases bufs with
    | nil => cases mapped
    | cons b' bufs =>
      rw [List.map_cons] at mapped
      obtain ⟨same,tail⟩ := List.cons.inj mapped
      cases same
      refine ⟨b,d,rest,handleUsed_post first good at_ owner (delivery.sleeper b d at_),at_,?_,delivery.post sound at_ split tail⟩
      rw [split,List.getElem?_append_right (Nat.le_refl _)]
      simp

theorem Delivery.retire (delivery : Delivery s unseen reported) (at_ : s.pcs b = .woken d0)
    (made : Freed (s.virtq.setInfo d0 { s.virtq.info d0 with done := 0 }) vq' d0) :
    Delivery { s with virtq := vq', pcs := Function.update s.pcs b .idle } unseen reported := by
  obtain ⟨availRing,availIdx,usedRing,usedIdx,lastUsedIdx⟩ := made.rings
  have bufs : ∀ d, (vq'.info d).buf = (s.virtq.info d).buf := by
    intro d
    rw [made.info]
    by_cases mine : d = d0
    · subst mine
      simp only [Virtq.setInfo,Function.update_self]
    · simp only [Virtq.setInfo,Function.update_of_ne mine]
  have asleep : ∀ u d, Function.update s.pcs b .idle u = .asleep d ↔ s.pcs u = .asleep d := by
    intro u d
    by_cases mine : u = b
    · subst mine
      rw [Function.update_self,at_]
      simp
    · rw [Function.update_of_ne mine]
  refine ⟨?_,?_,delivery.nodup,fun d => ?_,fun u d here => ?_,fun u d here => ?_,?_⟩
  · simp only [availRing,availIdx]
    exact delivery.avail
  · simp only [usedRing,usedIdx,lastUsedIdx]
    exact delivery.used
  · simp only [asleep]
    exact delivery.asleep d
  · simp only
    rw [bufs]
    exact delivery.owner u d ((asleep u d).mp here)
  · exact delivery.sleeper u d ((asleep u d).mp here)
  · simpa only [bufs] using delivery.history

theorem start_orderly : Orderly (start : State n) := by
  refine ⟨init_sound,[],[],Ring.Between.empty _ _,Ring.Between.empty _ _,List.nodup_nil,fun d => ?_,?_,?_,[],rfl,rfl⟩
  · simp [start]
  · intro b d at_
    cases at_
  · intro b d at_
    cases at_

theorem Orderly.submits (orderly : Orderly s) (b : Fin n) (write : Bool) (blockNo : U32) :
    (s.virtq.nfree.toNat < 3 ∧ submitRw s.virtq b write blockNo = .error .panic) ∨
    (3 ≤ s.virtq.nfree.toNat ∧ ∃ d0 vq', submitRw s.virtq b write blockNo = .ok (d0,vq') ∧
    Submitted s.virtq vq' b d0) := by
  by_cases enough : 3 ≤ s.virtq.nfree.toNat
  · exact .inr ⟨enough,submitRw_submitted orderly.sound.free enough write blockNo⟩
  · have few : s.virtq.nfree.toNat < 3 := by omega
    exact .inl ⟨few,submitRw_few few b write blockNo⟩

theorem Orderly.panic (orderly : Orderly s) (site : Panic) : Orderly { s with panicked := some site } := by
  obtain ⟨unseen,reported,delivery⟩ := orderly.delivery
  exact ⟨orderly.sound,unseen,reported,⟨delivery.avail,delivery.used,delivery.nodup,delivery.asleep,delivery.owner,delivery.sleeper,
    delivery.history⟩⟩

theorem Orderly.next {a : Action n} (orderly : Orderly s) (ran : next s a = some s') : Orderly s' := by
  obtain ⟨unseen,reported,delivery⟩ := orderly.delivery
  have sound := orderly.sound
  unfold VirtioBlk.next at ran
  split at ran
  · cases ran
  cases a with
  | submit b write blockNo =>
    simp only at ran
    split at ran
    · rename_i ready
      rcases orderly.submits b write blockNo with ⟨_,panics⟩ | ⟨_,d0,vq',result,made⟩
      · rw [panics] at ran
        cases ran
        exact orderly.panic _
      · rw [result] at ran
        cases ran
        exact ⟨sound.submit ready.1 rfl made,_,_,delivery.submit sound ready.1 made⟩
    · cases ran
  | retire b =>
    simp only at ran
    split at ran
    · rename_i d0 at_
      split at ran
      · obtain ⟨vq',result,made⟩ := sound.retireRw (b := b) d0 (by rw [at_]; rfl)
        rw [result] at ran
        cases ran
        have moved : Sound (s.virtq.setInfo d0 { s.virtq.info d0 with done := 0 }) s.pcs := sound.congr rfl rfl rfl fun _ => rfl
        exact ⟨moved.retire (by rw [at_]; rfl) made,_,_,delivery.retire at_ made⟩
      · cases ran
    · cases ran
  | fetch =>
    simp only at ran
    split at ran
    · rename_i more
      cases ran
      obtain ⟨unseen',after⟩ := delivery.fetch more
      exact ⟨sound,_,_,after⟩
    · cases ran
  | complete d status =>
    simp only at ran
    split at ran
    · rename_i working
      obtain ⟨after,reported',rest⟩ := delivery.complete sound working ran
      exact ⟨after,_,_,rest⟩
    · cases ran
  | interrupt =>
    simp only at ran
    split at ran
    · cases ran
      exact ⟨sound,_,_,⟨delivery.avail,delivery.used,delivery.nodup,delivery.asleep,delivery.owner,delivery.sleeper,delivery.history⟩⟩
    · cases ran
  | handle =>
    simp only at ran
    split at ran
    · rename_i ready
      by_cases good : (s.virtq.info (s.virtq.usedRing (Ring.slot nqueue s.virtq.lastUsedIdx.toNat))).status = 0
      · obtain ⟨b,d0,reported',result,at_,_,rest⟩ := delivery.handle sound ready.2 good
        cases result.symm.trans ran
        exact ⟨sound.post at_,_,_,rest⟩
      · unfold handleUsed at ran
        simp only at ran
        rw [if_pos good] at ran
        cases ran
        exact orderly.panic _
    · cases ran
  | finish =>
    simp only at ran
    split at ran
    · cases ran
      exact ⟨sound,_,_,⟨delivery.avail,delivery.used,delivery.nodup,delivery.asleep,delivery.owner,delivery.sleeper,delivery.history⟩⟩
    · cases ran

theorem reached_orderly (path : Runs.Reached next start s) : Orderly s :=
  path.invariant Orderly start_orderly fun _ _ _ orderly _ ran => orderly.next ran

-- The partition itself is `Sound`.
structure QueueLaws (s : State n) : Prop where
  partition : Sound s.virtq s.pcs
  frees : ∀ b d0, s.panicked = none → s.handling = false → s.pcs b = .woken d0 →
    ∃ s', next s (.retire b) = some s' ∧ freeList s'.virtq = chain s.virtq d0++freeList s.virtq
  wakes : s.panicked = none → s.handling = true → s.virtq.lastUsedIdx ≠ s.virtq.usedIdx →
    (s.virtq.info (s.virtq.usedRing (Ring.slot nqueue s.virtq.lastUsedIdx.toNat))).status = 0 →
    ∃ s' b d0, next s .handle = some s' ∧ s.completed[s.posted.length]? = some b ∧ s.pcs b = .asleep d0 ∧
      s'.pcs = Function.update s.pcs b (.woken d0) ∧ s'.posted = s.posted++[b]
  posted : s.posted <+: s.completed
  settled : s.virtq.lastUsedIdx = s.virtq.usedIdx → s.posted = s.completed

theorem queue_laws (path : Runs.Reached next start s) : QueueLaws s := by
  have orderly := reached_orderly path
  have sound := orderly.sound
  obtain ⟨unseen,reported,delivery⟩ := orderly.delivery
  obtain ⟨rest,split,bufs⟩ := delivery.history
  refine ⟨sound,?_,?_,⟨rest,split.symm⟩,fun same => ?_⟩
  · intro b d0 running free at_
    obtain ⟨vq',result,made⟩ := sound.retireRw (b := b) d0 (by rw [at_]; rfl)
    refine ⟨{ s with virtq := vq', pcs := Function.update s.pcs b .idle },?_,made.list⟩
    simp [next,running,at_,free,result]
  · intro running handling more good
    obtain ⟨b,d0,_,result,at_,first,_⟩ := delivery.handle sound more good
    refine ⟨s.post b d0,b,d0,?_,first,at_,rfl,rfl⟩
    simp [next,running,handling,more,result]
  · have none := (delivery.used.empty_iff (by decide)).mp same
    rw [none] at bufs
    have empty : rest = [] := List.map_eq_nil_iff.mp bufs.symm
    rw [split,empty,List.append_nil]

-- Two requests, of which the disk ends the second one first.
theorem queue_laws_overtaken : ∃ s : State 2, Runs.Reached next start s ∧ s.posted = [1] ∧ s.pcs 0 = .asleep 0#16 ∧
    freeList s.virtq = [3,4,5,6,7,8,9,10,11,12,13,14,15] ∧ QueueLaws s := by
  obtain ⟨s,ran,facts⟩ := Runs.some_such
    (p := fun s : State 2 => decide (s.posted = [1] ∧ s.pcs 0 = .asleep 0#16 ∧ freeList s.virtq = [3,4,5,6,7,8,9,10,11,12,13,14,15]))
    (x := Runs.exec next start [.submit 0 true 7#32,.submit 1 false 9#32,.fetch,.fetch,.complete 3#16 0,.interrupt,
        .handle,.finish,.retire 1])
    (by decide +kernel)
  obtain ⟨posted,asleep,list⟩ := of_decide_eq_true facts
  have path := Runs.exec_reached .start ran
  exact ⟨s,path,posted,asleep,list,queue_laws path⟩

-- How many requests are in flight.
def inFlight (s : State n) : Nat := Runs.total Pc.flies s.pcs

def spares (s : State n) : Action n → Prop
  | .submit _ _ _ => inFlight s ≤ 4
  | _ => True

instance (s : State n) (a : Action n) : Decidable (spares s a) := by
  cases a <;> unfold spares <;> infer_instance

theorem submit_panics (orderly : Orderly s) (running : s.panicked = none) (free : s.handling = false) {b : Fin n}
    (idle : s.pcs b = .idle) (write : Bool) (blockNo : U32) :
    ∃ s', next s (.submit b write blockNo) = some s' ∧ (s'.panicked = some .allocDesc ↔ 4 < inFlight s) := by
  have count : s.virtq.nfree.toNat+3*inFlight s = 16 := orderly.sound.count
  rcases orderly.submits b write blockNo with ⟨few,panics⟩ | ⟨enough,d0,vq',result,_⟩
  · refine ⟨{ s with panicked := some .allocDesc },by simp [next,running,idle,free,panics],?_⟩
    simp only [true_iff]
    omega
  · refine ⟨_,by simp only [next,running,idle,free,result,and_self,ne_eq,not_true_eq_false,if_true,if_false]; rfl,?_⟩
    constructor
    · intro absurd
      cases absurd
    · intro many
      omega

theorem next_panic {a : Action n} (ran : next s a = some s') (panics : s'.panicked = some .allocDesc) :
    s.panicked = none ∧ ∃ b write blockNo, a = .submit b write blockNo ∧ s.pcs b = .idle ∧ s.handling = false := by
  unfold next at ran
  split at ran
  · cases ran
  rename_i running
  have running : s.panicked = none := by simpa using running
  refine ⟨running,?_⟩
  have calm : ∀ {x : State n}, x.panicked = none → x.panicked ≠ some .allocDesc := by
    intro x none absurd
    rw [none] at absurd
    cases absurd
  cases a with
  | submit b write blockNo =>
    simp only at ran
    split at ran
    · rename_i ready
      exact ⟨b,write,blockNo,rfl,ready⟩
    · cases ran
  | retire b =>
    simp only at ran
    split at ran
    · split at ran
      · split at ran
        · cases ran
        · cases ran
          exact absurd panics (calm running)
      · cases ran
    · cases ran
  | complete d status =>
    simp only at ran
    split at ran
    · unfold completeHead at ran
      simp only at ran
      split at ran
      · cases ran
        exact absurd panics (calm running)
      · cases ran
    · cases ran
  | handle =>
    simp only at ran
    split at ran
    · unfold handleUsed at ran
      simp only at ran
      split at ran
      · cases ran
        cases panics
      · split at ran
        · cases ran
        · split at ran
          · cases ran
          · cases ran
            exact absurd panics (calm running)
    · cases ran
  | _ =>
    simp only at ran
    split at ran
    · cases ran
      exact absurd panics (calm running)
    · cases ran

theorem alloc_desc_panics {s : State n} (path : Runs.Guarded next spares start s) :
    s.panicked ≠ some .allocDesc ∧
    ∀ b write blockNo, s.panicked = none → s.handling = false → s.pcs b = .idle →
      ∃ s', next s (.submit b write blockNo) = some s' ∧ (s'.panicked = some .allocDesc ↔ 4 < inFlight s) := by
  have orderly := reached_orderly path.reached
  refine ⟨?_,fun b write blockNo running free idle => submit_panics orderly running free idle write blockNo⟩
  cases path with
  | start => exact fun panics => by cases panics
  | step before met ran =>
    intro panics
    obtain ⟨running,b,write,blockNo,rfl,idle,free⟩ := next_panic ran panics
    obtain ⟨s',result,iff⟩ := submit_panics (reached_orderly before.reached) running free idle write blockNo
    cases result.symm.trans ran
    have many := iff.mp panics
    have few : inFlight _ ≤ 4 := met
    omega

end system

-- A call that finds four requests in flight.
theorem alloc_desc_panics_fifth : ∃ s : State 5, Runs.Guarded next spares start s ∧ inFlight s = 5 ∧
    s.panicked ≠ some .allocDesc := by
  obtain ⟨s,ran,facts⟩ := Runs.some_such (p := fun s : State 5 => decide (inFlight s = 5))
    (x := Runs.execGuarded next spares start
      [.submit 0 false 0#32,.submit 1 false 1#32,.submit 2 false 2#32,.submit 3 false 3#32,.submit 4 false 4#32])
    (by decide +kernel)
  have path := Runs.exec_guarded .start ran
  exact ⟨s,path,of_decide_eq_true facts,(alloc_desc_panics path).1⟩

theorem sixth_request_panics : ∃ s : State 6, Runs.Reached next start s ∧ s.panicked = some .allocDesc := by
  obtain ⟨s,ran,facts⟩ := Runs.some_such (p := fun s : State 6 => decide (s.panicked = some .allocDesc))
    (x := Runs.exec next start [.submit 0 false 0#32,.submit 1 false 1#32,.submit 2 false 2#32,.submit 3 false 3#32,
      .submit 4 false 4#32,.submit 5 false 5#32])
    (by decide +kernel)
  exact ⟨s,Runs.exec_reached .start ran,of_decide_eq_true facts⟩

end VirtioBlk
