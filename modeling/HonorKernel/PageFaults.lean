import HonorKernel.ImageView

-- Loads of a user program: through an entry that is there, or behind pgfault_handler.
namespace PageTable
open DiskFormat BitSlice

-- The load that faulted is tried once more. Addresses of more than 48 bits do not reach
-- these tables.
def userLoad (va : U64) (dir : PgDir) (mem : Mem) : Except Trap (Byte × PgDir × Mem) :=
  if 2^48 ≤ va.toNat then .error .panic
  else
    match dir.pt.bind fun root => userByte mem root va with
    | some byte => .ok (byte,dir,mem)
    | none => do
      let (dir,mem) ← pgfaultHandler va dir mem
      match dir.pt.bind fun root => userByte mem root va with
      | some byte => .ok (byte,dir,mem)
      | none => .error .panic

def loadNext (s : PgDir × Mem) (va : U64) : Option (PgDir × Mem) := (userLoad va s.1 s.2).toOption.map Prod.snd

-- What is at an address in the page that kalloc_page hands out for it: pages are not
-- cleared when they go back.
def staleByte (va : U64) (pt : Option Frame) (mem : Mem) : Except Trap Byte := do
  let (_,_,mem) ← getPte true va pt mem
  let (page,mem) ← mem.kallocPage
  .ok (byteAt (mem.pages page) (pageOffset va))

section Faults
variable {D : Type*} {holes : Holes} {zero : Frame} {mem mem' : Mem} {roots : D → Option Frame} {d : D}
  {root q : Frame} {va va' : U64} {blank : Page} {view : PageView} {dir dir' : PgDir} {byte : Byte}

theorem getPte_page (alloc : Bool) (pt : Option Frame) (same : vpage va' = vpage va) :
    getPte alloc va' pt mem = getPte alloc va pt mem := by
  simp only [vpage,Prod.mk.injEq] at same
  unfold getPte
  rw [same.1,same.2.1,same.2.2.1,same.2.2.2]

theorem Shows.unmapped (shows : Shows holes zero blank mem roots root view) (here : roots d = some root)
    (none : view (vpage va) = none) :
    mem.lookup root (vpage va) = 0#64 := by
  refine shows.sane.plain d root _ here fun set => ?_
  rw [← shows.view,Mem.view,if_pos set] at none
  cases none

theorem Shows.allocates (shows : Shows holes zero blank mem roots root view) (took : mem.kallocPage = .ok (q,mem')) :
    Shows holes zero blank mem' roots root view ∧ Loose holes zero mem' roots q := by
  obtain ⟨sane,loose⟩ := shows.sane.takes took
  obtain ⟨_,pages,_,_⟩ := kallocPage_cases took
  refine ⟨⟨sane,by rw [pages]; exact shows.clear,?_⟩,loose⟩
  rw [← shows.view]
  funext v
  exact view_frame (lookup_of_pages pages root v) fun _ _ => by rw [pages]

theorem fault_shows (shows : Shows holes zero blank mem roots root view) (here : roots d = some root)
    (table : dir.pt = some root) (none : view (vpage va) = none) (ran : pgfaultHandler va dir mem = .ok (dir',mem')) :
    dir' = dir ∧ (∃ st ∈ dir.sections, st.has va) ∧ ∃ page,
    Shows holes zero blank mem' roots root (Function.update view (vpage va) (some (some page))) ∧
      ∀ va', vpage va' = vpage va → staleByte va' dir.pt mem = .ok (byteAt page (pageOffset va')) := by
  unfold pgfaultHandler at ran
  split at ran
  · cases ran
  · rename_i inside
    obtain ⟨⟨slot,pt,mem₁⟩,got,ran⟩ := Runs.bind_ok.mp ran
    have got' := got
    rw [table] at got
    obtain ⟨grows,rfl,t,rfl,reached,value⟩ := getPte_grows shows.sane.toFresh here got
    obtain ⟨_,found,ran⟩ := Runs.bind_ok.mp ran
    cases found
    obtain ⟨⟨pt₁,last⟩,handled,finish⟩ := Runs.bind_ok.mp ran
    have vacant : mem₁.at ⟨t,part 3 va⟩ = 0#64 := value.trans (shows.unmapped here none)
    rw [if_pos vacant] at handled
    obtain ⟨⟨page,mem₂⟩,took,handled⟩ := Runs.bind_ok.mp handled
    obtain ⟨shows₂,loose⟩ := (shows.grows here grows).allocates took
    obtain ⟨rfl,shows₃,_⟩ := shows₂.maps here loose (by decide) (by decide) handled
    simp only at finish
    split at finish
    · cases finish
      refine ⟨by rw [← table],Decidable.not_not.mp inside,mem₂.pages page,shows₃,fun va' same => ?_⟩
      unfold staleByte
      rw [getPte_page true dir.pt same,got']
      simp only [bind,Except.bind,took]
    · cases finish

theorem fault_handled (shows : Shows holes zero blank mem roots root view) (here : roots d = some root)
    (table : dir.pt = some root) (none : view (vpage va) = none) (inside : ∃ st ∈ dir.sections, st.has va)
    (stale : staleByte va dir.pt mem = .ok byte) :
    ∃ mem', pgfaultHandler va dir mem = .ok (dir,mem') := by
  obtain ⟨⟨slot,pt,mem₁⟩,got,rest⟩ := Runs.bind_ok.mp stale
  obtain ⟨⟨page,mem₂⟩,took,_⟩ := Runs.bind_ok.mp rest
  have got' := got
  rw [table] at got
  obtain ⟨grows,rfl,t,rfl,reached,value⟩ := getPte_grows shows.sane.toFresh here got
  have vacant : mem₁.at ⟨t,part 3 va⟩ = 0#64 := value.trans (shows.unmapped here none)
  obtain ⟨_,pages,_,_⟩ := kallocPage_cases took
  have reached₂ : mem₂.table root (tableWay (vpage va)) = some t := by
    have short : (tableWay (vpage va)).length ≤ 3 := Nat.le_refl 3
    rw [table_of_pages pages root short]
    exact reached
  obtain ⟨mem₃,is₃⟩ : ∃ mem₃ : Mem,
      mem₃ = { mem₂.setAt ⟨t,part 3 va⟩ (entryFor page pteUserData) with refs := Function.update mem₂.refs page (mem₂.refs page+1) } := ⟨_,rfl⟩
  have mapped : vmmap va page pteUserData (some root) mem₂ = .ok (some root,mem₃) := by
    unfold vmmap
    rw [getPte_existing reached₂ true,is₃]
    rfl
  have set : valid (mem₃.at ⟨t,part 3 va⟩) := by
    have entry : mem₃.at ⟨t,part 3 va⟩ = entryFor page pteUserData := by
      rw [is₃]
      exact (entry_setEntry mem₂ t (part 3 va) _ t (part 3 va)).trans (if_pos ⟨rfl,rfl⟩)
    rw [entry]
    exact (valid_entryFor (by decide)).mpr (by decide)
  refine ⟨mem₃,?_⟩
  unfold pgfaultHandler
  rw [if_neg (not_not_intro inside),got']
  simp only [bind,Except.bind,notNull,if_pos vacant,took,mapped,if_pos set]
  rw [← table]

theorem load_mapped {shown : Option Page} (shows : Shows holes zero blank mem roots root view)
    (table : dir.pt = some root) (low : va.toNat < 2^48) (mapped : view (vpage va) = some shown) :
    userLoad va dir mem = .ok (byteAt (shown.getD blank) (pageOffset va),dir,mem) := by
  unfold userLoad
  rw [if_neg (Nat.not_le.mpr low),table,Option.bind_some,shows.userByte,mapped]
  rfl

theorem load_cases (shows : Shows holes zero blank mem roots root view) (here : roots d = some root)
    (table : dir.pt = some root) (ran : userLoad va dir mem = .ok (byte,dir',mem')) :
    va.toNat < 2^48 ∧ dir' = dir ∧ (view (vpage va) ≠ none ∧ mem' = mem ∨ view (vpage va) = none ∧
    (∃ st ∈ dir.sections, st.has va) ∧
      ∃ page, Shows holes zero blank mem' roots root (Function.update view (vpage va) (some (some page))) ∧
      byte = byteAt page (pageOffset va) ∧
        ∀ va', vpage va' = vpage va → staleByte va' dir.pt mem = .ok (byteAt page (pageOffset va'))) := by
  have low : va.toNat < 2^48 := by
    refine Nat.lt_of_not_le fun high => ?_
    rw [userLoad,if_pos high] at ran
    cases ran
  refine ⟨low,?_⟩
  cases shown : view (vpage va) with
  | some page =>
    rw [load_mapped shows table low shown] at ran
    simp only [Except.ok.injEq,Prod.mk.injEq] at ran
    exact ⟨ran.2.1.symm,.inl ⟨Option.some_ne_none page,ran.2.2.symm⟩⟩
  | none =>
    rw [userLoad,if_neg (Nat.not_le.mpr low),table,Option.bind_some,shows.userByte,shown] at ran
    obtain ⟨⟨dir₁,mem₁⟩,handled,rest⟩ := Runs.bind_ok.mp ran
    obtain ⟨rfl,inside,page,shows₁,stale⟩ := fault_shows shows here table shown handled
    simp only [table,Option.bind_some,shows₁.userByte,Function.update_self,shownByte,Option.map_some,Except.ok.injEq,
        Prod.mk.injEq] at rest
    obtain ⟨rfl,rfl,rfl⟩ := rest
    exact ⟨rfl,.inr ⟨rfl,inside,page,shows₁,rfl,stale⟩⟩

theorem load_fault (shows : Shows holes zero blank mem roots root view) (here : roots d = some root)
    (table : dir.pt = some root) (low : va.toNat < 2^48) (none : view (vpage va) = none)
    (inside : ∃ st ∈ dir.sections, st.has va) (stale : staleByte va dir.pt mem = .ok byte) :
    ∃ mem', userLoad va dir mem = .ok (byte,dir,mem') := by
  obtain ⟨mem',handled⟩ := fault_handled shows here table none inside stale
  obtain ⟨_,_,page,shows',stale'⟩ := fault_shows shows here table none handled
  obtain rfl := Except.ok.inj (stale.symm.trans (stale' va rfl))
  refine ⟨mem',?_⟩
  rw [userLoad,if_neg (Nat.not_le.mpr low),table,Option.bind_some,shows.userByte,none]
  simp only [shownByte,Option.map_none,handled,bind,Except.bind,table,Option.bind_some,shows'.userByte,
      Function.update_self,Option.map_some,
    Option.getD_some]

end Faults

-- Where the byte of a segment is, seen from a program.
def Segment.at (seg : Segment) (k : Nat) : U64 := seg.vaddr+BitVec.ofNat 64 k

-- Whatever has been loaded before, a load finds the byte of the segment.
def ServesAt (segs : List Segment) (s : PgDir × Mem) : Prop :=
  ∀ seg ∈ segs, ∀ k < seg.size, ∃ s', userLoad (seg.at k) s.1 s.2 = .ok (seg.byte k,s')

def Serves (segs : List Segment) (s : PgDir × Mem) : Prop := ∀ s', Runs.Reached loadNext s s' → ServesAt segs s'

-- For the first page of a hollow segment there is a page with zeros.
def ClearsAt (segs : List Segment) (s : PgDir × Mem) : Prop :=
  ∀ seg ∈ segs, ∀ k < seg.size, seg.missing k → (s.1.pt.bind fun root => userByte s.2 root (seg.at k)) = none →
    staleByte (seg.at k) s.1.pt s.2 = .ok 0#8

def Clears (segs : List Segment) (s : PgDir × Mem) : Prop := ∀ s', Runs.Reached loadNext s s' → ClearsAt segs s'

-- Every byte is there or waits for a fault, and no other address of a section does.
structure Offered (segs : List Segment) (sections : List Section) (view : PageView) : Prop where
  bytes : ∀ seg ∈ segs, ∀ k < seg.size,
    (∃ shown, view (vpage (seg.at k)) = some shown ∧ byteAt (shown.getD 0#32768) (pageOffset (seg.at k)) = seg.byte k) ∨
      seg.missing k ∧ view (vpage (seg.at k)) = none
  waits : ∀ va : U64, (∃ st ∈ sections, st.has va) → va.toNat < 2^48 → view (vpage va) = none →
      ∃ seg ∈ segs, ∃ k < seg.size, va = seg.at k
  inside : ∀ seg ∈ segs, ∀ k < seg.size, ∃ st ∈ sections, st.has (seg.at k)

section Serving
variable {D : Type*} {holes : Holes} {zero : Frame} {roots : D → Option Frame} {d : D} {root : Frame}
  {segs : List Segment} {seg : Segment} {dir : PgDir} {view : PageView} {mem : Mem} {s s' : PgDir × Mem} {va : U64}

theorem Segment.Formed.at_toNat (formed : seg.Formed) {k : Nat} (small : k < seg.size) :
    (seg.at k).toNat = seg.vaddr.toNat+k ∧ (seg.at k).toNat < 2^48 := by
  obtain ⟨_,low⟩ := formed.covers small
  have value : (seg.at k).toNat = seg.vaddr.toNat+k := by
    rw [Segment.at,BitVec.toNat_add,BitVec.toNat_ofNat]
    omega
  exact ⟨value,by omega⟩

theorem Segment.missing.byte {k : Nat} (missing : seg.missing k) : seg.byte k = 0#8 := by
  rw [Segment.byte,if_neg]
  rw [missing.1.2.1]
  exact Nat.not_lt_zero k

structure Serving (holes : Holes) (zero : Frame) (roots : D → Option Frame) (root : Frame) (segs : List Segment) (dir : PgDir) (s : PgDir × Mem) : Prop where
  space : s.1 = dir
  shows : ∃ view, Shows holes zero 0#32768 s.2 roots root view ∧ Offered segs dir.sections view

theorem serving_iff (here : roots d = some root) (table : dir.pt = some root) (formed : ∀ seg ∈ segs, seg.Formed)
    (serving : Serving holes zero roots root segs dir s) : ServesAt segs s ↔ ClearsAt segs s := by
  obtain ⟨rfl,view,shows,offered⟩ := serving
  constructor
  · intro serves seg member k small missing unmapped
    have none : view (vpage (seg.at k)) = none := by
      rw [table,Option.bind_some,shows.userByte] at unmapped
      exact Option.map_eq_none_iff.mp unmapped
    obtain ⟨⟨dir',mem'⟩,ran⟩ := serves seg member k small
    rw [missing.byte] at ran
    obtain ⟨_,_,⟨mapped,_⟩ | ⟨_,_,page,_,byte,stale⟩⟩ := load_cases shows here table ran
    · exact absurd none mapped
    · rw [stale _ rfl,← byte]
  · intro clears seg member k small
    have low := ((formed seg member).at_toNat small).2
    rcases offered.bytes seg member k small with ⟨shown,mapped,byte⟩ | ⟨missing,none⟩
    · rw [← byte]
      exact ⟨_,load_mapped shows table low mapped⟩
    · have stale := clears seg member k small missing (by rw [table,Option.bind_some,shows.userByte,none]; rfl)
      obtain ⟨mem',ran⟩ := load_fault shows here table low none (offered.inside seg member k small) stale
      rw [missing.byte]
      exact ⟨_,ran⟩

theorem apart_of_ne {seg' : Segment} (apart : (segs.map Segment.made).Pairwise Section.Apart) (member : seg ∈ segs)
    (member' : seg' ∈ segs) (different : seg ≠ seg') : seg.made.Apart seg'.made := by
  have symmetric : Std.Symm fun a b : Segment => a.made.Apart b.made := ⟨fun _ _ apart => apart.symm⟩
  exact (List.pairwise_map.mp apart).forall member member' different

theorem Offered.faulted {page : Page} (offered : Offered segs dir.sections view) (formed : ∀ seg ∈ segs, seg.Formed)
    (apart : (segs.map Segment.made).Pairwise Section.Apart) (member : seg ∈ segs) {k : Nat} (small : k < seg.size)
    (none : view (vpage (seg.at k)) = none)
    (zeros : ∀ k' < seg.size, seg.missing k' → vpage (seg.at k') = vpage (seg.at k) →
    byteAt page (pageOffset (seg.at k')) = 0#8) :
    Offered segs dir.sections (Function.update view (vpage (seg.at k)) (some (some page))) := by
  refine ⟨fun seg' member' k' small' => ?_,fun va inside low unmapped => ?_,offered.inside⟩
  · by_cases same : vpage (seg'.at k') = vpage (seg.at k)
    · left
      refine ⟨some page,by rw [same,Function.update_self],?_⟩
      have one : seg' = seg := by
        by_contra different
        have far := apart_of_ne apart member' member different
        refine (formed seg' member').apart (formed seg member) far small' small ?_
        rw [← ((formed seg' member').at_toNat small').1,← ((formed seg member).at_toNat small).1,pageOf_toNat,pageOf_toNat]
        exact same
      subst one
      have missing : seg'.missing k' := by
        rcases offered.bytes seg' member k' small' with ⟨shown,mapped,_⟩ | ⟨missing,_⟩
        · rw [same,none] at mapped
          cases mapped
        · exact missing
      rw [missing.byte]
      exact zeros k' small' missing same
    · rw [Function.update_of_ne same]
      exact offered.bytes seg' member' k' small'
  · by_cases same : vpage va = vpage (seg.at k)
    · rw [same,Function.update_self] at unmapped
      cases unmapped
    · rw [Function.update_of_ne same] at unmapped
      exact offered.waits va inside low unmapped

theorem Serving.step (serving : Serving holes zero roots root segs dir s) (here : roots d = some root)
    (table : dir.pt = some root) (formed : ∀ seg ∈ segs, seg.Formed)
    (apart : (segs.map Segment.made).Pairwise Section.Apart) (clears : ClearsAt segs s)
    (ran : loadNext s va = some s') : Serving holes zero roots root segs dir s' := by
  obtain ⟨rfl,view,shows,offered⟩ := serving
  obtain ⟨⟨byte,s₁⟩,loaded,rfl⟩ := Option.map_eq_some_iff.mp ran
  have loaded := Runs.toOption_some loaded
  obtain ⟨low,same,⟨_,kept⟩ | ⟨none,inside,page,shows',_,stale⟩⟩ := load_cases shows here table loaded
  · exact ⟨same,view,by rw [kept]; exact shows,offered⟩
  · obtain ⟨seg,member,k,small,rfl⟩ := offered.waits va inside low none
    refine ⟨same,_,shows',offered.faulted formed apart member small none fun k' small' missing page' => ?_⟩
    have unmapped : (s.1.pt.bind fun root => userByte s.2 root (seg.at k')) = Option.none := by
      rw [table,Option.bind_some,shows.userByte,page',none]
      rfl
    exact Except.ok.inj ((stale _ page').symm.trans (clears seg member k' small' missing unmapped))

theorem Serving.reached (serving : Serving holes zero roots root segs dir s) (here : roots d = some root)
    (table : dir.pt = some root) (formed : ∀ seg ∈ segs, seg.Formed)
    (apart : (segs.map Segment.made).Pairwise Section.Apart)
    (clears : ∀ s', Runs.Reached loadNext s s' → Serving holes zero roots root segs dir s' → ClearsAt segs s')
    (path : Runs.Reached loadNext s s') :
    Serving holes zero roots root segs dir s' := by
  induction path with
  | start => exact serving
  | step before _ ran ih => exact ih.step here table formed apart (clears _ before ih) ran

theorem Serving.iff (serving : Serving holes zero roots root segs dir s) (here : roots d = some root)
    (table : dir.pt = some root) (formed : ∀ seg ∈ segs, seg.Formed)
    (apart : (segs.map Segment.made).Pairwise Section.Apart) : Serves segs s ↔ Clears segs s := by
  constructor
  · intro serves s' path
    have still := serving.reached here table formed apart
        (fun _ path serving => (serving_iff here table formed serving).mp (serves _ path)) path
    exact (serving_iff here table formed still).mp (serves s' path)
  · intro clears s' path
    have still := serving.reached here table formed apart (fun _ path _ => clears _ path) path
    exact (serving_iff here table formed still).mpr (clears s' path)

end Serving

end PageTable
