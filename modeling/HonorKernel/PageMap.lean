import HonorKernel.ForkBudget

-- A page table as a finite map from pages to entries, while get_pte and vmmap build it.
namespace PageTable
open DiskFormat BitSlice

-- The entry that get_pte finds without `alloc`; 0 for NULL.
def entryAt (va : U64) (pt : Option Frame) (mem : Mem) : U64 :=
  match getPte false va pt mem with
  | .ok (some slot,_,mem) => mem.at slot
  | _ => 0#64

structure Pgdirs (D : Type) where
  mem : Mem
  roots : D → Option Frame

-- `other` is whatever the rest of the kernel and the processes do to memory.
inductive MapCall (D : Type) where
  | init (d : D)
  | getPte (d : D) (va : U64) (alloc : Bool)
  | vmmap (d : D) (va : U64) (ka : Frame) (flags : U64)
  | other (mem : Mem)

section Maps
variable {D : Type} [DecidableEq D]

def Pgdirs.run (s : Pgdirs D) : MapCall D → Except Trap (Pgdirs D)
  | .init d => do
    let (root,mem) ← s.mem.kzallocPage
    .ok ⟨mem,Function.update s.roots d (some root)⟩
  | .getPte d va alloc => do
    let (_,pt,mem) ← PageTable.getPte alloc va (s.roots d) s.mem
    .ok ⟨mem,Function.update s.roots d pt⟩
  | .vmmap d va ka flags => do
    let (pt,mem) ← PageTable.vmmap va ka flags (s.roots d) s.mem
    .ok ⟨mem,Function.update s.roots d pt⟩
  | .other mem => .ok ⟨mem,s.roots⟩

def Pgdirs.next (s : Pgdirs D) (call : MapCall D) : Option (Pgdirs D) := (s.run call).toOption

-- What kalloc_page returns is used nowhere else: nobody else writes a table or puts one
-- on the queue.
def Elsewhere (s : Pgdirs D) : MapCall D → Prop
  | .other mem => mem.free.Nodup ∧ ∀ d way t, IsTable s.mem s.roots d way t → mem.pages t = s.mem.pages t ∧ t ∉ mem.free
  | _ => True

structure FiniteMap (s : Pgdirs D) (d : D) (root : Frame) : Prop where
  mapped : ∀ va ka flags pt mem, va.toNat < 2^48 → vmmap va ka flags (some root) s.mem = .ok (pt,mem) → pt = some root ∧
    ∀ d' root' va', s.roots d' = some root' → va'.toNat < 2^48 →
      entryAt va' (some root') mem = if d' = d ∧ pageBase va' = pageBase va then entryFor ka flags else entryAt va' (some root') s.mem
  looked : ∀ va, ∃ slot, getPte false va (some root) s.mem = .ok (slot,some root,s.mem) ∧
    (slot = none ↔ ∃ k ≤ 3, s.mem.table root ((tableWay (vpage va)).take k) = none)
  added : ∀ va slot pt mem, getPte true va (some root) s.mem = .ok (slot,pt,mem) → pt = some root ∧
    ∀ d' root' va', s.roots d' = some root' → entryAt va' (some root') mem = entryAt va' (some root') s.mem
  slots : ∀ va va' slot pt mem, va.toNat < 2^48 → va'.toNat < 2^48 → getPte false va (some root) s.mem = .ok (some slot,pt,mem) →
    getPte false va' (some root) s.mem = .ok (some slot,pt,mem) → pageBase va = pageBase va'
  returns : 3 ≤ s.mem.free.length → ∀ va, (∃ r, getPte true va (some root) s.mem = .ok r) ∧
      ∀ ka flags, ∃ r, vmmap va ka flags (some root) s.mem = .ok r

end Maps

section Pages
variable {a b va : U64} {root : Frame} {mem mem' : Mem}

theorem same_page (low : a.toNat < 2^48) (low' : b.toNat < 2^48) : vpage a = vpage b ↔ pageBase a = pageBase b := by
  constructor
  · intro same
    apply BitVec.eq_of_toNat_eq
    rw [pageBase_toNat,pageBase_toNat,vpage_number same low low']
  · intro same
    have number := congrArg BitVec.toNat same
    rw [pageBase_toNat,pageBase_toNat,show pageSize = 4096 from rfl] at number
    simp only [vpage,part,Prod.mk.injEq,Fin.mk.injEq,Nat.reduceMul,Nat.reduceSub,Nat.reducePow]
    omega

theorem getPte_slot (va : U64) (root : Frame) (mem : Mem) : getPte false va (some root) mem =
    .ok ((mem.table root (tableWay (vpage va))).map (Slot.mk · (part 3 va)),some root,mem) := by
  obtain ⟨found,walked⟩ := walk_looks [part 0 va,part 1 va,part 2 va] root mem
  have start : mem.table root [] = some root := rfl
  have is : found = mem.table root (tableWay (vpage va)) := (walk_reads [part 0 va,part 1 va,part 2 va] start walked).2
  unfold getPte
  simp only [bind,Except.bind,walked,is]

theorem entryAt_lookup (va : U64) (root : Frame) (mem : Mem) :
    entryAt va (some root) mem = mem.lookup root (vpage va) := by
  rw [entryAt,getPte_slot]
  unfold Mem.lookup
  cases mem.table root (tableWay (vpage va)) with
  | none => rfl
  | some t => rfl

end Pages

section Steps
variable {D : Type} {roots : D → Option Frame} {mem mem' : Mem} {d : D} {root q ka : Frame} {va flags : U64}

theorem Tables.keep (own : Tables mem roots) (nodup : mem'.free.Nodup)
    (same : ∀ d way t, IsTable mem roots d way t → mem'.pages t = mem.pages t ∧ t ∉ mem'.free) :
    Tables mem' roots ∧ (∀ d way t, IsTable mem' roots d way t → IsTable mem roots d way t) ∧
      ∀ d root v, roots d = some root → mem'.lookup root v = mem.lookup root v := by
  have entries : ∀ d root way t, roots d = some root → way.length ≤ 3 → mem.table root way = some t →
      ∀ i, mem'.entry t i = mem.entry t i := by
    intro d root way t found short reached i
    unfold Mem.entry
    rw [(same d way t ⟨root,found,short,reached⟩).1]
  have back : ∀ d way t, IsTable mem' roots d way t → IsTable mem roots d way t := by
    rintro d way t ⟨root,found,short,reached⟩
    rw [table_frame (fun way t short there => entries d root way t found (by omega) there) short] at reached
    exact ⟨root,found,short,reached⟩
  refine ⟨⟨nodup,?_,?_⟩,back,?_⟩
  · intro d d' way way' t one two
    exact own.once _ _ _ _ _ (back _ _ _ one) (back _ _ _ two)
  · intro d way t there
    exact (same d way t (back _ _ _ there)).2
  · intro d root v found
    exact lookup_frame (fun way t short there => entries d root way t found short there) v

theorem kzallocPage_tables [DecidableEq D] (own : Tables mem roots) (ran : mem.kzallocPage = .ok (q,mem')) (d : D) :
    Tables mem' (Function.update roots d (some q)) := by
  obtain ⟨queue,pages,_,_⟩ := kzallocPage_cases ran
  have inQueue : q ∈ mem.free := by
    rw [queue]
    exact List.mem_cons_self
  have nodup := own.nodup
  rw [queue,List.nodup_cons] at nodup
  have other : ∀ d way t, IsTable mem roots d way t → t ≠ q := by
    rintro d way t there rfl
    exact own.used _ _ _ there inQueue
  have same : ∀ d way t, IsTable mem roots d way t → mem'.pages t = mem.pages t ∧ t ∉ mem'.free := by
    intro d way t there
    refine ⟨by rw [pages,Function.update_of_ne (other _ _ _ there)],fun free => own.used _ _ _ there ?_⟩
    rw [queue]
    exact List.mem_cons_of_mem _ free
  obtain ⟨own',back,_⟩ := own.keep nodup.2 same
  exact own'.root nodup.1 (by rw [pages,Function.update_self]) (fun d way there => other d way q (back d way q there) rfl) d

theorem Tables.set (own : Tables mem roots) (here : roots d = some root)
    (reached : mem.table root (tableWay v) = some t)
    (entries : ∀ q j, mem'.entry q j = if q = t ∧ j = v.2.2.2 then e else mem.entry q j)
    (queue : mem'.free = mem.free) : Tables mem' roots := by
  refine ⟨by rw [queue]; exact own.nodup,?_,?_⟩
  · rintro d₁ d₂ way way' x ⟨root₁,found,short,one⟩ ⟨root₂,found',short',two⟩
    rw [set_tables own here reached entries found short] at one
    rw [set_tables own here reached entries found' short'] at two
    exact own.once d₁ d₂ way way' x ⟨root₁,found,short,one⟩ ⟨root₂,found',short',two⟩
  · rintro d₁ way x ⟨root₁,found,short,one⟩
    rw [set_tables own here reached entries found short] at one
    rw [queue]
    exact own.used d₁ way x ⟨root₁,found,short,one⟩

theorem vmmap_maps [DecidableEq D] (own : Tables mem roots) (here : roots d = some root)
    (ran : vmmap va ka flags (some root) mem = .ok (pt,mem')) :
    pt = some root ∧ Tables mem' roots ∧ ∀ d' root' v, roots d' = some root' →
      mem'.lookup root' v = if d' = d ∧ v = vpage va then entryFor ka flags else mem.lookup root' v := by
  obtain ⟨⟨slot,pt',middle⟩,got,ran⟩ := Runs.bind_ok.mp ran
  obtain ⟨widens,rfl,t,rfl,reached,_⟩ := getPte_widens own here got
  obtain ⟨_,found,ran⟩ := Runs.bind_ok.mp ran
  cases found
  obtain ⟨rfl,is⟩ := Prod.mk.inj (Except.ok.inj ran)
  have entries : ∀ q j, mem'.entry q j = if q = t ∧ j = (vpage va).2.2.2 then entryFor ka flags else middle.entry q j := by
    intro q j
    rw [← is]
    exact entry_setEntry middle t (part 3 va) (entryFor ka flags) q j
  refine ⟨rfl,widens.own.set here reached entries (by rw [← is]; rfl),?_⟩
  intro d' root' v found
  rw [← widens.lookups d' root' v found]
  exact set_lookup widens.own here reached entries found v

-- get_pte and vmmap of a directory whose `pt` is NULL begin with a new root.
theorem getPte_root (va : U64) (mem : Mem) : getPte true va none mem = (do
    let (root,mem) ← mem.kzallocPage
    getPte true va (some root) mem) := by
  unfold getPte
  cases mem.kzallocPage with
  | error trap => rfl
  | ok r => rfl

theorem vmmap_root (va : U64) (ka : Frame) (flags : U64) (mem : Mem) : vmmap va ka flags none mem = (do
    let (root,mem) ← mem.kzallocPage
    vmmap va ka flags (some root) mem) := by
  unfold vmmap
  rw [getPte_root]
  cases mem.kzallocPage with
  | error trap => rfl
  | ok r => rfl

variable [DecidableEq D] {s s' : Pgdirs D}

theorem getPte_keeps {alloc : Bool} {pt : Option Frame} (own : Tables mem roots)
    (ran : getPte alloc va (roots d) mem = .ok (slot,pt,mem')) :
    Tables mem' (Function.update roots d pt) := by
  have added : ∀ {roots : D → Option Frame} {mem : Mem} {root : Frame}, Tables mem roots → roots d = some root →
      getPte true va (some root) mem = .ok (slot,pt,mem') → Tables mem' (Function.update roots d pt) := by
    intro roots mem root own here ran
    obtain ⟨widens,rfl,_⟩ := getPte_widens own here ran
    rw [← here,Function.update_eq_self]
    exact widens.own
  cases alloc with
  | false =>
    obtain ⟨_,got⟩ := getPte_looks va (roots d) mem
    cases got.symm.trans ran
    rw [Function.update_eq_self]
    exact own
  | true =>
    cases here : roots d with
    | some root => exact added own here (here ▸ ran)
    | none =>
      rw [here,getPte_root] at ran
      obtain ⟨⟨root,middle⟩,took,ran⟩ := Runs.bind_ok.mp ran
      have result := added (kzallocPage_tables own took d) (Function.update_self ..) ran
      rwa [Function.update_idem] at result

theorem vmmap_keeps {pt : Option Frame} (own : Tables mem roots)
    (ran : vmmap va ka flags (roots d) mem = .ok (pt,mem')) :
    Tables mem' (Function.update roots d pt) := by
  have added : ∀ {roots : D → Option Frame} {mem : Mem} {root : Frame}, Tables mem roots → roots d = some root →
      vmmap va ka flags (some root) mem = .ok (pt,mem') → Tables mem' (Function.update roots d pt) := by
    intro roots mem root own here ran
    obtain ⟨rfl,own',_⟩ := vmmap_maps own here ran
    rw [← here,Function.update_eq_self]
    exact own'
  cases here : roots d with
  | some root => exact added own here (here ▸ ran)
  | none =>
    rw [here,vmmap_root] at ran
    obtain ⟨⟨root,middle⟩,took,ran⟩ := Runs.bind_ok.mp ran
    have result := added (kzallocPage_tables own took d) (Function.update_self ..) ran
    rwa [Function.update_idem] at result

theorem tables_step (own : Tables s.mem s.roots) {call : MapCall D} (elsewhere : Elsewhere s call)
    (ran : s.run call = .ok s') :
    Tables s'.mem s'.roots := by
  cases call with
  | init d =>
    obtain ⟨⟨root,mem⟩,took,ran⟩ := Runs.bind_ok.mp ran
    cases ran
    exact kzallocPage_tables own took d
  | getPte d va alloc =>
    obtain ⟨⟨slot,pt,mem⟩,got,ran⟩ := Runs.bind_ok.mp ran
    cases ran
    exact getPte_keeps own got
  | vmmap d va ka flags =>
    obtain ⟨⟨pt,mem⟩,mapped,ran⟩ := Runs.bind_ok.mp ran
    cases ran
    exact vmmap_keeps own mapped
  | other mem =>
    cases ran
    exact (own.keep elsewhere.1 elsewhere.2).1

theorem Tables.map {s : Pgdirs D} (own : Tables s.mem s.roots) (here : s.roots d = some root) : FiniteMap s d root := by
  refine ⟨?_,?_,?_,?_,?_⟩
  · intro va ka flags pt mem low ran
    obtain ⟨rfl,_,lookups⟩ := vmmap_maps own here ran
    refine ⟨rfl,fun d' root' va' found low' => ?_⟩
    rw [entryAt_lookup,entryAt_lookup,lookups d' root' _ found]
    simp only [same_page low' low]
  · intro va
    refine ⟨_,getPte_slot va root s.mem,?_⟩
    rw [Option.map_eq_none_iff]
    constructor
    · intro absent
      exact ⟨3,Nat.le_refl 3,absent⟩
    · rintro ⟨k,_,absent⟩
      cases found : s.mem.table root (tableWay (vpage va)) with
      | none => rfl
      | some t =>
        rw [← List.take_append_drop k (tableWay (vpage va))] at found
        obtain ⟨p,above⟩ := RadixTree.node_prefix found
        rw [Mem.table,above] at absent
        cases absent
  · intro va slot pt mem got
    obtain ⟨widens,rfl,_⟩ := getPte_widens own here got
    refine ⟨rfl,fun d' root' va' found => ?_⟩
    rw [entryAt_lookup,entryAt_lookup,widens.lookups d' root' _ found]
  · intro va va' slot pt mem low low' got got'
    rw [getPte_slot] at got got'
    simp only [Except.ok.injEq,Prod.mk.injEq,Option.map_eq_some_iff] at got got'
    obtain ⟨⟨t,found,is⟩,_⟩ := got
    obtain ⟨⟨t',found',is'⟩,_⟩ := got'
    obtain ⟨rfl,index⟩ := Slot.mk.inj (is.trans is'.symm)
    have ways := own.distinct here (tableWay (vpage va)) (tableWay (vpage va')) t (Nat.le_refl 3) (Nat.le_refl 3) found found'
    refine (same_page low low').mp ?_
    simp only [tableWay,vpage,List.cons.injEq,and_true] at ways
    simp only [vpage,Prod.mk.injEq]
    exact ⟨ways.1,ways.2.1,ways.2.2,index⟩
  · intro enough va
    refine ⟨?_,fun ka flags => ?_⟩
    · obtain ⟨r,ran,_⟩ := getPte_affords va root s.mem enough
      exact ⟨r,ran⟩
    · obtain ⟨r,ran,_⟩ := vmmap_affords va ka flags root s.mem enough
      exact ⟨r,ran⟩

-- Every directory of every run; at the start no page has a table.
theorem page_table_map {start : Pgdirs D} (nodup : start.mem.free.Nodup) (none : ∀ d, start.roots d = none)
    (path : Runs.Guarded Pgdirs.next Elsewhere start s) (here : s.roots d = some root) : FiniteMap s d root := by
  refine Tables.map (path.invariant (fun s => Tables s.mem s.roots) ⟨nodup,?_,?_⟩ ?_) here
  · rintro d _ _ _ _ ⟨root,found,_⟩
    rw [none d] at found
    cases found
  · rintro d _ _ ⟨root,found,_⟩
    rw [none d] at found
    cases found
  · intro s call s' own elsewhere ran
    exact tables_step own elsewhere (Runs.toOption_some ran)

end Steps

def emptyPgdirs : Pgdirs Bool := ⟨idle,fun _ => none⟩

-- Two pages of one directory and one of another at an address of the first.
theorem page_table_map_two : ∃ (s : Pgdirs Bool) (root : Frame), s.roots true = some root ∧
    entryAt 0x1000#64 (some root) s.mem = entryFor 7#36 pteUserData ∧
    FiniteMap s true root := by
  obtain ⟨s,ran,facts⟩ := Runs.some_such
      (x := Runs.exec Pgdirs.next emptyPgdirs [.init true,.init false,.vmmap true 0x1000#64 7#36 pteUserData,
      .vmmap false 0x1000#64 8#36 pteUserData,.vmmap true 0x40000000#64 9#36 pteUserData,.getPte true 0x80000000#64 true])
    (p := fun s => (s.roots true).any fun root => decide
        (entryAt 0x1000#64 (some root) s.mem = entryFor 7#36 pteUserData)) (by decide +kernel)
  obtain ⟨root,here,entry⟩ := Runs.some_such facts
  have path : Runs.Guarded Pgdirs.next Elsewhere emptyPgdirs s := by
    refine Runs.exec_always .start (fun call member s => ?_) ran
    simp only [List.mem_cons,List.not_mem_nil,or_false] at member
    rcases member with rfl | rfl | rfl | rfl | rfl | rfl <;> trivial
  exact ⟨s,root,here,of_decide_eq_true entry,page_table_map (idle_fresh Bool).nodup (fun _ => rfl) path here⟩

end PageTable
