import HonorKernel.FreedPages

-- From init_pgdir to free_pgdir: where every page that left the queue is meanwhile.
namespace PageTable
open DiskFormat BitSlice

-- What the two counters say apart from the length of the queue.
def SameTotals (mem mem' : Mem) : Prop :=
  mem'.leftPageCnt-mem'.free.length = mem.leftPageCnt-mem.free.length ∧
      mem'.kallocPageCnt+mem'.free.length = mem.kallocPageCnt+mem.free.length

-- One directory.
def alone (pt : Option Frame) : Unit → Option Frame := fun _ => pt

-- The pages that a call of get_pte takes become tables.
structure Taken {D : Type*} (roots : D → Option Frame) (d : D) (mem mem' : Mem) : Prop where
  used : ∀ x ∈ mem.free, x ∈ mem'.free ∨ (∃ way, IsTable mem' roots d way x) ∧ mem'.refs x = 0
  totals : SameTotals mem mem'

-- `owned` are the pages that were obtained from kalloc_page and are not given back.
structure Building where
  mem : Mem
  pt : Option Frame
  owned : List Frame

-- `setPte` writes the entry through the pointer that get_pte returns, `fill` the page.
inductive BuildCall where
  | kalloc
  | kfree (p : Frame)
  | fill (p : Frame) (d : Page)
  | getPte (va : U64) (alloc : Bool)
  | vmmap (va : U64) (p : Frame) (flags : U64)
  | setPte (va : U64) (p : Frame) (flags : U64)

namespace Building

def run (s : Building) : BuildCall → Except Trap Building
  | .kalloc => do
    let (p,mem) ← s.mem.kallocPage
    .ok ⟨mem,s.pt,p::s.owned⟩
  | .kfree p => .ok ⟨s.mem.kfreePage p,s.pt,s.owned.erase p⟩
  | .fill p d => .ok { s with mem := s.mem.setPage p d }
  | .getPte va alloc => do
    let (_,pt,mem) ← PageTable.getPte alloc va s.pt s.mem
    .ok ⟨mem,pt,s.owned⟩
  | .vmmap va p flags => do
    let (pt,mem) ← PageTable.vmmap va p flags s.pt s.mem
    .ok ⟨mem,pt,s.owned⟩
  | .setPte va p flags => do
    let (slot,pt,mem) ← PageTable.getPte true va s.pt s.mem
    let slot ← notNull slot
    .ok ⟨mem.setAt slot (entryFor p flags),pt,s.owned⟩

def next (s : Building) (call : BuildCall) : Option Building := (s.run call).toOption

def mapped (s : Building) (v : VPage) : Option Frame := s.pt.bind fun root => mappedFrame s.mem root v
def table (s : Building) (p : Frame) : Prop := ∃ way, IsTable s.mem (alone s.pt) () way p

-- As kalloc_page returned it.
def Unmapped (s : Building) (p : Frame) : Prop := p ∈ s.owned ∧ ∀ v, s.mapped v ≠ some p

-- Every page is mapped at most once, and freed by nobody else while it is.
def Once (s : Building) : BuildCall → Prop
  | .kfree p => s.Unmapped p
  | .fill p _ => p ∈ s.owned
  | .vmmap _ p flags | .setPte _ p flags => s.Unmapped p ∧ s.mem.refs p = 0 ∧ flags &&& flagMask = flags
  | _ => True

-- A page that was not on the queue before is on it now as it was, or a table, or owned.
structure Kept (before : Mem) (s : Building) : Prop where
  root : ∃ root, s.pt = some root
  tables : Tables s.mem (alone s.pt)
  cover : ∀ x, x ∈ before.free ↔ x ∈ s.mem.free ∨ s.table x ∨ x ∈ s.owned
  nodup : s.owned.Nodup
  apart : ∀ p ∈ s.owned, p ∉ s.mem.free ∧ ¬ s.table p
  few : ∀ p, s.table p ∨ p ∈ s.owned → s.mem.refs p ≤ 1
  mapped : ∀ v p, s.mapped v = some p → p ∈ s.owned
  once : ∀ v v' p, s.mapped v = some p → s.mapped v' = some p → v = v'
  totals : SameTotals before s.mem

end Building

section Takes
variable {D : Type*} {roots : D → Option Frame} {mem mem' mem'' : Mem} {d : D} {root p q : Frame} {va : U64}

theorem SameTotals.trans (first : SameTotals mem mem') (second : SameTotals mem' mem'') : SameTotals mem mem'' :=
  ⟨second.1.trans first.1,second.2.trans first.2⟩

theorem kallocPage_counts (ran : mem.kallocPage = .ok (p,mem')) : mem.free = p::mem'.free ∧ mem'.pages = mem.pages ∧
    mem'.refs = Function.update mem.refs p 0 ∧ SameTotals mem mem' := by
  unfold Mem.kallocPage at ran
  split at ran
  · cases ran
  · rename_i p' rest queue
    cases ran
    refine ⟨queue,rfl,rfl,?_,?_⟩
    · rw [queue,List.length_cons]
      push_cast
      omega
    · rw [queue,List.length_cons]
      push_cast
      omega

theorem kzallocPage_totals (ran : mem.kzallocPage = .ok (p,mem')) : SameTotals mem mem' := by
  obtain ⟨⟨_,_⟩,took,ran⟩ := Runs.bind_ok.mp ran
  cases ran
  exact (kallocPage_counts took).2.2.2

theorem Taken.refl : Taken roots d mem mem := ⟨fun _ there => .inl there,rfl,rfl⟩

theorem Taken.trans (first : Taken roots d mem mem') (widens : Widens roots d mem' mem'')
    (second : Taken roots d mem' mem'') (own : Tables mem' roots) : Taken roots d mem mem'' := by
  refine ⟨fun x there => ?_,first.totals.trans second.totals⟩
  rcases first.used x there with free | ⟨⟨way,table⟩,zero⟩
  · exact second.used x free
  · exact .inr ⟨⟨way,widens.tables d way x table⟩,(widens.refs x (own.used _ _ _ table)).trans zero⟩

theorem descend_taken (own : Tables mem roots) (here : roots d = some root) (short : way.length < 3)
    (above : mem.table root way = some p) (ran : mem.descend true i p = .ok (found,mem')) : Taken roots d mem mem' := by
  unfold Mem.descend at ran
  split at ran
  · cases ran
    exact .refl
  · rename_i vacant
    rw [if_neg (by decide)] at ran
    obtain ⟨⟨q,middle⟩,took,ran⟩ := Runs.bind_ok.mp ran
    cases ran
    obtain ⟨queue,_,refs,_⟩ := kzallocPage_cases took
    have totals := kzallocPage_totals took
    refine ⟨fun x there => ?_,totals.1,totals.2⟩
    rw [queue,List.mem_cons] at there
    rcases there with rfl | free
    · refine .inr ⟨⟨_,(graft_widens own here short above vacant took).2⟩,?_⟩
      change middle.refs x = 0
      rw [refs,Function.update_self]
    · exact .inl free

theorem walk_taken (rest : List Index) (own : Tables mem roots) (here : roots d = some root)
    (length : way.length+rest.length ≤ 3) (above : mem.table root way = some p)
    (ran : mem.walk true rest p = .ok (found,mem')) : Taken roots d mem mem' := by
  induction rest generalizing mem way p with
  | nil =>
    cases ran
    exact .refl
  | cons i rest ih =>
    rw [List.length_cons] at length
    obtain ⟨⟨found',middle⟩,first,ran⟩ := Runs.bind_ok.mp ran
    obtain ⟨widens,q,rfl,reached⟩ := descend_widens own here (by omega) above first
    have taken := descend_taken own here (by omega) above first
    have long : (way++[i]).length+rest.length ≤ 3 := by
      rw [List.length_append,List.length_singleton]
      omega
    exact taken.trans (walk_widens rest widens.own here long reached ran).1 (ih widens.own long reached ran) widens.own

theorem getPte_taken (own : Tables mem roots) (here : roots d = some root)
    (ran : getPte true va (some root) mem = .ok (slot,pt,mem')) :
    Taken roots d mem mem' := by
  obtain ⟨⟨_,_⟩,first,ran⟩ := Runs.bind_ok.mp ran
  cases first
  obtain ⟨⟨table,middle⟩,walked,ran⟩ := Runs.bind_ok.mp ran
  cases ran
  have start : mem.table root [] = some root := rfl
  exact walk_taken [part 0 va,part 1 va,part 2 va] own here (by simp) start walked

end Takes

namespace Building
variable {before mem' : Mem} {s s' : Building} {root p t : Frame} {v : VPage}

theorem same_tables (owned' : List Frame) (same : ∀ t, s.table t → mem'.pages t = s.mem.pages t) :
    (∀ p, table ⟨mem',s.pt,owned'⟩ p ↔ s.table p) ∧
    ∀ v, mapped ⟨mem',s.pt,owned'⟩ v = s.mapped v := by
  have entries : ∀ root way t, s.pt = some root → way.length ≤ 3 → s.mem.table root way = some t →
      ∀ i, mem'.entry t i = s.mem.entry t i := by
    intro root way t found short reached i
    unfold Mem.entry
    rw [same t ⟨way,root,found,short,reached⟩]
  have ways : ∀ root way, s.pt = some root → way.length ≤ 3 → mem'.table root way = s.mem.table root way := by
    intro root way found short
    exact table_frame (fun way t short there => entries root way t found (by omega) there) short
  refine ⟨fun p => ⟨?_,?_⟩,fun v => ?_⟩
  · rintro ⟨way,root,found,short,reached⟩
    rw [ways root way found short] at reached
    exact ⟨way,root,found,short,reached⟩
  · rintro ⟨way,root,found,short,reached⟩
    rw [← ways root way found short] at reached
    exact ⟨way,root,found,short,reached⟩
  · unfold mapped
    cases here : s.pt with
    | none => rfl
    | some root =>
      rw [Option.bind_some,Option.bind_some,mappedFrame,mappedFrame,lookup_frame (entries root · · here)]

theorem Kept.data (kept : Kept before s) (same : ∀ t, s.table t → mem'.pages t = s.mem.pages t)
    (nodup : mem'.free.Nodup) (used : ∀ t, s.table t → t ∉ mem'.free) : Tables mem' (alone s.pt) := by
  refine (kept.tables.keep nodup ?_).1
  intro d way t there
  exact ⟨same t ⟨way,there⟩,used t ⟨way,there⟩⟩

theorem kalloc_kept (kept : Kept before s) (ran : s.run .kalloc = .ok s') : Kept before s' := by
  obtain ⟨⟨p,mem'⟩,took,ran⟩ := Runs.bind_ok.mp ran
  cases ran
  obtain ⟨queue,pages,refs,totals⟩ := kallocPage_counts took
  have inQueue : p ∈ s.mem.free := by
    rw [queue]
    exact List.mem_cons_self
  have nodup := kept.tables.nodup
  rw [queue,List.nodup_cons] at nodup
  have later : ∀ x, x ∈ mem'.free → x ∈ s.mem.free := by
    intro x there
    rw [queue]
    exact List.mem_cons_of_mem _ there
  have table_other : ∀ x, s.table x → x ∉ s.mem.free := fun x ⟨way,there⟩ => kept.tables.used () way x there
  obtain ⟨tables,maps⟩ := same_tables (s := s) (p::s.owned) fun t _ => congrFun pages t
  refine ⟨kept.root,?_,fun x => ?_,?_,?_,?_,?_,?_,kept.totals.trans totals⟩
  · exact kept.data (fun t _ => congrFun pages t) nodup.2 fun t there free => table_other t there (later t free)
  · rw [kept.cover,queue,tables,List.mem_cons,List.mem_cons]
    tauto
  · exact List.nodup_cons.mpr ⟨fun there => (kept.apart p there).1 inQueue,kept.nodup⟩
  · intro x there
    rw [tables]
    rcases List.mem_cons.mp there with rfl | old
    · exact ⟨nodup.1,fun table => table_other x table inQueue⟩
    · exact ⟨fun free => (kept.apart x old).1 (later x free),(kept.apart x old).2⟩
  · intro x there
    rw [tables] at there
    change mem'.refs x ≤ 1
    rw [refs]
    by_cases same : x = p
    · rw [same,Function.update_self]
      decide
    · rw [Function.update_of_ne same]
      exact kept.few x (there.imp_right fun member => (List.mem_cons.mp member).resolve_left same)
  · intro v x there
    rw [maps] at there
    exact List.mem_cons_of_mem _ (kept.mapped v x there)
  · intro v v' x there there'
    rw [maps] at there there'
    exact kept.once v v' x there there'

theorem kalloc_unmapped (kept : Kept before s) (ran : s.run .kalloc = .ok s') :
    ∃ p, s'.owned = p::s.owned ∧ s'.Unmapped p ∧ s'.mem.refs p = 0 ∧ ∀ v, s'.mapped v = s.mapped v := by
  obtain ⟨⟨p,mem'⟩,took,ran⟩ := Runs.bind_ok.mp ran
  cases ran
  obtain ⟨queue,pages,refs,_⟩ := kallocPage_counts took
  have maps := (same_tables (s := s) (p::s.owned) fun t _ => congrFun pages t).2
  refine ⟨p,rfl,⟨List.mem_cons_self,fun v there => ?_⟩,(congrFun refs p).trans (Function.update_self ..),maps⟩
  rw [maps] at there
  refine (kept.apart p (kept.mapped v p there)).1 ?_
  rw [queue]
  exact List.mem_cons_self

theorem kfree_kept (kept : Kept before s) (unmapped : s.Unmapped p) (ran : s.run (.kfree p) = .ok s') :
    Kept before s' := by
  cases ran
  obtain ⟨owned,free⟩ := unmapped
  obtain ⟨unused,noTable⟩ := kept.apart p owned
  obtain ⟨queue,left,count⟩ := kfreePage_queues (kept.few p (.inr owned))
  have pages : ∀ t, s.table t → (s.mem.kfreePage p).pages t = s.mem.pages t := by
    intro t there
    refine kfreePage_pages s.mem ?_
    rintro rfl
    exact noTable there
  have member : ∀ x, x ∈ s.owned.erase p ↔ x ≠ p ∧ x ∈ s.owned := fun x => kept.nodup.mem_erase_iff
  obtain ⟨tables,maps⟩ := same_tables (s.owned.erase p) pages
  refine ⟨kept.root,?_,fun x => ?_,kept.nodup.erase p,?_,?_,?_,?_,kept.totals.trans ?_⟩
  · refine kept.data pages ?_ fun t there => ?_
    · rw [queue]
      exact List.nodup_cons.mpr ⟨unused,kept.tables.nodup⟩
    · rw [queue,List.mem_cons,not_or]
      refine ⟨?_,?_⟩
      · rintro rfl
        exact noTable there
      · obtain ⟨way,there⟩ := there
        exact kept.tables.used () way t there
  · rw [kept.cover,queue,tables,member,List.mem_cons]
    by_cases same : x = p
    · subst same
      exact iff_of_true (.inr (.inr owned)) (.inl (.inl rfl))
    · simp only [same,false_or,ne_eq,not_false_eq_true,true_and]
  · intro x there
    rw [member] at there
    change x ∉ (s.mem.kfreePage p).free ∧ _
    rw [tables,queue,List.mem_cons,not_or]
    exact ⟨⟨there.1,(kept.apart x there.2).1⟩,(kept.apart x there.2).2⟩
  · intro x there
    change (s.mem.kfreePage p).refs x ≤ 1
    rw [tables,member] at there
    have apart : x ≠ p := by
      rintro rfl
      rcases there with table | ⟨other,_⟩
      · exact noTable table
      · exact other rfl
    rw [kfreePage_refs,Function.update_of_ne apart]
    exact kept.few x (there.imp_right And.right)
  · intro v x there
    rw [maps] at there
    rw [member]
    refine ⟨?_,kept.mapped v x there⟩
    rintro rfl
    exact free v there
  · intro v v' x there there'
    rw [maps] at there there'
    exact kept.once v v' x there there'
  · refine ⟨?_,?_⟩
    · change (s.mem.kfreePage p).leftPageCnt-(s.mem.kfreePage p).free.length = _
      rw [left,queue,List.length_cons]
      push_cast
      omega
    · change (s.mem.kfreePage p).kallocPageCnt+(s.mem.kfreePage p).free.length = _
      rw [count,queue,List.length_cons]
      push_cast
      omega

theorem fill_kept {d : Page} (kept : Kept before s) (owned : p ∈ s.owned) (ran : s.run (.fill p d) = .ok s') :
    Kept before s' := by
  cases ran
  have pages : ∀ t, s.table t → (s.mem.setPage p d).pages t = s.mem.pages t := by
    intro t there
    refine Function.update_of_ne ?_ _ _
    rintro rfl
    exact (kept.apart t owned).2 there
  obtain ⟨tables,maps⟩ := same_tables s.owned pages
  refine ⟨kept.root,?_,fun x => ?_,kept.nodup,fun x there => ?_,fun x there => ?_,fun v x there => ?_,
      fun v v' x there there' => ?_,kept.totals⟩
  · refine kept.data pages kept.tables.nodup ?_
    rintro t ⟨way,there⟩
    exact kept.tables.used () way t there
  · rw [tables]
    exact kept.cover x
  · rw [tables]
    exact kept.apart x there
  · rw [tables] at there
    exact kept.few x there
  · rw [maps] at there
    exact kept.mapped v x there
  · rw [maps] at there there'
    exact kept.once v v' x there there'

theorem Kept.widened (kept : Kept before s) (widens : Widens (alone s.pt) () s.mem mem')
    (taken : Taken (alone s.pt) () s.mem mem') : Kept before ⟨mem',s.pt,s.owned⟩ := by
  have added : ∀ x, table ⟨mem',s.pt,s.owned⟩ x → s.table x ∨ x ∈ s.mem.free := by
    rintro x ⟨way,there⟩
    exact (widens.added () way x there).imp (fun old => ⟨way,old⟩) And.right
  have stays : ∀ x, s.table x → table ⟨mem',s.pt,s.owned⟩ x := fun x ⟨way,there⟩ => ⟨way,widens.tables () way x there⟩
  have later : ∀ x, x ∈ mem'.free → x ∈ s.mem.free := fun x there => by
    by_contra used
    exact widens.kept used there
  have maps : ∀ v, Building.mapped ⟨mem',s.pt,s.owned⟩ v = s.mapped v := by
    intro v
    unfold Building.mapped
    cases here : s.pt with
    | none => rfl
    | some root =>
      rw [Option.bind_some,Option.bind_some,mappedFrame,mappedFrame,widens.lookups () root v here]
  refine ⟨kept.root,widens.own,fun x => ?_,kept.nodup,fun x there => ?_,fun x there => ?_,fun v x there => ?_,
      fun v v' x there there' => ?_,
    kept.totals.trans taken.totals⟩
  · rw [kept.cover]
    constructor
    · rintro (free | old | owned)
      · exact (taken.used x free).imp_right fun both => .inl both.1
      · exact .inr (.inl (stays x old))
      · exact .inr (.inr owned)
    · rintro (free | made | owned)
      · exact .inl (later x free)
      · exact (added x made).elim (fun old => .inr (.inl old)) .inl
      · exact .inr (.inr owned)
  · refine ⟨widens.kept (kept.apart x there).1,fun made => ?_⟩
    exact (added x made).elim (kept.apart x there).2 (kept.apart x there).1
  · have old : x ∉ s.mem.free → s.table x ∨ x ∈ s.owned → mem'.refs x ≤ 1 := by
      intro used there
      rw [widens.refs x used]
      exact kept.few x there
    rcases there with made | owned
    · by_cases free : x ∈ s.mem.free
      · rcases taken.used x free with left | ⟨_,zero⟩
        · obtain ⟨way,made⟩ := made
          exact absurd left (widens.own.used () way x made)
        · change mem'.refs x ≤ 1
          rw [zero]
          decide
      · exact old free (.inl ((added x made).resolve_right free))
    · exact old (kept.apart x owned).1 (.inr owned)
  · rw [maps] at there
    exact kept.mapped v x there
  · rw [maps] at there there'
    exact kept.once v v' x there there'

theorem Kept.placed {flags : U64} {r : Int} (kept : Kept before s) (here : s.pt = some root)
    (reached : s.mem.table root (tableWay v) = some t) (unmapped : s.Unmapped p)
    (masked : flags &&& flagMask = flags) (few : r ≤ 1)
        (is : mem' = { s.mem.setEntry t v.2.2.2 (entryFor p flags) with refs := Function.update s.mem.refs p r }) :
    Kept before ⟨mem',s.pt,s.owned⟩ ∧ ∀ v' x, Building.mapped ⟨mem',s.pt,s.owned⟩ v' = some x → v' = v ∨ s.mapped v' = some x := by
  have entries : ∀ q j, mem'.entry q j = if q = t ∧ j = v.2.2.2 then entryFor p flags else s.mem.entry q j := by
    intro q j
    rw [is]
    exact entry_setEntry s.mem t v.2.2.2 (entryFor p flags) q j
  have queue : mem'.free = s.mem.free := by rw [is]; rfl
  have here' : (alone s.pt) () = some root := here
  have ways : ∀ root' way, (alone s.pt) () = some root' → way.length ≤ 3 → mem'.table root' way = s.mem.table root' way :=
    fun root' way found short => set_tables kept.tables here' reached entries found short
  have tables : ∀ x, table ⟨mem',s.pt,s.owned⟩ x ↔ s.table x := by
    intro x
    constructor
    · rintro ⟨way,root',found,short,there⟩
      rw [ways root' way found short] at there
      exact ⟨way,root',found,short,there⟩
    · rintro ⟨way,root',found,short,there⟩
      rw [← ways root' way found short] at there
      exact ⟨way,root',found,short,there⟩
  have maps : ∀ v' x, Building.mapped ⟨mem',s.pt,s.owned⟩ v' = some x → v' = v ∧ x = p ∨ v' ≠ v ∧ s.mapped v' = some x := by
    intro v' x there
    unfold Building.mapped at there ⊢
    rw [here,Option.bind_some,mappedFrame_eq_some,set_lookup kept.tables here' reached entries here' v'] at there
    by_cases same : v' = v
    · rw [if_pos ⟨rfl,same⟩,frameOf_entryFor masked] at there
      exact .inl ⟨same,there.2.symm⟩
    · rw [if_neg (fun both => same both.2)] at there
      rw [here,Option.bind_some,mappedFrame_eq_some]
      exact .inr ⟨same,there⟩
  refine ⟨⟨kept.root,kept.tables.set here' reached entries queue,fun x => ?_,kept.nodup,fun x there => ?_,
      fun x there => ?_,fun v' x there => ?_,
    fun v₁ v₂ x there there' => ?_,kept.totals.trans ?_⟩,fun v' x there => (maps v' x there).imp And.left And.right⟩
  · rw [tables,queue]
    exact kept.cover x
  · rw [tables]
    change x ∉ mem'.free ∧ _
    rw [queue]
    exact kept.apart x there
  · rw [tables] at there
    change mem'.refs x ≤ 1
    rw [is]
    by_cases same : x = p
    · rw [same]
      simp only [Function.update_self]
      exact few
    · simp only [Function.update_of_ne same]
      exact kept.few x there
  · rcases maps v' x there with ⟨_,rfl⟩ | ⟨_,old⟩
    · exact unmapped.1
    · exact kept.mapped v' x old
  · rcases maps v₁ x there with ⟨rfl,rfl⟩ | ⟨_,old⟩
    · rcases maps v₂ x there' with ⟨rfl,_⟩ | ⟨_,old'⟩
      · rfl
      · exact absurd old' (unmapped.2 v₂)
    · rcases maps v₂ x there' with ⟨_,rfl⟩ | ⟨_,old'⟩
      · exact absurd old (unmapped.2 v₁)
      · exact kept.once v₁ v₂ x old old'
  · rw [is]
    exact ⟨rfl,rfl⟩

-- init_pgdir: the root is the only page that is taken, and nothing is mapped.
theorem kept_start {fp : Option Nat} {dir : PgDir} {mem : Mem} (nodup : before.free.Nodup)
    (ran : initPgdir fp before = .ok (dir,mem)) :
    Kept before ⟨mem,dir.pt,[]⟩ ∧ ∀ v, mapped ⟨mem,dir.pt,[]⟩ v = none := by
  obtain ⟨⟨root,mem'⟩,took,ran⟩ := Runs.bind_ok.mp ran
  cases ran
  obtain ⟨queue,pages,refs,_⟩ := kzallocPage_cases took
  have zero : mem.pages root = 0#32768 := by rw [pages,Function.update_self]
  have empty : Tables before (alone none) := ⟨nodup,fun _ _ _ _ _ ⟨_,found,_⟩ => (by cases found),fun _ _ _
      ⟨_,found,_⟩ => (by cases found)⟩
  have only : Function.update (alone none) () (some root) = alone (some root) := by
    funext d
    exact Function.update_self ..
  have own := kzallocPage_tables empty took ()
  rw [only] at own
  have table : ∀ x, Building.table ⟨mem,some root,[]⟩ x ↔ x = root := by
    intro x
    constructor
    · rintro ⟨way,there⟩
      rw [← only] at there
      rcases isTable_update zero there with ⟨_,found,_⟩ | ⟨_,_,same⟩
      · cases found
      · exact same
    · rintro rfl
      exact ⟨[],x,rfl,Nat.zero_le 3,rfl⟩
  have bare : ∀ v, mapped ⟨mem,some root,[]⟩ v = none := by
    intro v
    unfold mapped
    rw [Option.bind_some,mappedFrame,zero_lookup zero]
    rfl
  refine ⟨⟨⟨root,rfl⟩,own,fun x => ?_,List.nodup_nil,fun x there => (by cases there),fun x there => ?_,
      fun v x there => ?_,fun v v' x there => ?_,
    kzallocPage_totals took⟩,bare⟩
  · rw [table,queue,List.mem_cons]
    simp only [List.not_mem_nil,or_false]
    exact or_comm
  · rw [table] at there
    obtain rfl := there.resolve_right List.not_mem_nil
    change mem.refs x ≤ 1
    rw [refs,Function.update_self]
    decide
  · rw [bare] at there
    cases there
  · rw [bare] at there
    cases there

theorem getPte_kept {va : U64} {alloc : Bool} (kept : Kept before s) (ran : s.run (.getPte va alloc) = .ok s') :
    Kept before s' := by
  obtain ⟨⟨slot,pt,mem⟩,got,ran⟩ := Runs.bind_ok.mp ran
  cases ran
  cases alloc with
  | false =>
    obtain ⟨_,looked⟩ := getPte_looks va s.pt s.mem
    cases looked.symm.trans got
    exact kept
  | true =>
    obtain ⟨root,here⟩ := kept.root
    have here' : alone s.pt () = some root := here
    rw [here] at got
    obtain ⟨widens,rfl,_⟩ := getPte_widens kept.tables here' got
    have wide := kept.widened widens (getPte_taken kept.tables here' got)
    rwa [here] at wide

theorem entry_kept {va flags : U64} {mem : Mem} {slot : Option Slot} {pt : Option Frame} {r : Int}
    (kept : Kept before s) (unmapped : s.Unmapped p) (masked : flags &&& flagMask = flags) (few : r ≤ 1)
    (got : PageTable.getPte true va s.pt s.mem = .ok (slot,pt,mem)) :
    ∃ t, slot = some ⟨t,part 3 va⟩ ∧ mem.refs p = s.mem.refs p ∧
      ∀ mem', mem' = { mem.setEntry t (part 3 va) (entryFor p flags) with refs := Function.update mem.refs p r } →
        Kept before ⟨mem',pt,s.owned⟩ ∧ ∀ v x, mapped ⟨mem',pt,s.owned⟩ v = some x → v = vpage va ∨ s.mapped v = some x := by
  obtain ⟨root,here⟩ := kept.root
  have here' : alone s.pt () = some root := here
  rw [here] at got
  obtain ⟨widens,rfl,t,rfl,reached,_⟩ := getPte_widens kept.tables here' got
  have wide := kept.widened widens (getPte_taken kept.tables here' got)
  have maps : ∀ v, mapped ⟨mem,s.pt,s.owned⟩ v = s.mapped v := by
    intro v
    unfold mapped
    rw [here,Option.bind_some,Option.bind_some,mappedFrame,mappedFrame,widens.lookups () root v here']
  refine ⟨t,rfl,widens.refs p (kept.apart p unmapped.1).1,fun mem' is => ?_⟩
  have unmapped' : Unmapped ⟨mem,s.pt,s.owned⟩ p := ⟨unmapped.1,fun v => by rw [maps]; exact unmapped.2 v⟩
  have result := wide.placed (v := vpage va) here reached unmapped' masked few is
  simp only [maps] at result
  rwa [← here]

theorem vmmap_kept {va flags : U64} (kept : Kept before s) (unmapped : s.Unmapped p) (zero : s.mem.refs p = 0)
    (masked : flags &&& flagMask = flags) (ran : s.run (.vmmap va p flags) = .ok s') :
    Kept before s' ∧ ∀ v x, s'.mapped v = some x → v = vpage va ∨ s.mapped v = some x := by
  obtain ⟨⟨pt,mem⟩,mapped,ran⟩ := Runs.bind_ok.mp ran
  cases ran
  obtain ⟨⟨slot,pt',middle⟩,got,mapped⟩ := Runs.bind_ok.mp mapped
  obtain ⟨t,rfl,same,result⟩ := entry_kept kept unmapped masked (Int.le_refl 1) got
  cases mapped
  refine result _ ?_
  rw [same,zero]
  rfl

theorem setPte_kept {va flags : U64} (kept : Kept before s) (unmapped : s.Unmapped p) (zero : s.mem.refs p = 0)
    (masked : flags &&& flagMask = flags) (ran : s.run (.setPte va p flags) = .ok s') :
    Kept before s' ∧ ∀ v x, s'.mapped v = some x → v = vpage va ∨ s.mapped v = some x := by
  obtain ⟨⟨slot,pt,middle⟩,got,ran⟩ := Runs.bind_ok.mp ran
  obtain ⟨t,rfl,same,result⟩ := entry_kept kept unmapped masked (by decide : (0 : Int) ≤ 1) got
  obtain rfl := (Except.ok.inj ran).symm
  refine result _ ?_
  rw [show (0 : Int) = middle.refs p from (same.trans zero).symm,Function.update_eq_self]
  rfl

theorem kept_step {call : BuildCall} (kept : Kept before s) (once : s.Once call) (ran : s.run call = .ok s') :
    Kept before s' := by
  cases call with
  | kalloc => exact kalloc_kept kept ran
  | kfree p => exact kfree_kept kept once ran
  | fill p d => exact fill_kept kept once ran
  | getPte va alloc => exact getPte_kept kept ran
  | vmmap va p flags => exact (vmmap_kept kept once.1 once.2.1 once.2.2 ran).1
  | setPte va p flags => exact (setPte_kept kept once.1 once.2.1 once.2.2 ran).1

-- free_pgdir of a directory whose sections are apart and cover what it maps.
theorem Kept.frees {σ : Type} (files : Files σ) (fs : σ) {sections : List Section} (kept : Kept before s)
    (laid : ∀ st ∈ sections, st.Laid) (apart : sections.Pairwise Section.Apart) (bare : ∀ st ∈ sections, st.fp = none)
    (covered : ∀ v p, s.mapped v = some p → ∃ st ∈ sections, ∃ va ∈ st.pages, vpage va = v) :
    ∃ frames : List Frame, freePgdir files ⟨s.pt,sections⟩ s.mem fs = .ok (⟨none,[]⟩,s.mem.frees frames,fs) ∧
    frames.Nodup ∧
      ∀ p, p ∈ frames ↔ s.table p ∨ ∃ v, s.mapped v = some p := by
  obtain ⟨root,here⟩ := kept.root
  have here' : alone s.pt () = some root := here
  have maps : ∀ v, s.mapped v = mappedFrame s.mem root v := by
    intro v
    unfold Building.mapped
    rw [here]
    rfl
  have tables : ∀ p, s.table p ↔ p ∈ tableFrames s.mem 3 root := by
    intro p
    rw [mem_tableFrames]
    constructor
    · rintro ⟨way,root',found,short,reached⟩
      cases here'.symm.trans found
      exact ⟨way,short,reached⟩
    · rintro ⟨way,short,reached⟩
      exact ⟨way,root,here',short,reached⟩
  have users : sectionFrames s.mem root sections = ((sections.flatMap Section.pages).map vpage).filterMap
      (mappedFrame s.mem root) := by
    rw [List.filterMap_map]
    rfl
  have inside : ∀ p, p ∈ sectionFrames s.mem root sections ↔ ∃ v, s.mapped v = some p := by
    intro p
    rw [users,List.mem_filterMap]
    constructor
    · rintro ⟨v,_,there⟩
      exact ⟨v,(maps v).trans there⟩
    · rintro ⟨v,there⟩
      obtain ⟨st,member,va,page,rfl⟩ := covered v p there
      exact ⟨vpage va,List.mem_map.mpr ⟨va,List.mem_flatMap.mpr ⟨st,member,page⟩,rfl⟩,(maps _).symm.trans there⟩
  have data : ∀ p, s.table p → p ∉ sectionFrames s.mem root sections := by
    intro p there member
    obtain ⟨v,mapped⟩ := (inside p).mp member
    exact (kept.apart p (kept.mapped v p mapped)).2 there
  have ending := ending_of_laid laid
  refine ⟨sectionFrames s.mem root sections++tableFrames s.mem 3 root,?_,?_,fun p => ?_⟩
  · rw [here]
    refine freePgdir_frees files fs sections s.mem root (kept.tables.distinct here') ending bare ?_
    intro way t short reached
    exact data t ⟨way,root,here',short,reached⟩
  · rw [List.nodup_append]
    refine ⟨?_,RadixTree.postorder_nodup List.mem_finRange (List.nodup_finRange 512) (kept.tables.distinct here'),?_⟩
    · rw [users,List.map_flatMap]
      refine List.Nodup.filterMap ?_ (sections_nodup laid apart)
      intro v v' p there there'
      exact kept.once v v' p ((maps v).trans there) ((maps v').trans there')
    · rintro p member q table rfl
      exact data p ((tables p).mpr table) member
  · rw [List.mem_append,inside,← tables]
    exact or_comm

end Building

section Returned
variable {σ : Type} {before mem : Mem} {s : Building} {dir : PgDir} {fp : Option Nat} {sections : List Section}

-- Every page of the directory is on the queue again once, and if nobody else kept a page
-- then the queue holds what it held before init_pgdir.
theorem pages_returned (files : Files σ) (fs : σ) (nodup : before.free.Nodup)
    (started : initPgdir fp before = .ok (dir,mem))
    (path : Runs.Guarded Building.next Building.Once ⟨mem,dir.pt,[]⟩ s) (laid : ∀ st ∈ sections, st.Laid)
    (apart : sections.Pairwise Section.Apart) (bare : ∀ st ∈ sections, st.fp = none)
    (covered : ∀ v p, s.mapped v = some p → ∃ st ∈ sections, ∃ va ∈ st.pages, vpage va = v) :
    ∃ mem' freed, freePgdir files ⟨s.pt,sections⟩ s.mem fs = .ok (⟨none,[]⟩,mem',fs) ∧
    mem'.free = freed++s.mem.free ∧ mem'.free.Nodup ∧
      (∀ p, p ∈ freed ↔ s.table p ∨ ∃ v, s.mapped v = some p) ∧
      ((∀ p ∈ s.owned, ∃ v, s.mapped v = some p) → mem'.free.Perm before.free ∧ mem'.leftPageCnt = before.leftPageCnt ∧
        mem'.kallocPageCnt = before.kallocPageCnt) := by
  have kept : s.Kept before := by
    refine path.invariant (Building.Kept before) (Building.kept_start nodup started).1 ?_
    intro s call s' kept once ran
    exact Building.kept_step kept once (Runs.toOption_some ran)
  obtain ⟨frames,ran,once,members⟩ := kept.frees files fs laid apart bare covered
  have owner : ∀ p, p ∈ frames → s.table p ∨ p ∈ s.owned := by
    intro p member
    rcases (members p).mp member with table | ⟨v,mapped⟩
    · exact .inl table
    · exact .inr (kept.mapped v p mapped)
  obtain ⟨queue,left,count⟩ := frees_queue frames s.mem once fun p member => kept.few p (owner p member)
  have nodup' : (s.mem.frees frames).free.Nodup := by
    rw [queue,List.nodup_append]
    refine ⟨List.nodup_reverse.mpr once,kept.tables.nodup,?_⟩
    rintro p member q free rfl
    rcases owner p (List.mem_reverse.mp member) with ⟨way,table⟩ | owned
    · exact kept.tables.used () way p table free
    · exact (kept.apart p owned).1 free
  refine ⟨s.mem.frees frames,frames.reverse,ran,queue,nodup',fun p => ?_,fun given => ?_⟩
  · rw [List.mem_reverse]
    exact members p
  · have perm : (s.mem.frees frames).free.Perm before.free := by
      refine (List.perm_ext_iff_of_nodup nodup' nodup).mpr fun p => ?_
      rw [queue,List.mem_append,List.mem_reverse,members,kept.cover]
      constructor
      · rintro ((table | ⟨v,mapped⟩) | free)
        · exact .inr (.inl table)
        · exact .inr (.inr (kept.mapped v p mapped))
        · exact .inl free
      · rintro (free | table | owned)
        · exact .inr free
        · exact .inl (.inl table)
        · exact .inl (.inr (given p owned))
    have lengths := perm.length_eq
    rw [queue,List.length_append,List.length_reverse] at lengths
    obtain ⟨total,total'⟩ := kept.totals
    refine ⟨perm,?_,?_⟩
    · rw [left]
      omega
    · rw [count]
      omega

-- A page of text.
theorem pages_returned_text : ∃ (s : Building) (mem' : Mem), s.mapped (vpage 0x400000#64) = some 0x40101#36 ∧
    freePgdir noFiles ⟨s.pt,[text]⟩ s.mem () = .ok (⟨none,[]⟩,mem',()) ∧ mem'.free.Perm idle.free ∧
    mem'.leftPageCnt = 20 ∧
      mem'.kallocPageCnt = 0 := by
  obtain ⟨⟨dir,mem⟩,started,_⟩ := Runs.ok_such (x := initPgdir none idle) (p := fun _ => true) (by decide +kernel)
  obtain ⟨s₁,ran₁,owned⟩ := Runs.ok_such (x := do
      let start ← initPgdir none idle
      Building.run ⟨start.2,start.1.pt,[]⟩ .kalloc) (p := fun s : Building => decide (s.owned = [0x40101#36])) (by decide +kernel)
  obtain ⟨s,ran,there⟩ := Runs.ok_such (x := do
      let start ← initPgdir none idle
      let s ← Building.run ⟨start.2,start.1.pt,[]⟩ .kalloc
      s.run (.vmmap 0x400000#64 0x40101#36 pteUserData))
          (p := fun s : Building => decide (s.mapped (vpage 0x400000#64) = some 0x40101#36 ∧ s.owned = [0x40101#36]))
    (by decide +kernel)
  obtain ⟨mapped,one⟩ := of_decide_eq_true there
  simp only [started,bind,Except.bind] at ran₁ ran
  simp only [ran₁] at ran
  obtain ⟨kept,bare⟩ := Building.kept_start (by decide +kernel) started
  obtain ⟨p,list,unmapped,zero,maps⟩ := Building.kalloc_unmapped kept ran₁
  rw [of_decide_eq_true owned,List.cons.injEq] at list
  obtain ⟨rfl,_⟩ := list
  have masked : pteUserData &&& flagMask = pteUserData := by decide
  have toOption : ∀ {x : Except Trap Building} {s}, x = .ok s → x.toOption = some s := by
    rintro _ _ rfl
    rfl
  have first : Building.Once ⟨mem,dir.pt,[]⟩ .kalloc := trivial
  have second : Building.Once s₁ (.vmmap 0x400000#64 0x40101#36 pteUserData) := ⟨unmapped,zero,masked⟩
  have path : Runs.Guarded Building.next Building.Once ⟨mem,dir.pt,[]⟩ s := .step
      (.step .start first (toOption ran₁)) second (toOption ran)
  have laid : ∀ st ∈ [text], st.Laid := by
    intro st member
    rw [List.mem_singleton.mp member]
    exact .inr (by decide)
  have bare' : ∀ st ∈ [text], st.fp = none := by
    intro st member
    rw [List.mem_singleton.mp member]
    rfl
  have covered : ∀ v p, s.mapped v = some p → ∃ st ∈ [text], ∃ va ∈ st.pages, vpage va = v := by
    intro v p there
    rcases (Building.vmmap_kept (Building.kalloc_kept kept ran₁) unmapped zero masked ran).2 v p there with rfl | old
    · exact ⟨text,List.mem_singleton_self _,0x400000#64,by decide +kernel,rfl⟩
    · rw [maps,bare] at old
      cases old
  obtain ⟨mem',freed,done,_,_,_,back⟩ :=
    pages_returned noFiles () (by decide +kernel) started path laid (List.pairwise_singleton _ _) bare' covered
  obtain ⟨perm,left,count⟩ := back fun p member => by
    rw [one,List.mem_singleton] at member
    exact ⟨_,member ▸ mapped⟩
  exact ⟨s,mem',mapped,done,perm,left,count⟩

end Returned

end PageTable
