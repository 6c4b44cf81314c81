import HonorKernel.PageTable

-- Page tables as finite maps: what get_pte finds, and what stays as it is while tables
-- are added and entries are set.
namespace PageTable
open DiskFormat BitSlice RadixTree

-- A virtual page, by the four indices of its addresses.
abbrev VPage := Index × Index × Index × Index

def vpage (va : U64) : VPage := (part 0 va,part 1 va,part 2 va,part 3 va)
def tableWay (v : VPage) : List Index := [v.1,v.2.1,v.2.2.1]

def child (mem : Mem) (p : Frame) (i : Index) : Option Frame :=
  if valid (mem.entry p i) then some (frameOf (mem.entry p i)) else none

-- The table at the end of a way from the root, and the entry of a page; 0 where there is
-- no table.
def Mem.table (mem : Mem) (root : Frame) (way : List Index) : Option Frame := node (child mem) root way
def Mem.lookup (mem : Mem) (root : Frame) (v : VPage) : U64 :=
  match mem.table root (tableWay v) with
  | some t => mem.entry t v.2.2.2
  | none => 0#64

section Entries
variable {mem : Mem} {p q : Frame} {i j : Index} {e flags : U64} {d : Page}

theorem mask_bit (i : Nat) (small : i < 36) : flagMask.getLsbD (12+i) = false := by
  have all : ∀ i : Fin 36, flagMask.getLsbD (12+i.val) = false := by decide
  exact all ⟨i,small⟩

theorem frameOf_entryFor (masked : flags &&& flagMask = flags) : frameOf (entryFor p flags) = p := by
  apply BitVec.eq_of_getLsbD_eq
  intro i small
  have clear : flags.getLsbD (12+i) = false := by
    rw [← masked,BitVec.getLsbD_and,mask_bit i small,Bool.and_false]
  have inside : 12+i < 64 := by omega
  rw [frameOf,entryFor,get_bit,BitVec.getLsbD_or,clear,BitVec.getLsbD_shiftLeft,BitVec.getLsbD_setWidth]
  have low : i < 64 := by omega
  simp [small,inside,low]

theorem flagsOf_entryFor (masked : flags &&& flagMask = flags) : flagsOf (entryFor p flags) = flags := by
  have address : (p.setWidth 64 <<< 12) &&& flagMask = 0#64 := by
    apply BitVec.eq_of_getLsbD_eq
    intro i small
    rw [BitVec.getLsbD_and,BitVec.getLsbD_shiftLeft,BitVec.getLsbD_zero]
    by_cases low : i < 12
    · simp [low]
    · by_cases high : i-12 < 36
      · have clear := mask_bit (i-12) high
        rw [show 12+(i-12) = i by omega] at clear
        simp [clear]
      · have none : (p.setWidth 64).getLsbD (i-12) = false := by
          rw [BitVec.getLsbD_setWidth,BitVec.getLsbD_of_ge p (i-12) (by omega),Bool.and_false]
        simp [none]
  have spread : ((p.setWidth 64 <<< 12) ||| flags) &&& flagMask = ((p.setWidth 64 <<< 12) &&& flagMask) ||| (flags &&& flagMask) := by
    apply BitVec.eq_of_getLsbD_eq
    intro i _
    simp only [BitVec.getLsbD_and,BitVec.getLsbD_or,Bool.and_or_distrib_right]
  unfold flagsOf entryFor
  rw [spread,address,masked,BitVec.zero_or]

theorem flagsOf_masked (e : U64) : flagsOf e &&& flagMask = flagsOf e := by
  unfold flagsOf
  rw [BitVec.and_assoc,BitVec.and_self]

theorem valid_flagsOf (e : U64) : valid (flagsOf e) ↔ valid e := by
  have both : flagsOf e &&& pteValid = e &&& pteValid := by
    unfold flagsOf
    rw [BitVec.and_assoc]
    rfl
  rw [valid,both]

theorem valid_entryFor (masked : flags &&& flagMask = flags) : valid (entryFor p flags) ↔ valid flags := by
  rw [← valid_flagsOf,flagsOf_entryFor masked]

theorem entry_setPage (mem : Mem) (p : Frame) (d : Page) (q : Frame) (i : Index) :
    (mem.setPage p d).entry q i = if q = p then get 64 (64*i.val) d else mem.entry q i := by
  unfold Mem.entry Mem.setPage
  by_cases same : q = p
  · subst same
    simp
  · simp [same]

theorem entry_setEntry (mem : Mem) (p : Frame) (i : Index) (e : U64) (q : Frame) (j : Index) :
    (mem.setEntry p i e).entry q j = if q = p ∧ j = i then e else mem.entry q j := by
  unfold Mem.setEntry
  rw [entry_setPage]
  have inside : 64*i.val+64 ≤ 32768 := by
    have bound := i.isLt
    omega
  by_cases same : q = p
  · subst same
    rw [if_pos rfl]
    by_cases index : j = i
    · subst index
      rw [if_pos ⟨rfl,rfl⟩,get_put _ _ _ inside]
    · rw [if_neg (fun both => index both.2)]
      refine get_put_apart _ _ _ _ _ ?_
      have different : j.val ≠ i.val := fun equal => index (Fin.ext equal)
      omega
  · rw [if_neg same,if_neg (fun both => same both.1)]

end Entries

-- `roots` are the page tables in use, of the processes or of an image that execve builds.
section Trees
variable {D : Type*}

def IsTable (mem : Mem) (roots : D → Option Frame) (d : D) (way : List Index) (t : Frame) : Prop :=
  ∃ root, roots d = some root ∧ way.length ≤ 3 ∧ mem.table root way = some t

def Maps (mem : Mem) (roots : D → Option Frame) (d : D) (v : VPage) (e : U64) : Prop :=
  ∃ root, roots d = some root ∧ mem.lookup root v = e ∧ valid e

-- The queue holds none of the pages in use, and tables are in no other use.
structure Fresh (mem : Mem) (roots : D → Option Frame) : Prop where
  nodup : mem.free.Nodup
  table_once : ∀ d d' way way' t, IsTable mem roots d way t → IsTable mem roots d' way' t → d = d' ∧ way = way'
  table_used : ∀ d way t, IsTable mem roots d way t → t ∉ mem.free
  page_used : ∀ d v e, Maps mem roots d v e → frameOf e ∉ mem.free
  page_data : ∀ d v e, Maps mem roots d v e → ∀ d' way, ¬ IsTable mem roots d' way (frameOf e)

-- What is said there of the tables alone.
structure Tables (mem : Mem) (roots : D → Option Frame) : Prop where
  nodup : mem.free.Nodup
  once : ∀ d d' way way' t, IsTable mem roots d way t → IsTable mem roots d' way' t → d = d' ∧ way = way'
  used : ∀ d way t, IsTable mem roots d way t → t ∉ mem.free

-- Tables are added to those of `d`, with pages from the front of the queue; every entry
-- stays.
structure Widens (roots : D → Option Frame) (d : D) (mem mem' : Mem) : Prop where
  own : Tables mem' roots
  tables : ∀ d way t, IsTable mem roots d way t → IsTable mem' roots d way t
  added : ∀ d' way t, IsTable mem' roots d' way t → IsTable mem roots d' way t ∨ d' = d ∧ t ∈ mem.free
  lookups : ∀ d root v, roots d = some root → mem'.lookup root v = mem.lookup root v
  taken : ∃ front, mem.free = front++mem'.free
  pages : ∀ p, p ∉ mem.free → (∀ way, ¬ IsTable mem roots d way p) → mem'.pages p = mem.pages p
  refs : ∀ p, p ∉ mem.free → mem'.refs p = mem.refs p
  clean : mem'.clean = mem.clean

-- The same, where the mapped pages are in no other use either.
structure Grows (roots : D → Option Frame) (d : D) (mem mem' : Mem) : Prop where
  fresh : Fresh mem' roots
  tables : ∀ d way t, IsTable mem roots d way t → IsTable mem' roots d way t
  added : ∀ d' way t, IsTable mem' roots d' way t → IsTable mem roots d' way t ∨ d' = d ∧ t ∈ mem.free
  lookups : ∀ d root v, roots d = some root → mem'.lookup root v = mem.lookup root v
  taken : ∃ front, mem.free = front++mem'.free
  pages : ∀ p, p ∉ mem.free → (∀ way, ¬ IsTable mem roots d way p) → mem'.pages p = mem.pages p
  refs : ∀ p, p ∉ mem.free → mem'.refs p = mem.refs p
  clean : mem'.clean = mem.clean

variable {roots : D → Option Frame} {mem mem' mem'' : Mem} {d : D} {root p q t : Frame} {i : Index} {v : VPage}

theorem Fresh.tables (fresh : Fresh mem roots) : Tables mem roots := ⟨fresh.nodup,fresh.table_once,fresh.table_used⟩

theorem Widens.refl (own : Tables mem roots) : Widens roots d mem mem :=
  ⟨own,fun _ _ _ there => there,fun _ _ _ there => .inl there,fun _ _ _ _ => rfl,⟨[],rfl⟩,fun _ _ _ => rfl,fun _ _ => rfl,rfl⟩

theorem Widens.kept (widens : Widens roots d mem mem') (used : p ∉ mem.free) : p ∉ mem'.free := by
  obtain ⟨front,parts⟩ := widens.taken
  rw [parts] at used
  exact fun there => used (List.mem_append_right _ there)

theorem Widens.trans (first : Widens roots d mem mem') (second : Widens roots d mem' mem'') :
    Widens roots d mem mem'' := by
  have earlier : ∀ p, p ∈ mem'.free → p ∈ mem.free := fun p there => by
    by_contra used
    exact first.kept used there
  refine ⟨second.own,?_,?_,?_,?_,?_,?_,?_⟩
  · intro d way t there
    exact second.tables d way t (first.tables d way t there)
  · intro d' way t there
    rcases second.added d' way t there with old | ⟨same,new⟩
    · exact first.added d' way t old
    · exact .inr ⟨same,earlier t new⟩
  · intro d root v here
    rw [second.lookups d root v here,first.lookups d root v here]
  · obtain ⟨front,parts⟩ := first.taken
    obtain ⟨front',parts'⟩ := second.taken
    exact ⟨front++front',by rw [parts,parts',List.append_assoc]⟩
  · intro p used data
    have data' : ∀ way, ¬ IsTable mem' roots d way p := by
      intro way there
      rcases first.added d way p there with old | ⟨_,new⟩
      · exact data way old
      · exact used new
    rw [second.pages p (first.kept used) data',first.pages p used data]
  · intro p used
    rw [second.refs p (first.kept used),first.refs p used]
  · rw [second.clean,first.clean]

theorem Grows.widens (grows : Grows roots d mem mem') : Widens roots d mem mem' :=
  ⟨grows.fresh.tables,grows.tables,grows.added,grows.lookups,grows.taken,grows.pages,grows.refs,grows.clean⟩

theorem Widens.grown (widens : Widens roots d mem mem') (fresh : Fresh mem' roots) : Grows roots d mem mem' :=
  ⟨fresh,widens.tables,widens.added,widens.lookups,widens.taken,widens.pages,widens.refs,widens.clean⟩

theorem Widens.grows (widens : Widens roots d mem mem') (fresh : Fresh mem roots) : Grows roots d mem mem' := by
  have maps : ∀ d' v e, Maps mem' roots d' v e → Maps mem roots d' v e := by
    rintro d' v e ⟨root',found,value,set⟩
    rw [widens.lookups d' root' v found] at value
    exact ⟨root',found,value,set⟩
  refine widens.grown ⟨widens.own.nodup,widens.own.once,widens.own.used,?_,?_⟩
  · intro d' v e mapped
    exact widens.kept (fresh.page_used _ _ _ (maps _ _ _ mapped))
  · intro d' v e mapped d₁ other made
    rcases widens.added _ _ _ made with old | ⟨_,new⟩
    · exact fresh.page_data _ _ _ (maps _ _ _ mapped) _ _ old
    · exact fresh.page_used _ _ _ (maps _ _ _ mapped) new

theorem Grows.refl (fresh : Fresh mem roots) : Grows roots d mem mem := (Widens.refl fresh.tables).grown fresh

theorem Grows.kept (grows : Grows roots d mem mem') (used : p ∉ mem.free) : p ∉ mem'.free := grows.widens.kept used

theorem Grows.trans (first : Grows roots d mem mem') (second : Grows roots d mem' mem'') : Grows roots d mem mem'' :=
  (first.widens.trans second.widens).grown second.fresh

theorem Tables.distinct (own : Tables mem roots) (here : roots d = some root) :
    RadixTree.Distinct (child mem) root 3 := by
  intro way way' t short short' found found'
  exact (own.once d d way way' t ⟨root,here,short,found⟩ ⟨root,here,short',found'⟩).2

theorem Fresh.distinct (fresh : Fresh mem roots) (here : roots d = some root) : RadixTree.Distinct (child mem) root 3 := fresh.tables.distinct here

theorem table_frame (same : ∀ way t, way.length < 3 → mem.table root way = some t → ∀ i, mem'.entry t i = mem.entry t i)
    {way : List Index} (short : way.length ≤ 3) : mem'.table root way = mem.table root way := by
  refine RadixTree.node_frame ?_ short
  intro way t short found i
  simp only [child,same way t short found i]

theorem lookup_frame (same : ∀ way t, way.length ≤ 3 → mem.table root way = some t → ∀ i,
    mem'.entry t i = mem.entry t i) (v : VPage) :
    mem'.lookup root v = mem.lookup root v := by
  have tables : mem'.table root (tableWay v) = mem.table root (tableWay v) := by
    refine table_frame ?_ (Nat.le_refl 3)
    intro way t short found
    exact same way t (by omega) found
  unfold Mem.lookup
  rw [tables]
  split
  · rename_i t found
    exact same (tableWay v) t (Nat.le_refl 3) found _
  · rfl

theorem kzallocPage_cases (ran : mem.kzallocPage = .ok (q,mem')) :
    mem.free = q::mem'.free ∧ mem'.pages = Function.update mem.pages q 0#32768 ∧
    mem'.refs = Function.update mem.refs q 0 ∧
      mem'.clean = mem.clean := by
  obtain ⟨⟨p,middle⟩,took,ran⟩ := Runs.bind_ok.mp ran
  unfold Mem.kallocPage at took
  split at took
  · cases took
  · rename_i p rest queue
    cases took
    cases ran
    exact ⟨queue,rfl,rfl,rfl⟩

theorem child_entryFor (mem : Mem) (p q : Frame) (i : Index) (set : mem.entry p i = entryFor q pteTable) :
    child mem p i = some q := by
  have masked : pteTable &&& flagMask = pteTable := by decide
  have set' : valid (entryFor q pteTable) := (valid_entryFor masked).mpr (by decide)
  unfold child
  rw [set,if_pos set',frameOf_entryFor masked]

-- A new table `q` under an entry that is not valid, that of `p` at `i`.
structure Grafts (roots : D → Option Frame) (d : D) (root : Frame) (way : List Index) (p q : Frame) (i : Index) (mem last : Mem) : Prop where
  own : Tables mem roots
  here : roots d = some root
  short : way.length < 3
  above : mem.table root way = some p
  vacant : ¬ valid (mem.entry p i)
  queue : mem.free = q::last.free
  bare : ∀ j, last.entry q j = 0#64
  entries : ∀ x j, x ≠ q → last.entry x j = if x = p ∧ j = i then entryFor q pteTable else mem.entry x j

section Grafting
variable {way other : List Index} {last : Mem} {d' : D} {root' x : Frame}

theorem fresh_ne (queue : mem.free = q::mem'.free) (used : x ∉ mem.free) : x ≠ q := by
  rintro rfl
  exact used (by rw [queue]; exact List.mem_cons_self)

theorem kzallocPage_grafts (own : Tables mem roots) (here : roots d = some root) (short : way.length < 3)
    (above : mem.table root way = some p) (vacant : ¬ valid (mem.entry p i)) (took : mem.kzallocPage = .ok (q,mem')) :
    Grafts roots d root way p q i mem (mem'.setEntry p i (entryFor q pteTable)) := by
  obtain ⟨queue,pages,refs,clean⟩ := kzallocPage_cases took
  have different : p ≠ q := fresh_ne queue (own.used d way p ⟨root,here,by omega,above⟩)
  refine ⟨own,here,short,above,vacant,queue,fun j => ?_,fun x j other => ?_⟩
  · rw [entry_setEntry,if_neg (fun both => different both.1.symm)]
    unfold Mem.entry
    rw [pages,Function.update_self,get_zero]
  · have same : mem'.entry x j = mem.entry x j := by
      unfold Mem.entry
      rw [pages,Function.update_of_ne other]
    rw [entry_setEntry,same]

theorem Grafts.table (grafts : Grafts roots d root way p q i mem last) : IsTable mem roots d way p :=
  ⟨root,grafts.here,Nat.le_of_lt grafts.short,grafts.above⟩

theorem Grafts.fresh (grafts : Grafts roots d root way p q i mem last) (used : x ∉ mem.free) : x ≠ q := fresh_ne grafts.queue used

theorem Grafts.vacant_table (grafts : Grafts roots d root way p q i mem last) : mem.table root (way++[i]) = none := by
  have above := grafts.above
  rw [Mem.table] at above ⊢
  rw [RadixTree.node_snoc,above]
  simp only [Option.bind_some,child,if_neg grafts.vacant]

theorem Grafts.mine (grafts : Grafts roots d root way p q i mem last) (within : other.length ≤ 3) :
    last.table root other = if other = way++[i] then some q else mem.table root other := by
  have different : p ≠ q := grafts.fresh (grafts.own.used d way p grafts.table)
  refine RadixTree.node_graft (grafts.own.distinct grafts.here) grafts.above grafts.short ?_ ?_ ?_ ?_ ?_ within
  · simp only [child,if_neg grafts.vacant]
  · refine child_entryFor _ _ _ _ ?_
    rw [grafts.entries p i different,if_pos ⟨rfl,rfl⟩]
  · intro j beside
    simp [child,grafts.entries p j different,beside]
  · intro j
    have invalid : ¬ valid (last.entry q j) := by
      rw [grafts.bare]
      decide
    simp only [child,if_neg invalid]
  · intro other x within found apart j
    have used := grafts.own.used d other x ⟨root,grafts.here,by omega,found⟩
    simp only [child,grafts.entries x j (grafts.fresh used),if_neg (fun both : x = p ∧ j = i => apart both.1)]

theorem Grafts.others (grafts : Grafts roots d root way p q i mem last) (apart : d' ≠ d)
    (found : roots d' = some root') (within : other.length ≤ 3) :
    last.table root' other = mem.table root' other := by
  refine table_frame ?_ within
  intro other t within reached j
  have old : IsTable mem roots d' other t := ⟨root',found,by omega,reached⟩
  rw [grafts.entries t j (grafts.fresh (grafts.own.used _ _ _ old)),if_neg]
  rintro ⟨rfl,_⟩
  exact apart (grafts.own.once _ _ _ _ _ old grafts.table).1

theorem Grafts.tables (grafts : Grafts roots d root way p q i mem last) (d' : D) (other : List Index) (t : Frame) :
    IsTable last roots d' other t ↔ IsTable mem roots d' other t ∨ (d' = d ∧ other = way++[i] ∧ t = q) := by
  have short := grafts.short
  constructor
  · rintro ⟨root',found,within,reached⟩
    by_cases same : d' = d
    · subst same
      obtain rfl := Option.some.inj (grafts.here.symm.trans found)
      rw [grafts.mine within] at reached
      split at reached
      · rename_i new
        exact .inr ⟨rfl,new,(Option.some.inj reached).symm⟩
      · exact .inl ⟨root,found,within,reached⟩
    · rw [grafts.others same found within] at reached
      exact .inl ⟨root',found,within,reached⟩
  · rintro (⟨root',found,within,reached⟩ | ⟨rfl,rfl,rfl⟩)
    · refine ⟨root',found,within,?_⟩
      by_cases same : d' = d
      · subst same
        obtain rfl := Option.some.inj (grafts.here.symm.trans found)
        rw [grafts.mine within,if_neg]
        · exact reached
        · rintro rfl
          rw [grafts.vacant_table] at reached
          cases reached
      · rw [grafts.others same found within]
        exact reached
    · refine ⟨root,grafts.here,by simp; omega,?_⟩
      rw [grafts.mine (by simp; omega),if_pos rfl]

theorem Grafts.lookups (grafts : Grafts roots d root way p q i mem last) (found : roots d' = some root')
    (v : VPage) : last.lookup root' v = mem.lookup root' v := by
  have same : ∀ t, mem.table root' (tableWay v) = some t → last.entry t v.2.2.2 = mem.entry t v.2.2.2 := by
    intro t reached
    have old : IsTable mem roots d' (tableWay v) t := ⟨root',found,Nat.le_refl 3,reached⟩
    rw [grafts.entries t _ (grafts.fresh (grafts.own.used _ _ _ old)),if_neg]
    rintro ⟨rfl,_⟩
    have short := grafts.short
    rw [← (grafts.own.once _ _ _ _ _ old grafts.table).2] at short
    exact absurd short (Nat.lt_irrefl 3)
  have old : last.table root' (tableWay v) = mem.table root' (tableWay v) → last.lookup root' v = mem.lookup root' v := by
    intro tables
    unfold Mem.lookup
    rw [tables]
    split
    · rename_i t reached
      exact same t reached
    · rfl
  by_cases mine : d' = d
  · subst mine
    obtain rfl := Option.some.inj (grafts.here.symm.trans found)
    have table := grafts.mine (show (tableWay v).length ≤ 3 from Nat.le_refl 3)
    by_cases new : tableWay v = way++[i]
    · unfold Mem.lookup
      rw [table,if_pos new,new,grafts.vacant_table]
      exact grafts.bare _
    · exact old (table.trans (if_neg new))
  · exact old (grafts.others mine found (Nat.le_refl 3))

theorem Grafts.grown (grafts : Grafts roots d root way p q i mem last) : Tables last roots := by
  have nodup := grafts.own.nodup
  rw [grafts.queue,List.nodup_cons] at nodup
  have inQueue : q ∈ mem.free := by
    rw [grafts.queue]
    exact List.mem_cons_self
  refine ⟨nodup.2,?_,?_⟩
  · intro d₁ d₂ way₁ way₂ t one two
    rcases (grafts.tables _ _ _).mp one with one | ⟨rfl,rfl,rfl⟩
    · rcases (grafts.tables _ _ _).mp two with two | ⟨_,_,rfl⟩
      · exact grafts.own.once _ _ _ _ _ one two
      · exact absurd inQueue (grafts.own.used _ _ _ one)
    · rcases (grafts.tables _ _ _).mp two with two | ⟨rfl,rfl,_⟩
      · exact absurd inQueue (grafts.own.used _ _ _ two)
      · exact ⟨rfl,rfl⟩
  · intro d' other t made
    rcases (grafts.tables _ _ _).mp made with old | ⟨_,_,rfl⟩
    · exact fun there => grafts.own.used _ _ _ old (by rw [grafts.queue]; exact List.mem_cons_of_mem _ there)
    · exact nodup.1

theorem graft_tables (own : Tables mem roots) (here : roots d = some root) (short : way.length < 3)
    (above : mem.table root way = some p) (vacant : ¬ valid (mem.entry p i)) (took : mem.kzallocPage = .ok (q,mem'))
    (is : last = mem'.setEntry p i (entryFor q pteTable)) :
    (∀ d' other t, IsTable last roots d' other t ↔ IsTable mem roots d' other t ∨ (d' = d ∧ other = way++[i] ∧ t = q)) ∧
    (∀ d' root' v, roots d' = some root' → last.lookup root' v = mem.lookup root' v) ∧ Tables last roots := by
  have grafts := kzallocPage_grafts own here short above vacant took
  subst is
  exact ⟨grafts.tables,fun d' root' v found => grafts.lookups found v,grafts.grown⟩

end Grafting

theorem graft_widens (own : Tables mem roots) (here : roots d = some root) (short : way.length < 3)
    (above : mem.table root way = some p) (vacant : ¬ valid (mem.entry p i)) (took : mem.kzallocPage = .ok (q,mem')) :
    Widens roots d mem (mem'.setEntry p i (entryFor q pteTable)) ∧
    IsTable (mem'.setEntry p i (entryFor q pteTable)) roots d (way++[i]) q := by
  obtain ⟨queue,pages,refs,clean⟩ := kzallocPage_cases took
  have inQueue : q ∈ mem.free := by
    rw [queue]
    exact List.mem_cons_self
  have notFree : ∀ x, x ∉ mem.free → x ≠ q := fun x used => fresh_ne queue used
  have table : IsTable mem roots d way p := ⟨root,here,by omega,above⟩
  obtain ⟨last,is⟩ : ∃ last, last = mem'.setEntry p i (entryFor q pteTable) := ⟨_,rfl⟩
  rw [← is]
  obtain ⟨tables,lookups,own'⟩ := graft_tables own here short above vacant took is
  refine ⟨⟨own',?_,?_,lookups,?_,?_,?_,?_⟩,(tables _ _ _).mpr (.inr ⟨rfl,rfl,rfl⟩)⟩
  · intro d' other t old
    exact (tables _ _ _).mpr (.inl old)
  · intro d' other t made
    rcases (tables _ _ _).mp made with old | ⟨rfl,_,rfl⟩
    · exact .inl old
    · exact .inr ⟨rfl,inQueue⟩
  · exact ⟨[q],by rw [queue,is]; rfl⟩
  · intro x used data
    have apart : x ≠ p := by
      rintro rfl
      exact data _ table
    rw [is]
    simp only [Mem.setEntry,Mem.setPage]
    rw [Function.update_of_ne apart,pages,Function.update_of_ne (notFree x used)]
  · intro x used
    rw [is]
    simp only [Mem.setEntry,Mem.setPage]
    rw [refs,Function.update_of_ne (notFree x used)]
  · rw [is]
    exact clean

theorem descend_widens (own : Tables mem roots) (here : roots d = some root) (short : way.length < 3)
    (above : mem.table root way = some p) (ran : mem.descend true i p = .ok (found,mem')) :
    Widens roots d mem mem' ∧ ∃ q, found = some q ∧ mem'.table root (way++[i]) = some q := by
  unfold Mem.descend at ran
  split at ran
  · rename_i set
    cases ran
    refine ⟨.refl own,_,rfl,?_⟩
    rw [Mem.table] at above ⊢
    rw [RadixTree.node_snoc,above]
    simp only [Option.bind_some,child,if_pos set]
  · rename_i vacant
    rw [if_neg (by decide)] at ran
    obtain ⟨⟨q,middle⟩,took,ran⟩ := Runs.bind_ok.mp ran
    cases ran
    obtain ⟨widens,root',found,_,reached⟩ := graft_widens own here short above vacant took
    rw [here] at found
    cases found
    exact ⟨widens,q,rfl,reached⟩

theorem walk_widens (rest : List Index) (own : Tables mem roots) (here : roots d = some root)
    (length : way.length+rest.length ≤ 3) (above : mem.table root way = some p)
    (ran : mem.walk true rest p = .ok (found,mem')) :
    Widens roots d mem mem' ∧ ∃ q, found = some q ∧ mem'.table root (way++rest) = some q := by
  induction rest generalizing mem way p with
  | nil =>
    cases ran
    exact ⟨.refl own,p,rfl,by simpa using above⟩
  | cons i rest ih =>
    rw [List.length_cons] at length
    obtain ⟨⟨found',middle⟩,first,ran⟩ := Runs.bind_ok.mp ran
    obtain ⟨widens,q,rfl,reached⟩ := descend_widens own here (by omega) above first
    obtain ⟨widens',result⟩ := ih widens.own (by rw [List.length_append,List.length_singleton]; omega) reached ran
    refine ⟨widens.trans widens',?_⟩
    simpa using result

-- get_pte with `alloc`: tables are added where they are missing, and the entry is that
-- of the page.
theorem getPte_widens (own : Tables mem roots) (here : roots d = some root)
    (ran : getPte true va (some root) mem = .ok (slot,pt,mem')) :
    Widens roots d mem mem' ∧ pt = some root ∧
      ∃ t, slot = some ⟨t,part 3 va⟩ ∧ mem'.table root (tableWay (vpage va)) = some t ∧
      mem'.entry t (part 3 va) = mem.lookup root (vpage va) := by
  obtain ⟨⟨_,_⟩,first,ran⟩ := Runs.bind_ok.mp ran
  cases first
  obtain ⟨⟨table,middle⟩,walked,ran⟩ := Runs.bind_ok.mp ran
  cases ran
  have start : mem.table root [] = some root := rfl
  obtain ⟨widens,t,rfl,reached⟩ := walk_widens [part 0 va,part 1 va,part 2 va] own here (by simp) start walked
  refine ⟨widens,rfl,t,rfl,reached,?_⟩
  rw [← widens.lookups d root (vpage va) here]
  unfold Mem.lookup
  rw [show mem'.table root (tableWay (vpage va)) = some t from reached]
  rfl

theorem getPte_grows (fresh : Fresh mem roots) (here : roots d = some root)
    (ran : getPte true va (some root) mem = .ok (slot,pt,mem')) :
    Grows roots d mem mem' ∧ pt = some root ∧
      ∃ t, slot = some ⟨t,part 3 va⟩ ∧ mem'.table root (tableWay (vpage va)) = some t ∧
      mem'.entry t (part 3 va) = mem.lookup root (vpage va) := by
  obtain ⟨widens,rest⟩ := getPte_widens fresh.tables here ran
  exact ⟨widens.grows fresh,rest⟩

theorem walk_reads (rest : List Index) (above : mem.table root way = some p)
    (ran : mem.walk false rest p = .ok (found,mem')) :
    mem' = mem ∧ found = mem.table root (way++rest) := by
  induction rest generalizing way p with
  | nil =>
    cases ran
    exact ⟨rfl,by simpa using above.symm⟩
  | cons i rest ih =>
    obtain ⟨⟨found',middle⟩,first,ran⟩ := Runs.bind_ok.mp ran
    have next : mem.table root (way++[i]) = child mem p i := by
      rw [Mem.table] at above ⊢
      rw [RadixTree.node_snoc,above]
      rfl
    unfold Mem.descend at first
    split at first
    · rename_i set
      cases first
      rw [child,if_pos set] at next
      obtain ⟨same,result⟩ := ih next ran
      exact ⟨same,by simpa using result⟩
    · rename_i vacant
      rw [if_pos rfl] at first
      cases first
      cases ran
      refine ⟨rfl,?_⟩
      rw [child,if_neg vacant] at next
      cases reached : mem.table root (way++i::rest) with
      | none => rfl
      | some t =>
        rw [show way++i::rest = (way++[i])++rest by simp] at reached
        obtain ⟨q,above⟩ := RadixTree.node_prefix reached
        rw [Mem.table] at next
        rw [next] at above
        cases above

theorem getPte_reads (ran : getPte false va (some root) mem = .ok (slot,pt,mem')) :
    mem' = mem ∧ pt = some root ∧ (slot = none ∧ mem.lookup root (vpage va) = 0#64 ∨
      ∃ t, slot = some ⟨t,part 3 va⟩ ∧ mem.table root (tableWay (vpage va)) = some t ∧
      mem.entry t (part 3 va) = mem.lookup root (vpage va)) := by
  obtain ⟨⟨_,_⟩,first,ran⟩ := Runs.bind_ok.mp ran
  cases first
  obtain ⟨⟨table,middle⟩,walked,ran⟩ := Runs.bind_ok.mp ran
  cases ran
  have start : mem.table root [] = some root := rfl
  obtain ⟨rfl,result⟩ := walk_reads [part 0 va,part 1 va,part 2 va] start walked
  have result : table = mem'.table root (tableWay (vpage va)) := result
  refine ⟨rfl,rfl,?_⟩
  unfold Mem.lookup
  cases table with
  | none =>
    rw [← result]
    exact .inl ⟨rfl,rfl⟩
  | some t =>
    rw [← result]
    exact .inr ⟨t,rfl,rfl,rfl⟩

theorem walk_looks (way : List Index) (p : Frame) (mem : Mem) : ∃ found, mem.walk false way p = .ok (found,mem) := by
  induction way generalizing p with
  | nil => exact ⟨some p,rfl⟩
  | cons i way ih =>
    unfold Mem.walk Mem.descend
    by_cases set : valid (mem.entry p i)
    · rw [if_pos set]
      exact ih _
    · rw [if_neg set,if_pos rfl]
      exact ⟨none,rfl⟩

theorem getPte_looks (va : U64) (pt : Option Frame) (mem : Mem) :
    ∃ slot, getPte false va pt mem = .ok (slot,pt,mem) := by
  cases pt with
  | none => exact ⟨none,rfl⟩
  | some root =>
    obtain ⟨found,walked⟩ := walk_looks [part 0 va,part 1 va,part 2 va] root mem
    unfold getPte
    simp only [bind,Except.bind,walked]
    exact ⟨_,rfl⟩

theorem set_tables (own : Tables mem roots) (here : roots d = some root)
    (reached : mem.table root (tableWay v) = some t)
    (entries : ∀ q j, mem'.entry q j = if q = t ∧ j = v.2.2.2 then e else mem.entry q j) {d' : D} {root' : Frame}
    (found : roots d' = some root') {way : List Index} (short : way.length ≤ 3) :
    mem'.table root' way = mem.table root' way := by
  refine table_frame ?_ short
  intro way q short reached' j
  rw [entries,if_neg]
  rintro ⟨rfl,_⟩
  have ways := (own.once d' d way (tableWay v) q ⟨root',found,by omega,reached'⟩ ⟨root,here,Nat.le_refl 3,reached⟩).2
  rw [ways] at short
  exact absurd short (Nat.lt_irrefl 3)

theorem set_lookup [DecidableEq D] (own : Tables mem roots) (here : roots d = some root)
    (reached : mem.table root (tableWay v) = some t)
    (entries : ∀ q j, mem'.entry q j = if q = t ∧ j = v.2.2.2 then e else mem.entry q j) {d' : D} {root' : Frame}
    (found : roots d' = some root') (v' : VPage) :
    mem'.lookup root' v' = if d' = d ∧ v' = v then e else mem.lookup root' v' := by
  have tables : mem'.table root' (tableWay v') = mem.table root' (tableWay v') :=
    set_tables own here reached entries found (Nat.le_refl 3)
  unfold Mem.lookup
  rw [tables]
  by_cases same : d' = d ∧ v' = v
  · obtain ⟨rfl,rfl⟩ := same
    rw [here] at found
    cases found
    rw [if_pos ⟨rfl,rfl⟩,reached]
    simp only
    rw [entries,if_pos ⟨rfl,rfl⟩]
  · rw [if_neg same]
    split
    · rename_i q reached'
      rw [entries,if_neg]
      rintro ⟨rfl,index⟩
      obtain ⟨rfl,ways⟩ := own.once d' d (tableWay v') (tableWay v) q ⟨root',found,Nat.le_refl 3,reached'⟩
          ⟨root,here,Nat.le_refl 3,reached⟩
      refine same ⟨rfl,?_⟩
      obtain ⟨a,b,c,i⟩ := v
      obtain ⟨a',b',c',i'⟩ := v'
      simp only [tableWay,List.cons.injEq,and_true] at ways
      simp only at index
      obtain ⟨rfl,rfl,rfl⟩ := ways
      rw [index]
    · rfl

theorem data_tables (data : ∀ way, ¬ IsTable mem roots d way p)
    (entries : ∀ q j, q ≠ p → mem'.entry q j = mem.entry q j) (found : roots d = some root) {way : List Index}
    (short : way.length ≤ 3) : mem'.table root way = mem.table root way := by
  refine table_frame ?_ short
  intro way q short reached j
  refine entries q j ?_
  rintro rfl
  exact data way ⟨root,found,by omega,reached⟩

theorem data_lookup (data : ∀ way, ¬ IsTable mem roots d way p)
    (entries : ∀ q j, q ≠ p → mem'.entry q j = mem.entry q j) (found : roots d = some root) (v : VPage) :
    mem'.lookup root v = mem.lookup root v := by
  refine lookup_frame ?_ v
  intro way q short reached j
  refine entries q j ?_
  rintro rfl
  exact data way ⟨root,found,short,reached⟩

-- Both at once for the pages in use: nothing is lost when the tables and the entries
-- that map a page are as before, or a page not in use comes in.
theorem Fresh.remap (fresh : Fresh mem roots) (tables : ∀ d way t, IsTable mem' roots d way t →
    IsTable mem roots d way t)
    (shorter : mem'.free.Sublist mem.free) (maps : ∀ d v e, Maps mem' roots d v e → Maps mem roots d v e ∨
      frameOf e ∉ mem'.free ∧ ∀ d way, ¬ IsTable mem roots d way (frameOf e)) : Fresh mem' roots := by
  refine ⟨fresh.nodup.sublist shorter,?_,?_,?_,?_⟩
  · intro d d' way way' t one two
    exact fresh.table_once _ _ _ _ _ (tables _ _ _ one) (tables _ _ _ two)
  · intro d way t there free
    exact fresh.table_used _ _ _ (tables _ _ _ there) (shorter.subset free)
  · intro d v e mapped
    rcases maps d v e mapped with old | new
    · exact fun free => fresh.page_used _ _ _ old (shorter.subset free)
    · exact new.1
  · intro d v e mapped d' way there
    rcases maps d v e mapped with old | new
    · exact fresh.page_data _ _ _ old _ _ (tables _ _ _ there)
    · exact new.2 _ _ (tables _ _ _ there)

-- One entry of `d` gets a new value.
structure Mapped (roots : D → Option Frame) (d : D) (v : VPage) (e : U64) (mem mem' : Mem) : Prop where
  fresh : Fresh mem' roots
  tables : ∀ d way t, IsTable mem roots d way t → IsTable mem' roots d way t
  added : ∀ d' way t, IsTable mem' roots d' way t → IsTable mem roots d' way t ∨ d' = d ∧ t ∈ mem.free
  here : ∀ root, roots d = some root → mem'.lookup root v = e
  lookups : ∀ d' root v', roots d' = some root → (d' = d → v' ≠ v) → mem'.lookup root v' = mem.lookup root v'
  taken : ∃ front, mem.free = front++mem'.free
  pages : ∀ p, p ∉ mem.free → (∀ way, ¬ IsTable mem roots d way p) → mem'.pages p = mem.pages p
  clean : mem'.clean = mem.clean

theorem Mapped.maps (mapped : Mapped roots d v e mem mem') {d' : D} {v' : VPage} {e' : U64}
    (maps : Maps mem' roots d' v' e') :
    Maps mem roots d' v' e' ∧ (d' = d → v' ≠ v) ∨ d' = d ∧ v' = v ∧ e' = e := by
  obtain ⟨root,found,value,set⟩ := maps
  by_cases same : d' = d ∧ v' = v
  · obtain ⟨rfl,rfl⟩ := same
    rw [mapped.here root found] at value
    exact .inr ⟨rfl,rfl,value.symm⟩
  · have apart : d' = d → v' ≠ v := fun one two => same ⟨one,two⟩
    rw [mapped.lookups d' root v' found apart] at value
    exact .inl ⟨⟨root,found,value,set⟩,apart⟩

theorem setEntry_mapped (fresh : Fresh mem roots) (here : roots d = some root)
    (reached : mem.table root (tableWay v) = some t)
    (page : ∀ q j, mem'.entry q j = if q = t ∧ j = v.2.2.2 then e else mem.entry q j) (queue : mem'.free = mem.free)
    (pages : ∀ p, p ≠ t → mem'.pages p = mem.pages p) (clean : mem'.clean = mem.clean)
    (unused : valid e → frameOf e ∉ mem.free ∧ ∀ d way, ¬ IsTable mem roots d way (frameOf e)) :
    Mapped roots d v e mem mem' := by
  classical
  have tables : ∀ d' way q, IsTable mem' roots d' way q ↔ IsTable mem roots d' way q := by
    intro d' way q
    constructor
    · rintro ⟨root',found,short,there⟩
      rw [set_tables fresh.tables here reached page found short] at there
      exact ⟨root',found,short,there⟩
    · rintro ⟨root',found,short,there⟩
      exact ⟨root',found,short,by rw [set_tables fresh.tables here reached page found short]; exact there⟩
  have table : IsTable mem roots d (tableWay v) t := ⟨root,here,Nat.le_refl 3,reached⟩
  refine ⟨?_,fun _ _ _ there => (tables _ _ _).mpr there,fun _ _ _ there => .inl ((tables _ _ _).mp there),?_,?_,
      ⟨[],by rw [queue]; rfl⟩,?_,clean⟩
  · refine fresh.remap (fun _ _ _ there => (tables _ _ _).mp there) (by rw [queue]) ?_
    rintro d' v' e' ⟨root',found,value,set⟩
    rw [set_lookup fresh.tables here reached page found v'] at value
    split at value
    · subst value
      rw [queue]
      exact .inr (unused set)
    · exact .inl ⟨root',found,value,set⟩
  · intro root' found
    rw [set_lookup fresh.tables here reached page found v,if_pos ⟨rfl,rfl⟩]
  · intro d' root' v' found apart
    rw [set_lookup fresh.tables here reached page found v',if_neg]
    rintro ⟨rfl,rfl⟩
    exact apart rfl rfl
  · intro p used data
    refine pages p ?_
    rintro rfl
    exact data _ table

theorem Grows.mapped (grows : Grows roots d mem mem') (mapped : Mapped roots d v e mem' mem'') :
    Mapped roots d v e mem mem'' := by
  have earlier : ∀ p, p ∈ mem'.free → p ∈ mem.free := fun p there => by
    by_contra used
    exact grows.kept used there
  refine ⟨mapped.fresh,?_,?_,mapped.here,?_,?_,?_,?_⟩
  · intro d way t there
    exact mapped.tables _ _ _ (grows.tables _ _ _ there)
  · intro d' way t there
    rcases mapped.added _ _ _ there with old | ⟨same,new⟩
    · exact grows.added _ _ _ old
    · exact .inr ⟨same,earlier t new⟩
  · intro d' root' v' found apart
    rw [mapped.lookups _ _ _ found apart,grows.lookups _ _ _ found]
  · obtain ⟨front,parts⟩ := grows.taken
    obtain ⟨front',parts'⟩ := mapped.taken
    exact ⟨front++front',by rw [parts,parts',List.append_assoc]⟩
  · intro p used data
    have data' : ∀ way, ¬ IsTable mem' roots d way p := by
      intro way there
      rcases grows.added d way p there with old | ⟨_,new⟩
      · exact data way old
      · exact used new
    rw [mapped.pages p (grows.kept used) data',grows.pages p used data]
  · rw [mapped.clean,grows.clean]

theorem vmmap_mapped (fresh : Fresh mem roots) (here : roots d = some root) (masked : flags &&& flagMask = flags)
    (used : ka ∉ mem.free) (data : ∀ d way, ¬ IsTable mem roots d way ka)
    (ran : vmmap va ka flags (some root) mem = .ok (pt,mem')) :
    pt = some root ∧ Mapped roots d (vpage va) (entryFor ka flags) mem mem' ∧
      ∀ p, p ∉ mem.free → mem'.refs p = if p = ka then mem.refs p+1 else mem.refs p := by
  obtain ⟨⟨slot,pt',middle⟩,got,ran⟩ := Runs.bind_ok.mp ran
  obtain ⟨grows,rfl,t,rfl,reached,_⟩ := getPte_grows fresh here got
  cases ran
  have data' : ∀ d way, ¬ IsTable middle roots d way ka := by
    intro d' way there
    rcases grows.added d' way ka there with old | ⟨_,new⟩
    · exact data d' way old
    · exact used new
  refine ⟨rfl,grows.mapped (setEntry_mapped grows.fresh here reached ?_ rfl ?_ rfl ?_),?_⟩
  · intro q j
    exact entry_setEntry middle t (part 3 va) (entryFor ka flags) q j
  · intro p apart
    simp only [Mem.setAt,Mem.setEntry,Mem.setPage]
    rw [Function.update_of_ne apart]
  · intro _
    rw [frameOf_entryFor masked]
    exact ⟨grows.kept used,data'⟩
  · intro p notFree
    simp only
    split
    · rename_i same
      rw [same,Function.update_self,grows.refs ka used]
    · rename_i other
      rw [Function.update_of_ne other,grows.refs p notFree]

end Trees

end PageTable
