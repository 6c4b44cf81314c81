import HonorKernel.DiskFormat
import HonorKernel.Runs
import HonorKernel.Tiling

-- kernel/mem.c: kalloc and kfree over pages of 256 units of 16 bytes. Memory is a map of
-- 8-byte words by their address; headers and links are words of the blocks themselves.
namespace KernelHeap
open DiskFormat BitSlice Tiling

-- `pages`: what kalloc_page has returned to kalloc so far.
structure Heap where
  mem : Nat → BitVec 64
  free : Fin 256 → Nat
  pages : List Nat

def Heap.write (h : Heap) (a : Nat) (w : BitVec 64) : Heap := ⟨Function.update h.mem a w,h.free,h.pages⟩

-- *(int*) node
def header (mem : Nat → BitVec 64) (node : Nat) : Int := (get 32 0 (mem node)).toInt
def Heap.setHeader (h : Heap) (node v : Nat) : Heap := h.write node (put 0 (BitVec.ofNat 32 v) (h.mem node))

def Heap.addToQueue (h : Heap) (i : Fin 256) (node : Nat) : Heap :=
  ⟨Function.update h.mem node (BitVec.ofNat 64 (h.free i)),Function.update h.free i node,h.pages⟩

def Heap.fetchFromQueue (h : Heap) (i : Fin 256) : Nat × Heap :=
  if h.free i = 0 then (0,h)
  else (h.free i,⟨h.mem,Function.update h.free i (h.mem (h.free i)).toNat,h.pages⟩)

def Heap.kallocPage (h : Heap) (page : Nat) : Heap := ⟨h.mem,h.free,page::h.pages⟩

def freeIndex (i : Int) : Except Fault (Fin 256) :=
  if inside : 0 ≤ i ∧ i < 256 then .ok ⟨i.toNat,by omega⟩ else .error .outOfBounds

-- `number` of kalloc: the units that `size` bytes and the header take.
def unitsFor (size : Nat) : Nat := if (size+8)%16 = 0 then (size+8)/16 else (size+8)/16+1

-- for (int i = number - 1; i < 256; i++) if (free[i] != 0)
def firstFit (free : Fin 256 → Nat) (i : Nat) : Option (Fin 256) :=
  (List.finRange 256).find? fun j => decide (i ≤ j.val ∧ free j ≠ 0)

-- `page` is what kalloc_page returns if it is called. The int `number` does not wrap for
-- a size below 2^35.
def kalloc (size page : Nat) (h : Heap) : Except Fault (Nat × Heap) := do
  let number := unitsFor size
  if number = 256 then .ok (page+8,(h.kallocPage page).setHeader page 256)
  else
    match firstFit h.free (number-1) with
    | some i =>
      let (node,h) := h.fetchFromQueue i
      if i.val+1-number = 0 then .ok (node+8,h.setHeader node (number-1))
      else do
        let rest ← freeIndex (i.val+1-number-1)
        .ok (node+8,(h.addToQueue rest (node+number*16)).setHeader node (number-1))
    | none => do
      let rest ← freeIndex (256-number-1)
      .ok (page+8,((h.kallocPage page).addToQueue rest (page+number*16)).setHeader page (number-1))

def kfree (ptr : Nat) (h : Heap) : Except Fault Heap := do
  let i ← freeIndex (header h.mem (ptr-8))
  .ok (h.addToQueue i (ptr-8))

-- What kalloc has returned and kfree has not got back, with the size asked for.
structure Live where
  ptr : Nat
  size : Nat
  deriving DecidableEq

def Live.piece (b : Live) : Piece := (b.ptr-8,16*unitsFor b.size)

structure State where
  heap : Heap
  live : List Live

-- Owners of blocks store into them between the calls: the word of byte `j` gets any value.
inductive Action where
  | kalloc (size page : Nat)
  | kfree (ptr : Nat)
  | store (ptr j : Nat) (w : BitVec 64)

-- kalloc_page returns aligned pages that it has not returned before.
def Fresh (h : Heap) (page : Nat) : Prop := page%4096 = 0 ∧ 0 < page ∧ page+4096 ≤ 2^64 ∧ page ∉ h.pages

instance (h : Heap) (page : Nat) : Decidable (Fresh h page) :=
  inferInstanceAs (Decidable (page%4096 = 0 ∧ 0 < page ∧ page+4096 ≤ 2^64 ∧ page ∉ h.pages))

def next (s : State) : Action → Option State
  | .kalloc size page =>
    if size+8 ≤ 255*16 ∧ Fresh s.heap page then
      (kalloc size page s.heap).toOption.map fun (ptr,heap) => ⟨heap,⟨ptr,size⟩::s.live⟩
    else none
  | .kfree ptr => do
    let b ← s.live.find? fun b => b.ptr = ptr
    let heap ← (kfree ptr s.heap).toOption
    some ⟨heap,s.live.erase b⟩
  | .store ptr j w => do
    let b ← s.live.find? fun b => b.ptr = ptr
    if j < b.size then some ⟨s.heap.write (ptr+8*(j/8)) w,s.live⟩ else none

def boot (mem : Nat → BitVec 64) : State := ⟨⟨mem,fun _ => 0,[]⟩,[]⟩

-- The blocks on one free list, in the order of its links.
def Linked (mem : Nat → BitVec 64) : Nat → List Piece → Prop
  | head,[] => head = 0
  | head,p::rest => head = p.1 ∧ p.1 ≠ 0 ∧ Linked mem (mem p.1).toNat rest

theorem Linked.frame {l : List Piece} (linked : Linked mem head l) (same : ∀ p ∈ l, mem' p.1 = mem p.1) :
    Linked mem' head l := by
  induction l generalizing head with
  | nil => exact linked
  | cons p rest ih =>
    obtain ⟨here,nonzero,later⟩ := linked
    refine ⟨here,nonzero,?_⟩
    rw [same p List.mem_cons_self]
    exact ih later fun q member => same q (List.mem_cons_of_mem _ member)

-- The pieces of memory in order: `held` are those on no free list.
structure Shape (h : Heap) (held : List Piece) (lists : Fin 256 → List Piece) : Prop where
  tiles : Tiles (h.pages.map fun page => (page,4096)) (held++gather lists)
  linked : ∀ i, Linked h.mem (h.free i) (lists i)
  sizes : ∀ i p, p ∈ lists i → p.2 = 16*(i.val+1)
  grid : ∀ p ∈ held++gather lists, p.1%16 = 0
  pages : ∀ page ∈ h.pages, page%4096 = 0 ∧ 0 < page ∧ page+4096 ≤ 2^64

section Pieces
variable {h : Heap} {held : List Piece} {lists : Fin 256 → List Piece} {i : Fin 256}

theorem Shape.bounds (shape : Shape h held lists) (member : p ∈ held++gather lists) : 0 < p.1 ∧ p.1+p.2 ≤ 2^64 := by
  obtain ⟨area,listed,inside⟩ := shape.tiles.inside p member
  obtain ⟨page,taken,rfl⟩ := List.mem_map.mp listed
  obtain ⟨_,positive,bounded⟩ := shape.pages page taken
  unfold Inside at inside
  simp only at inside
  omega

theorem Shape.perm (shape : Shape h held lists) (same : (held++gather lists).Perm (held'++gather lists'))
    (free : ∀ i, Linked h.mem (h.free i) (lists' i)) (sizes : ∀ i p, p ∈ lists' i → p.2 = 16*(i.val+1)) :
    Shape h held' lists' :=
  ⟨shape.tiles.perm same,free,sizes,fun p member => shape.grid p (same.mem_iff.mpr member),shape.pages⟩

theorem Shape.swap (shape : Shape h held lists) (same : held.Perm held') : Shape h held' lists :=
  shape.perm (same.append_right _) shape.linked shape.sizes

theorem Shape.first (shape : Shape h (p::held) lists) : ∀ q ∈ held++gather lists, q.1 ≠ p.1 := by
  intro q member
  have apart := (List.pairwise_cons.mp shape.tiles.apart).1 q member
  exact Ne.symm (apart.starts (shape.tiles.nonempty p List.mem_cons_self) (shape.tiles.nonempty q (List.mem_cons_of_mem _ member)))

theorem Shape.inner (shape : Shape h held lists) (there : q ∈ held++gather lists) (inside : q.1 < a ∧ a < q.1+q.2) :
    ∀ p ∈ held++gather lists, p.1 ≠ a := by
  intro p listed same
  have size := shape.tiles.nonempty p listed
  by_cases own : p = q
  · rw [own] at same
    omega
  · have apart := shape.tiles.apart.forall listed there own
    unfold Apart at apart
    omega

theorem Shape.write (shape : Shape h held lists) (a : Nat) (w : BitVec 64) (other : ∀ p ∈ gather lists, p.1 ≠ a) :
    Shape (h.write a w) held lists := by
  refine ⟨shape.tiles,?_,shape.sizes,shape.grid,shape.pages⟩
  intro i
  refine (shape.linked i).frame ?_
  intro p member
  exact Function.update_of_ne (other p ((mem_gather lists p).mpr ⟨i,member⟩)) _ _

theorem Shape.fetch (shape : Shape h held lists) (some : h.free i ≠ 0) : ∃ rest,
    Shape (h.fetchFromQueue i).2 ((h.free i,16*(i.val+1))::held) (Function.update lists i rest) := by
  have linked := shape.linked i
  cases chain : lists i with
  | nil =>
    rw [chain] at linked
    exact absurd linked some
  | cons p rest =>
    rw [chain] at linked
    obtain ⟨here,_,later⟩ := linked
    have listed : p ∈ lists i := by rw [chain]; exact List.mem_cons_self
    have whole : p = (h.free i,16*(i.val+1)) := Prod.ext here.symm (shape.sizes i p listed)
    have same : (held++gather lists).Perm ((p::held)++gather (Function.update lists i rest)) :=
      ((gather_tail lists i chain).append_left held).trans List.perm_middle
    refine ⟨rest,?_⟩
    unfold Heap.fetchFromQueue
    rw [if_neg some,← whole]
    refine ⟨shape.tiles.perm same,?_,?_,?_,shape.pages⟩
    · intro j
      by_cases same : j = i
      · subst same
        simp only [Function.update_self]
        rw [here]
        exact later
      · simp only [Function.update_of_ne same]
        exact shape.linked j
    · intro j q member
      by_cases same : j = i
      · subst same
        rw [Function.update_self] at member
        exact shape.sizes j q (by rw [chain]; exact List.mem_cons_of_mem _ member)
      · rw [Function.update_of_ne same] at member
        exact shape.sizes j q member
    · intro q member
      exact shape.grid q (same.mem_iff.mpr member)

theorem Shape.add (shape : Shape h ((a,16*(i.val+1))::held) lists) :
    Shape (h.addToQueue i a) held (Function.update lists i ((a,16*(i.val+1))::lists i)) := by
  have same : (((a,16*(i.val+1))::held)++gather lists).Perm (held++gather (Function.update lists i ((a,16*(i.val+1))::lists i))) := by
    refine List.perm_middle.symm.trans ?_
    exact (gather_cons lists i (a,16*(i.val+1))).symm.append_left held
  have elsewhere : ∀ j, Linked (Function.update h.mem a (BitVec.ofNat 64 (h.free i))) (h.free j) (lists j) := by
    intro j
    refine (shape.linked j).frame ?_
    intro p member
    exact Function.update_of_ne (shape.first p (List.mem_append_right _ ((mem_gather lists p).mpr ⟨j,member⟩))) _ _
  -- The link is read back as the old head: a block number below 2^64.
  have narrow : h.free i < 2^64 := by
    have linked := shape.linked i
    cases chain : lists i with
    | nil =>
      rw [chain] at linked
      rw [show h.free i = 0 from linked]
      decide
    | cons p rest =>
      rw [chain] at linked
      have member : p ∈ gather lists := (mem_gather lists p).mpr ⟨i,by rw [chain]; exact List.mem_cons_self⟩
      have bounds := shape.bounds (List.mem_append_right _ member)
      have size := shape.sizes i p (by rw [chain]; exact List.mem_cons_self)
      rw [linked.1]
      omega
  refine ⟨shape.tiles.perm same,?_,?_,fun p member => shape.grid p (same.mem_iff.mpr member),shape.pages⟩
  · intro j
    unfold Heap.addToQueue
    by_cases here : j = i
    · subst here
      simp only [Function.update_self]
      have positive := (shape.bounds (List.mem_append_left _ List.mem_cons_self)).1
      refine ⟨rfl,Nat.pos_iff_ne_zero.mp positive,?_⟩
      rw [Function.update_self,BitVec.toNat_ofNat,Nat.mod_eq_of_lt narrow]
      exact elsewhere j
    · simp only [Function.update_of_ne here]
      exact elsewhere j
  · intro j p member
    by_cases here : j = i
    · subst here
      rw [Function.update_self] at member
      rcases List.mem_cons.mp member with rfl | member
      · rfl
      · exact shape.sizes j p member
    · rw [Function.update_of_ne here] at member
      exact shape.sizes j p member

theorem Shape.carve {page : Nat} (shape : Shape h held lists) (fresh : Fresh h page) :
    Shape (h.kallocPage page) ((page,4096)::held) lists := by
  obtain ⟨aligned,positive,bounded,new⟩ := fresh
  have apart : ∀ other ∈ h.pages.map (fun page => (page,4096)), Apart (page,4096) other := by
    intro other member
    obtain ⟨page',listed,rfl⟩ := List.mem_map.mp member
    have aligned' := (shape.pages page' listed).1
    have different : page ≠ page' := by
      intro same
      rw [← same] at listed
      exact new listed
    unfold Apart
    simp only
    omega
  refine ⟨shape.tiles.extend (page,4096) (Nat.succ_pos _) apart,shape.linked,shape.sizes,?_,?_⟩
  · intro p member
    rcases List.mem_cons.mp member with rfl | member
    · simp only
      omega
    · exact shape.grid p member
  · intro page' member
    rcases List.mem_cons.mp member with rfl | member
    · exact ⟨aligned,positive,bounded⟩
    · exact shape.pages page' member

theorem Shape.split (shape : Shape h ((a,16*(m+n))::held) lists) (left : 0 < m) (right : 0 < n) :
    Shape h ((a,16*m)::(a+16*m,16*n)::held) lists := by
  have tiles := shape.tiles
  rw [Nat.mul_add] at tiles
  refine ⟨tiles.split (by omega) (by omega),shape.linked,shape.sizes,?_,shape.pages⟩
  have start := shape.grid (a,16*(m+n)) (List.mem_append_left _ List.mem_cons_self)
  simp only at start
  intro p member
  rcases List.mem_cons.mp member with rfl | member
  · exact start
  · rcases List.mem_cons.mp member with rfl | member
    · simp only
      omega
    · exact shape.grid p (List.mem_cons_of_mem _ member)

end Pieces

theorem unitsFor_bounds (size : Nat) : 0 < unitsFor size ∧ size+8 ≤ 16*unitsFor size ∧ 16*unitsFor size < size+24 := by
  unfold unitsFor
  split <;> omega

theorem freeIndex_ok {k : Int} (inside : 0 ≤ k ∧ k < 256) : ∃ i : Fin 256, freeIndex k = .ok i ∧ (i.val : Int) = k := by
  unfold freeIndex
  rw [dif_pos inside]
  exact ⟨_,rfl,by simp only; omega⟩

theorem header_setHeader (h : Heap) (node v : Nat) (small : v < 2^31) : header (h.setHeader node v).mem node = v := by
  unfold header Heap.setHeader Heap.write
  simp only [Function.update_self]
  rw [get_put _ _ _ (by decide)]
  rw [BitVec.toInt_ofNat']
  exact Int.bmod_eq_of_le (by omega) (by omega)

-- kalloc takes a block of exactly its units from a free list or a new page, and stores
-- to that block and to what is left of the one it came from.
theorem kalloc_spec {h : Heap} {held : List Piece} {lists : Fin 256 → List Piece} {size page : Nat}
    (shape : Shape h held lists) (small : size+8 ≤ 255*16) (fresh : Fresh h page) :
    ∃ node h' lists', kalloc size page h = .ok (node+8,h') ∧ Shape h' ((node,16*unitsFor size)::held) lists' ∧
      header h'.mem node = (unitsFor size-1 : Nat) ∧ ∀ p ∈ held, h'.mem p.1 = h.mem p.1 := by
  obtain ⟨positive,above,below⟩ := unitsFor_bounds size
  unfold kalloc
  generalize unitsFor size = number at *
  rw [if_neg (by omega)]
  -- The block is written to last, once the rest is on its list.
  have finish : ∀ {g : Heap} {node : Nat} {lists' : Fin 256 → List Piece}, Shape g ((node,16*number)::held) lists' →
      (∀ p ∈ held, g.mem p.1 = h.mem p.1) → Shape (g.setHeader node (number-1)) ((node,16*number)::held) lists' ∧
      header (g.setHeader node (number-1)).mem node = (number-1 : Nat) ∧
      ∀ p ∈ held, (g.setHeader node (number-1)).mem p.1 = h.mem p.1 := by
    intro g node lists' shape' kept
    refine ⟨shape'.write node _ fun p member => shape'.first p (List.mem_append_right _ member),
      header_setHeader g node _ (by omega),?_⟩
    intro p member
    rw [← kept p member]
    exact Function.update_of_ne (shape'.first p (List.mem_append_left _ member)) _ _
  -- What is left goes to the list of its size.
  have divide : ∀ {g : Heap} {node : Nat} {lists' : Fin 256 → List Piece} {rest : Fin 256}, g.mem = h.mem →
      Shape g ((node,16*(number+(rest.val+1)))::held) lists' →
      ∃ lists'', Shape (g.addToQueue rest (node+number*16)) ((node,16*number)::held) lists'' ∧
        ∀ p ∈ held, (g.addToQueue rest (node+number*16)).mem p.1 = h.mem p.1 := by
    intro g node lists' rest same shape'
    have parts := (shape'.split positive (Nat.succ_pos _)).swap (.swap _ _ _)
    rw [show node+16*number = node+number*16 by omega] at parts
    refine ⟨_,parts.add,?_⟩
    intro p member
    rw [← same]
    exact Function.update_of_ne (parts.first p (List.mem_append_left _ (List.mem_cons_of_mem _ member))) _ _
  cases fit : firstFit h.free (number-1) with
  | some i =>
    have found := List.find?_some fit
    simp only [decide_eq_true_eq] at found
    obtain ⟨rest',fetched⟩ := shape.fetch found.2
    have node : (h.fetchFromQueue i).1 = h.free i := by
      unfold Heap.fetchFromQueue
      rw [if_neg found.2]
    have mem : (h.fetchFromQueue i).2.mem = h.mem := by
      unfold Heap.fetchFromQueue
      rw [if_neg found.2]
    simp only
    rw [node]
    split
    · rename_i whole
      have exact : i.val+1 = number := by omega
      rw [exact] at fetched
      obtain ⟨still,recorded,kept⟩ := finish fetched fun p _ => by rw [mem]
      exact ⟨_,_,_,rfl,still,recorded,kept⟩
    · rename_i larger
      obtain ⟨rest,index,value⟩ := freeIndex_ok (k := (i.val+1-number-1 : Int)) (by omega)
      have units : i.val+1 = number+(rest.val+1) := by omega
      rw [units] at fetched
      obtain ⟨lists'',added,same⟩ := divide mem fetched
      obtain ⟨still,recorded,kept⟩ := finish added same
      rw [index]
      exact ⟨_,_,_,rfl,still,recorded,kept⟩
  | none =>
    have carved := shape.carve fresh
    obtain ⟨rest,index,value⟩ := freeIndex_ok (k := (256-number-1 : Int)) (by omega)
    rw [show 4096 = 16*(number+(rest.val+1)) by omega] at carved
    have mem : (h.kallocPage page).mem = h.mem := rfl
    obtain ⟨lists'',added,same⟩ := divide mem carved
    obtain ⟨still,recorded,kept⟩ := finish added same
    simp only
    rw [index]
    exact ⟨_,_,_,rfl,still,recorded,kept⟩

-- The invariant of every run, with the free lists laid open.
structure Kept (s : State) (lists : Fin 256 → List Piece) : Prop where
  shape : Shape s.heap (s.live.map Live.piece) lists
  bounded : ∀ b ∈ s.live, 8 ≤ b.ptr ∧ b.size+8 ≤ 255*16
  headers : ∀ b ∈ s.live, header s.heap.mem (b.ptr-8) = (unitsFor b.size-1 : Nat)

section Steps
variable {s s' : State} {lists : Fin 256 → List Piece}

theorem Kept.kfree (kept : Kept s lists) (member : b ∈ s.live) : ∃ i : Fin 256, i.val+1 = unitsFor b.size ∧
    kfree b.ptr s.heap = .ok (s.heap.addToQueue i (b.ptr-8)) := by
  obtain ⟨positive,above,below⟩ := unitsFor_bounds b.size
  have small := (kept.bounded b member).2
  obtain ⟨i,index,value⟩ := freeIndex_ok (k := ((unitsFor b.size-1 : Nat) : Int)) (by omega)
  refine ⟨i,by omega,?_⟩
  unfold KernelHeap.kfree
  rw [kept.headers b member,index]
  rfl

theorem Kept.remove (kept : Kept s lists) (member : b ∈ s.live) (i : Fin 256) (units : i.val+1 = unitsFor b.size) :
    ∃ lists', Kept ⟨s.heap.addToQueue i (b.ptr-8),s.live.erase b⟩ lists' := by
  have order : (s.live.map Live.piece).Perm ((b.ptr-8,16*(i.val+1))::(s.live.erase b).map Live.piece) := by
    rw [units]
    exact (List.perm_cons_erase member).map Live.piece
  have shape := kept.shape.swap order
  refine ⟨_,shape.add,?_,?_⟩
  · intro c listed
    exact kept.bounded c (List.mem_of_mem_erase listed)
  · intro c listed
    have other : c.ptr-8 ≠ b.ptr-8 := shape.first c.piece (List.mem_append_left _ (List.mem_map.mpr ⟨c,listed,rfl⟩))
    unfold header Heap.addToQueue
    simp only
    rw [Function.update_of_ne other]
    exact kept.headers c (List.mem_of_mem_erase listed)

theorem Kept.payload (kept : Kept s lists) (member : b ∈ s.live) (inside : j < b.size) :
    ∀ p ∈ s.live.map Live.piece++gather lists, p.1 ≠ b.ptr+8*(j/8) := by
  have bounds := kept.bounded b member
  have units := unitsFor_bounds b.size
  have there : b.piece ∈ s.live.map Live.piece++gather lists := List.mem_append_left _ (List.mem_map.mpr ⟨b,member,rfl⟩)
  refine kept.shape.inner there ?_
  unfold Live.piece
  simp only
  omega

theorem step_kept (kept : Kept s lists) (a : Action) (ran : next s a = some s') : ∃ lists', Kept s' lists' := by
  cases a with
  | kalloc size page =>
    simp only [next] at ran
    split at ran
    · rename_i asked
      obtain ⟨node,h',lists',returned,shape,recorded,same⟩ := kalloc_spec kept.shape asked.1 asked.2
      rw [returned] at ran
      cases ran
      have piece : Live.piece ⟨node+8,size⟩ = (node,16*unitsFor size) := rfl
      refine ⟨lists',?_,?_,?_⟩
      · simp only [List.map_cons,piece]
        exact shape
      · intro b member
        rcases List.mem_cons.mp member with rfl | member
        · exact ⟨by simp only; omega,asked.1⟩
        · exact kept.bounded b member
      · intro b member
        rcases List.mem_cons.mp member with rfl | member
        · exact recorded
        · unfold header
          rw [show h'.mem (b.ptr-8) = s.heap.mem (b.ptr-8) from same b.piece (List.mem_map.mpr ⟨b,member,rfl⟩)]
          exact kept.headers b member
    · cases ran
  | kfree ptr =>
    obtain ⟨b,found,ran⟩ := Option.bind_eq_some_iff.mp ran
    obtain ⟨heap,freed,ran⟩ := Option.bind_eq_some_iff.mp ran
    have member := List.mem_of_find?_eq_some found
    have same : b.ptr = ptr := by simpa using List.find?_some found
    subst same
    obtain ⟨i,units,returned⟩ := kept.kfree member
    rw [returned] at freed
    cases freed
    cases ran
    exact kept.remove member i units
  | store ptr j w =>
    obtain ⟨b,found,ran⟩ := Option.bind_eq_some_iff.mp ran
    have member := List.mem_of_find?_eq_some found
    have same : b.ptr = ptr := by simpa using List.find?_some found
    subst same
    split at ran
    · rename_i inside
      cases ran
      have other := kept.payload member inside
      refine ⟨lists,kept.shape.write _ _ fun p listed => other p (List.mem_append_right _ listed),kept.bounded,?_⟩
      intro c listed
      have apart : c.ptr-8 ≠ b.ptr+8*(j/8) := other c.piece (List.mem_append_left _ (List.mem_map.mpr ⟨c,listed,rfl⟩))
      unfold header Heap.write
      simp only
      rw [Function.update_of_ne apart]
      exact kept.headers c listed
    · cases ran

theorem boot_kept (mem : Nat → BitVec 64) : Kept (boot mem) fun _ => [] := by
  have none : gather (fun _ : Fin 256 => []) = [] := by simp [gather]
  refine ⟨⟨?_,fun _ => rfl,?_,?_,?_⟩,?_,?_⟩
  · simp only [boot,List.map_nil,List.nil_append,none]
    exact .nil
  · intro i p member; cases member
  · intro p member
    simp only [boot,List.map_nil,List.nil_append,none] at member
    cases member
  · intro page member; cases member
  · intro b member; cases member
  · intro b member; cases member

end Steps

-- What the users of the allocator rely on.
structure Sound (s : State) : Prop where
  placed : ∀ b ∈ s.live, b.ptr%8 = 0 ∧ ∃ page ∈ s.heap.pages, page ≤ b.ptr-8 ∧ 8 ≤ b.ptr ∧ b.ptr+b.size ≤ page+4096
  partition : ∃ lists : Fin 256 → List Piece, (∀ i, Linked s.heap.mem (s.heap.free i) (lists i) ∧ ∀ p ∈ lists i, p.2 = (i.val+1)*16) ∧
    Tiles (s.heap.pages.map fun page => (page,4096)) (s.live.map Live.piece++gather lists)
  headers : ∀ b ∈ s.live, header s.heap.mem (b.ptr-8) = (unitsFor b.size-1 : Nat)
  returns : ∀ b ∈ s.live, ∃ i : Fin 256, (i.val+1)*16 = b.piece.2 ∧ kfree b.ptr s.heap = .ok (s.heap.addToQueue i b.piece.1)
  serves : ∀ size page, size+8 ≤ 255*16 → Fresh s.heap page → ∃ r, kalloc size page s.heap = .ok r

theorem Kept.sound (kept : Kept s lists) : Sound s := by
  refine ⟨?_,⟨lists,?_,kept.shape.tiles⟩,kept.headers,?_,?_⟩
  · intro b member
    have there : b.piece ∈ s.live.map Live.piece++gather lists := List.mem_append_left _ (List.mem_map.mpr ⟨b,member,rfl⟩)
    have start := kept.shape.grid _ there
    obtain ⟨area,listed,inside⟩ := kept.shape.tiles.inside _ there
    obtain ⟨page,taken,rfl⟩ := List.mem_map.mp listed
    have bounds := kept.bounded b member
    have units := unitsFor_bounds b.size
    unfold Inside Live.piece at inside
    unfold Live.piece at start
    simp only at inside start
    exact ⟨by omega,page,taken,by omega,by omega,by omega⟩
  · intro i
    refine ⟨kept.shape.linked i,?_⟩
    intro p member
    rw [kept.shape.sizes i p member,Nat.mul_comm]
  · intro b member
    obtain ⟨i,units,returned⟩ := kept.kfree member
    refine ⟨i,?_,returned⟩
    unfold Live.piece
    simp only
    omega
  · intro size page small fresh
    obtain ⟨node,h',_,returned,_⟩ := kalloc_spec kept.shape small fresh
    exact ⟨_,returned⟩

theorem heap_sound {mem : Nat → BitVec 64} {s : State} (run : Runs.Reached next (boot mem) s) : Sound s := by
  have kept : ∃ lists, Kept s lists := by
    refine run.invariant (fun s => ∃ lists, Kept s lists) ⟨_,boot_kept mem⟩ ?_
    intro s a s' ⟨lists,kept⟩ _ ran
    exact step_kept kept a ran
  obtain ⟨lists,kept⟩ := kept
  exact kept.sound

-- Three blocks of one page, the middle one freed and its place split for a smaller one.
theorem heap_sound_of_split_block : ∃ s, Runs.exec next (boot fun _ => 0#64)
      [.kalloc 100 4096,.kalloc 50 8192,.kalloc 20 8192,.store 4104 99 7#64,.kfree 4216,.kalloc 10 8192] = some s ∧
      Sound s ∧
    s.live.map Live.ptr = [4216,4280,4104] := by
  obtain ⟨s,ran,facts⟩ := Runs.some_such
    (x := Runs.exec next (boot fun _ => 0#64)
      [.kalloc 100 4096,.kalloc 50 8192,.kalloc 20 8192,.store 4104 99 7#64,.kfree 4216,.kalloc 10 8192])
    (p := fun s => decide (s.live.map Live.ptr = [4216,4280,4104])) (by decide +kernel)
  exact ⟨s,ran,heap_sound (Runs.exec_reached .start ran),of_decide_eq_true facts⟩

end KernelHeap
