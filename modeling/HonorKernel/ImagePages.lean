import HonorKernel.SpaceOperations
import Mathlib.Data.Finset.Card

-- How many pages execve takes for the new address space, to the page.
namespace PageTable
open DiskFormat BitSlice

-- A call that takes `n` pages: it returns exactly if the queue has as many. `after` is
-- the memory behind it.
structure Takes (n : Nat) (mem : Mem) (after : α → Mem) (post : α → Prop) (x : Except Trap α) : Prop where
  enough : n ≤ mem.free.length → ∃ a, x = .ok a
  took : ∀ a, x = .ok a → post a ∧ mem.free.length = (after a).free.length+n

section Rules
variable {α β : Type} {mem : Mem} {after : α → Mem} {post post' : α → Prop} {m n : Nat} {x : Except Trap α}

theorem Takes.returns (takes : Takes n mem after post x) : (∃ a, x = .ok a) ↔ n ≤ mem.free.length := by
  refine ⟨?_,takes.enough⟩
  rintro ⟨a,ran⟩
  have count := (takes.took a ran).2
  omega

theorem Takes.pure {a : α} (same : (after a).free = mem.free) (holds : post a) : Takes 0 mem after post (.ok a) := by
  refine ⟨fun _ => ⟨a,rfl⟩,fun b ran => ?_⟩
  cases ran
  exact ⟨holds,by rw [same,Nat.add_zero]⟩

theorem Takes.bind {f : α → Except Trap β} {after' : β → Mem} {last : β → Prop} (first : Takes m mem after post x)
    (rest : ∀ a, x = .ok a → post a → Takes n (after a) after' last (f a)) : Takes (m+n) mem after' last (x >>= f) := by
  constructor
  · intro enough
    obtain ⟨a,ran⟩ := first.enough (by omega)
    obtain ⟨holds,count⟩ := first.took a ran
    obtain ⟨b,ran'⟩ := (rest a ran holds).enough (by omega)
    exact ⟨b,by rw [ran]; exact ran'⟩
  · intro b ran
    obtain ⟨a,ran,ran'⟩ := Runs.bind_ok.mp ran
    obtain ⟨holds,count⟩ := first.took a ran
    obtain ⟨holds',count'⟩ := (rest a ran holds).took b ran'
    exact ⟨holds',by omega⟩

theorem Takes.mono (takes : Takes n mem after post x) (weaker : ∀ a, x = .ok a → post a → post' a) :
    Takes n mem after post' x :=
  ⟨takes.enough,fun a ran => ⟨weaker a ran (takes.took a ran).1,(takes.took a ran).2⟩⟩

end Rules

-- The tables below `way` on the way along `rest`.
def prefixes : List Index → List Index → Finset (List Index)
  | _,[] => ∅
  | way,i::rest => {way++[i]} ∪ prefixes (way++[i]) rest

-- The tables below the root that an address goes through, and those of a list of addresses.
def tablesTo (va : U64) : Finset (List Index) := prefixes [] [part 0 va,part 1 va,part 2 va]
def tablesFor : List U64 → Finset (List Index)
  | [] => ∅
  | va::rest => tablesTo va ∪ tablesFor rest

-- The pages of a loop that goes over `len` bytes at `va` page by page; `fuel` is `len`.
def chunkPages : Nat → U64 → Nat → List U64
  | 0,_,_ => []
  | fuel+1,va,len =>
    if len = 0 then []
    else
      let n := min (pageSize-pageOffset va) len
      va::chunkPages fuel (va+BitVec.ofNat 64 n) (len-n)

def Segment.filePages (seg : Segment) : List U64 := chunkPages seg.bytes.length seg.vaddr seg.bytes.length
def Segment.places (seg : Segment) : List U64 := seg.filePages++seg.bss
def stackPlaces (top : U64) : List U64 := ((List.range stackPages).map (·+1)).map fun i => top-BitVec.ofNat 64 (i*pageSize)
def copyPlaces (copied : List (U64 × List Byte)) : List U64 := copied.flatMap fun copy => chunkPages copy.2.length copy.1 copy.2.length

-- The root, the pages with bytes of the file, the stack, and the tables.
def imageTables (segs : List Segment) : Finset (List Index) := tablesFor (segs.flatMap Segment.places)
def imagePages (segs : List Segment) (top : U64) (copied : List (U64 × List Byte)) : Nat :=
  1+(segs.flatMap Segment.filePages).length+stackPages+(imageTables segs ∪ tablesFor (stackPlaces top) ∪ tablesFor
      (copyPlaces copied)).card

-- The tables of `d` below its root.
def Ways {D : Type*} (roots : D → Option Frame) (d : D) (mem : Mem) (W : Finset (List Index)) : Prop :=
  ∀ way, way ≠ [] → (way ∈ W ↔ ∃ t, IsTable mem roots d way t)

theorem card_parts {ι : Type*} [DecidableEq ι] (A B W : Finset ι) :
    ((A ∪ B) \ W).card = (A \ W).card+(B \ (W ∪ A)).card := by
  have parts : (A ∪ B) \ W = (A \ W) ∪ (B \ (W ∪ A)) := by
    ext x
    simp only [Finset.mem_sdiff,Finset.mem_union]
    tauto
  rw [parts,Finset.card_union_of_disjoint]
  refine Finset.disjoint_left.mpr fun x first second => ?_
  simp only [Finset.mem_sdiff,Finset.mem_union] at first second
  exact second.2 (.inr first.1)

theorem card_three {ι : Type*} [DecidableEq ι] (A B C : Finset ι) :
    (A ∪ B ∪ C).card = A.card+((B \ A).card+(C \ (A ∪ B)).card) := by
  have inner := card_parts A B ∅
  have outer := card_parts (A ∪ B) C ∅
  simp only [Finset.sdiff_empty,Finset.empty_union] at inner outer
  omega

section Building
variable {D : Type*} {holes : Holes} {zero : Frame} {mem mem' : Mem} {roots : D → Option Frame} {d : D}
  {root p q : Frame} {va : U64} {way : List Index} {i : Index} {W : Finset (List Index)}

theorem Ways.same (ways : Ways roots d mem W)
    (same : ∀ way t, IsTable mem' roots d way t ↔ IsTable mem roots d way t) : Ways roots d mem' W := by
  intro way below
  simp only [same]
  exact ways way below

theorem Ways.data (ways : Ways roots d mem W) (data : ∀ way, ¬ IsTable mem roots d way p)
    (entries : ∀ q j, q ≠ p → mem'.entry q j = mem.entry q j) : Ways roots d mem' W := by
  refine ways.same fun way t => ?_
  constructor
  · rintro ⟨root,found,short,reached⟩
    exact ⟨root,found,short,by rw [← data_tables data entries found short]; exact reached⟩
  · rintro ⟨root,found,short,reached⟩
    exact ⟨root,found,short,by rw [data_tables data entries found short]; exact reached⟩

theorem Ways.setPage (ways : Ways roots d mem W) (data : ∀ way, ¬ IsTable mem roots d way p) (page : Page) :
    Ways roots d (mem.setPage p page) W :=
  ways.data data fun q j other => by rw [entry_setPage,if_neg other]

theorem Ways.took (ways : Ways roots d mem W) (sane : Sane holes zero mem roots)
    (ran : mem.kzallocPage = .ok (q,mem')) : Ways roots d mem' W := by
  obtain ⟨queue,pages,_,_⟩ := kzallocPage_cases ran
  have free : q ∈ mem.free := by
    rw [queue]
    exact List.mem_cons_self
  refine ways.data (p := q) (fun way there => sane.table_used _ _ _ there free) fun p j other => ?_
  unfold Mem.entry
  rw [pages,Function.update_of_ne other]

-- What the steps of execve leave for each other.
structure Grown (holes : Holes) (zero : Frame) (roots : D → Option Frame) (d : D) (root : Frame) (W : Finset (List Index)) (r : Option Frame × Mem) :
    Prop where
  table : r.1 = some root
  sane : Sane holes zero r.2 roots
  ways : Ways roots d r.2 W

end Building

end PageTable
