import Mathlib.Data.Set.Card
import Mathlib.Logic.Relation

-- Nodes that have names in directories. A directory keeps two names for itself and for the
-- one above it; under the others every node stands in one directory at most.
namespace NamingTree

inductive Node (I N F : Type*) where
  | leaf (data : F)
  | dir (entries : N → Option I)

abbrev Tree (I N F : Type*) := I → Option (Node I N F)

structure Dots (N : Type*) where
  self : N
  up : N
  apart : self ≠ up

def Dots.Plain {N : Type*} (dots : Dots N) (name : N) : Prop := name ≠ dots.self ∧ name ≠ dots.up

section Definitions
variable {I N F : Type*} (dots : Dots N) (root : I) (t : Tree I N F)

def IsDir (q : I) : Prop := ∃ m, t q = some (.dir m)
def Entry (d : I) (name : N) (q : I) : Prop := ∃ m, t d = some (.dir m) ∧ m name = some q

def Below (d q : I) : Prop := ∃ name, dots.Plain name ∧ Entry t d name q
def Named (q : I) : Prop := q = root ∨ ∃ d, Below dots t d q
def children (d : I) : Set I := {c | IsDir t c ∧ Below dots t d c}

-- One for the name of the node, and one for every directory right below it.
open Classical in
noncomputable def links (q : I) : Nat := (if Named dots root t q then 1 else 0)+(children dots t q).ncard

structure Rooted (held : I → Prop) : Prop where
  finite : {q | (t q).isSome}.Finite
  top : IsDir t root
  inside : ∀ d q, Below dots t d q → (t q).isSome ∧ q ≠ root ∧ Named dots root t d
  single : ∀ d d' name name' q, dots.Plain name → dots.Plain name' → Entry t d name q → Entry t d' name' q → d = d' ∧ name = name'
  ranked : ∃ rank : I → Nat, ∀ d q, Below dots t d q → rank d < rank q
  selves : ∀ d, IsDir t d → Entry t d dots.self d
  ups : ∀ d, IsDir t d → ∃ p, Entry t d dots.up p ∧ (d = root → p = root) ∧ ∀ d', Below dots t d' d → p = d'
  orphan : ∀ q, (t q).isSome → ¬ Named dots root t q → held q

variable {dots root t} {held held' : I → Prop} {d d' p q c : I} {name name' : N} {m : N → Option I} {node : Node I N F}

theorem Entry.isDir (entry : Entry t d name q) : IsDir t d := ⟨_,entry.choose_spec.1⟩

theorem entry_iff (here : t d = some (.dir m)) : Entry t d name q ↔ m name = some q := by
  constructor
  · rintro ⟨m',there,bound⟩
    cases here.symm.trans there
    exact bound
  · exact fun bound => ⟨m,here,bound⟩

theorem Entry.unique (one : Entry t d name p) (two : Entry t d name q) : p = q := by
  obtain ⟨m,here,bound⟩ := one
  exact Option.some.inj (bound.symm.trans ((entry_iff here).mp two))

theorem links_congr {t' : Tree I N F} (named : Named dots root t' q ↔ Named dots root t q)
    (same : children dots t' q = children dots t q) :
    links dots root t' q = links dots root t q := by
  rw [links,links,propext named,same]

theorem apart_of_vacant (here : t d = some node) (vacant : t q = none) : d ≠ q := by
  rintro rfl
  cases here.symm.trans vacant

theorem IsDir.there (isDir : IsDir t q) : (t q).isSome := by
  obtain ⟨m,here⟩ := isDir
  rw [here]
  rfl

theorem Rooted.mono (rooted : Rooted dots root t held) (more : ∀ q, held q → held' q) : Rooted dots root t held' :=
  ⟨rooted.finite,rooted.top,rooted.inside,rooted.single,rooted.ranked,rooted.selves,rooted.ups,fun q there alone =>
      more q (rooted.orphan q there alone)⟩

theorem Rooted.alone (rooted : Rooted dots root t held) (unnamed : ¬ Named dots root t d) : ¬ Below dots t d q :=
  fun below => unnamed (rooted.inside d q below).2.2

theorem Rooted.unused (rooted : Rooted dots root t held) (vacant : t q = none) : ¬ Below dots t d q := by
  intro below
  have there := (rooted.inside d q below).1
  rw [vacant] at there
  cases there

theorem Rooted.heads (rooted : Rooted dots root t held) (here : t d = some (.dir m)) :
    m dots.self = some d ∧ (m dots.up).isSome := by
  obtain ⟨p,points,_⟩ := rooted.ups d ⟨m,here⟩
  refine ⟨(entry_iff here).mp (rooted.selves d ⟨m,here⟩),?_⟩
  rw [(entry_iff here).mp points]
  rfl

theorem Rooted.plain (rooted : Rooted dots root t held) (here : t d = some (.dir m)) (absent : m name = none) :
    dots.Plain name := by
  obtain ⟨self,up⟩ := rooted.heads here
  constructor
  · rintro rfl
    cases absent.symm.trans self
  · rintro rfl
    rw [absent] at up
    cases up

theorem Rooted.irrefl (rooted : Rooted dots root t held) (below : Below dots t d q) : d ≠ q := by
  obtain ⟨rank,lower⟩ := rooted.ranked
  rintro rfl
  exact Nat.lt_irrefl _ (lower d d below)

theorem Rooted.reached (rooted : Rooted dots root t held) (named : Named dots root t q) :
    Relation.ReflTransGen (Below dots t) root q := by
  obtain ⟨rank,lower⟩ := rooted.ranked
  induction high : rank q using Nat.strong_induction_on generalizing q with
  | _ n ih =>
    rcases named with rfl | ⟨d,below⟩
    · exact .refl
    · have above := lower d q below
      exact (ih (rank d) (by omega) (rooted.inside d q below).2.2 rfl).tail below

theorem Rooted.there (rooted : Rooted dots root t held) (named : Named dots root t q) : (t q).isSome := by
  rcases named with rfl | ⟨d,below⟩
  · exact rooted.top.there
  · exact (rooted.inside d q below).1

theorem Rooted.links_zero (rooted : Rooted dots root t held) : links dots root t q = 0 ↔ ¬ Named dots root t q := by
  unfold links
  split
  · rename_i named
    exact ⟨fun zero => absurd zero (by omega),fun unnamed => absurd named unnamed⟩
  · rename_i unnamed
    have childless : children dots t q = ∅ := by
      ext c
      exact ⟨fun child => rooted.alone unnamed child.2,fun impossible => impossible.elim⟩
    rw [childless,Set.ncard_empty]
    exact ⟨fun _ => unnamed,fun _ => rfl⟩

theorem Rooted.children_finite (rooted : Rooted dots root t held) (d : I) : (children dots t d).Finite :=
  rooted.finite.subset fun _ child => child.1.there

theorem Rooted.links_le (rooted : Rooted dots root t held) (q : I) :
    links dots root t q ≤ {q | (t q).isSome}.ncard := by
  have fewer : children dots t q ⊆ {q | (t q).isSome} \ {root} :=
    fun c child => ⟨child.1.there,(rooted.inside q c child.2).2.1⟩
  have count := Set.ncard_le_ncard fewer (rooted.finite.subset Set.sdiff_subset)
  have one := Set.ncard_sdiff_singleton_add_one (show root ∈ {q | (t q).isSome} from rooted.top.there) rooted.finite
  unfold links
  split <;> omega

-- The names that a node has in directories with a name: all but those that a directory has for
-- itself.
theorem Rooted.upward (rooted : Rooted dots root t held) (named : Named dots root t d) (entry : Entry t d dots.up q)
    (other : d ≠ root) :
    d ∈ children dots t q := by
  obtain ⟨p,points,_,above⟩ := rooted.ups d entry.isDir
  obtain rfl := points.unique entry
  obtain ⟨d',below⟩ := named.resolve_left other
  rw [above d' below]
  exact ⟨entry.isDir,below⟩

theorem Rooted.downward (rooted : Rooted dots root t held) (child : d ∈ children dots t q) :
    Named dots root t d ∧ Entry t d dots.up q ∧ d ≠ root := by
  obtain ⟨p,points,_,above⟩ := rooted.ups d child.1
  rw [above q child.2] at points
  exact ⟨.inr ⟨q,child.2⟩,points,(rooted.inside q d child.2).2.1⟩

-- The entries that name a node, other than its own name for itself.
def entriesTo (dots : Dots N) (root : I) (t : Tree I N F) (q : I) : Set (I × N) := {e | e.2 ≠ dots.self ∧ Named dots root t e.1 ∧ Entry t e.1 e.2 q}

def upsTo (dots : Dots N) (t : Tree I N F) (q : I) : Set (I × N) := (fun c => (c,dots.up)) '' children dots t q

theorem Rooted.upsTo_finite (rooted : Rooted dots root t held) (q : I) : (upsTo dots t q).Finite := (rooted.children_finite q).image _

theorem upsTo_ncard : (upsTo dots t q).ncard = (children dots t q).ncard := Set.ncard_image_of_injective _ fun _ _ same => congrArg Prod.fst same

theorem Rooted.upsTo_entries (rooted : Rooted dots root t held) : upsTo dots t q ⊆ entriesTo dots root t q := by
  rintro e ⟨c,child,rfl⟩
  exact ⟨Ne.symm dots.apart,(rooted.downward child).1,(rooted.downward child).2.1⟩

theorem Rooted.entriesTo_root (rooted : Rooted dots root t held) : entriesTo dots root t root = insert (root,dots.up)
    (upsTo dots t root) := by
  ext e
  constructor
  · rintro ⟨other,named,entry⟩
    by_cases plain : e.2 = dots.up
    · rw [plain] at entry
      by_cases own : e.1 = root
      · exact .inl (Prod.ext own plain)
      · exact .inr ⟨e.1,rooted.upward named entry own,Prod.ext rfl plain.symm⟩
    · exact absurd rfl (rooted.inside e.1 root ⟨e.2,⟨other,plain⟩,entry⟩).2.1
  · rintro (rfl | up)
    · obtain ⟨p,points,own,_⟩ := rooted.ups root rooted.top
      rw [own rfl] at points
      exact ⟨Ne.symm dots.apart,.inl rfl,points⟩
    · exact rooted.upsTo_entries up

theorem Rooted.entriesTo_plain (rooted : Rooted dots root t held) (plain : dots.Plain name) (entry : Entry t d name q) :
    entriesTo dots root t q = insert (d,name) (upsTo dots t q) := by
  obtain ⟨_,notRoot,named⟩ := rooted.inside d q ⟨name,plain,entry⟩
  ext e
  constructor
  · rintro ⟨other,named',entry'⟩
    by_cases up : e.2 = dots.up
    · rw [up] at entry'
      refine .inr ⟨e.1,rooted.upward named' entry' ?_,Prod.ext rfl up.symm⟩
      intro own
      obtain ⟨p,points,top,_⟩ := rooted.ups e.1 entry'.isDir
      exact notRoot ((entry'.unique points).trans (top own))
    · obtain ⟨one,two⟩ := rooted.single e.1 d e.2 name q ⟨other,up⟩ plain entry' entry
      exact .inl (Prod.ext one two)
  · rintro (rfl | up)
    · exact ⟨plain.1,named,entry⟩
    · exact rooted.upsTo_entries up

theorem Rooted.entriesTo_unnamed (rooted : Rooted dots root t held) (unnamed : ¬ Named dots root t q) :
    entriesTo dots root t q = ∅ := by
  ext e
  refine ⟨?_,fun impossible => impossible.elim⟩
  rintro ⟨other,named,entry⟩
  by_cases up : e.2 = dots.up
  · rw [up] at entry
    obtain ⟨p,points,top,above⟩ := rooted.ups e.1 entry.isDir
    obtain rfl := points.unique entry
    rcases named with own | ⟨d',below⟩
    · exact unnamed (.inl (top own))
    · rw [above d' below] at unnamed
      exact unnamed (rooted.inside d' e.1 below).2.2
  · exact unnamed (.inr ⟨e.1,e.2,⟨other,up⟩,entry⟩)

theorem Rooted.links_entries (rooted : Rooted dots root t held) (q : I) :
    links dots root t q = (entriesTo dots root t q).ncard := by
  by_cases isRoot : q = root
  · subst isRoot
    rw [rooted.entriesTo_root,Set.ncard_insert_of_notMem _ (rooted.upsTo_finite q),upsTo_ncard,links,if_pos (.inl rfl),Nat.add_comm]
    rintro ⟨c,child,same⟩
    exact (rooted.downward child).2.2 (congrArg Prod.fst same)
  · by_cases named : Named dots root t q
    · obtain ⟨d,name,plain,entry⟩ := named.resolve_left isRoot
      rw [rooted.entriesTo_plain plain entry,Set.ncard_insert_of_notMem _ (rooted.upsTo_finite q),upsTo_ncard,links,
          if_pos named,Nat.add_comm]
      rintro ⟨c,_,same⟩
      exact plain.2 (congrArg Prod.snd same).symm
    · rw [rooted.entriesTo_unnamed named,rooted.links_zero.mpr named,Set.ncard_empty]

end Definitions

section Walking
variable {I N F : Type*} {dots : Dots N} {root : I} {t : Tree I N F} {held : I → Prop} {d q : I} {name : N}
  {names : List N}

def find (t : Tree I N F) (d : I) (name : N) : Option I :=
  match t d with
  | some (.dir m) => m name
  | _ => none

def isDir (t : Tree I N F) (d : I) : Bool :=
  match t d with
  | some (.dir _) => true
  | _ => false

-- What the names lead to from `d` on, and the directory that the last of them is in.
def walk (t : Tree I N F) : List N → I → Option I
  | [],d => some d
  | name::rest,d => (find t d name).bind (walk t rest)

def walkAbove (t : Tree I N F) : List N → I → Option (I × N)
  | [],_ => none
  | [name],d => if isDir t d then some (d,name) else none
  | name::next::rest,d => (find t d name).bind (walkAbove t (next::rest))

theorem isDir_iff : isDir t d = true ↔ IsDir t d := by
  unfold isDir IsDir
  cases t d with
  | none => simp
  | some node => cases node <;> simp

theorem find_entry : find t d name = some q ↔ Entry t d name q := by
  unfold find Entry
  cases t d with
  | none => simp
  | some node => cases node <;> simp

theorem find_dir {m : N → Option I} (here : t d = some (.dir m)) (name : N) : find t d name = m name := by
  unfold find
  rw [here]

theorem Rooted.find_named (rooted : Rooted dots root t held) (named : Named dots root t d)
    (found : find t d name = some q) :
    Named dots root t q := by
  have entry := find_entry.mp found
  by_cases self : name = dots.self
  · rw [self] at entry
    rw [entry.unique (rooted.selves d entry.isDir)]
    exact named
  · by_cases up : name = dots.up
    · rw [up] at entry
      obtain ⟨p,points,top,above⟩ := rooted.ups d entry.isDir
      rw [entry.unique points]
      rcases named with own | ⟨d',below⟩
      · exact .inl (top own)
      · rw [above d' below]
        exact (rooted.inside d' d below).2.2
    · exact .inr ⟨d,name,⟨self,up⟩,entry⟩

theorem Rooted.walk_named (rooted : Rooted dots root t held) (named : Named dots root t d)
    (found : walk t names d = some q) :
    Named dots root t q := by
  induction names generalizing d with
  | nil =>
    cases found
    exact named
  | cons name rest ih =>
    obtain ⟨next,first,found⟩ := Option.bind_eq_some_iff.mp found
    exact ih (rooted.find_named named first) found

theorem Rooted.walkAbove_named (rooted : Rooted dots root t held) (named : Named dots root t d)
    (found : walkAbove t names d = some (q,name)) :
    Named dots root t q ∧ IsDir t q := by
  induction names generalizing d with
  | nil => cases found
  | cons first rest ih =>
    cases rest with
    | nil =>
      unfold walkAbove at found
      split at found
      · rename_i isDir
        cases found
        exact ⟨named,isDir_iff.mp isDir⟩
      · cases found
    | cons second rest =>
      obtain ⟨next,step,found⟩ := Option.bind_eq_some_iff.mp found
      exact ih (rooted.find_named named step) found

end Walking

section Fresh
variable {I N F : Type*} [DecidableEq N]

-- The names in a new directory.
def Dots.fresh (dots : Dots N) (q d : I) : N → Option I := Function.update (Function.update (fun _ => none) dots.self (some q)) dots.up (some d)

-- A node that may be added: a leaf, or a directory with the two names of its own.
def Fresh (dots : Dots N) (q d : I) (node : Node I N F) : Prop := (∃ f, node = .leaf f) ∨ node = .dir (dots.fresh q d)

variable {dots : Dots N} {name : N}

theorem Dots.fresh_plain (plain : dots.Plain name) (q d : I) : dots.fresh q d name = none := by
  unfold Dots.fresh
  rw [Function.update_of_ne plain.2,Function.update_of_ne plain.1]

theorem Dots.fresh_self (dots : Dots N) (q d : I) : dots.fresh q d dots.self = some q := by
  unfold Dots.fresh
  rw [Function.update_of_ne dots.apart,Function.update_self]

theorem Dots.fresh_up (dots : Dots N) (q d : I) : dots.fresh q d dots.up = some d := by
  unfold Dots.fresh
  rw [Function.update_self]

end Fresh

section Changes
variable {I N F : Type*} [DecidableEq I] [DecidableEq N]

-- The three ways in which the tree changes: a node gets its name, loses it, and goes when
-- nobody holds it any more.
def add (t : Tree I N F) (d : I) (m : N → Option I) (name : N) (q : I) (node : Node I N F) : Tree I N F :=
  Function.update (Function.update t q (some node)) d (some (.dir (Function.update m name (some q))))

def unname (t : Tree I N F) (d : I) (m : N → Option I) (name : N) : Tree I N F := Function.update t d (some (.dir (Function.update m name none)))

open Classical in
noncomputable def release (dots : Dots N) (root : I) (held : I → Prop) (t : Tree I N F) (q : I) : Tree I N F :=
  if Named dots root t q ∨ held q then t else Function.update t q none

variable {dots : Dots N} {root : I} {t : Tree I N F} {held : I → Prop} {d d' p q c : I} {name name' : N}
  {m : N → Option I} {node : Node I N F} {f f' : F}

theorem add_parent : add t d m name q node d = some (.dir (Function.update m name (some q))) := Function.update_self ..

theorem add_other (one : c ≠ d) (two : c ≠ q) : add t d m name q node c = t c := by
  unfold add
  rw [Function.update_of_ne one,Function.update_of_ne two]

section Adding
variable (here : t d = some (.dir m)) (vacant : t q = none) (plain : dots.Plain name) (absent : m name = none)
  (fresh : Fresh dots q d node)
include here vacant

theorem add_new : add t d m name q node q = some node := by
  unfold add
  rw [Function.update_of_ne (apart_of_vacant here vacant).symm,Function.update_self]

theorem add_isDir : IsDir (add t d m name q node) c ↔ IsDir t c ∨ c = q ∧ IsDir (add t d m name q node) q := by
  by_cases one : c = d
  · subst one
    exact ⟨fun _ => .inl ⟨m,here⟩,fun _ => ⟨_,add_parent⟩⟩
  · by_cases two : c = q
    · subst two
      refine ⟨fun new => .inr ⟨rfl,new⟩,?_⟩
      rintro (⟨m',there⟩ | ⟨_,new⟩)
      · cases vacant.symm.trans there
      · exact new
    · unfold IsDir
      rw [add_other one two]
      exact ⟨.inl,fun either => either.resolve_right fun both => two both.1⟩

include plain absent fresh

theorem add_entry (other : dots.Plain name') : Entry (add t d m name q node) d' name' c ↔ Entry t d' name' c ∨
    d' = d ∧ name' = name ∧ c = q := by
  by_cases one : d' = d
  · subst one
    rw [entry_iff add_parent,entry_iff here]
    by_cases same : name' = name
    · subst same
      rw [Function.update_self,absent,Option.some.injEq]
      exact ⟨fun is => .inr ⟨rfl,rfl,is.symm⟩,fun either => (either.resolve_left (Option.some_ne_none c).symm).2.2.symm⟩
    · rw [Function.update_of_ne same]
      exact ⟨.inl,fun either => either.resolve_right fun both => same both.2.1⟩
  · have away : ¬ (d' = d ∧ name' = name ∧ c = q) := fun both => one both.1
    rw [or_iff_left away]
    by_cases two : d' = q
    · subst two
      constructor
      · rintro ⟨m',there,bound⟩
        rw [add_new here vacant] at there
        rcases fresh with ⟨f,rfl⟩ | rfl
        · cases there
        · cases there
          rw [dots.fresh_plain other] at bound
          cases bound
      · rintro ⟨m',there,_⟩
        cases vacant.symm.trans there
    · unfold Entry
      rw [add_other one two]

theorem add_below : Below dots (add t d m name q node) d' c ↔ Below dots t d' c ∨ d' = d ∧ c = q := by
  constructor
  · rintro ⟨name',other,entry⟩
    rcases (add_entry here vacant plain absent fresh other).mp entry with old | ⟨rfl,rfl,rfl⟩
    · exact .inl ⟨name',other,old⟩
    · exact .inr ⟨rfl,rfl⟩
  · rintro (⟨name',other,old⟩ | ⟨rfl,rfl⟩)
    · exact ⟨name',other,(add_entry here vacant plain absent fresh other).mpr (.inl old)⟩
    · exact ⟨name,plain,(add_entry here vacant plain absent fresh plain).mpr (.inr ⟨rfl,rfl,rfl⟩)⟩

theorem add_named : Named dots root (add t d m name q node) c ↔ Named dots root t c ∨ c = q := by
  unfold Named
  constructor
  · rintro (rfl | ⟨d',below⟩)
    · exact .inl (.inl rfl)
    · rcases (add_below here vacant plain absent fresh).mp below with old | ⟨_,rfl⟩
      · exact .inl (.inr ⟨d',old⟩)
      · exact .inr rfl
  · rintro ((rfl | ⟨d',old⟩) | rfl)
    · exact .inl rfl
    · exact .inr ⟨d',(add_below here vacant plain absent fresh).mpr (.inl old)⟩
    · exact .inr ⟨d,(add_below here vacant plain absent fresh).mpr (.inr ⟨rfl,rfl⟩)⟩

theorem add_single (rooted : Rooted dots root t held) {d₁ d₂ c : I} {name₁ name₂ : N} (plain₁ : dots.Plain name₁)
    (plain₂ : dots.Plain name₂) (one : Entry (add t d m name q node) d₁ name₁ c)
    (two : Entry (add t d m name q node) d₂ name₂ c) : d₁ = d₂ ∧ name₁ = name₂ := by
  rcases (add_entry here vacant plain absent fresh plain₁).mp one with old | ⟨rfl,rfl,rfl⟩
  · rcases (add_entry here vacant plain absent fresh plain₂).mp two with old' | ⟨_,_,rfl⟩
    · exact rooted.single d₁ d₂ name₁ name₂ c plain₁ plain₂ old old'
    · exact absurd ⟨name₁,plain₁,old⟩ (rooted.unused vacant)
  · rcases (add_entry here vacant plain absent fresh plain₂).mp two with old' | ⟨rfl,rfl,_⟩
    · exact absurd ⟨name₂,plain₂,old'⟩ (rooted.unused vacant)
    · exact ⟨rfl,rfl⟩

theorem add_ranked (rooted : Rooted dots root t held) : ∃ rank :
    I → Nat, ∀ d' c, Below dots (add t d m name q node) d' c → rank d' < rank c := by
  obtain ⟨rank,lower⟩ := rooted.ranked
  refine ⟨Function.update rank q (rank d+1),fun d' c below => ?_⟩
  rcases (add_below here vacant plain absent fresh).mp below with old | ⟨rfl,rfl⟩
  · have one : d' ≠ q := by
      rintro rfl
      obtain ⟨_,_,entry⟩ := old
      obtain ⟨m',there⟩ := entry.isDir
      cases vacant.symm.trans there
    have two : c ≠ q := by
      rintro rfl
      exact rooted.unused vacant old
    rw [Function.update_of_ne one,Function.update_of_ne two]
    exact lower d' c old
  · rw [Function.update_self,Function.update_of_ne (apart_of_vacant here vacant)]
    exact Nat.lt_succ_self _

omit absent in
theorem add_selves (rooted : Rooted dots root t held) (isDir : IsDir (add t d m name q node) c) :
    Entry (add t d m name q node) c dots.self c := by
  by_cases two : c = d
  · subst two
    rw [entry_iff add_parent,Function.update_of_ne (Ne.symm plain.1)]
    exact (entry_iff here).mp (rooted.selves c ⟨m,here⟩)
  · by_cases one : c = q
    · subst one
      obtain ⟨m',there⟩ := isDir
      rw [add_new here vacant] at there
      rcases fresh with ⟨f,rfl⟩ | rfl
      · cases there
      · exact (entry_iff (add_new here vacant)).mpr (dots.fresh_self c d)
    · have old := rooted.selves c (((add_isDir here vacant).mp isDir).resolve_right fun both => one both.1)
      unfold Entry at old ⊢
      rw [add_other two one]
      exact old

theorem add_ups (rooted : Rooted dots root t held) (isDir : IsDir (add t d m name q node) c) :
    ∃ p, Entry (add t d m name q node) c dots.up p ∧ (c = root → p = root) ∧ ∀ d',
    Below dots (add t d m name q node) d' c → p = d' := by
  by_cases two : c = d
  · subst two
    obtain ⟨p,points,top,above⟩ := rooted.ups c ⟨m,here⟩
    refine ⟨p,?_,top,fun d' below => ?_⟩
    · rw [entry_iff add_parent,Function.update_of_ne (Ne.symm plain.2)]
      exact (entry_iff here).mp points
    · rcases (add_below here vacant plain absent fresh).mp below with old | ⟨_,same⟩
      · exact above d' old
      · exact absurd same (apart_of_vacant here vacant)
  · by_cases one : c = q
    · subst one
      obtain ⟨m',there⟩ := isDir
      rw [add_new here vacant] at there
      rcases fresh with ⟨f,rfl⟩ | rfl
      · cases there
      · refine ⟨d,(entry_iff (add_new here vacant)).mpr (dots.fresh_up c d),?_,fun d' below => ?_⟩
        · rintro rfl
          obtain ⟨m',there⟩ := rooted.top
          cases vacant.symm.trans there
        · rcases (add_below here vacant plain absent (.inr rfl)).mp below with old | ⟨same,_⟩
          · exact absurd old (rooted.unused vacant)
          · exact same.symm
    · obtain ⟨p,points,top,above⟩ := rooted.ups c (((add_isDir here vacant).mp isDir).resolve_right fun both => one both.1)
      refine ⟨p,?_,top,fun d' below => ?_⟩
      · unfold Entry at points ⊢
        rw [add_other two one]
        exact points
      · rcases (add_below here vacant plain absent fresh).mp below with old | ⟨_,same⟩
        · exact above d' old
        · exact absurd same one

theorem Rooted.add (rooted : Rooted dots root t held) (named : Named dots root t d) :
    Rooted dots root (add t d m name q node) held := by
  refine ⟨?_,?_,?_,fun d₁ d₂ name₁ name₂ c => add_single here vacant plain absent fresh rooted,
      add_ranked here vacant plain absent fresh rooted,
    fun c => add_selves here vacant plain fresh rooted,fun c => add_ups here vacant plain absent fresh rooted,?_⟩
  · refine (rooted.finite.insert q).subset fun c there => ?_
    by_cases one : c = q
    · exact .inl one
    · by_cases two : c = d
      · rw [two]
        exact .inr (by rw [Set.mem_ofPred,here]; rfl)
      · rw [Set.mem_ofPred,add_other two one] at there
        exact .inr there
  · exact (add_isDir here vacant).mpr (.inl rooted.top)
  · intro d' c below
    rcases (add_below here vacant plain absent fresh).mp below with old | ⟨rfl,rfl⟩
    · obtain ⟨there,other,above⟩ := rooted.inside d' c old
      refine ⟨?_,other,(add_named here vacant plain absent fresh).mpr (.inl above)⟩
      by_cases two : c = d
      · rw [two,add_parent]
        rfl
      · rw [add_other two]
        · exact there
        · rintro rfl
          exact rooted.unused vacant old
    · refine ⟨by rw [add_new here vacant]; rfl,?_,(add_named here vacant plain absent fresh).mpr (.inl named)⟩
      rintro rfl
      obtain ⟨m',there⟩ := rooted.top
      cases vacant.symm.trans there
  · intro c there alone
    rw [add_named here vacant plain absent fresh,not_or] at alone
    refine rooted.orphan c ?_ alone.1
    by_cases two : c = d
    · rw [two] at alone
      exact absurd named alone.1
    · rw [add_other two alone.2] at there
      exact there

theorem add_childless : children dots (add t d m name q node) q = ∅ := by
  ext c
  refine ⟨fun child => ?_,fun impossible => impossible.elim⟩
  rcases (add_below here vacant plain absent fresh).mp child.2 with ⟨_,_,entry⟩ | ⟨same,_⟩
  · obtain ⟨m',there⟩ := entry.isDir
    cases vacant.symm.trans there
  · exact apart_of_vacant here vacant same.symm

theorem add_children (rooted : Rooted dots root t held) (away : c ≠ d ∨ ¬ IsDir (add t d m name q node) q) :
    children dots (add t d m name q node) c = children dots t c := by
  ext x
  unfold children
  rw [Set.mem_ofPred,Set.mem_ofPred,add_isDir here vacant,add_below here vacant plain absent fresh]
  constructor
  · rintro ⟨old | ⟨new,isDir⟩,below | ⟨own,last⟩⟩
    · exact ⟨old,below⟩
    · rw [last] at old
      obtain ⟨m',there⟩ := old
      cases vacant.symm.trans there
    · rw [new] at below
      exact absurd below (rooted.unused vacant)
    · exact absurd isDir (away.resolve_left (not_not_intro own))
  · exact fun both => ⟨.inl both.1,.inl both.2⟩

theorem add_child (isDir : IsDir (add t d m name q node) q) :
    children dots (add t d m name q node) d = insert q (children dots t d) := by
  ext x
  unfold children
  rw [Set.mem_insert_iff,Set.mem_ofPred,Set.mem_ofPred,add_isDir here vacant,add_below here vacant plain absent fresh]
  constructor
  · rintro ⟨old | new,below | last⟩
    · exact .inr ⟨old,below⟩
    · exact .inl last.2
    · exact .inl new.1
    · exact .inl new.1
  · rintro (rfl | ⟨old,below⟩)
    · exact ⟨.inr ⟨rfl,isDir⟩,.inr ⟨rfl,rfl⟩⟩
    · exact ⟨.inl old,.inl below⟩

-- The new node has one link, and its directory one more if it is a directory itself.
theorem links_add (rooted : Rooted dots root t held) (named : Named dots root t d) :
    links dots root (add t d m name q node) q = 1 ∧
    (IsDir (add t d m name q node) q → links dots root (add t d m name q node) d = links dots root t d+1) ∧
    ∀ c, c ≠ q → c ≠ d ∨ ¬ IsDir (add t d m name q node) q →
    links dots root (add t d m name q node) c = links dots root t c := by
  refine ⟨?_,fun isDir => ?_,fun c one two => ?_⟩
  · rw [links,if_pos ((add_named here vacant plain absent fresh).mpr (.inr rfl)),
      add_childless here vacant plain absent fresh,Set.ncard_empty]
  · have new : q ∉ children dots t d := fun child => rooted.unused vacant child.2
    rw [links,links,if_pos ((add_named here vacant plain absent fresh).mpr (.inl named)),if_pos named,
        add_child here vacant plain absent fresh isDir,
      Set.ncard_insert_of_notMem new (rooted.children_finite d),Nat.add_assoc]
  · have still : Named dots root (add t d m name q node) c ↔ Named dots root t c := by
      rw [add_named here vacant plain absent fresh,or_iff_left one]
    exact links_congr still (add_children here vacant plain absent fresh rooted two)

end Adding

section Removing
variable (here : t d = some (.dir m)) (plain : dots.Plain name) (bound : m name = some q)

theorem unname_parent : unname t d m name d = some (.dir (Function.update m name none)) := Function.update_self ..

theorem unname_other (other : c ≠ d) : unname t d m name c = t c := Function.update_of_ne other ..

include here

theorem unname_isDir : IsDir (unname t d m name) c ↔ IsDir t c := by
  by_cases one : c = d
  · subst one
    exact ⟨fun _ => ⟨m,here⟩,fun _ => ⟨_,unname_parent⟩⟩
  · unfold IsDir
    rw [unname_other one]

theorem unname_there : (unname t d m name c).isSome = (t c).isSome := by
  by_cases one : c = d
  · subst one
    rw [unname_parent,here]
    rfl
  · rw [unname_other one]

theorem unname_entry : Entry (unname t d m name) d' name' c ↔ Entry t d' name' c ∧ ¬ (d' = d ∧ name' = name) := by
  by_cases one : d' = d
  · subst one
    rw [entry_iff unname_parent,entry_iff here]
    by_cases same : name' = name
    · subst same
      rw [Function.update_self]
      exact ⟨fun none => absurd none.symm (Option.some_ne_none c),fun both => absurd ⟨rfl,rfl⟩ both.2⟩
    · rw [Function.update_of_ne same]
      exact ⟨fun old => ⟨old,fun both => same both.2⟩,And.left⟩
  · unfold Entry
    rw [unname_other one]
    exact ⟨fun old => ⟨old,fun both => one both.1⟩,And.left⟩

include plain bound

theorem Rooted.unname_below (rooted : Rooted dots root t held) : Below dots (unname t d m name) d' c ↔
    Below dots t d' c ∧ c ≠ q := by
  have mine : Entry t d name q := (entry_iff here).mpr bound
  constructor
  · rintro ⟨name',other,entry⟩
    obtain ⟨old,away⟩ := (unname_entry here).mp entry
    refine ⟨⟨name',other,old⟩,?_⟩
    rintro rfl
    exact away (rooted.single d' d name' name c other plain old mine)
  · rintro ⟨⟨name',other,old⟩,different⟩
    refine ⟨name',other,(unname_entry here).mpr ⟨old,?_⟩⟩
    rintro ⟨rfl,rfl⟩
    exact different (old.unique mine)

theorem Rooted.unname_named (rooted : Rooted dots root t held) : Named dots root (unname t d m name) c ↔
    Named dots root t c ∧ c ≠ q := by
  have other := (rooted.inside d q ⟨name,plain,(entry_iff here).mpr bound⟩).2.1
  unfold Named
  constructor
  · rintro (rfl | ⟨d',below⟩)
    · exact ⟨.inl rfl,other.symm⟩
    · obtain ⟨old,different⟩ := (rooted.unname_below here plain bound).mp below
      exact ⟨.inr ⟨d',old⟩,different⟩
  · rintro ⟨rfl | ⟨d',old⟩,different⟩
    · exact .inl rfl
    · exact .inr ⟨d',(rooted.unname_below here plain bound).mpr ⟨old,different⟩⟩

theorem Rooted.unname (rooted : Rooted dots root t held) (empty : ∀ c, ¬ Below dots t q c) (holds : held q) :
    Rooted dots root (NamingTree.unname t d m name) held := by
  have below : ∀ {d' c}, Below dots (NamingTree.unname t d m name) d' c ↔ Below dots t d' c ∧ c ≠ q :=
      rooted.unname_below here plain bound
  refine ⟨?_,(unname_isDir here).mpr rooted.top,?_,?_,?_,?_,?_,?_⟩
  · refine rooted.finite.subset fun c there => ?_
    rw [Set.mem_ofPred,unname_there here] at there
    exact there
  · intro d' c lower
    obtain ⟨old,_⟩ := below.mp lower
    obtain ⟨there,other,above⟩ := rooted.inside d' c old
    refine ⟨by rw [unname_there here]; exact there,other,(rooted.unname_named here plain bound).mpr ⟨above,?_⟩⟩
    rintro rfl
    exact empty c old
  · intro d₁ d₂ name₁ name₂ c plain₁ plain₂ one two
    exact rooted.single d₁ d₂ name₁ name₂ c plain₁ plain₂ ((unname_entry here).mp one).1 ((unname_entry here).mp two).1
  · obtain ⟨rank,lower⟩ := rooted.ranked
    exact ⟨rank,fun d' c there => lower d' c (below.mp there).1⟩
  · intro c isDir
    exact (unname_entry here).mpr ⟨rooted.selves c ((unname_isDir here).mp isDir),fun both => plain.1 both.2.symm⟩
  · intro c isDir
    obtain ⟨p,points,top,above⟩ := rooted.ups c ((unname_isDir here).mp isDir)
    exact ⟨p,(unname_entry here).mpr ⟨points,fun both => plain.2 both.2.symm⟩,top,fun d' there => above d' (below.mp there).1⟩
  · intro c there alone
    by_cases own : c = q
    · rw [own]
      exact holds
    · rw [unname_there here] at there
      exact rooted.orphan c there fun named => alone ((rooted.unname_named here plain bound).mpr ⟨named,own⟩)

-- The node has no links left, and its directory one less if it is a directory itself.
theorem Rooted.links_unname (rooted : Rooted dots root t held) (empty : ∀ c, ¬ Below dots t q c) :
    links dots root t q = 1 ∧ links dots root (NamingTree.unname t d m name) q = 0 ∧
      (IsDir t q → links dots root t d = links dots root (NamingTree.unname t d m name) d+1) ∧
      ∀ c, c ≠ q → c ≠ d ∨ ¬ IsDir t q → links dots root (NamingTree.unname t d m name) c = links dots root t c := by
  have mine : Entry t d name q := (entry_iff here).mpr bound
  have childless : children dots t q = ∅ := by
    ext c
    exact ⟨fun child => absurd child.2 (empty c),fun impossible => impossible.elim⟩
  have fewer : ∀ c, children dots (NamingTree.unname t d m name) c = children dots t c \ {q} := by
    intro c
    ext x
    rw [Set.mem_sdiff,Set.mem_singleton_iff]
    unfold children
    rw [Set.mem_ofPred,Set.mem_ofPred,unname_isDir here,rooted.unname_below here plain bound,and_assoc]
  have named : Named dots root t d := (rooted.inside d q ⟨name,plain,mine⟩).2.2
  have apart := rooted.irrefl ⟨name,plain,mine⟩
  refine ⟨?_,?_,fun isDir => ?_,fun c one two => ?_⟩
  · rw [links,if_pos (.inr ⟨d,name,plain,mine⟩),childless,Set.ncard_empty]
  · rw [links,if_neg fun still => ((rooted.unname_named here plain bound).mp still).2 rfl,fewer,childless,
      Set.empty_sdiff,Set.ncard_empty]
  · have child : q ∈ children dots t d := ⟨isDir,name,plain,mine⟩
    have count := Set.ncard_sdiff_singleton_add_one child (rooted.children_finite d)
    rw [links,links,if_pos named,if_pos ((rooted.unname_named here plain bound).mpr ⟨named,apart⟩),fewer,Nat.add_assoc,count]
  · have still : Named dots root (NamingTree.unname t d m name) c ↔ Named dots root t c := by
      rw [rooted.unname_named here plain bound,and_iff_left one]
    have same : children dots t c \ {q} = children dots t c := by
      refine Set.sdiff_singleton_eq_self fun child => ?_
      obtain ⟨name',other,entry⟩ := child.2
      exact two.elim (fun away => away (rooted.single c d name' name q other plain entry mine).1) fun file => file child.1
    exact links_congr still ((fewer c).trans same)

end Removing

end Changes

section Leaves
variable {I N F : Type*} [DecidableEq I] {dots : Dots N} {root : I} {t : Tree I N F} {held : I → Prop} {q : I} {f : F}

-- The node that goes is in no directory, so the others keep their names and links.
section Dropping

theorem drop_self : Function.update t q none q = none := Function.update_self ..

theorem drop_entry : Entry (Function.update t q none) d' name' c ↔ Entry t d' name' c ∧ d' ≠ q := by
  by_cases own : d' = q
  · subst own
    refine ⟨fun new => ?_,fun both => absurd rfl both.2⟩
    obtain ⟨m',there⟩ := new.isDir
    cases drop_self.symm.trans there
  · unfold Entry
    rw [Function.update_of_ne own,and_iff_left own]

theorem drop_isDir (different : c ≠ q) : IsDir (Function.update t q none) c ↔ IsDir t c := by
  unfold IsDir
  rw [Function.update_of_ne different]

theorem IsDir.kept (isDir : IsDir (Function.update t q none) c) : c ≠ q := by
  rintro rfl
  obtain ⟨m',there⟩ := isDir
  cases drop_self.symm.trans there

variable (rooted : Rooted dots root t fun c => held c ∨ c = q) (unnamed : ¬ Named dots root t q)
include rooted unnamed

theorem drop_below : Below dots (Function.update t q none) d' c ↔ Below dots t d' c := by
  constructor
  · rintro ⟨name',plain,new⟩
    exact ⟨name',plain,(drop_entry.mp new).1⟩
  · rintro ⟨name',plain,old⟩
    refine ⟨name',plain,drop_entry.mpr ⟨old,?_⟩⟩
    rintro rfl
    exact rooted.alone unnamed ⟨name',plain,old⟩

theorem drop_named : Named dots root (Function.update t q none) c ↔ Named dots root t c := by
  unfold Named
  simp only [drop_below rooted unnamed]

theorem links_drop : links dots root (Function.update t q none) c = links dots root t c := by
  refine links_congr (drop_named rooted unnamed) ?_
  ext x
  unfold children
  rw [Set.mem_ofPred,Set.mem_ofPred,drop_below rooted unnamed]
  refine and_congr_left fun lower => drop_isDir ?_
  rintro rfl
  exact unnamed (.inr ⟨c,lower⟩)

theorem Rooted.drop : Rooted dots root (Function.update t q none) held := by
  refine ⟨?_,?_,?_,?_,?_,?_,?_,?_⟩
  · refine rooted.finite.subset fun c there => ?_
    by_cases own : c = q
    · rw [own,Set.mem_ofPred,drop_self] at there
      cases there
    · rw [Set.mem_ofPred,Function.update_of_ne own] at there
      exact there
  · refine (drop_isDir ?_).mpr rooted.top
    rintro rfl
    exact unnamed (.inl rfl)
  · intro d' c lower
    have old := (drop_below rooted unnamed).mp lower
    obtain ⟨there,different,above⟩ := rooted.inside d' c old
    refine ⟨?_,different,(drop_named rooted unnamed).mpr above⟩
    rw [Function.update_of_ne]
    · exact there
    · rintro rfl
      exact unnamed (.inr ⟨d',old⟩)
  · intro d₁ d₂ name₁ name₂ c plain₁ plain₂ one two
    exact rooted.single d₁ d₂ name₁ name₂ c plain₁ plain₂ (drop_entry.mp one).1 (drop_entry.mp two).1
  · obtain ⟨rank,lower⟩ := rooted.ranked
    exact ⟨rank,fun d' c there => lower d' c ((drop_below rooted unnamed).mp there)⟩
  · intro c there
    exact drop_entry.mpr ⟨rooted.selves c ((drop_isDir there.kept).mp there),there.kept⟩
  · intro c there
    obtain ⟨p,points,top,above⟩ := rooted.ups c ((drop_isDir there.kept).mp there)
    exact ⟨p,drop_entry.mpr ⟨points,there.kept⟩,top,fun d' lower => above d' ((drop_below rooted unnamed).mp lower)⟩
  · intro c there alone
    by_cases own : c = q
    · rw [own,drop_self] at there
      cases there
    · rw [Function.update_of_ne own] at there
      exact (rooted.orphan c there fun old => alone ((drop_named rooted unnamed).mpr old)).resolve_right own

end Dropping

theorem Rooted.release (rooted : Rooted dots root t fun c => held c ∨ c = q) :
    Rooted dots root (release dots root held t q) held ∧
    ∀ c, links dots root (release dots root held t q) c = links dots root t c := by
  unfold NamingTree.release
  split
  · rename_i stays
    refine ⟨⟨rooted.finite,rooted.top,rooted.inside,rooted.single,rooted.ranked,rooted.selves,rooted.ups,
        fun c there alone => ?_⟩,fun _ => rfl⟩
    rcases rooted.orphan c there alone with holds | rfl
    · exact holds
    · exact stays.resolve_left alone
  · rename_i goes
    have unnamed : ¬ Named dots root t q := fun named => goes (.inl named)
    exact ⟨rooted.drop unnamed,fun c => links_drop rooted unnamed⟩

theorem setLeaf_isDir (here : t q = some (.leaf f)) : IsDir (Function.update t q (some (.leaf f'))) = IsDir t := by
  funext c
  unfold IsDir
  by_cases own : c = q
  · subst own
    rw [Function.update_self,here]
    refine propext ⟨?_,?_⟩ <;> (rintro ⟨m',no⟩; cases no)
  · rw [Function.update_of_ne own]

theorem setLeaf_entry (here : t q = some (.leaf f)) : Entry (Function.update t q (some (.leaf f'))) = Entry t := by
  funext d' name' c
  by_cases own : d' = q
  · subst own
    refine propext ⟨fun new => ?_,fun old => ?_⟩
    · obtain ⟨m',there⟩ := setLeaf_isDir here ▸ new.isDir
      cases here.symm.trans there
    · obtain ⟨m',there⟩ := old.isDir
      cases here.symm.trans there
  · unfold Entry
    rw [Function.update_of_ne own]

theorem setLeaf_there (here : t q = some (.leaf f)) :
    (Function.update t q (some (.leaf f')) c).isSome = (t c).isSome := by
  by_cases own : c = q
  · subst own
    rw [Function.update_self,here]
    rfl
  · rw [Function.update_of_ne own]

theorem Rooted.setLeaf (rooted : Rooted dots root t held) (here : t q = some (.leaf f)) (f' : F) :
    Rooted dots root (Function.update t q (some (.leaf f'))) held ∧ ∀ c,
    links dots root (Function.update t q (some (.leaf f'))) c = links dots root t c := by
  have isDir : IsDir (Function.update t q (some (.leaf f'))) = IsDir t := setLeaf_isDir here
  have entry : Entry (Function.update t q (some (.leaf f'))) = Entry t := setLeaf_entry here
  have there : ∀ c, (Function.update t q (some (.leaf f')) c).isSome = (t c).isSome := fun c => setLeaf_there here
  have below : Below dots (Function.update t q (some (.leaf f'))) = Below dots t := by
    unfold Below
    rw [entry]
  have named : Named dots root (Function.update t q (some (.leaf f'))) = Named dots root t := by
    unfold Named
    rw [below]
  refine ⟨⟨?_,?_,?_,?_,?_,?_,?_,?_⟩,fun c => ?_⟩
  · simp only [there]
    exact rooted.finite
  · rw [isDir]
    exact rooted.top
  · simp only [below,there,named]
    exact rooted.inside
  · rw [entry]
    exact rooted.single
  · rw [below]
    exact rooted.ranked
  · rw [isDir,entry]
    exact rooted.selves
  · rw [isDir,entry,below]
    exact rooted.ups
  · simp only [there,named]
    exact rooted.orphan
  · unfold links children
    rw [named,isDir,below]

end Leaves

end NamingTree
