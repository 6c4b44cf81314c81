import HonorKernel.PageFaults

-- What the calls leave alone: the entries of all other page tables, the bytes of their
-- pages, and the zero page. A law tells of the entries that they set.
namespace PageTable
open DiskFormat BitSlice

-- What a process has at its pages: nothing, or a page with these bytes.
def Mem.contents (mem : Mem) (root : Frame) (v : VPage) : Option Page :=
  if valid (mem.lookup root v) then some (mem.pages (frameOf (mem.lookup root v))) else none

def byteOf (pages : VPage → Option Page) (a : Nat) : Option Byte := (pages (pageOf a)).map fun page => byteAt page (a%pageSize)

-- The bytes `src` are at `lo` and above; what else was there is there still.
structure Painted (pages pages' : VPage → Option Page) (lo : Nat) (src : List Byte) : Prop where
  inside : ∀ k < src.length, byteOf pages' (lo+k) = src[k]?
  outside : ∀ a < 2^48, ¬ (lo ≤ a ∧ a < lo+src.length) → byteOf pages a = none ∨ byteOf pages' a = byteOf pages a

def ZeroLaw (zero : Frame) (e : U64) : Prop := valid e → frameOf e = zero → readOnly e

-- The zero page is mapped read-only.
def ZeroRo {D : Type*} (zero : Frame) (mem : Mem) (roots : D → Option Frame) : Prop :=
  ∀ d root v, roots d = some root → ZeroLaw zero (mem.lookup root v)

structure Effect {D : Type*} (zero : Frame) (roots : D → Option Frame) (d : D) (touched : VPage → Prop) (law : VPage → U64 → Prop) (mem mem' : Mem) : Prop where
  entries : ∀ d' root v, roots d' = some root →
    mem'.lookup root v = mem.lookup root v ∨ d' = d ∧ law v (mem'.lookup root v) ∧ ZeroLaw zero (mem'.lookup root v)
  contents : ∀ d' root v, roots d' = some root → mem'.contents root v = mem.contents root v ∨ d' = d ∧ touched v
  blank : mem'.pages zero = mem.pages zero

-- What every process but `d` has is as before.
structure Leaves {D : Type*} (zero : Frame) (roots : D → Option Frame) (d : D) (mem mem' : Mem) : Prop where
  blank : mem'.pages zero = mem.pages zero
  entries : ∀ d' root v, d' ≠ d → roots d' = some root → mem'.lookup root v = mem.lookup root v
  contents : ∀ d' root v, d' ≠ d → roots d' = some root → mem'.contents root v = mem.contents root v

section Bytes
variable {pages pages' pages'' : VPage → Option Page} {lo : Nat} {src more : List Byte} {va : U64} {page : Page}

theorem Painted.nothing (pages : VPage → Option Page) (lo : Nat) : Painted pages pages lo [] :=
  ⟨fun k small => absurd small (Nat.not_lt_zero k),fun _ _ _ => .inr rfl⟩

theorem Painted.append (first : Painted pages pages' lo src) (second : Painted pages' pages'' (lo+src.length) more)
    (bound : lo+src.length+more.length ≤ 2^48) : Painted pages pages'' lo (src++more) := by
  refine ⟨fun k small => ?_,fun a low away => ?_⟩
  · rw [List.length_append] at small
    by_cases early : k < src.length
    · have there := first.inside k early
      rw [List.getElem?_append_left early,← there]
      rcases second.outside (lo+k) (by omega) (by omega) with none | same
      · rw [none,List.getElem?_eq_getElem early] at there
        cases there
      · exact same
    · have there := second.inside (k-src.length) (by omega)
      rw [show lo+src.length+(k-src.length) = lo+k by omega] at there
      rw [there,List.getElem?_append_right (by omega)]
  · rw [List.length_append] at away
    rcases first.outside a low (by omega) with none | same
    · exact .inl none
    · rcases second.outside a low (by omega) with none | same'
      · exact .inl (same.symm.trans none)
      · exact .inr (same'.trans same)

theorem painted_page (low : va.toNat < 2^48) (inside : pageOffset va+src.length ≤ pageSize)
    (others : ∀ v, v ≠ vpage va → pages' v = pages v) (old : pages (vpage va) = none ∨ pages (vpage va) = some page)
    (new : pages' (vpage va) = some (setBytes page (pageOffset va) src)) :
    Painted pages pages' va.toNat src := by
  have unit : pageSize = 4096 := rfl
  have offset : pageOffset va = va.toNat%4096 := rfl
  rw [unit,offset] at inside
  have here : ∀ a, a < 2^48 → a/4096 = va.toNat/4096 →
      byteOf pages' a = some (if va.toNat ≤ a ∧ a < va.toNat+src.length then src.getD (a-va.toNat) 0#8 else byteAt page (a%4096)) := by
    intro a small same
    have number : pageOf a = vpage va := by
      rw [← pageOf_toNat va]
      exact (pageOf_same small low).mpr same
    rw [byteOf,number,new,Option.map_some,byteAt_setBytes _ _ _ (by rw [offset]; omega),offset,unit]
    by_cases mine : va.toNat ≤ a ∧ a < va.toNat+src.length
    · rw [if_pos mine,if_pos (by omega),show a%4096-va.toNat%4096 = a-va.toNat by omega]
    · rw [if_neg mine,if_neg (by omega)]
  refine ⟨fun k small => ?_,fun a small away => ?_⟩
  · rw [here (va.toNat+k) (by omega) (by omega),if_pos (by omega),Nat.add_sub_cancel_left,List.getD_eq_getElem?_getD,
      List.getElem?_eq_getElem small]
    rfl
  · by_cases same : a/4096 = va.toNat/4096
    · have number : pageOf a = vpage va := by
        rw [← pageOf_toNat va]
        exact (pageOf_same small low).mpr same
      rcases old with none | there
      · left
        rw [byteOf,number,none]
        rfl
      · right
        rw [here a small same,if_neg away,byteOf,number,there]
        rfl
    · right
      rw [byteOf,byteOf,others]
      intro number
      rw [← pageOf_toNat va] at number
      exact same ((pageOf_same small low).mp number)

end Bytes

section Rules
variable {D : Type*} {holes : Holes} {zero : Frame} {roots : D → Option Frame} {d : D}
  {touched touched' : VPage → Prop} {law law' : VPage → U64 → Prop} {mem mem' mem'' : Mem} {root p q t : Frame}
  {v : VPage} {e flags : U64} {blank : Page}

theorem contents_frame (entry : mem'.lookup root v = mem.lookup root v)
    (page : valid (mem.lookup root v) →
    mem'.pages (frameOf (mem.lookup root v)) = mem.pages (frameOf (mem.lookup root v))) :
    mem'.contents root v = mem.contents root v := by
  unfold Mem.contents
  rw [entry]
  by_cases set : valid (mem.lookup root v)
  · rw [if_pos set,if_pos set,page set]
  · rw [if_neg set,if_neg set]

theorem contents_none : mem.contents root v = none ↔ ¬ valid (mem.lookup root v) := by
  unfold Mem.contents
  by_cases set : valid (mem.lookup root v)
  · simp [set]
  · simp [set]

theorem contents_mapped (set : valid (mem.lookup root v)) : mem.contents root v = some (mem.pages (frameOf (mem.lookup root v))) := if_pos set

theorem contents_view (clear : mem.pages zero = blank) :
    mem.contents root v = (mem.view zero root v).map fun page => page.getD blank := by
  unfold Mem.contents Mem.view
  by_cases set : valid (mem.lookup root v)
  · rw [if_pos set,if_pos set]
    by_cases shared : frameOf (mem.lookup root v) = zero
    · rw [if_pos shared,shared,clear]
      rfl
    · rw [if_neg shared]
      rfl
  · rw [if_neg set,if_neg set]
    rfl

theorem Effect.refl : Effect zero roots d touched law mem mem := ⟨fun _ _ _ _ => .inl rfl,fun _ _ _ _ => .inl rfl,rfl⟩

theorem Effect.trans (first : Effect zero roots d touched law mem mem')
    (second : Effect zero roots d touched law mem' mem'') :
    Effect zero roots d touched law mem mem'' := by
  refine ⟨fun d' root v found => ?_,fun d' root v found => ?_,second.blank.trans first.blank⟩
  · rcases second.entries d' root v found with same | changed
    · rw [same]
      exact first.entries d' root v found
    · exact .inr changed
  · rcases second.contents d' root v found with same | changed
    · rw [same]
      exact first.contents d' root v found
    · exact .inr changed

theorem Effect.mono (effect : Effect zero roots d touched law mem mem') (wider : ∀ v, touched v → touched' v)
    (weaker : ∀ v e, law v e → law' v e) :
    Effect zero roots d touched' law' mem mem' :=
  ⟨fun d' root v found => (effect.entries d' root v found).imp_right fun changed => ⟨changed.1,weaker _ _ changed.2.1,changed.2.2⟩,
    fun d' root v found => (effect.contents d' root v found).imp_right fun changed => ⟨changed.1,wider _ changed.2⟩,effect.blank⟩

theorem Effect.zeroRo (effect : Effect zero roots d touched law mem mem') (ro : ZeroRo zero mem roots) :
    ZeroRo zero mem' roots := by
  intro d' root v found
  rcases effect.entries d' root v found with same | changed
  · rw [same]
    exact ro d' root v found
  · exact changed.2.2

theorem Effect.leaves (effect : Effect zero roots d touched law mem mem') : Leaves zero roots d mem mem' :=
  ⟨effect.blank,fun d' root v other found => (effect.entries d' root v found).resolve_right fun changed => other changed.1,
    fun d' root v other found => (effect.contents d' root v found).resolve_right fun changed => other changed.1⟩

theorem Leaves.trans (first : Leaves zero roots d mem mem') (second : Leaves zero roots d mem' mem'') :
    Leaves zero roots d mem mem'' :=
  ⟨second.blank.trans first.blank,fun d' root v other found => (second.entries d' root v other found).trans
      (first.entries d' root v other found),
    fun d' root v other found => (second.contents d' root v other found).trans (first.contents d' root v other found)⟩

theorem Leaves.of_update [DecidableEq D] {r : Option Frame}
    (leaves : Leaves zero (Function.update roots d r) d mem mem') : Leaves zero roots d mem mem' :=
  ⟨leaves.blank,fun d' root v other found => leaves.entries d' root v other (by rw [Function.update_of_ne other]; exact found),
    fun d' root v other found => leaves.contents d' root v other (by rw [Function.update_of_ne other]; exact found)⟩

theorem readOnly_flagsOf (e : U64) : readOnly (flagsOf e) ↔ readOnly e := by
  have both : flagsOf e &&& pteRo = e &&& pteRo := by
    unfold flagsOf
    rw [BitVec.and_assoc]
    rfl
  rw [readOnly,both]

theorem readOnly_entryFor (masked : flags &&& flagMask = flags) : readOnly (entryFor p flags) ↔ readOnly flags := by
  rw [← readOnly_flagsOf,flagsOf_entryFor masked]

theorem zeroLaw_entryFor (other : q ≠ zero) (masked : flags &&& flagMask = flags) :
    ZeroLaw zero (entryFor q flags) := by
  intro _ same
  rw [frameOf_entryFor masked] at same
  exact absurd same other

theorem zeroLaw_nothing : ZeroLaw zero 0#64 := fun set => absurd set (by decide)

theorem Sane.frame_used (sane : Sane holes zero mem roots) (here : roots d = some root)
    (set : valid (mem.lookup root v)) :
    frameOf (mem.lookup root v) ∉ mem.free := sane.page_used d v _ ⟨root,here,rfl,set⟩

theorem Sane.frame_data (sane : Sane holes zero mem roots) (here : roots d = some root)
    (set : valid (mem.lookup root v)) (d' : D) (way : List Index) :
    ¬ IsTable mem roots d' way (frameOf (mem.lookup root v)) := sane.page_data d v _ ⟨root,here,rfl,set⟩ d' way

theorem Sane.frame_owner (sane : Sane holes zero mem roots) (here : roots d = some root)
    (other : frameOf (mem.lookup root v) ≠ zero) {d' : D} {w : VPage} (maps : Maps mem roots d' w e)
    (same : frameOf e = frameOf (mem.lookup root v)) : d' = d ∧ w = v := by
  by_cases set : valid (mem.lookup root v)
  · rcases sane.page_once _ _ _ _ _ _ maps ⟨root,here,rfl,set⟩ same with mine | isZero
    · exact mine
    · exact absurd (same.symm.trans isZero) other
  · refine absurd (show holes.frames (frameOf e) from ?_) (sane.hole_page _ _ _ maps)
    rw [same,sane.plain d root v here set]
    exact holes.null

theorem Sane.leaves (sane : Sane holes zero mem roots) (kept : ∀ p, p ∉ mem.free → mem'.pages p = mem.pages p) :
    Leaves zero roots d mem mem' := by
  have entries : ∀ d' root v, roots d' = some root → mem'.lookup root v = mem.lookup root v := by
    intro d' root v found
    refine lookup_frame ?_ v
    intro way t short reached i
    unfold Mem.entry
    rw [kept t (sane.table_used d' way t ⟨root,found,short,reached⟩)]
  exact ⟨kept zero sane.zero_used,fun d' root v _ found => entries d' root v found,
    fun d' root v _ found => contents_frame (entries d' root v found) fun set => kept _ (sane.frame_used found set)⟩

theorem Grows.effect (grows : Grows roots d mem mem') (sane : Sane holes zero mem roots) :
    Effect zero roots d touched law mem mem' := by
  refine ⟨fun d' root v found => .inl (grows.lookups d' root v found),fun d' root v found => .inl ?_,
      grows.pages zero sane.zero_used (sane.zero_data d)⟩
  exact contents_frame (grows.lookups d' root v found) fun set => grows.pages _ (sane.frame_used found set)
      (sane.frame_data found set d)

theorem pages_effect (pages : mem'.pages = mem.pages) : Effect zero roots d touched law mem mem' :=
  ⟨fun _ root v _ => .inl (lookup_of_pages pages root v),fun _ root v _ =>
      .inl (contents_frame (lookup_of_pages pages root v) fun _ => by rw [pages]),
    by rw [pages]⟩

theorem setPage_effect (sane : Sane holes zero mem roots) (data : ∀ d way, ¬ IsTable mem roots d way q)
    (other : q ≠ zero) (mine : ∀ d' w e, Maps mem roots d' w e → frameOf e = q → d' = d ∧ touched w) (page : Page) :
    Effect zero roots d touched law mem (mem.setPage q page) := by
  obtain ⟨_,_,lookups⟩ := setPage_fresh sane.toFresh data page
  refine ⟨fun d' root v found => .inl (lookups d' root v found),fun d' root v found => ?_,Function.update_of_ne (Ne.symm other) _ _⟩
  by_cases hit : valid (mem.lookup root v) ∧ frameOf (mem.lookup root v) = q
  · exact .inr (mine d' v _ ⟨root,found,rfl,hit.1⟩ hit.2)
  · refine .inl (contents_frame (lookups d' root v found) fun set => ?_)
    exact Function.update_of_ne (fun same => hit ⟨set,same⟩) _ _

theorem loose_effect (sane : Sane holes zero mem roots) (loose : Loose holes zero mem roots q) (page : Page) :
    Effect zero roots d touched law mem (mem.setPage q page) :=
  setPage_effect sane loose.data loose.notZero (fun d' w e maps same => absurd same (loose.apart d' w e maps)) page

theorem target_effect (sane : Sane holes zero mem roots) (here : roots d = some root)
    (other : frameOf (mem.lookup root v) ≠ zero) (may : touched v) (page : Page) :
    Effect zero roots d touched law mem (mem.setPage (frameOf (mem.lookup root v)) page) := by
  refine setPage_effect sane (sane.target_data here v) other (fun d' w e maps same => ?_) page
  obtain ⟨rfl,rfl⟩ := sane.frame_owner here other maps same
  exact ⟨rfl,may⟩

theorem Mapped.effect (mapped : Mapped roots d v e mem mem') (sane : Sane holes zero mem roots) (may : touched v)
    (holds : law v e) (ro : ZeroLaw zero e) :
    Effect zero roots d touched law mem mem' := by
  refine ⟨fun d' root w found => ?_,fun d' root w found => ?_,mapped.pages zero sane.zero_used (sane.zero_data d)⟩
  · by_cases same : d' = d ∧ w = v
    · obtain ⟨rfl,rfl⟩ := same
      rw [mapped.here root found]
      exact .inr ⟨rfl,holds,ro⟩
    · exact .inl (mapped.lookups d' root w found fun one two => same ⟨one,two⟩)
  · by_cases same : d' = d ∧ w = v
    · obtain ⟨rfl,rfl⟩ := same
      exact .inr ⟨rfl,may⟩
    · refine .inl (contents_frame (mapped.lookups d' root w found fun one two => same ⟨one,two⟩) fun set => ?_)
      exact mapped.pages _ (sane.frame_used found set) (sane.frame_data found set d)

-- The zero page has a reference of its own besides those of the entries.
theorem Sane.many (sane : Sane holes zero mem roots) (maps : Maps mem roots d v e) (is : frameOf e = zero) :
    1 < mem.refs zero := by
  obtain ⟨S,all,count⟩ := sane.zero_count
  have positive : 0 < S.card := Finset.card_pos.mpr ⟨_,all _ _ _ maps is⟩
  omega

theorem kfreePage_lookup (data : ∀ way, ¬ IsTable mem roots d way p) (found : roots d = some root) (v : VPage) :
    (mem.kfreePage p).lookup root v = mem.lookup root v :=
  data_lookup data (fun _ j other => kfreePage_entry mem other j) found v

-- kfree_page of a page whose entry goes, or of the zero page that keeps its reference.
theorem kfreePage_still {f : Frame} (other : f ≠ p ∨ 1 < mem.refs p) : (mem.kfreePage p).pages f = mem.pages f := by
  by_cases many : 1 < mem.refs p
  · rw [(kfreePage_kept many).2.2]
  · exact kfreePage_pages mem (other.resolve_right many)

-- A page is given back before the entry that maps it gets another value.
theorem replaced_effect (sane : Sane holes zero mem roots) (here : roots d = some root)
    (reached : mem.table root (tableWay v) = some t) (set : valid (mem.lookup root v))
    (unused : valid e → frameOf e ∉ mem.free ∧ ∀ d way, ¬ IsTable mem roots d way (frameOf e)) (may : touched v)
    (holds : law v e) (ro : ZeroLaw zero e)
    (pages : mem'.pages = ((mem.kfreePage (frameOf (mem.lookup root v))).setEntry t v.2.2.2 e).pages) :
    Effect zero roots d touched law mem mem' ∧ mem'.lookup root v = e ∧ ∀ f, Loose holes zero mem roots f →
    mem'.pages f = mem.pages f := by
  have old : Maps mem roots d v (mem.lookup root v) := ⟨root,here,rfl,set⟩
  have table : IsTable mem roots d (tableWay v) t := ⟨root,here,Nat.le_refl 3,reached⟩
  have apart : t ≠ frameOf (mem.lookup root v) := by
    rintro same
    exact sane.page_data _ _ _ old _ _ (same ▸ table)
  have mapped := setAt_mapped sane here reached e unused
  have data : ∀ d' way, ¬ IsTable (mem.setEntry t v.2.2.2 e) roots d' way (frameOf (mem.lookup root v)) := by
    intro d' way there
    rcases mapped.added d' way _ there with old' | ⟨_,new⟩
    · exact sane.page_data _ _ _ old _ _ old'
    · exact sane.page_used _ _ _ old new
  have entries : ∀ d' root' w, roots d' = some root' → mem'.lookup root' w = (mem.setEntry t v.2.2.2 e).lookup root' w := by
    intro d' root' w found
    rw [lookup_of_pages pages,kfreePage_setEntry mem apart,kfreePage_lookup (data d') found]
  have bytes : ∀ f, f ≠ t → f ≠ frameOf (mem.lookup root v) ∨ f = zero → mem'.pages f = mem.pages f := by
    intro f notTable other
    have first : mem'.pages f = (mem.kfreePage (frameOf (mem.lookup root v))).pages f := by
      rw [pages]
      exact Function.update_of_ne notTable _ _
    rw [first]
    by_cases same : f = frameOf (mem.lookup root v)
    · have isZero := other.resolve_left (not_not_intro same)
      refine kfreePage_still (.inr ?_)
      rw [← same,isZero]
      exact sane.many old (same.symm.trans isZero)
    · exact kfreePage_still (.inl same)
  have notTable : ∀ f, (∀ way, ¬ IsTable mem roots d way f) → f ≠ t := by
    rintro f free rfl
    exact free _ table
  refine ⟨⟨fun d' root' w found => ?_,fun d' root' w found => ?_,bytes zero (notTable zero (sane.zero_data d)) (.inr rfl)⟩,?_⟩
  · rw [entries d' root' w found]
    have setting : Effect zero roots d touched law mem (mem.setEntry t v.2.2.2 e) := mapped.effect sane may holds ro
    exact setting.entries d' root' w found
  · by_cases same : d' = d ∧ w = v
    · obtain ⟨rfl,rfl⟩ := same
      exact .inr ⟨rfl,may⟩
    · have kept : mem'.lookup root' w = mem.lookup root' w := by
        rw [entries d' root' w found]
        exact mapped.lookups d' root' w found fun one two => same ⟨one,two⟩
      refine .inl (contents_frame kept fun set' => bytes _ (notTable _ (sane.frame_data found set' d)) ?_)
      by_cases shared : frameOf (mem.lookup root' w) = frameOf (mem.lookup root v)
      · rcases sane.page_once _ _ _ _ _ _ ⟨root',found,rfl,set'⟩ old shared with mine | isZero
        · exact absurd mine same
        · exact .inr isZero
      · exact .inl shared
  · rw [entries d root v here]
    exact ⟨mapped.here root here,fun f loose => bytes f (notTable f (loose.data d)) (.inl fun same => loose.apart d v _ old same.symm)⟩

end Rules

section Operations
variable {D : Type*} {holes : Holes} {zero : Frame} {roots : D → Option Frame} {d : D} {touched : VPage → Prop}
  {law : VPage → U64 → Prop} {mem mem' : Mem} {root rp q : Frame} {va flags : U64} {pt : Option Frame}
  {dir dir' : PgDir} {src : List Byte}

theorem kallocPage_effect (ran : mem.kallocPage = .ok (q,mem')) : Effect zero roots d touched law mem mem' :=
  pages_effect (kallocPage_cases ran).2.1

theorem kzallocPage_effect (sane : Sane holes zero mem roots) (ran : mem.kzallocPage = .ok (q,mem')) :
    Effect zero roots d touched law mem mem' := by
  obtain ⟨⟨p,middle⟩,took,ran⟩ := Runs.bind_ok.mp ran
  cases ran
  obtain ⟨sane₁,loose⟩ := sane.takes took
  exact (kallocPage_effect took).trans (loose_effect sane₁ loose _)

theorem slab_effect (n : Nat) (ran : slab n mem = .ok mem') : Effect zero roots d touched law mem mem' := by
  induction n generalizing mem with
  | zero =>
    cases ran
    exact .refl
  | succ n ih =>
    obtain ⟨⟨q,middle⟩,took,ran⟩ := Runs.bind_ok.mp ran
    exact (kallocPage_effect took).trans (ih ran)

theorem vmmap_effect (sane : Sane holes zero mem roots) (here : roots d = some root)
    (loose : Loose holes zero mem roots q) (masked : flags &&& flagMask = flags) (may : touched (vpage va))
    (holds : law (vpage va) (entryFor q flags)) (ran : vmmap va q flags (some root) mem = .ok (pt,mem')) :
    Effect zero roots d touched law mem mem' :=
  (vmmap_mapped sane.toFresh here masked loose.used loose.data ran).2.1.effect sane may holds (zeroLaw_entryFor loose.notZero masked)

-- The pages of a new image: those of the file, the zero page, the stack.
theorem mapZero_effect (pages : List U64) (sane : Sane holes zero mem roots) (here : roots d = some root)
    (holds : ∀ va ∈ pages, law (vpage va) (entryFor zero (pteUserData ||| pteRo)))
    (ran : mapZero zero pages (some root) mem = .ok (pt,mem')) :
    Effect zero roots d (fun _ => True) law mem mem' := by
  induction pages generalizing mem with
  | nil =>
    cases ran
    exact .refl
  | cons va rest ih =>
    obtain ⟨⟨pt₁,middle⟩,first,ran⟩ := Runs.bind_ok.mp ran
    obtain ⟨_,mapped,_⟩ := vmmap_mapped sane.toFresh here (by decide) sane.zero_used sane.zero_data first
    obtain ⟨rfl,sane'⟩ := vmmap_zero sane here (by decide) (by decide) first
    have ro : ZeroLaw zero (entryFor zero (pteUserData ||| pteRo)) := fun _ _ => (readOnly_entryFor (by decide)).mpr (by decide)
    exact (mapped.effect sane trivial (holds va List.mem_cons_self) ro).trans
        (ih sane' (fun va member => holds va (List.mem_cons_of_mem _ member)) ran)

theorem loadPage_effect {bytes : List Byte} (sane : Sane holes zero mem roots) (here : roots d = some root)
    (masked : flags &&& flagMask = flags) (set : valid flags)
    (holds : ∀ q, q ≠ zero → law (vpage va) (entryFor q flags))
    (ran : loadPage flags va bytes (some root) mem = .ok (pt,mem')) :
    Effect zero roots d (fun _ => True) law mem mem' := by
  obtain ⟨⟨page,taken⟩,took,ran⟩ := Runs.bind_ok.mp ran
  obtain ⟨⟨pt₁,mapped⟩,made,ran⟩ := Runs.bind_ok.mp ran
  cases ran
  obtain ⟨sane₁,loose,_⟩ := kzallocPage_sane sane took
  obtain ⟨rfl,sane₂,entry⟩ := vmmap_loose sane₁ here loose masked set made
  have frame : frameOf (mapped.lookup root (vpage (pageBase va))) = page := by rw [entry,frameOf_entryFor masked]
  have mapping : Effect zero roots d (fun _ => True) law taken mapped :=
    vmmap_effect sane₁ here loose masked trivial (by rw [vpage_base]; exact holds page loose.notZero) made
  have filling : Effect zero roots d (fun _ => True) law mapped _ := target_effect sane₂ here
      (by rw [frame]; exact loose.notZero) trivial
    (setBytes (mapped.pages page) (pageOffset va) bytes)
  rw [frame] at filling
  exact ((kzallocPage_effect sane took).trans mapping).trans filling

theorem add_of_nat (va : U64) (n k : Nat) : va+BitVec.ofNat 64 n+BitVec.ofNat 64 k = va+BitVec.ofNat 64 (n+k) := by
  rw [BitVec.add_assoc,BitVec.ofNat_add]

theorem loadPages_effect (fuel : Nat) {bytes : List Byte} (sane : Sane holes zero mem roots)
    (here : roots d = some root) (masked : flags &&& flagMask = flags) (set : valid flags)
    (holds : ∀ k < bytes.length, ∀ q, q ≠ zero → law (vpage (va+BitVec.ofNat 64 k)) (entryFor q flags))
    (ran : loadPages flags fuel va bytes (some root) mem = .ok (pt,mem')) :
    Effect zero roots d (fun _ => True) law mem mem' := by
  induction fuel generalizing va bytes mem with
  | zero =>
    cases ran
    exact .refl
  | succ fuel ih =>
    unfold loadPages at ran
    split at ran
    · cases ran
      exact .refl
    · rename_i more
      obtain ⟨⟨pt₁,middle⟩,first,ran⟩ := Runs.bind_ok.mp ran
      obtain ⟨rfl,sane'⟩ := loadPage_sane sane here masked set first
      have start := holds 0 (List.length_pos_iff.mpr more)
      rw [BitVec.add_zero] at start
      refine (loadPage_effect sane here masked set start first).trans (ih sane' (fun k small q other => ?_) ran)
      rw [List.length_drop] at small
      rw [add_of_nat]
      exact holds _ (by omega) q other

theorem mapStack_effect {sp : U64} (steps : List Nat) (sane : Sane holes zero mem roots) (here : roots d = some root)
    (holds : ∀ i ∈ steps, ∀ q, q ≠ zero → law (vpage (sp-BitVec.ofNat 64 (i*pageSize))) (entryFor q pteUserData))
    (ran : mapStack sp steps (some root) mem = .ok (pt,mem')) : Effect zero roots d (fun _ => True) law mem mem' := by
  induction steps generalizing mem with
  | nil =>
    cases ran
    exact .refl
  | cons i rest ih =>
    obtain ⟨⟨page,taken⟩,took,ran⟩ := Runs.bind_ok.mp ran
    obtain ⟨⟨pt₁,middle⟩,made,ran⟩ := Runs.bind_ok.mp ran
    obtain ⟨sane₁,loose,_⟩ := kzallocPage_sane sane took
    obtain ⟨rfl,sane₂,_⟩ := vmmap_loose sane₁ here loose (by decide) (by decide) made
    have mapping : Effect zero roots d (fun _ => True) law taken middle :=
      vmmap_effect sane₁ here loose (by decide) trivial (holds i List.mem_cons_self page loose.notZero) made
    exact ((kzallocPage_effect sane took).trans mapping).trans (ih sane₂ (fun i member => holds i (List.mem_cons_of_mem _ member)) ran)

theorem copyoutLoop_effect (fuel : Nat) (sane : Sane holes zero mem roots) (here : roots d = some root)
    (own : ∀ k < src.length, frameOf (mem.lookup root (vpage (va+BitVec.ofNat 64 k))) ≠ zero)
    (ran : copyoutLoop fuel va src (some root) mem = .ok (pt,mem')) :
    Effect zero roots d (fun _ => True) law mem mem' := by
  induction fuel generalizing va src mem with
  | zero =>
    cases ran
    exact .refl
  | succ fuel ih =>
    unfold copyoutLoop at ran
    split at ran
    · cases ran
      exact .refl
    · rename_i more
      obtain ⟨⟨slot,pt',middle⟩,got,ran⟩ := Runs.bind_ok.mp ran
      obtain ⟨grows,rfl,t,rfl,_,value⟩ := getPte_grows sane.toFresh here got
      obtain ⟨_,found,ran⟩ := Runs.bind_ok.mp ran
      cases found
      have sane₁ := sane.grows grows
      have entry : middle.at ⟨t,part 3 va⟩ = middle.lookup root (vpage va) := by
        rw [grows.lookups d root _ here]
        exact value
      simp only [entry] at ran
      have mine := own 0 (List.length_pos_iff.mpr more)
      rw [BitVec.add_zero,← grows.lookups d root _ here] at mine
      have data := sane₁.target_data here (vpage va)
      obtain ⟨sane₂,_,lookups⟩ := sane₁.setPage data (setBytes (middle.pages (frameOf (middle.lookup root (vpage va)))) (pageOffset va)
        (src.take (min src.length (pageSize-pageOffset va))))
      refine ((grows.effect sane).trans (target_effect sane₁ here mine trivial _)).trans (ih sane₂ (fun k small => ?_) ran)
      rw [List.length_drop] at small
      rw [add_of_nat,lookups d root _ here,grows.lookups d root _ here]
      exact own _ (by omega)

theorem dropped_effect {t : Frame} {v : VPage} (sane : Sane holes zero mem roots) (here : roots d = some root)
    (reached : mem.table root (tableWay v) = some t) (set : valid (mem.lookup root v)) (may : touched v)
    (holds : law v 0#64) :
    Effect zero roots d touched law mem ((mem.kfreePage (frameOf (mem.lookup root v))).setEntry t v.2.2.2 0#64) ∧
      ((mem.kfreePage (frameOf (mem.lookup root v))).setEntry t v.2.2.2 0#64).lookup root v = 0#64 := by
  obtain ⟨effect,entry,_⟩ := replaced_effect sane here reached set (fun valid => absurd valid (by decide)) may holds zeroLaw_nothing
    (show _ = ((mem.kfreePage (frameOf (mem.lookup root v))).setEntry t v.2.2.2 0#64).pages from rfl)
  exact ⟨effect,entry⟩

theorem copyOnWrite_effect {t : Frame} {mem₁ : Mem} (sane : Sane holes zero mem roots) (here : roots d = some root)
    (reached : mem.table root (tableWay (vpage va)) = some t) (set : valid (mem.lookup root (vpage va)))
    (took : mem.kallocPage = .ok (q,mem₁)) (page : Page) (may : touched (vpage va))
    (holds : q ≠ zero → law (vpage va) (entryFor q pteUserData))
    (ran : vmmap va q pteUserData (some root)
        ((mem₁.setPage q page).kfreePage (frameOf (mem.lookup root (vpage va)))) = .ok (pt,mem')) :
    Effect zero roots d touched law mem mem' ∧ mem'.lookup root (vpage va) = entryFor q pteUserData ∧
    mem'.pages q = page := by
  have short : (tableWay (vpage va)).length ≤ 3 := Nat.le_refl 3
  obtain ⟨_,pages₁,_,_⟩ := kallocPage_cases took
  obtain ⟨sane₁,loose₁⟩ := sane.takes took
  obtain ⟨sane₂,keeps,lookups⟩ := sane₁.setPage loose₁.data page
  have loose₂ := keeps q loose₁
  have taking : Effect zero roots d touched law mem (mem₁.setPage q page) := (kallocPage_effect took).trans
      (loose_effect sane₁ loose₁ page)
  have copied : (mem₁.setPage q page).pages q = page := Function.update_self _ _ _
  obtain ⟨mem₂,is⟩ : ∃ mem₂, mem₂ = mem₁.setPage q page := ⟨_,rfl⟩
  rw [← is] at ran sane₂ lookups loose₂ taking copied
  have value : mem₂.lookup root (vpage va) = mem.lookup root (vpage va) := by rw [lookups d root _ here,lookup_of_pages pages₁]
  have reached₂ : mem₂.table root (tableWay (vpage va)) = some t := by
    rw [is,← reached,← table_of_pages pages₁ root short]
    exact data_tables (loose₁.data d) (fun x j other => by rw [entry_setPage,if_neg other]) here (Nat.le_refl 3)
  rw [← value] at ran set
  have reached₃ : (mem₂.kfreePage (frameOf (mem₂.lookup root (vpage va)))).table root (tableWay (vpage va)) = some t := by
    rw [← reached₂]
    exact data_tables (sane₂.frame_data here set d) (fun x j other => kfreePage_entry mem₂ other j) here (Nat.le_refl 3)
  obtain ⟨⟨slot,pt',mem₃⟩,got,ran⟩ := Runs.bind_ok.mp ran
  rw [getPte_existing reached₃ true] at got
  cases got
  cases ran
  have unused : valid (entryFor q pteUserData) → frameOf (entryFor q pteUserData) ∉ mem₂.free ∧
      ∀ d way, ¬ IsTable mem₂ roots d way (frameOf (entryFor q pteUserData)) := by
    intro _
    rw [frameOf_entryFor (by decide)]
    exact ⟨loose₂.used,loose₂.data⟩
  obtain ⟨replacing,result,bytes⟩ := replaced_effect sane₂ here reached₂ set unused may (holds loose₂.notZero)
      (zeroLaw_entryFor loose₂.notZero (by decide))
    (show _ = ((mem₂.kfreePage (frameOf (mem₂.lookup root (vpage va)))).setEntry t (part 3 va)
        (entryFor q pteUserData)).pages from rfl)
  exact ⟨(taking.trans replacing).trans (pages_effect rfl),(lookup_of_pages rfl root _).trans result,(bytes q loose₂).trans copied⟩

-- The handler leaves an entry that user code may write to, and the bytes that were there.
theorem pgfaultHandler_effect (sane : Sane holes zero mem roots) (here : roots d = some root)
    (table : dir.pt = some root) (may : touched (vpage va))
    (holds : ∀ q, q ≠ zero → law (vpage va) (entryFor q pteUserData))
    (ran : pgfaultHandler va dir mem = .ok (dir',mem')) :
    Effect zero roots d touched law mem mem' ∧ valid (mem'.lookup root (vpage va)) ∧
    ¬ readOnly (mem'.lookup root (vpage va)) ∧
      (mem.contents root (vpage va) = none ∨ mem'.contents root (vpage va) = mem.contents root (vpage va)) := by
  have written : ∀ q : Frame, valid (entryFor q pteUserData) ∧ ¬ readOnly (entryFor q pteUserData) := fun q =>
    ⟨(valid_entryFor (by decide)).mpr (by decide),fun ro => absurd ((readOnly_entryFor (by decide)).mp ro) (by decide)⟩
  unfold pgfaultHandler at ran
  split at ran
  · cases ran
  · obtain ⟨⟨slot,pt,middle⟩,got,ran⟩ := Runs.bind_ok.mp ran
    rw [table] at got
    obtain ⟨grows,rfl,t,rfl,reached,value⟩ := getPte_grows sane.toFresh here got
    obtain ⟨_,found,ran⟩ := Runs.bind_ok.mp ran
    cases found
    obtain ⟨⟨pt₁,last⟩,handled,finish⟩ := Runs.bind_ok.mp ran
    have sane₁ := sane.grows grows
    have entry : middle.at ⟨t,part 3 va⟩ = middle.lookup root (vpage va) := by
      rw [grows.lookups d root _ here]
      exact value
    have same : middle.contents root (vpage va) = mem.contents root (vpage va) :=
      contents_frame (grows.lookups d root _ here) fun set => grows.pages _ (sane.frame_used here set) (sane.frame_data here set d)
    have result : Effect zero roots d touched law middle last ∧ valid (last.lookup root (vpage va)) ∧ ¬ readOnly
        (last.lookup root (vpage va)) ∧
        (middle.contents root (vpage va) = none ∨ last.contents root (vpage va) = middle.contents root (vpage va)) := by
      simp only [entry] at handled
      split at handled
      · rename_i zeroed
        obtain ⟨⟨page,taken⟩,took,handled⟩ := Runs.bind_ok.mp handled
        obtain ⟨sane₂,loose⟩ := sane₁.takes took
        obtain ⟨rfl,_,mapped⟩ := vmmap_loose sane₂ here loose (by decide) (by decide) handled
        rw [mapped]
        refine ⟨(kallocPage_effect took).trans (vmmap_effect sane₂ here loose (by decide) may
            (holds page loose.notZero) handled),(written page).1,
          (written page).2,.inl (contents_none.mpr ?_)⟩
        rw [zeroed]
        decide
      · rename_i nonzero
        have set : valid (middle.lookup root (vpage va)) := by
          by_cases set : valid (middle.lookup root (vpage va))
          · exact set
          · exact absurd (sane₁.plain d root _ here set) nonzero
        split at handled
        · obtain ⟨⟨page,taken⟩,took,handled⟩ := Runs.bind_ok.mp handled
          have entry' : taken.at ⟨t,part 3 va⟩ = middle.lookup root (vpage va) :=
              (entry_of_pages (kallocPage_cases took).2.1 t (part 3 va)).trans entry
          simp only [entry'] at handled
          obtain ⟨effect,mapped,bytes⟩ := copyOnWrite_effect sane₁ here reached set took _ may (fun other => holds page other) handled
          rw [contents_mapped set,contents_mapped (by rw [mapped]; exact (written page).1),mapped]
          refine ⟨effect,(written page).1,(written page).2,.inr ?_⟩
          rw [frameOf_entryFor (by decide),bytes,(kallocPage_cases took).2.1]
        · rename_i writable
          cases handled
          exact ⟨.refl,set,fun ro => writable ((readOnly_flagsOf _).mpr ro),.inr rfl⟩
    obtain ⟨effect,valid,writable,kept⟩ := result
    simp only at finish
    split at finish
    · cases finish
      rw [same] at kept
      exact ⟨(grows.effect sane).trans effect,valid,writable,kept⟩
    · cases finish

theorem userStore_low {bytes : List Byte} (ran : userStore va bytes dir mem = .ok (dir',mem')) : va.toNat < 2^48 := by
  by_cases low : va.toNat < 2^48
  · exact low
  · unfold userStore at ran
    rw [if_pos (Nat.not_lt.mp low)] at ran
    cases ran

theorem userStore_effect {bytes : List Byte} (sane : Sane holes zero mem roots) (ro : ZeroRo zero mem roots)
    (here : roots d = some root) (table : dir.pt = some root) (may : touched (vpage va))
    (holds : ∀ q, q ≠ zero → law (vpage va) (entryFor q pteUserData))
    (ran : userStore va bytes dir mem = .ok (dir',mem')) :
    Effect zero roots d touched law mem mem' ∧ ∃ page, (mem.contents root (vpage va) = none ∨
    mem.contents root (vpage va) = some page) ∧
      mem'.contents root (vpage va) = some (setBytes page (pageOffset va) bytes) := by
  unfold userStore at ran
  split at ran
  · cases ran
  · obtain ⟨⟨slot,pt,same⟩,looked,ran⟩ := Runs.bind_ok.mp ran
    obtain ⟨⟨dir₁,middle⟩,present,ran⟩ := Runs.bind_ok.mp ran
    obtain ⟨⟨slot',pt',same'⟩,got,finish⟩ := Runs.bind_ok.mp ran
    rw [table] at looked
    obtain ⟨rfl,_,seen⟩ := getPte_reads looked
    have result : dir₁ = dir ∧ Sane holes zero middle roots ∧ Effect zero roots d touched law same middle ∧ valid
        (middle.lookup root (vpage va)) ∧
        ¬ readOnly (middle.lookup root (vpage va)) ∧
        (same.contents root (vpage va) = none ∨ middle.contents root (vpage va) = same.contents root (vpage va)) := by
      split at present
      · rename_i writable
        cases present
        refine ⟨rfl,sane,.refl,?_⟩
        rcases seen with ⟨rfl,_⟩ | ⟨t,rfl,_,value⟩
        · cases writable
        · have entry : same.at ⟨t,part 3 va⟩ = same.lookup root (vpage va) := value
          simp only [Option.any_some,entry,decide_eq_true_eq] at writable
          exact ⟨writable.1,writable.2,.inr rfl⟩
      · obtain ⟨rfl,sane₁⟩ := pgfaultHandler_sane sane here table present
        obtain ⟨effect,post⟩ := pgfaultHandler_effect sane here table may holds present
        exact ⟨rfl,sane₁,effect,post⟩
    obtain ⟨rfl,sane₁,effect,set,writable,kept⟩ := result
    rw [table] at got
    obtain ⟨_,found,finish⟩ := Runs.bind_ok.mp finish
    obtain ⟨rfl,_,⟨rfl,_⟩ | ⟨t,rfl,_,value⟩⟩ := getPte_reads got
    · cases found
    · cases found
      have entry : same'.at ⟨t,part 3 va⟩ = same'.lookup root (vpage va) := value
      cases finish
      rw [entry]
      have own : frameOf (same'.lookup root (vpage va)) ≠ zero := fun isZero => writable (effect.zeroRo ro d root _ here set isZero)
      refine ⟨effect.trans (target_effect sane₁ here own may _),same'.pages (frameOf (same'.lookup root (vpage va))),?_,?_⟩
      · rw [contents_mapped set] at kept
        exact kept.imp_right Eq.symm
      · obtain ⟨_,_,lookups⟩ := setPage_fresh sane₁.toFresh (sane₁.target_data here (vpage va))
          (setBytes (same'.pages (frameOf (same'.lookup root (vpage va)))) (pageOffset va) bytes)
        rw [contents_mapped (by rw [lookups d root _ here]; exact set),lookups d root _ here]
        exact congrArg some (Function.update_self _ _ _)

theorem userCopy_effect (fuel : Nat) (enough : src.length ≤ fuel) (sane : Sane holes zero mem roots)
    (ro : ZeroRo zero mem roots) (here : roots d = some root) (table : dir.pt = some root)
    (may : ∀ k < src.length, touched (vpage (va+BitVec.ofNat 64 k)))
    (holds : ∀ k < src.length, ∀ q, q ≠ zero → law (vpage (va+BitVec.ofNat 64 k)) (entryFor q pteUserData))
    (ran : userCopy fuel va src dir mem = .ok (dir',mem')) :
    Effect zero roots d touched law mem mem' ∧ (src = [] ∨ va.toNat+src.length ≤ 2^48) ∧
      Painted (mem.contents root) (mem'.contents root) va.toNat src := by
  induction fuel generalizing va src mem with
  | zero =>
    obtain rfl := List.eq_nil_of_length_eq_zero (Nat.le_zero.mp enough)
    cases ran
    exact ⟨.refl,.inl rfl,.nothing _ _⟩
  | succ fuel ih =>
    unfold userCopy at ran
    split at ran
    · rename_i empty
      subst empty
      cases ran
      exact ⟨.refl,.inl rfl,.nothing _ _⟩
    · rename_i more
      have positive : 0 < src.length := List.length_pos_iff.mpr more
      have unit : pageSize = 4096 := rfl
      have offset : pageOffset va = va.toNat%4096 := rfl
      obtain ⟨n,count⟩ : ∃ n, n = min src.length (pageSize-pageOffset va) := ⟨_,rfl⟩
      simp only [← count] at ran
      obtain ⟨⟨dir₁,middle⟩,first,rest⟩ := Runs.bind_ok.mp ran
      have start := holds 0 positive
      have mine := may 0 positive
      rw [BitVec.add_zero] at start mine
      have low := userStore_low first
      have next : (va+BitVec.ofNat 64 n).toNat = va.toNat+n := by
        rw [BitVec.toNat_add,BitVec.toNat_ofNat]
        omega
      have taken : (src.take n).length = n := by
        rw [List.length_take]
        omega
      obtain ⟨effect,_⟩ : Effect zero roots d touched law mem middle ∧ _ := userStore_effect sane ro here table mine start first
      obtain ⟨only,page,old,new⟩ : Effect zero roots d (· = vpage va) (fun _ _ => True) mem middle ∧ _ :=
        userStore_effect sane ro here table rfl (fun _ _ => trivial) first
      obtain ⟨rfl,sane'⟩ := userStore_sane sane here table first
      have painted : Painted (mem.contents root) (middle.contents root) va.toNat (src.take n) :=
        painted_page low (by rw [taken]; omega)
            (fun v other => (only.contents d root v here).resolve_right fun both => other both.2) old new
      obtain ⟨later,ends,tail⟩ := ih (by rw [List.length_drop]; omega) sane' (effect.zeroRo ro) (fun k small => by
          rw [List.length_drop] at small
          rw [add_of_nat]
          exact may _ (by omega)) (fun k small q other => by
          rw [List.length_drop] at small
          rw [add_of_nat]
          exact holds _ (by omega) q other) rest
      rw [next,← taken] at tail
      rw [List.length_drop,next] at ends
      have whole := painted.append tail (by
        rw [taken,List.length_drop]
        rcases ends with empty | bound
        · have none := List.drop_eq_nil_iff.mp empty
          omega
        · omega)
      rw [taken,List.take_append_drop] at whole
      refine ⟨effect.trans later,.inr ?_,whole⟩
      rcases ends with empty | bound
      · have none := List.drop_eq_nil_iff.mp empty
        omega
      · omega

end Operations

-- Entries of these pages are cleared.
structure Drops {D : Type*} (zero : Frame) (roots : D → Option Frame) (d : D) (root : Frame) (pages : List VPage) (mem mem' : Mem) : Prop where
  effect : Effect zero roots d (· ∈ pages) (fun v e => v ∈ pages ∧ e = 0#64) mem mem'
  gone : ∀ v ∈ pages, ¬ valid (mem'.lookup root v)

section Releasing
variable {D : Type*} {holes : Holes} {zero : Frame} {roots : D → Option Frame} {d : D} {mem mem' mem'' : Mem}
  {root t : Frame} {va : U64} {v : VPage} {pages : List VPage} {σ : Type} {files : Files σ} {fs fs' : σ} {st : Section}

theorem Drops.nothing : Drops zero roots d root [] mem mem := ⟨.refl,fun _ there => absurd there List.not_mem_nil⟩

theorem Drops.vacant (unset : ¬ valid (mem.lookup root v)) : Drops zero roots d root [v] mem mem := by
  refine ⟨.refl,fun w there => ?_⟩
  rw [List.mem_singleton.mp there]
  exact unset

theorem Drops.page (sane : Sane holes zero mem roots) (here : roots d = some root)
    (reached : mem.table root (tableWay v) = some t) (set : valid (mem.lookup root v)) :
    Drops zero roots d root [v] mem ((mem.kfreePage (frameOf (mem.lookup root v))).setEntry t v.2.2.2 0#64) := by
  obtain ⟨effect,entry⟩ : Effect zero roots d (· ∈ [v]) (fun w e => w ∈ [v] ∧ e = 0#64) mem _ ∧ _ :=
    dropped_effect sane here reached set (List.mem_singleton_self v) ⟨List.mem_singleton_self v,rfl⟩
  refine ⟨effect,fun w there => ?_⟩
  rw [List.mem_singleton.mp there,entry]
  decide

theorem Drops.cons (here : roots d = some root) (first : Drops zero roots d root [v] mem mem')
    (rest : Drops zero roots d root pages mem' mem'') :
    Drops zero roots d root (v::pages) mem mem'' := by
  refine ⟨(first.effect.mono ?_ ?_).trans (rest.effect.mono (fun w there => List.mem_cons_of_mem _ there) ?_),fun w there set => ?_⟩
  · rintro w there
    rw [List.mem_singleton.mp there]
    exact List.mem_cons_self
  · rintro w e ⟨there,zeroed⟩
    rw [List.mem_singleton.mp there]
    exact ⟨List.mem_cons_self,zeroed⟩
  · rintro w e ⟨there,zeroed⟩
    exact ⟨List.mem_cons_of_mem _ there,zeroed⟩
  · rcases rest.effect.entries d root w here with same | ⟨_,⟨_,zeroed⟩,_⟩
    · rcases List.mem_cons.mp there with rfl | there
      · rw [same] at set
        exact first.gone w (List.mem_singleton_self w) set
      · exact rest.gone w there set
    · rw [zeroed] at set
      exact absurd set (by decide)

theorem dropPages_drops (vas : List U64) (sane : Sane holes zero mem roots) (here : roots d = some root)
    (ran : dropPages (some root) vas mem = .ok mem') :
    Drops zero roots d root (vas.map vpage) mem mem' := by
  induction vas generalizing mem with
  | nil =>
    cases ran
    exact .nothing
  | cons va rest ih =>
    obtain ⟨middle,first,ran⟩ := Runs.bind_ok.mp ran
    refine Drops.cons here ?_ (ih (dropPage_sane sane here first) ran)
    obtain ⟨⟨slot,_,same⟩,got,first⟩ := Runs.bind_ok.mp first
    obtain ⟨rfl,_,⟨rfl,none⟩ | ⟨t,rfl,reached,value⟩⟩ := getPte_reads got
    · cases first
      exact .vacant (by rw [none]; decide)
    · have entry : same.at ⟨t,part 3 va⟩ = same.lookup root (vpage va) := value
      simp only [entry] at first
      split at first
      · rename_i set
        cases first
        exact .page sane here reached set
      · rename_i unset
        cases first
        exact .vacant unset

theorem freeSectionPages_drops (vas : List U64) (sane : Sane holes zero mem roots) (here : roots d = some root)
    (ran : freeSectionPages files st (some root) vas mem fs = .ok (mem',fs')) :
    Drops zero roots d root (vas.map vpage) mem mem' := by
  induction vas generalizing mem fs with
  | nil =>
    cases ran
    exact .nothing
  | cons va rest ih =>
    obtain ⟨⟨middle,fs₁⟩,first,ran⟩ := Runs.bind_ok.mp ran
    refine Drops.cons here ?_ (ih (freeSectionPage_sane sane here first) ran)
    obtain ⟨⟨slot,_,same⟩,got,first⟩ := Runs.bind_ok.mp first
    obtain ⟨rfl,_,⟨rfl,none⟩ | ⟨t,rfl,reached,value⟩⟩ := getPte_reads got
    · cases first
      exact .vacant (by rw [none]; decide)
    · have entry : same.at ⟨t,part 3 va⟩ = same.lookup root (vpage va) := value
      simp only [entry] at first
      split at first
      · rename_i set
        obtain ⟨_,_,first⟩ := Runs.bind_ok.mp first
        cases first
        exact .page sane here reached set
      · rename_i unset
        cases first
        exact .vacant unset

theorem cutPages_drops (vas : List U64) {last : U64} (sane : Sane holes zero mem roots) (here : roots d = some root)
    (nodup : (vas.map vpage).Nodup) (present : ∀ va ∈ vas, valid (mem.lookup root (vpage va)))
    (ran : cutPages files st last (some root) vas mem fs = .ok (mem',fs')) :
    Drops zero roots d root (vas.map vpage) mem mem' := by
  induction vas generalizing mem fs with
  | nil =>
    cases ran
    exact .nothing
  | cons va rest ih =>
    obtain ⟨⟨middle,fs₁⟩,first,ran⟩ := Runs.bind_ok.mp ran
    obtain ⟨⟨slot,_,same⟩,got,first⟩ := Runs.bind_ok.mp first
    obtain ⟨_,found,first⟩ := Runs.bind_ok.mp first
    obtain ⟨fs₂,_,first⟩ := Runs.bind_ok.mp first
    rw [List.map_cons,List.nodup_cons] at nodup
    obtain ⟨rfl,_,⟨rfl,_⟩ | ⟨t,rfl,reached,value⟩⟩ := getPte_reads got
    · cases found
    · cases found
      have entry : same.at ⟨t,part 3 va⟩ = same.lookup root (vpage va) := value
      have set := present va List.mem_cons_self
      cases first
      rw [entry] at ran
      refine Drops.cons here (.page sane here reached set) (ih (sane.dropped here reached set) nodup.2 ?_ ran)
      intro va' member
      have other : vpage va' ≠ vpage va := by
        intro equal
        exact nodup.1 (equal ▸ List.mem_map_of_mem member)
      have kept := dropped_lookup sane here reached set other
      exact kept ▸ present va' (List.mem_cons_of_mem _ member)

theorem freePgdir_leaves [DecidableEq D] {dir dir' : PgDir} (sane : Sane holes zero mem roots)
    (here : roots d = some root) (table : dir.pt = some root)
    (nodup : (dir.sections.flatMap fun st => st.pages.map vpage).Nodup)
    (ran : freePgdir files dir mem fs = .ok (dir',mem',fs')) :
    Leaves zero roots d mem mem' := by
  obtain ⟨sane',_⟩ := freePgdir_sane files sane here table nodup ran
  have returns := freePgdir_returns table ran
  have still : ∀ d' root', d' ≠ d → roots d' = some root' → Function.update roots d none d' = some root' := by
    intro d' root' other found
    rw [Function.update_of_ne other]
    exact found
  have entries : ∀ d' root' v, d' ≠ d → roots d' = some root' → mem'.lookup root' v = mem.lookup root' v := by
    intro d' root' v other found
    refine (lookup_frame ?_ v).symm
    intro way t short reached i
    unfold Mem.entry
    rw [(returns t (sane'.table_used d' way t ⟨root',still d' root' other found,short,reached⟩)).2]
  refine ⟨(returns zero sane'.zero_used).2,entries,fun d' root' v other found => contents_frame
      (entries d' root' v other found) fun set => (returns _ ?_).2⟩
  rw [← entries d' root' v other found] at set ⊢
  exact sane'.frame_used (still d' root' other found) set

end Releasing

end PageTable
