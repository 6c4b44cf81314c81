import Mathlib.Logic.Function.Basic

-- Places that may refer to a resource, and the resources that are marked as taken.
namespace Ownership
variable {Slot Resource : Type*}

structure Balanced (pool : Resource → Prop) (refs : Slot → Option Resource) (used : Resource → Prop) : Prop where
  sound : ∀ slot r, refs slot = some r → pool r ∧ used r
  unique : ∀ slot slot' r, refs slot = some r → refs slot' = some r → slot = slot'
  complete : ∀ r, pool r → used r → ∃ slot, refs slot = some r

variable {pool : Resource → Prop} {refs refs' : Slot → Option Resource} {used used' : Resource → Prop}

theorem Balanced.congr (balanced : Balanced pool refs used) (same : ∀ slot, refs' slot = refs slot)
    (marks : ∀ r, pool r → (used' r ↔ used r)) : Balanced pool refs' used' := by
  refine ⟨?_,?_,?_⟩
  · intro slot r refers
    obtain ⟨inPool,taken⟩ := balanced.sound slot r (same slot ▸ refers)
    exact ⟨inPool,(marks r inPool).mpr taken⟩
  · intro slot slot' r left right
    exact balanced.unique slot slot' r (same slot ▸ left) (same slot' ▸ right)
  · intro r inPool taken
    obtain ⟨slot,refers⟩ := balanced.complete r inPool ((marks r inPool).mp taken)
    exact ⟨slot,(same slot).trans refers⟩

-- Where slots only get resources, the slot of one that was taken before had it then.
theorem Balanced.earlier (before : Balanced pool refs used) (after : Balanced pool refs' used')
    (grows : ∀ slot r, refs slot = some r → refs' slot = some r) {slot : Slot} {r : Resource}
    (refers : refs' slot = some r) (taken : used r) :
    refs slot = some r := by
  obtain ⟨inPool,_⟩ := after.sound slot r refers
  obtain ⟨other,there⟩ := before.complete r inPool taken
  rw [after.unique slot other r refers (grows other r there)]
  exact there

theorem Balanced.claim (balanced : Balanced pool refs used) {slot : Slot} {r : Resource} (inPool : pool r)
    (free : ¬ used r) (empty : refs slot = none) (here : refs' slot = some r)
    (others : ∀ other, other ≠ slot → refs' other = refs other) (marks : ∀ q, pool q → (used' q ↔ q = r ∨ used q)) :
    Balanced pool refs' used' := by
  have cases : ∀ other q, refs' other = some q → other = slot ∧ q = r ∨ refs other = some q := by
    intro other q refers
    by_cases same : other = slot
    · rw [same,here] at refers
      cases refers
      exact .inl ⟨same,rfl⟩
    · exact .inr (others other same ▸ refers)
  refine ⟨?_,?_,?_⟩
  · intro other q refers
    rcases cases other q refers with ⟨_,same⟩ | old
    · rw [same]; exact ⟨inPool,(marks r inPool).mpr (.inl rfl)⟩
    · obtain ⟨inside,taken⟩ := balanced.sound other q old
      exact ⟨inside,(marks q inside).mpr (.inr taken)⟩
  · intro one two q left right
    rcases cases one q left with ⟨first,same⟩ | old
    · rcases cases two q right with ⟨second,_⟩ | old
      · rw [first,second]
      · exact absurd (same ▸ (balanced.sound two q old).2) free
    · rcases cases two q right with ⟨_,same⟩ | other
      · exact absurd (same ▸ (balanced.sound one q old).2) free
      · exact balanced.unique one two q old other
  · intro q inside taken
    rcases (marks q inside).mp taken with same | old
    · exact ⟨slot,same ▸ here⟩
    · obtain ⟨other,refers⟩ := balanced.complete q inside old
      have different : other ≠ slot := by
        intro same
        rw [same,empty] at refers
        cases refers
      exact ⟨other,(others other different).trans refers⟩

theorem Balanced.release (balanced : Balanced pool refs used) {slot : Slot} {r : Resource} (refers : refs slot = some r)
    (here : refs' slot = none) (others : ∀ other, other ≠ slot → refs' other = refs other)
    (marks : ∀ q, pool q → (used' q ↔ q ≠ r ∧ used q)) : Balanced pool refs' used' := by
  have old : ∀ other q, refs' other = some q → other ≠ slot ∧ refs other = some q := by
    intro other q found
    have different : other ≠ slot := by
      intro same
      rw [same,here] at found
      cases found
    exact ⟨different,others other different ▸ found⟩
  refine ⟨?_,?_,?_⟩
  · intro other q found
    obtain ⟨different,found⟩ := old other q found
    obtain ⟨inside,taken⟩ := balanced.sound other q found
    have apart : q ≠ r := by
      intro same
      exact different (balanced.unique other slot r (same ▸ found) refers)
    exact ⟨inside,(marks q inside).mpr ⟨apart,taken⟩⟩
  · intro one two q left right
    exact balanced.unique one two q (old one q left).2 (old two q right).2
  · intro q inside taken
    obtain ⟨apart,taken⟩ := (marks q inside).mp taken
    obtain ⟨other,found⟩ := balanced.complete q inside taken
    have different : other ≠ slot := by
      intro same
      rw [same,refers] at found
      exact apart (Option.some.inj found).symm
    exact ⟨other,(others other different).trans found⟩

end Ownership
