import Rulebook.Proofs.Outcome
import Rulebook.Settings

/-!
# Valid settings

Settings are given out only after their limits have been checked.
-/

namespace Rulebook.Settings

/-- Limits that settings may have: a rule is small enough to be read back from its JSON text. -/
structure IsValid (limits : Limits) : Prop where
  one_le_depth : 1 ≤ limits.depth
  one_le_terms : 1 ≤ limits.terms
  terms_le : limits.terms ≤ greatestDepth

theorem validate_eq_ok {s t : Settings} : s.validate = .ok t ↔ IsValid s.limits ∧ t = s := by
  unfold validate
  split
  · next hdepth =>
    constructor
    · intro h
      cases h
    · rintro ⟨hvalid, -⟩
      have := hvalid.one_le_depth
      omega
  · next hdepth =>
    split
    · next hterms =>
      constructor
      · intro h
        cases h
        exact ⟨⟨by omega, hterms.1, hterms.2⟩, rfl⟩
      · rintro ⟨-, rfl⟩
        rfl
    · next hterms =>
      constructor
      · intro h
        cases h
      · rintro ⟨hvalid, -⟩
        exact absurd ⟨hvalid.one_le_terms, hvalid.terms_le⟩ hterms

theorem isValid_of_parse {text : String} {s : Settings} (h : parse text = .ok s) :
    IsValid s.limits := by
  obtain ⟨t, -, hvalid⟩ := Outcome.bind_eq_ok.1 (Outcome.mapError_eq_ok.1 h)
  obtain ⟨hlimits, rfl⟩ := validate_eq_ok.1 hvalid
  exact hlimits

end Rulebook.Settings
