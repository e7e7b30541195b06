import Rulebook.Json.Token
import Rulebook.Proofs.Number.Finite

/-!
# JSON numbers are finite

A number of JSON text that would be beyond the finite ones has no value, so every number among the tokens
of a text is finite (`isFinite_of_mem_lex`).
-/

namespace Rulebook.Json

open Magnitude (infinity)

namespace Written

theorem absorb_le {s : Nat} (hs : s ≤ greatest) (cs : List Char) : (absorb s cs).1 ≤ greatest := by
  induction cs generalizing s with
  | nil => exact hs
  | cons c cs ih =>
    rw [absorb]
    split
    · next h => exact ih h
    · exact hs

theorem unitsPerOne_le_units_tenTo (n : Nat) : Magnitude.unitsPerOne ≤ (tenTo n).units := by
  apply Magnitude.unitsPerOne_le_units
  have hten : 1 ≤ 10 ^ n := Nat.one_le_pow _ _ (by decide)
  exact Magnitude.nearest_mono Nat.one_pos Nat.one_pos (Nat.mul_le_mul_right 1 hten)

theorem dividedBy_tenTo_ne_infinity {m : Magnitude} (hm : m ≠ infinity) (n : Nat) :
    m.dividedBy (tenTo n) ≠ infinity :=
  Magnitude.dividedBy_ne_infinity hm (unitsPerOne_le_units_tenTo n)

theorem scale?_ne_infinity {m scaled : Magnitude} {power : Int} {steps : Nat} (hm : m ≠ infinity)
    (h : scale? m power steps = some scaled) : scaled ≠ infinity := by
  induction steps generalizing m power with
  | zero =>
    rw [scale?] at h
    split at h
    · rw [← Option.some.inj h]
      exact dividedBy_tenTo_ne_infinity hm _
    · simp only at h
      split at h
      · cases h
      · next hfinite =>
        rw [← Option.some.inj h]
        exact hfinite
  | succ steps ih =>
    rw [scale?] at h
    split at h
    · cases h
      exact hm
    · split at h
      · exact ih (dividedBy_tenTo_ne_infinity hm _) h
      · cases h

/-- A written number has a finite value, if it has one. -/
theorem isFinite_of_value? {w : Written} {n : Number} (h : w.value? = some n) :
    n.toBinary64.isFinite := by
  have hnearest : ∀ {s : Nat}, s ≤ greatest → Magnitude.nearest s 1 ≠ infinity := fun hs =>
    Magnitude.nearest_ne_infinity (hs.trans (by decide))
  have hwhole : (absorb 0 w.whole).1 ≤ greatest := absorb_le (Nat.zero_le _) _
  unfold value? at h
  generalize absorb 0 w.whole = whole at h hwhole
  obtain ⟨s, used⟩ := whole
  have hfraction : (absorb s w.fraction).1 ≤ greatest := absorb_le hwhole _
  simp only at h
  split at h
  · split at h
    · split at h
      · cases h
        simpa [Number.toBinary64, Binary64.ofInt, Binary64.isFinite] using hnearest hwhole
      · cases h
        exact decide_eq_true (hnearest hwhole)
    · cases h
      simpa [Number.toBinary64, Binary64.ofInt, Binary64.isFinite] using hnearest hwhole
  · obtain ⟨m, hm, rfl⟩ := Option.map_eq_some_iff.1 h
    exact decide_eq_true (scale?_ne_infinity (hnearest hfraction) hm)

end Written

/-- The number of a token, if there is one, is finite. -/
def Token.IsFinite : Token → Prop
  | number (some n) => n.toBinary64.isFinite
  | _ => True

theorem isFinite_of_scanWord? {cs rest : List Char} {t : Token} (h : scanWord? cs = some (t, rest)) :
    t.IsFinite := by
  unfold scanWord? at h
  split at h
  · obtain ⟨_, -, ht⟩ := Option.map_eq_some_iff.1 h
    cases ht
    trivial
  · cases h
    trivial
  · cases h
    trivial
  · cases h
    trivial
  · obtain ⟨⟨w, _⟩, -, ht⟩ := Option.map_eq_some_iff.1 h
    cases ht
    cases hn : w.value? with
    | none => trivial
    | some n => exact Written.isFinite_of_value? hn

theorem isFinite_of_punctuation? {c : Char} {t : Token} (h : punctuation? c = some t) : t.IsFinite := by
  unfold punctuation? at h
  split at h <;> cases h <;> trivial

theorem isFinite_of_mem_lexUpTo {fuel : Nat} {cs : List Char} {t : Token}
    (ht : t ∈ lexUpTo fuel cs) : t.IsFinite := by
  fun_induction lexUpTo fuel cs with
  | case1 => cases ht
  | case2 => cases ht
  | case3 _ _ _ _ ih => exact ih ht
  | case4 _ _ _ _ token hp ih =>
    obtain rfl | ht := List.mem_cons.1 ht
    · exact isFinite_of_punctuation? hp
    · exact ih ht
  | case5 _ _ _ _ _ token rest hw ih =>
    obtain rfl | ht := List.mem_cons.1 ht
    · exact isFinite_of_scanWord? hw
    · exact ih ht
  | case6 =>
    rw [List.mem_singleton.1 ht]
    trivial

/-- Every number among the tokens of a text is finite. -/
theorem isFinite_of_mem_lex {cs : List Char} {t : Token} (ht : t ∈ lex cs) : t.IsFinite :=
  isFinite_of_mem_lexUpTo ht

end Rulebook.Json
