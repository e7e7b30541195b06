import Rulebook.Proofs.Number.Order
import Rulebook.Proofs.Number.Significant

/-!
# The fewest digits that read back

The search for the shortest decimal of a magnitude goes through grids of ever finer multiples of a power
of ten and looks at the neighbours of the magnitude on each. If some multiple reads as the magnitude,
then so does a neighbour on its grid (`Decimal.exists_mem_neighboursOnGrid`), and the search ends there at
the latest. So the shortest decimal is no longer than any that reads as the magnitude
(`Decimal.shortest_le`).
-/

namespace Rulebook.Decimal

variable {m : Magnitude}

/-! ### Powers of ten around a quotient -/

theorem lt_ten_pow_length (n : Nat) : n < 10 ^ (digitChars n).length := by
  have hlen : 0 < (digitChars n).length := List.length_pos_of_ne_nil (digitChars_ne_nil n)
  exact (Nat.length_toDigits_le_iff (by decide) hlen).1 (Nat.le_refl _)

theorem ten_pow_length_le {n : Nat} (hn : n ≠ 0) : 10 ^ ((digitChars n).length - 1) ≤ n := by
  rcases Nat.eq_zero_or_pos ((digitChars n).length - 1) with hzero | hpos
  · rw [hzero, Nat.pow_zero]
    exact Nat.pos_of_ne_zero hn
  · by_contra hlt
    have hle := (Nat.length_toDigits_le_iff (by decide) hpos).2 (Nat.not_le.1 hlt)
    have hlen : (digitChars n).length = (Nat.toDigits 10 n).length := rfl
    omega

/-- A quotient that is at least one lies between the powers of ten that the number of digits of its
whole part names. -/
theorem exists_length_digitChars_div {num den : Nat} (hd : 0 < den) (hle : den ≤ num) :
    ∃ l, (digitChars (num / den)).length = l + 1 ∧
      10 ^ l * den ≤ num ∧ num < 10 ^ (l + 1) * den := by
  have hne : num / den ≠ 0 := (Nat.div_pos hle hd).ne'
  have hlen : 0 < (digitChars (num / den)).length := List.length_pos_of_ne_nil (digitChars_ne_nil _)
  have hlow := (Nat.le_div_iff_mul_le hd).1 (ten_pow_length_le hne)
  have hhigh := Nat.lt_mul_of_div_lt (lt_ten_pow_length (num / den)) hd
  obtain ⟨l, hl⟩ := Nat.exists_eq_add_one_of_ne_zero hlen.ne'
  rw [hl] at hlow hhigh
  exact ⟨l, hl, hlow, hhigh⟩

theorem leadingExponent_spec {num den : Nat} (hn : 0 < num) (hd : 0 < den) :
    (10 : ℚ) ^ leadingExponent num den ≤ num / den ∧
      (num / den : ℚ) < 10 ^ (leadingExponent num den + 1) := by
  rw [le_div_iff₀ (Nat.cast_pos.2 hd), div_lt_iff₀ (Nat.cast_pos.2 hd)]
  unfold leadingExponent
  split_ifs with hle
  · -- as many digits stand before the point as the whole part has
    obtain ⟨l, hl, hlow, hhigh⟩ := exists_length_digitChars_div hd hle
    rw [hl]
    constructor
    · rw [show ((l + 1 : Nat) : Int) - 1 = (l : Nat) by push_cast; ring, zpow_natCast]
      exact_mod_cast hlow
    · rw [show ((l + 1 : Nat) : Int) - 1 + 1 = (l + 1 : Nat) by ring, zpow_natCast]
      exact_mod_cast hhigh
  · -- the quotient is less than one, and its inverse has as many digits as zeros stand before it
    obtain ⟨l, hl, hlow, hhigh⟩ :=
      exists_length_digitChars_div hn (show num ≤ den - 1 by omega)
    have hlow' : 10 ^ l * num < den := by omega
    have hhigh' : den ≤ 10 ^ (l + 1) * num := by omega
    rw [hl]
    constructor
    · rw [zpow_neg, zpow_natCast, inv_mul_le_iff₀ (by positivity)]
      exact_mod_cast hhigh'
    · rw [show -((l + 1 : Nat) : Int) + 1 = -(l : Nat) by push_cast; ring, zpow_neg, zpow_natCast,
        lt_inv_mul_iff₀ (by positivity)]
      exact_mod_cast hlow'

/-! ### Grids -/

theorem below_mem_neighbours (tie : Tie) (num den : Nat) : num / den ∈ neighbours tie num den := by
  unfold neighbours
  simp only
  split_ifs <;> simp

theorem above_mem_neighbours (tie : Tie) {num den : Nat} (h : num % den ≠ 0) :
    num / den + 1 ∈ neighbours tie num den := by
  unfold neighbours
  simp only [h, if_false]
  split_ifs <;> simp

theorem le_of_mem_neighbours {tie : Tie} {num den n : Nat} (h : n ∈ neighbours tie num den) :
    n ≤ num / den + 1 := by
  unfold neighbours at h
  simp only at h
  split_ifs at h <;> simp at h <;> omega

/-- A magnitude counts so many `10 ^ e`, as a quotient. -/
def gridNum (m : Magnitude) (e : Int) : Nat := m.units * 10 ^ (-e).toNat

def gridDen (e : Int) : Nat := Magnitude.unitsPerOne * 10 ^ e.toNat

theorem gridDen_pos (e : Int) : 0 < gridDen e :=
  Nat.mul_pos Magnitude.unitsPerOne_pos (Nat.pow_pos (by decide))

theorem neighboursOnGrid_eq (tie : Tie) (m : Magnitude) (e : Int) :
    neighboursOnGrid tie m e = (neighbours tie (gridNum m e) (gridDen e)).map (⟨·, e⟩) := by
  unfold neighboursOnGrid gridNum gridDen
  split_ifs with he
  · rw [show (-e).toNat = 0 by omega, Nat.pow_zero, Nat.mul_one]
    rfl
  · rw [show e.toNat = 0 by omega, Nat.pow_zero, Nat.mul_one]
    rfl

theorem value_exact (m : Magnitude) : (exact m).value = m.units / Magnitude.unitsPerOne := by
  rw [value_eq, num_exact, den_exact, Magnitude.unitsPerOne_eq]
  push_cast
  rw [div_eq_div_iff (by positivity) (by positivity), mul_assoc, ← mul_pow]
  norm_num

theorem value_exact_eq_grid (m : Magnitude) (e : Int) :
    (exact m).value = gridNum m e / gridDen e * 10 ^ e := by
  have hunits : (Magnitude.unitsPerOne : ℚ) ≠ 0 := Nat.cast_ne_zero.2 Magnitude.unitsPerOne_pos.ne'
  have hten : (10 : ℚ) ^ e * 10 ^ (-e).toNat = 10 ^ e.toNat := by
    rw [← zpow_natCast, ← zpow_natCast, ← zpow_add₀ (by norm_num)]
    congr 1
    omega
  rw [value_exact, gridNum, gridDen]
  push_cast
  rw [← hten]
  field_simp

theorem mem_neighboursOnGrid {tie : Tie} {e : Int} {d : Decimal} :
    d ∈ neighboursOnGrid tie m e ↔
      d.digits ∈ neighbours tie (gridNum m e) (gridDen e) ∧ d.exponent = e := by
  rw [neighboursOnGrid_eq, List.mem_map]
  constructor
  · rintro ⟨n, hn, rfl⟩
    exact ⟨hn, rfl⟩
  · rintro ⟨hn, rfl⟩
    exact ⟨d.digits, hn, rfl⟩

/-- If some multiple of `10 ^ e` reads as a magnitude, then so does a neighbour of the magnitude among
these multiples. -/
theorem exists_mem_neighboursOnGrid (tie : Tie) (hm : m ≠ Magnitude.infinity) {z : Decimal}
    (hz : z.nearest = m) : ∃ d ∈ neighboursOnGrid tie m z.exponent, d.nearest = m := by
  obtain ⟨n, e⟩ := z
  have hexact := nearest_exact hm
  have hvalue := value_exact_eq_grid m e
  have hden : (0 : ℚ) < gridDen e := Nat.cast_pos.2 (gridDen_pos e)
  have hten : (0 : ℚ) < 10 ^ e := zpow_pos (by norm_num) e
  have hquot := Nat.div_add_mod (gridNum m e) (gridDen e)
  -- comparing a multiple with the magnitude is comparing whole numbers
  have hle : ∀ k : Nat, k * gridDen e ≤ gridNum m e → (⟨k, e⟩ : Decimal).value ≤ (exact m).value := by
    intro k hk
    rw [hvalue, value]
    apply mul_le_mul_of_nonneg_right _ hten.le
    rw [le_div_iff₀ hden]
    exact_mod_cast hk
  have hge : ∀ k : Nat, gridNum m e ≤ k * gridDen e → (exact m).value ≤ (⟨k, e⟩ : Decimal).value := by
    intro k hk
    rw [hvalue, value]
    apply mul_le_mul_of_nonneg_right _ hten.le
    rw [div_le_iff₀ hden]
    exact_mod_cast hk
  have hmono : ∀ {j k : Nat}, j ≤ k → (⟨j, e⟩ : Decimal).value ≤ (⟨k, e⟩ : Decimal).value := by
    intro j k hjk
    exact mul_le_mul_of_nonneg_right (Nat.cast_le.2 hjk) hten.le
  rcases Nat.lt_or_ge (gridNum m e / gridDen e) n with habove | hbelow
  · by_cases hrest : gridNum m e % gridDen e = 0
    · -- the magnitude is itself a multiple
      rw [hrest, Nat.add_zero, Nat.mul_comm] at hquot
      refine ⟨⟨gridNum m e / gridDen e, e⟩, mem_neighboursOnGrid.2 ⟨below_mem_neighbours _ _ _, rfl⟩, ?_⟩
      exact nearest_of_between hexact hexact (hge _ hquot.ge) (hle _ hquot.le)
    · refine ⟨⟨gridNum m e / gridDen e + 1, e⟩,
        mem_neighboursOnGrid.2 ⟨above_mem_neighbours _ hrest, rfl⟩, ?_⟩
      have hup : gridNum m e ≤ (gridNum m e / gridDen e + 1) * gridDen e :=
        (Nat.lt_mul_of_div_lt (Nat.lt_succ_self _) (gridDen_pos e)).le
      exact nearest_of_between hexact hz (hge _ hup) (hmono habove)
  · refine ⟨⟨gridNum m e / gridDen e, e⟩, mem_neighboursOnGrid.2 ⟨below_mem_neighbours _ _ _, rfl⟩, ?_⟩
    exact nearest_of_between hz hexact (hmono hbelow) (hle _ (Nat.div_mul_le_self _ _))

/-! ### The search -/

/-- The power of ten of the first digit of a magnitude. -/
def firstExponent (m : Magnitude) : Int := leadingExponent m.units Magnitude.unitsPerOne

theorem shortest_mem (tie : Tie) {i : Nat} (hi : i < 17)
    (h : ∃ d ∈ neighboursOnGrid tie m (firstExponent m - i), d.nearest = m) :
    ∃ j ≤ i, shortest tie m ∈ neighboursOnGrid tie m (firstExponent m - j) := by
  obtain ⟨d, hd, hread⟩ := h
  let grid (n : Nat) : List Decimal := neighboursOnGrid tie m (firstExponent m - n)
  have hsplit : List.range 17 = List.range (i + 1) ++ (List.range (17 - (i + 1))).map (i + 1 + ·) := by
    rw [← List.range_add]
    congr 1
    omega
  -- the search finds something on the grids up to this one
  obtain ⟨x, hx⟩ : ∃ x, ((List.range (i + 1)).map grid).flatten.find? (·.nearest = m) = some x := by
    rw [← Option.isSome_iff_exists, List.find?_isSome]
    refine ⟨d, List.mem_flatten.2 ⟨grid i, List.mem_map.2 ⟨i, by simp, rfl⟩, hd⟩, ?_⟩
    exact decide_eq_true hread
  have hshortest : shortest tie m = x := by
    show (((List.range 17).map grid).flatten.find? fun d => d.nearest = m).getD (exact m) = x
    rw [hsplit, List.map_append, List.flatten_append, List.find?_append, hx]
    rfl
  obtain ⟨g, hg, hxg⟩ := List.mem_flatten.1 (List.mem_of_find?_eq_some hx)
  obtain ⟨j, hj, rfl⟩ := List.mem_map.1 hg
  rw [List.mem_range] at hj
  exact ⟨j, by omega, hshortest ▸ hxg⟩

/-! ### How short it is -/

theorem units_pos (hz : m ≠ Magnitude.zero) (hm : m ≠ Magnitude.infinity) : 0 < m.units := by
  apply Nat.pos_of_ne_zero
  intro hzero
  apply hz
  rw [← Magnitude.nearest_units hm, hzero, Magnitude.nearest_eq_zero]
  rw [Nat.zero_mul]
  exact Magnitude.unitsPerOne_pos

theorem value_exact_bounds (hz : m ≠ Magnitude.zero) (hm : m ≠ Magnitude.infinity) :
    (10 : ℚ) ^ firstExponent m ≤ (exact m).value ∧ (exact m).value < 10 ^ (firstExponent m + 1) := by
  rw [value_exact]
  exact leadingExponent_spec (units_pos hz hm) Magnitude.unitsPerOne_pos

/-- On the grid with `j` more digits than the first a neighbour has at most `j + 1` digits, or it is
the next power of ten. -/
theorem digits_le_of_mem (hz : m ≠ Magnitude.zero) (hm : m ≠ Magnitude.infinity) {tie : Tie} {j : Nat}
    {d : Decimal} (h : d ∈ neighboursOnGrid tie m (firstExponent m - j)) :
    d.digits ≤ 10 ^ (j + 1) := by
  obtain ⟨hd, -⟩ := mem_neighboursOnGrid.1 h
  have hden : (0 : ℚ) < gridDen (firstExponent m - j) := Nat.cast_pos.2 (gridDen_pos _)
  have hten : (0 : ℚ) < 10 ^ (firstExponent m - j) := zpow_pos (by norm_num) _
  have hlt := (value_exact_bounds hz hm).2
  rw [value_exact_eq_grid m (firstExponent m - j),
    show firstExponent m + 1 = ((j + 1 : Nat) : Int) + (firstExponent m - j) by push_cast; ring,
    zpow_add₀ (by norm_num), mul_lt_mul_iff_left₀ hten, div_lt_iff₀ hden, zpow_natCast] at hlt
  have hquot : gridNum m (firstExponent m - j) / gridDen (firstExponent m - j) < 10 ^ (j + 1) :=
    Nat.div_lt_of_lt_mul (by rw [Nat.mul_comm]; exact_mod_cast hlt)
  exact (le_of_mem_neighbours hd).trans hquot

/-- Let two decimals read as one magnitude, of which the first is between `10 ^ k` and `10 ^ (k + 1)`
and the second has at most `n` digits. Then a multiple of some `10 ^ (k - i)` with `i < n` reads as it. -/
theorem exists_on_grid {x z : Decimal} {k : Int} {n : Nat} (hx : x.nearest = m) (hz : z.nearest = m)
    (hlow : 10 ^ k ≤ x.value) (hhigh : x.value < 10 ^ (k + 1)) (hdigits : z.digits ≠ 0)
    (hlt : z.digits < 10 ^ n) :
    ∃ i < n, ∃ y : Decimal, y.nearest = m ∧ y.exponent = k - i ∧ min z.exponent k ≤ y.exponent := by
  have hpos : 0 < n := by
    rcases Nat.eq_zero_or_pos n with rfl | hpos
    · omega
    · exact hpos
  have hten : (0 : ℚ) < 10 ^ z.exponent := zpow_pos (by norm_num) _
  rcases lt_or_ge k z.exponent with hsmall | hlarge
  · -- the first is less than `10 ^ (k + 1)`, and the second is not
    have hvalue : (⟨10, k⟩ : Decimal).value = 10 ^ (k + 1) := by
      rw [value, zpow_add_one₀ (by norm_num), mul_comm]
      rfl
    have hright : (10 : ℚ) ^ (k + 1) ≤ z.value := by
      calc (10 : ℚ) ^ (k + 1) ≤ 10 ^ z.exponent := zpow_le_zpow_right₀ (by norm_num) hsmall
        _ ≤ z.digits * 10 ^ z.exponent := by
            apply le_mul_of_one_le_left hten.le
            exact_mod_cast Nat.pos_of_ne_zero hdigits
    have hread := nearest_of_between hx hz (hhigh.le.trans_eq hvalue.symm) (hvalue.trans_le hright)
    exact ⟨0, hpos, ⟨10, k⟩, hread, by simp, min_le_right _ _⟩
  · by_cases hgrid : k < n + z.exponent
    · exact ⟨(k - z.exponent).toNat, by omega, z, hz, by omega, min_le_left _ _⟩
    · -- the second is less than `10 ^ k`, and the first is not
      have hleft : z.value ≤ 10 ^ k := by
        calc z.digits * (10 : ℚ) ^ z.exponent ≤ 10 ^ n * 10 ^ z.exponent := by
              apply mul_le_mul_of_nonneg_right _ hten.le
              exact_mod_cast hlt.le
          _ = 10 ^ ((n : Int) + z.exponent) := by rw [zpow_add₀ (by norm_num), zpow_natCast]
          _ ≤ 10 ^ k := zpow_le_zpow_right₀ (by norm_num) (by omega)
      have hread := nearest_of_between hz hx (hleft.trans_eq (value_one k).symm)
        ((value_one k).trans_le hlow)
      exact ⟨0, hpos, ⟨1, k⟩, hread, by simp, min_le_right _ _⟩

/-- The shortest decimal of a magnitude is no longer than a decimal of at most seventeen digits that
reads as the magnitude, and goes no further behind the point. -/
theorem shortest_le (tie : Tie) {z : Decimal} {n : Nat} (hn : n ≤ 17) (hlt : z.digits < 10 ^ n)
    (hread : z.nearest = m) (hz : m ≠ Magnitude.zero) (hm : m ≠ Magnitude.infinity) :
    (shortest tie m).digits ≤ 10 ^ n ∧
      min z.exponent (firstExponent m) ≤ (shortest tie m).exponent := by
  have hdigits : z.digits ≠ 0 := digits_ne_zero (hread.symm ▸ hz)
  obtain ⟨hlow, hhigh⟩ := value_exact_bounds hz hm
  obtain ⟨i, hi, y, hy, hexp, hmin⟩ :=
    exists_on_grid (nearest_exact hm) hread hlow hhigh hdigits hlt
  obtain ⟨d, hd, hdread⟩ := exists_mem_neighboursOnGrid tie hm hy
  rw [hexp] at hd
  obtain ⟨j, hj, hmem⟩ := shortest_mem tie (by omega) ⟨d, hd, hdread⟩
  refine ⟨(digits_le_of_mem hz hm hmem).trans (Nat.pow_le_pow_right (by decide) (by omega)), ?_⟩
  rw [(mem_neighboursOnGrid.1 hmem).2]
  omega

end Rulebook.Decimal
