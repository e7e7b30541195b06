import Rulebook.Proofs.Settings.Filling

/-!
# Limits as a form

Limits are counts and flags with defaults, and both readings of limits fill in one form. So tokens are
taken for limits as the value is read that they spell (`Settings.takeLimits_eq_ok`), and a value is read
as the limits that it states (`Settings.limitsOfJson_eq_ok`).
-/

namespace Rulebook.Settings

open Json (Gives Reader Token)

variable {j : Json} {tokens rest : List Token}

/-! ### What a value states -/

/-- A number without sign, fraction or exponent. -/
def IsCount (j : Json) (n : Nat) : Prop := j = .number (.integer n)

def IsFlag (j : Json) (b : Bool) : Prop := j = .boolean b

/-- A value states limits: it has no other parts, and a limit is what its part says or has its default. -/
structure StatesLimits (j : Json) (limits : Limits) : Prop where
  only : j.HasOnly ["max_depth", "max_terms", "lenient_parentheses"]
  depth : Gives IsCount (j.part? 0 "max_depth") ({} : Limits).depth limits.depth
  terms : Gives IsCount (j.part? 1 "max_terms") ({} : Limits).terms limits.terms
  lenient : Gives IsFlag (j.part? 2 "lenient_parentheses") ({} : Limits).lenient limits.lenient

/-! ### Counts and flags -/

theorem count_eq_ok {g : Json.Glimpse} {n : Nat} : count g = .ok n ↔ g = .integer n := by
  constructor
  · intro h
    cases g with
    | integer i =>
      simp only [count] at h
      split at h
      · next hi =>
        cases h
        rw [Int.toNat_of_nonneg hi]
      · cases h
    | _ => cases h
  · rintro rfl
    rfl

theorem flag_eq_ok {g : Json.Glimpse} {b : Bool} : flag g = .ok b ↔ g = .boolean b := by
  constructor
  · intro h
    cases g with
    | boolean b' =>
      cases h
      rfl
    | _ => cases h
  · rintro rfl
    rfl

theorem isCount_iff {n : Nat} : IsCount j n ↔ j.glimpse = .integer n := by
  unfold IsCount
  cases j with
  | number m => cases m <;> simp [Json.glimpse, Json.Number.glimpse]
  | _ => simp [Json.glimpse]

theorem isFlag_iff {b : Bool} : IsFlag j b ↔ j.glimpse = .boolean b := by
  unfold IsFlag
  cases j with
  | number m => cases m <;> simp [Json.glimpse, Json.Number.glimpse]
  | _ => simp [Json.glimpse]

theorem isCount_canonical {n : Nat} : IsCount j.canonical n ↔ IsCount j n := by
  rw [isCount_iff, isCount_iff, Json.glimpse_canonical]

theorem isFlag_canonical {b : Bool} : IsFlag j.canonical b ↔ IsFlag j b := by
  rw [isFlag_iff, isFlag_iff, Json.glimpse_canonical]

/-- A glimpse that shows all of a value, which is neither an array nor an object. -/
def IsWhole (g : Json.Glimpse) : Prop := g ≠ .sequence ∧ g ≠ .map

theorem isWhole_integer (i : Int) : IsWhole (.integer i) :=
  ⟨Json.Glimpse.noConfusion, Json.Glimpse.noConfusion⟩

theorem isWhole_boolean (b : Bool) : IsWhole (.boolean b) :=
  ⟨Json.Glimpse.noConfusion, Json.Glimpse.noConfusion⟩

theorem depth_of_isWhole (h : IsWhole j.glimpse) : j.depth = 0 := by
  cases j with
  | array items => exact absurd rfl h.1
  | object members => exact absurd rfl h.2
  | _ => rfl

theorem namesOnce_of_isWhole (h : IsWhole j.glimpse) : j.NamesOnce := by
  cases j with
  | array items => exact absurd rfl h.1
  | object members => exact absurd rfl h.2
  | _ => exact trivial

/-- A token that shows all of a value is that value. -/
theorem glimpseFirst_eq_ok_iff {g : Json.Glimpse} (h : IsWhole g) :
    Json.glimpseFirst tokens = .ok (g, rest) ↔
      ∃ j : Json, tokens = j.tokens ++ rest ∧ j.glimpse = g := by
  have hscalar : ∀ t : Token, t.glimpse? = some g ↔
      ∃ j : Json, Json.scalar? Json.Grade.strict t = some j ∧ j.glimpse = g := by
    intro t
    cases t with
    | number n => cases n <;> simp [Token.glimpse?, Json.scalar?, Json.Grade.strict, Json.glimpse]
    | string s => cases s <;> simp [Token.glimpse?, Json.scalar?, Json.Grade.strict, Json.glimpse]
    | openBracket => simp [Token.glimpse?, Json.scalar?, h.1.symm]
    | openBrace => simp [Token.glimpse?, Json.scalar?, h.2.symm]
    | _ => simp [Token.glimpse?, Json.scalar?, Json.glimpse]
  rw [Rule.glimpseFirst_eq_ok]
  simp only [hscalar, Json.scalar?_eq_some, Json.shows_strict]
  constructor
  · rintro ⟨t, rfl, j, ⟨ht, -⟩, hg⟩
    exact ⟨j, by rw [← ht]; rfl, hg⟩
  · rintro ⟨j, rfl, rfl⟩
    have hdepth := depth_of_isWhole h
    obtain ⟨t, ht⟩ := Json.tokens_of_depth_eq_zero hdepth
    exact ⟨t, by rw [ht]; rfl, j, ⟨ht.symm, hdepth⟩, rfl⟩

/-! ### The form of limits -/

theorem LimitsParts.put_eq_ok {parts parts' : LimitsParts} {field : LimitsField}
    {g : Json.Glimpse} : parts.put field g = .ok parts' ↔
      match field with
      | .depth => ∃ n : Nat, g = .integer n ∧ parts' = { parts with depth := some n }
      | .terms => ∃ n : Nat, g = .integer n ∧ parts' = { parts with terms := some n }
      | .lenient => ∃ b, g = .boolean b ∧ parts' = { parts with lenient := some b } := by
  cases field <;>
    simp only [put, Outcome.bind_pure_eq_ok, count_eq_ok, flag_eq_ok, eq_comm (b := parts')]

/-- A part says what a limit is. -/
def LimitsField.Says (field : LimitsField) (j : Json) (limits : Limits) : Prop :=
  match field with
  | .depth => IsCount j limits.depth
  | .terms => IsCount j limits.terms
  | .lenient => IsFlag j limits.lenient

/-- Limits have what has been read for a limit, or its default. -/
def LimitsParts.Agrees (parts : LimitsParts) (field : LimitsField) (limits : Limits) : Prop :=
  match field with
  | .depth => limits.depth = parts.depth.getD ({} : Limits).depth
  | .terms => limits.terms = parts.terms.getD ({} : Limits).terms
  | .lenient => limits.lenient = parts.lenient.getD ({} : Limits).lenient

/-- Reads one limit from tokens. -/
def LimitsParts.take (parts : LimitsParts) (field : LimitsField) : Reader LimitsParts :=
  fun tokens => do
    let (g, tokens) ← Json.glimpseFirst tokens
    return (← parts.put field g, tokens)

namespace LimitsParts

variable {parts parts' : LimitsParts} {field : LimitsField} {g : Json.Glimpse} {limits : Limits}

theorem isWhole_of_put (h : parts.put field g = .ok parts') : IsWhole g := by
  cases field with
  | lenient =>
    obtain ⟨b, rfl, -⟩ := put_eq_ok.1 h
    exact isWhole_boolean b
  | _ =>
    obtain ⟨n, rfl, -⟩ := put_eq_ok.1 h
    exact isWhole_integer n

theorem has_put (h : parts.put field j.glimpse = .ok parts') (other : LimitsField) :
    parts'.has other = false ↔ other ≠ field ∧ parts.has other = false := by
  cases field <;> obtain ⟨a, -, rfl⟩ := put_eq_ok.1 h <;> cases other <;> simp [has]

theorem take_eq_ok : parts.take field tokens = .ok (parts', rest) ↔
    ∃ j : Json, tokens = j.tokens ++ rest ∧ j.NamesOnce ∧ parts.put field j.glimpse = .ok parts' := by
  rw [take, Outcome.bind_eq_ok]
  simp only [Prod.exists, Outcome.bind_eq_ok]
  constructor
  · rintro ⟨g, rest', hg, parts₁, hput, h⟩
    cases h
    have hwhole := isWhole_of_put hput
    obtain ⟨j, rfl, rfl⟩ := (glimpseFirst_eq_ok_iff hwhole).1 hg
    exact ⟨j, rfl, namesOnce_of_isWhole hwhole, hput⟩
  · rintro ⟨j, rfl, -, hput⟩
    have hwhole := isWhole_of_put hput
    exact ⟨_, rest, (glimpseFirst_eq_ok_iff hwhole).2 ⟨j, rfl, rfl⟩, parts', hput, rfl⟩

theorem exists_put (h : field.Says j limits) (parts : LimitsParts) :
    ∃ parts', parts.put field j.glimpse = .ok parts' := by
  cases field with
  | depth => exact ⟨_, put_eq_ok.2 ⟨_, isCount_iff.1 h, rfl⟩⟩
  | terms => exact ⟨_, put_eq_ok.2 ⟨_, isCount_iff.1 h, rfl⟩⟩
  | lenient => exact ⟨_, put_eq_ok.2 ⟨_, isFlag_iff.1 h, rfl⟩⟩

theorem agrees_put (h : parts.put field j.glimpse = .ok parts') (limits : Limits) :
    parts'.Agrees field limits ↔ field.Says j limits := by
  cases field with
  | depth =>
    obtain ⟨n, hn, rfl⟩ := put_eq_ok.1 h
    rw [LimitsField.Says, isCount_iff, hn, Json.Glimpse.integer.injEq, Int.natCast_inj]
    exact eq_comm
  | terms =>
    obtain ⟨n, hn, rfl⟩ := put_eq_ok.1 h
    rw [LimitsField.Says, isCount_iff, hn, Json.Glimpse.integer.injEq, Int.natCast_inj]
    exact eq_comm
  | lenient =>
    obtain ⟨b, hb, rfl⟩ := put_eq_ok.1 h
    rw [LimitsField.Says, isFlag_iff, hb, Json.Glimpse.boolean.injEq]
    exact eq_comm

theorem agrees_put_of_ne {other : LimitsField} (h : parts.put field j.glimpse = .ok parts')
    (hne : other ≠ field) (limits : Limits) : parts'.Agrees other limits ↔ parts.Agrees other limits := by
  cases field <;> obtain ⟨a, -, rfl⟩ := put_eq_ok.1 h <;> cases other <;>
    first | exact absurd rfl hne | exact Iff.rfl

theorem finish_eq_iff : parts.finish = limits ↔ ∀ field, parts.Agrees field limits := by
  constructor
  · rintro rfl field
    cases field <;> rfl
  · intro h
    obtain ⟨depth, terms, lenient⟩ := limits
    rw [finish, Limits.mk.injEq]
    exact ⟨(h .depth).symm, (h .terms).symm, (h .lenient).symm⟩

end LimitsParts

theorem LimitsField.name_injective : Function.Injective LimitsField.name := by
  intro a b h
  cases a <;> cases b <;> first | rfl | exact absurd h (by decide)

/-- Limits have members. -/
def limitsForm : Form LimitsField LimitsParts Limits where
  name := LimitsField.name
  all := LimitsField.all
  wanted := .limits
  start := {}
  has := LimitsParts.has
  put parts field j := parts.put field j.glimpse
  take := LimitsParts.take
  finish := LimitsParts.finish
  Says := LimitsField.Says
  Agrees := LimitsParts.Agrees
  height := 0
  name_injective := LimitsField.name_injective
  nodup_all := by decide
  mem_all := by rintro (_ | _ | _) <;> decide
  has_start := by rintro (_ | _ | _) <;> rfl
  has_put := LimitsParts.has_put
  take_eq_ok := LimitsParts.take_eq_ok
  exists_put := LimitsParts.exists_put
  agrees_put := LimitsParts.agrees_put
  agrees_put_of_ne := LimitsParts.agrees_put_of_ne
  finish_eq_iff := LimitsParts.finish_eq_iff
  depth_le h := Nat.le_of_eq (depth_of_isWhole (LimitsParts.isWhole_of_put h))

theorem limitsOfJson_eq (j : Json) : limitsOfJson j = limitsForm.ofJson j := by
  cases j <;> rfl

/-- Reads one more element of an array for limits. -/
def takeLimitItem (state : LimitsParts × List LimitsField) : Reader (LimitsParts × List LimitsField) :=
  fun tokens => do
    match state with
    | (_, []) => .error .malformed
    | (parts, field :: fields) =>
      let (g, tokens) ← Json.glimpseFirst tokens
      return ((← parts.put field g, fields), tokens)

theorem takeLimits_openBracket (tokens : List Token) :
    takeLimits (.openBracket :: tokens) = (do
      let ((parts, _), tokens) ← Json.elements takeLimitItem ({}, LimitsField.all) tokens
      return (parts.finish, tokens)) := rfl

theorem takeLimitItem_eq : takeLimitItem = limitsForm.takeItem := by
  funext ⟨parts, fields⟩ tokens
  cases fields with
  | nil => rfl
  | cons field fields =>
    simp only [takeLimitItem, Form.takeItem, limitsForm, LimitsParts.take, bind_assoc, pure_bind]

theorem takeLimits_eq (tokens : List Token) : takeLimits tokens = limitsForm.read tokens := by
  cases tokens with
  | nil => rfl
  | cons t tokens =>
    cases t with
    | openBracket =>
      rw [takeLimits_openBracket, takeLimitItem_eq]
      rfl
    | _ => rfl

theorem takeLimits_eq_ok {limits : Limits} : takeLimits tokens = .ok (limits, rest) ↔
    ∃ j : Json, tokens = j.tokens ++ rest ∧ j.NamesOnce ∧ limitsOfJson j = .ok limits := by
  simp only [takeLimits_eq, limitsOfJson_eq, Form.read_eq_ok]

theorem spells_limits {limits : Limits} : limitsForm.Spells j limits ↔ StatesLimits j limits := by
  constructor
  · rintro ⟨only, h⟩
    exact ⟨only, h .depth, h .terms, h .lenient⟩
  · rintro ⟨only, hdepth, hterms, hlenient⟩
    refine ⟨only, fun field => ?_⟩
    cases field with
    | depth => exact hdepth
    | terms => exact hterms
    | lenient => exact hlenient

/-- Limits are read from a value whose members have different names as the value states them. -/
theorem limitsOfJson_eq_ok (hj : j.DistinctMembers) {limits : Limits} :
    limitsOfJson j = .ok limits ↔ StatesLimits j limits := by
  rw [limitsOfJson_eq, Form.ofJson_eq_ok_iff_spells hj, spells_limits]

theorem limitsOfJson_canonical {limits : Limits} :
    limitsOfJson j.canonical = .ok limits ↔ StatesLimits j limits := by
  rw [limitsOfJson_eq_ok (Json.distinctMembers_canonical j), ← spells_limits, ← spells_limits]
  refine Form.spells_canonical fun field part => ?_
  cases field with
  | depth => exact isCount_canonical
  | terms => exact isCount_canonical
  | lenient => exact isFlag_canonical

end Rulebook.Settings
