import Rulebook.Proofs.Settings.Limits
import Rulebook.Proofs.Settings.Validation

/-!
# Two readings of settings

Settings are read from the tokens of a text, as they are taken, or from a value, as a dictionary. They
are a form with the limits for a part of it, and both readings fill it in. So a text is read as settings
exactly if its value is and repeats no name, and the settings are those that the value states: what it
does not mention has its default (`Settings.parse_agrees`).
-/

namespace Rulebook.Settings

open Json (Gives Reader Token)

variable {j : Json} {tokens rest : List Token}

/-- A value states settings: it has no other parts, and a setting is what its part says or has its
default. -/
structure States (j : Json) (s : Settings) : Prop where
  only : j.HasOnly ["parser", "cache_enabled"]
  limits : Gives StatesLimits (j.part? 0 "parser") ({} : Settings).limits s.limits
  remember : Gives IsFlag (j.part? 1 "cache_enabled") ({} : Settings).remember s.remember

/-! ### The form of settings -/

/-- A part says what a setting is. -/
def Field.Says (field : Field) (j : Json) (s : Settings) : Prop :=
  match field with
  | .limits => limitsOfJson j = .ok s.limits
  | .remember => IsFlag j s.remember

namespace Parts

variable {parts parts' : Parts} {field : Field} {s : Settings}

theorem putPart_eq_ok : putPart parts field j = .ok parts' ↔
      match field with
      | .limits => ∃ limits, limitsOfJson j = .ok limits ∧
        parts' = { parts with limits := some limits }
      | .remember => ∃ b, j.glimpse = .boolean b ∧ parts' = { parts with remember := some b } := by
  cases field <;>
    simp only [putPart, Outcome.bind_pure_eq_ok, flag_eq_ok, eq_comm (b := parts')]

/-- Settings have what has been read for a setting, or its default. -/
def Agrees (parts : Parts) (field : Field) (s : Settings) : Prop :=
  match field with
  | .limits => s.limits = parts.limits.getD ({} : Settings).limits
  | .remember => s.remember = parts.remember.getD ({} : Settings).remember

theorem has_put (h : putPart parts field j = .ok parts') (other : Field) :
    parts'.has other = false ↔ other ≠ field ∧ parts.has other = false := by
  cases field <;> obtain ⟨a, -, rfl⟩ := putPart_eq_ok.1 h <;> cases other <;> simp [has]

theorem take_eq_ok : takePart parts field tokens = .ok (parts', rest) ↔
    ∃ j : Json, tokens = j.tokens ++ rest ∧ j.NamesOnce ∧ putPart parts field j = .ok parts' := by
  cases field with
  | limits =>
    simp only [takePart, putPart, Outcome.bind_eq_ok, Prod.exists, takeLimits_eq_ok]
    constructor
    · rintro ⟨limits, rest', ⟨j, rfl, hj, hlimits⟩, h⟩
      cases h
      exact ⟨j, rfl, hj, limits, hlimits, rfl⟩
    · rintro ⟨j, rfl, hj, limits, hlimits, h⟩
      cases h
      exact ⟨limits, rest, ⟨j, rfl, hj, hlimits⟩, rfl⟩
  | remember =>
    simp only [takePart, putPart, Outcome.bind_eq_ok, Prod.exists, flag_eq_ok]
    constructor
    · rintro ⟨g, rest', hg, b, rfl, h⟩
      cases h
      obtain ⟨j, rfl, hb⟩ := (glimpseFirst_eq_ok_iff (isWhole_boolean b)).1 hg
      exact ⟨j, rfl, namesOnce_of_isWhole (hb ▸ isWhole_boolean b), b, hb, rfl⟩
    · rintro ⟨j, rfl, -, b, hb, h⟩
      cases h
      exact ⟨_, rest, (glimpseFirst_eq_ok_iff (isWhole_boolean b)).2 ⟨j, rfl, hb⟩, b, rfl, rfl⟩

theorem exists_put (h : field.Says j s) (parts : Parts) : ∃ parts', putPart parts field j = .ok parts' := by
  cases field with
  | limits => exact ⟨_, putPart_eq_ok.2 ⟨_, h, rfl⟩⟩
  | remember => exact ⟨_, putPart_eq_ok.2 ⟨_, isFlag_iff.1 h, rfl⟩⟩

theorem agrees_put (h : putPart parts field j = .ok parts') (s : Settings) :
    parts'.Agrees field s ↔ field.Says j s := by
  cases field with
  | limits =>
    obtain ⟨limits, hlimits, rfl⟩ := putPart_eq_ok.1 h
    rw [Field.Says, hlimits, Except.ok.injEq]
    exact eq_comm
  | remember =>
    obtain ⟨b, hb, rfl⟩ := putPart_eq_ok.1 h
    rw [Field.Says, isFlag_iff, hb, Json.Glimpse.boolean.injEq]
    exact eq_comm

theorem agrees_put_of_ne {other : Field} (h : putPart parts field j = .ok parts')
    (hne : other ≠ field) (s : Settings) : parts'.Agrees other s ↔ parts.Agrees other s := by
  cases field <;> obtain ⟨a, -, rfl⟩ := putPart_eq_ok.1 h <;> cases other <;>
    first | exact absurd rfl hne | exact Iff.rfl

theorem finish_eq_iff : parts.finish = s ↔ ∀ field, parts.Agrees field s := by
  constructor
  · rintro rfl field
    cases field <;> rfl
  · intro h
    obtain ⟨limits, remember⟩ := s
    rw [finish, Settings.mk.injEq]
    exact ⟨(h .limits).symm, (h .remember).symm⟩

theorem depth_le (h : putPart parts field j = .ok parts') : j.depth ≤ 1 := by
  cases field with
  | limits =>
    obtain ⟨limits, hlimits, -⟩ := putPart_eq_ok.1 h
    rw [limitsOfJson_eq] at hlimits
    exact Form.depth_le_of_ofJson hlimits
  | remember =>
    obtain ⟨b, hb, -⟩ := putPart_eq_ok.1 h
    rw [depth_of_isWhole (hb ▸ isWhole_boolean b)]
    exact Nat.zero_le 1

end Parts

theorem Field.name_injective : Function.Injective Field.name := by
  intro a b h
  cases a <;> cases b <;> first | rfl | exact absurd h (by decide)

/-- Settings have limits for a member, which are a form of their own. -/
def settingsForm : Form Field Parts Settings where
  name := Field.name
  all := Field.all
  wanted := .settings
  start := {}
  has := Parts.has
  put := putPart
  take := takePart
  finish := Parts.finish
  Says := Field.Says
  Agrees := Parts.Agrees
  height := 1
  name_injective := Field.name_injective
  nodup_all := by decide
  mem_all := by rintro (_ | _) <;> decide
  has_start := by rintro (_ | _) <;> rfl
  has_put := Parts.has_put
  take_eq_ok := Parts.take_eq_ok
  exists_put := Parts.exists_put
  agrees_put := Parts.agrees_put
  agrees_put_of_ne := Parts.agrees_put_of_ne
  finish_eq_iff := Parts.finish_eq_iff
  depth_le := Parts.depth_le

theorem ofCanonical_eq (j : Json) : ofCanonical j = settingsForm.ofJson j := by
  cases j <;> rfl

/-- Reads one more element of an array for settings. -/
def takePartItem (state : Parts × List Field) : Reader (Parts × List Field) := fun tokens => do
  match state with
  | (_, []) => .error .malformed
  | (parts, field :: fields) =>
    let (parts, tokens) ← takePart parts field tokens
    return ((parts, fields), tokens)

theorem take_openBracket (tokens : List Token) :
    take (.openBracket :: tokens) = (do
      let ((parts, _), tokens) ← Json.elements takePartItem ({}, Field.all) tokens
      return (parts.finish, tokens)) := rfl

theorem takePartItem_eq : takePartItem = settingsForm.takeItem := by
  funext ⟨parts, fields⟩ tokens
  cases fields <;> rfl

theorem take_eq (tokens : List Token) : take tokens = settingsForm.read tokens := by
  cases tokens with
  | nil => rfl
  | cons t tokens =>
    cases t with
    | openBracket =>
      rw [take_openBracket, takePartItem_eq]
      rfl
    | _ => rfl

theorem take_eq_ok {s : Settings} : take tokens = .ok (s, rest) ↔
    ∃ j : Json, tokens = j.tokens ++ rest ∧ j.NamesOnce ∧ ofCanonical j = .ok s := by
  simp only [take_eq, ofCanonical_eq, Form.read_eq_ok]

theorem spells_settings {s : Settings} : settingsForm.Spells j s ↔
    j.HasOnly ["parser", "cache_enabled"] ∧
    Gives (fun k l => limitsOfJson k = .ok l) (j.part? 0 "parser") ({} : Settings).limits s.limits ∧
    Gives IsFlag (j.part? 1 "cache_enabled") ({} : Settings).remember s.remember := by
  constructor
  · rintro ⟨only, h⟩
    exact ⟨only, h .limits, h .remember⟩
  · rintro ⟨only, hlimits, hremember⟩
    refine ⟨only, fun field => ?_⟩
    cases field with
    | limits => exact hlimits
    | remember => exact hremember

theorem states_iff {s : Settings} : States j s ↔
    j.HasOnly ["parser", "cache_enabled"] ∧
    Gives StatesLimits (j.part? 0 "parser") ({} : Settings).limits s.limits ∧
    Gives IsFlag (j.part? 1 "cache_enabled") ({} : Settings).remember s.remember := by
  constructor
  · rintro ⟨only, limits, remember⟩
    exact ⟨only, limits, remember⟩
  · rintro ⟨only, limits, remember⟩
    exact ⟨only, limits, remember⟩

/-- Settings are read from the canonical form of a value as the value states them. -/
theorem ofCanonical_canonical {s : Settings} : ofCanonical j.canonical = .ok s ↔ States j s := by
  rw [ofCanonical_eq, Form.ofJson_eq_ok_iff_spells (Json.distinctMembers_canonical j),
    spells_settings, states_iff, Json.hasOnly_canonical, Json.part?_canonical, Json.part?_canonical,
    Json.gives_map, Json.gives_map]
  refine and_congr_right fun _ => and_congr ?_ ?_
  · exact Json.gives_congr fun part _ => limitsOfJson_canonical
  · exact Json.gives_congr fun part _ => isFlag_canonical

/-- Settings are read from a value without repeated names as the value states them. -/
theorem ofCanonical_eq_ok (hj : j.NamesOnce) {s : Settings} : ofCanonical j = .ok s ↔ States j s := by
  rw [ofCanonical_eq, Form.ofJson_eq_ok_iff_spells hj.distinctMembers, spells_settings, states_iff]
  refine and_congr_right fun _ => and_congr_left fun _ => Json.gives_congr fun part hpart => ?_
  exact limitsOfJson_eq_ok (hj.of_part? hpart).distinctMembers

/-! ### Texts and values -/

theorem parse_eq_ok {text : String} {s : Settings} : parse text = .ok s ↔
    ∃ j : Json, Json.lex text.toList = j.tokens ∧ j.NamesOnce ∧ ofCanonical j = .ok s ∧
      IsValid s.limits := by
  rw [parse, Outcome.mapError_eq_ok, Outcome.bind_eq_ok]
  simp only [Outcome.mapError_eq_ok, Json.whole_eq_ok, take_eq_ok, List.append_nil, validate_eq_ok]
  constructor
  · rintro ⟨_, ⟨j, hlex, hj, hs⟩, hvalid, rfl⟩
    exact ⟨j, hlex, hj, hs, hvalid⟩
  · rintro ⟨j, hlex, hj, hs, hvalid⟩
    exact ⟨s, ⟨j, hlex, hj, hs⟩, hvalid, rfl⟩

theorem ofJson_eq_ok {s : Settings} : ofJson j = .ok s ↔ States j s ∧ IsValid s.limits := by
  rw [ofJson, Outcome.mapError_eq_ok, Outcome.bind_eq_ok]
  simp only [Outcome.mapError_eq_ok, ofCanonical_canonical, validate_eq_ok]
  constructor
  · rintro ⟨_, hs, hvalid, rfl⟩
    exact ⟨hs, hvalid⟩
  · rintro ⟨hs, hvalid⟩
    exact ⟨s, hs, hvalid, rfl⟩

theorem depth_le_of_ofCanonical {s : Settings} (h : ofCanonical j = .ok s) : j.depth ≤ Json.usualRoom := by
  rw [ofCanonical_eq] at h
  exact Nat.le_trans (Form.depth_le_of_ofJson h) (by decide)

/-- A text is read as settings exactly if it reads as a value that names nothing twice and is read as
these settings. A value is read as settings exactly if it states them and their limits are valid: in an
object or in an array, for the settings as for the limits in them, the parts that are there say what
they say, and those that are not there have their defaults. -/
theorem parse_agrees (text : String) :
    (∀ s, parse text = .ok s ↔ ∃ j, Json.ofText text = .ok j ∧ j.NamesOnce ∧ ofJson j = .ok s) ∧
    ∀ j s, ofJson j = .ok s ↔ States j s ∧ IsValid s.limits := by
  refine ⟨fun s => ?_, fun j s => ofJson_eq_ok⟩
  simp only [parse_eq_ok, Json.ofText_eq_ok, ofJson_eq_ok]
  constructor
  · rintro ⟨j, hlex, hj, hs, hvalid⟩
    -- settings are shallow, so a text that is read as settings also reads as a value
    exact ⟨j, ⟨hlex, depth_le_of_ofCanonical hs⟩, hj, (ofCanonical_eq_ok hj).1 hs, hvalid⟩
  · rintro ⟨j, ⟨hlex, -⟩, hj, hs, hvalid⟩
    exact ⟨j, hlex, hj, (ofCanonical_eq_ok hj).2 hs, hvalid⟩

/-- The first of three limits is given, and the other ones have their defaults. -/
example : parse "[[3],false]" = .ok ⟨⟨3, 256, false⟩, false⟩ :=
  Rule.toOption_eq_some.1 (by decide +kernel)

end Rulebook.Settings
