import Rulebook.Proofs.Json.Canonical
import Rulebook.Proofs.Rule.Taking

/-!
# The parts of an encoded rule

The members of an encoded rule are read from left to right, but which rule they encode depends only on
what each part is read as (`Rule.decodeValue_eq_ok`): a part is the only member of its name, or the
element at its place of an array. So a rule is decoded from a value exactly if it is decoded from the
canonical form of the value, where no object repeats a name (`Rule.decodeValue_canonical`).
-/

namespace Rulebook

open Json (Complaint HasMember Token)

/-- The part of an encoded rule that an object has under a name, or an array of type and parts at a
place. -/
def Json.HasPart (j : Json) (place : Nat) (name : String) (part : Json) : Prop :=
  match j with
  | .object members => HasMember name part members
  | .array items => items.length = 4 ∧ items[place]? = some part
  | _ => False

/-- What the part of a place and a name is read as. -/
def Json.ReadsPart {α : Type} (j : Json) (place : Nat) (name : String)
    (read : Json → Except Complaint α) (a : α) : Prop :=
  ∃ part, j.HasPart place name part ∧ read part = .ok a

/-! ### Parts of values -/

namespace Json

variable {j part part' : Json} {place : Nat} {name : String}

theorem HasPart.unique (h : j.HasPart place name part) (h' : j.HasPart place name part') :
    part = part' := by
  cases j with
  | object members =>
    have hsame : [(name, part)] = [(name, part')] := Eq.trans (Eq.symm h) h'
    cases hsame
    rfl
  | array items => exact Option.some.inj (h.2.symm.trans h'.2)
  | _ => exact h.elim

theorem HasPart.depth_lt (h : j.HasPart place name part) : part.depth < j.depth := by
  cases j with
  | object members => exact Nat.lt_succ_of_le (depth_le_of_mem_members (HasMember.mem h))
  | array items => exact Nat.lt_succ_of_le (depth_le_of_mem_items (List.mem_of_getElem? h.2))
  | _ => exact h.elim

theorem HasPart.mem_tokens (h : j.HasPart place name part) {t : Token} (ht : t ∈ part.tokens) :
    t ∈ j.tokens := by
  cases j with
  | object members =>
    exact List.mem_cons_of_mem _ (List.mem_append_left _ (mem_memberTokens (HasMember.mem h) ht true))
  | array items =>
    exact List.mem_cons_of_mem _
      (List.mem_append_left _ (mem_itemTokens (List.mem_of_getElem? h.2) ht true))
  | _ => exact h.elim

theorem HasPart.readsPart_iff {α : Type} {read : Json → Except Complaint α} {a : α}
    (h : j.HasPart place name part) : j.ReadsPart place name read a ↔ read part = .ok a := by
  constructor
  · rintro ⟨part', hpart', hread⟩
    rwa [h.unique hpart']
  · exact fun hread => ⟨part, h, hread⟩

theorem hasPart_of_perm {members members' : List (String × Json)} (hperm : members.Perm members')
    (h : (object members').HasPart place name part) : (object members).HasPart place name part :=
  List.perm_singleton.1 ((hperm.filter _).trans (List.Perm.of_eq h))

end Json

namespace Rule

/-! ### Members, one after another -/

section

variable {α : Type} {name other : String} {read : Json → Except Complaint α} {seen : Option α}
  {j : Json} {members : List (String × Json)} {a : α}

/-- What a part is read as by the end of some members: it has been read before, and no member has its
name, or one member has it. -/
def ReadsOnce (name : String) (read : Json → Except Complaint α) (seen : Option α)
    (members : List (String × Json)) (a : α) : Prop :=
  match seen with
  | some b => b = a ∧ members.filter (fun m => m.1 = name) = []
  | none => (Json.object members).ReadsPart 0 name read a

theorem readsOnce_nil : ReadsOnce name read seen [] a ↔ required name seen = .ok a := by
  rw [required_eq_ok]
  cases seen with
  | none =>
    constructor
    · rintro ⟨part, hpart, -⟩
      cases hpart
    · intro h
      cases h
  | some b =>
    constructor
    · rintro ⟨rfl, -⟩
      rfl
    · intro h
      cases h
      exact ⟨rfl, rfl⟩

/-- What is known of a part before and after a member. -/
def StepsOnce (name : String) (read : Json → Except Complaint α) (other : String) (j : Json)
    (seen seen' : Option α) : Prop :=
  if other = name then onlyOnce name seen (read j) = .ok seen' else seen = seen'

theorem stepsOnce_self {seen' : Option α} :
    StepsOnce name read name j seen seen' ↔ onlyOnce name seen (read j) = .ok seen' := by
  rw [StepsOnce, if_pos rfl]

theorem stepsOnce_other (h : other ≠ name) {seen' : Option α} :
    StepsOnce name read other j seen seen' ↔ seen = seen' := by
  rw [StepsOnce, if_neg h]

theorem readsOnce_cons :
    ReadsOnce name read seen ((other, j) :: members) a ↔
      ∃ seen', StepsOnce name read other j seen seen' ∧ ReadsOnce name read seen' members a := by
  by_cases hname : other = name
  · subst hname
    simp only [stepsOnce_self]
    have hfilter : ((other, j) :: members).filter (fun m => m.1 = other) =
        (other, j) :: members.filter fun m => m.1 = other := by simp
    cases seen with
    | some b =>
      constructor
      · rintro ⟨-, hnone⟩
        rw [hfilter] at hnone
        cases hnone
      · rintro ⟨seen', h, -⟩
        cases h
    | none =>
      constructor
      · rintro ⟨part, hpart, hread⟩
        have hsplit : (other, j) :: members.filter (fun m => m.1 = other) = [(other, part)] :=
          hfilter ▸ hpart
        obtain ⟨hsame, hnone⟩ := List.cons.inj hsplit
        cases hsame
        exact ⟨some a, by rw [onlyOnce, hread]; rfl, rfl, hnone⟩
      · rintro ⟨seen', hseen, h⟩
        cases hread : read j with
        | error e =>
          rw [onlyOnce, hread] at hseen
          cases hseen
        | ok b =>
          rw [onlyOnce, hread] at hseen
          cases hseen
          obtain ⟨rfl, hnone⟩ := h
          exact ⟨j, hfilter.trans (congrArg _ hnone), hread⟩
  · simp only [stepsOnce_other hname, exists_eq_left']
    have hfilter : ((other, j) :: members).filter (fun m => m.1 = name) =
        members.filter fun m => m.1 = name := by simp [hname]
    cases seen with
    | some b =>
      show _ ∧ _ ↔ _ ∧ _
      rw [hfilter]
    | none =>
      refine exists_congr fun part => and_congr_left fun _ => ?_
      show List.filter _ _ = _ ↔ List.filter _ _ = _
      rw [hfilter]

end

theorem tagOfMembers_eq_ok {inside : Bool} {seen : Option Tag} {members : List (String × Json)}
    {tag : Tag} :
    tagOfMembers inside seen members = .ok tag ↔
      ReadsOnce "type" (fun t => Tag.ofGlimpse inside t.glimpse) seen members tag := by
  induction members generalizing seen with
  | nil => rw [tagOfMembers, readsOnce_nil]
  | cons m members ih =>
    obtain ⟨name, j⟩ := m
    rw [tagOfMembers, readsOnce_cons]
    by_cases hname : name = "type"
    · subst hname
      simp only [if_true, Outcome.bind_eq_ok, stepsOnce_self, ih]
    · simp only [if_neg hname, stepsOnce_other hname, exists_eq_left', ih]

theorem ComparisonParts.finish_eq_ok {parts : ComparisonParts} {r : Rule} :
    parts.finish = .ok r ↔ ∃ c f v, r = .comparison c f v ∧
      required "operator" parts.comparison = .ok c ∧ required "field" parts.field = .ok f ∧
      required "value" parts.value = .ok v := by
  simp only [finish, Outcome.bind_eq_ok]
  constructor
  · rintro ⟨c, hc, f, hf, v, hv, h⟩
    cases h
    exact ⟨c, f, v, rfl, hc, hf, hv⟩
  · rintro ⟨c, f, v, rfl, hc, hf, hv⟩
    exact ⟨c, hc, f, hf, v, hv, rfl⟩

theorem ComparisonParts.add_eq_ok {parts parts' : ComparisonParts} {name : String} {j : Json} :
    parts.add name j = .ok parts' ↔
      StepsOnce "operator" comparisonPart name j parts.comparison parts'.comparison ∧
      StepsOnce "field" fieldPart name j parts.field parts'.field ∧
      StepsOnce "value" valuePart name j parts.value parts'.value := by
  obtain ⟨c, f, v⟩ := parts
  obtain ⟨c', f', v'⟩ := parts'
  unfold add
  split
  · simp only [stepsOnce_self, stepsOnce_other, ne_eq, String.reduceEq, not_false_eq_true,
      Outcome.bind_eq_ok]
    constructor
    · rintro ⟨_, h, hparts⟩
      cases hparts
      exact ⟨h, rfl, rfl⟩
    · rintro ⟨h, rfl, rfl⟩
      exact ⟨_, h, rfl⟩
  · simp only [stepsOnce_self, stepsOnce_other, ne_eq, String.reduceEq, not_false_eq_true,
      Outcome.bind_eq_ok]
    constructor
    · rintro ⟨_, h, hparts⟩
      cases hparts
      exact ⟨rfl, h, rfl⟩
    · rintro ⟨rfl, h, rfl⟩
      exact ⟨_, h, rfl⟩
  · simp only [stepsOnce_self, stepsOnce_other, ne_eq, String.reduceEq, not_false_eq_true,
      Outcome.bind_eq_ok]
    constructor
    · rintro ⟨_, h, hparts⟩
      cases hparts
      exact ⟨rfl, rfl, h⟩
    · rintro ⟨rfl, rfl, h⟩
      exact ⟨_, h, rfl⟩
  · next hc hf hv =>
    simp only [stepsOnce_other hc, stepsOnce_other hf, stepsOnce_other hv, Except.ok.injEq, mk.injEq]

/-- The comparison that the members of an object encode, by the parts. -/
theorem comparisonOfMembers_eq_ok {parts : ComparisonParts} {members : List (String × Json)}
    {r : Rule} :
    comparisonOfMembers parts members = .ok r ↔ ∃ c f v, r = .comparison c f v ∧
      ReadsOnce "operator" comparisonPart parts.comparison members c ∧
      ReadsOnce "field" fieldPart parts.field members f ∧
      ReadsOnce "value" valuePart parts.value members v := by
  induction members generalizing parts with
  | nil =>
    rw [comparisonOfMembers, ComparisonParts.finish_eq_ok]
    simp only [readsOnce_nil]
  | cons m members ih =>
    obtain ⟨name, j⟩ := m
    simp only [comparisonOfMembers, Outcome.bind_eq_ok, ComparisonParts.add_eq_ok, ih, readsOnce_cons]
    constructor
    · rintro ⟨parts', ⟨hc, hf, hv⟩, c, f, v, rfl, hc', hf', hv'⟩
      exact ⟨c, f, v, rfl, ⟨_, hc, hc'⟩, ⟨_, hf, hf'⟩, ⟨_, hv, hv'⟩⟩
    · rintro ⟨c, f, v, rfl, ⟨c', hc, hc'⟩, ⟨f', hf, hf'⟩, ⟨v', hv, hv'⟩⟩
      exact ⟨⟨c', f', v'⟩, ⟨hc, hf, hv⟩, c, f, v, rfl, hc', hf', hv'⟩

theorem JoinParts.finish_eq_ok {parts : JoinParts} {r : Rule} :
    parts.finish = .ok r ↔ ∃ c l r', r = .join c l r' ∧
      required "operator" parts.connective = .ok c ∧ required "left" parts.left = .ok l ∧
      required "right" parts.right = .ok r' := by
  simp only [finish, Outcome.bind_eq_ok]
  constructor
  · rintro ⟨c, hc, l, hl, r', hr, h⟩
    cases h
    exact ⟨c, l, r', rfl, hc, hl, hr⟩
  · rintro ⟨c, l, r', rfl, hc, hl, hr⟩
    exact ⟨c, hc, l, hl, r', hr, rfl⟩

theorem joinOfMembers_cons {parts : JoinParts} {name : String} {j : Json}
    {members : List (String × Json)} {r : Rule} :
    joinOfMembers parts ((name, j) :: members) = .ok r ↔ ∃ parts' : JoinParts,
      (StepsOnce "operator" connectivePart name j parts.connective parts'.connective ∧
        StepsOnce "left" (decodeValue true) name j parts.left parts'.left ∧
        StepsOnce "right" (decodeValue true) name j parts.right parts'.right) ∧
      joinOfMembers parts' members = .ok r := by
  obtain ⟨c, l, r'⟩ := parts
  have hparts : ∀ {P : JoinParts → Prop}, (∃ parts', P parts') ↔ ∃ c l r, P ⟨c, l, r⟩ :=
    ⟨fun ⟨⟨c, l, r⟩, h⟩ => ⟨c, l, r, h⟩, fun ⟨c, l, r, h⟩ => ⟨_, h⟩⟩
  rw [joinOfMembers, hparts]
  by_cases hc : name = "operator"
  · subst hc
    simp [Outcome.bind_eq_ok, StepsOnce]
  · by_cases hl : name = "left"
    · subst hl
      simp [Outcome.bind_eq_ok, StepsOnce]
    · by_cases hr : name = "right"
      · subst hr
        simp [Outcome.bind_eq_ok, StepsOnce]
      · simp [hc, hl, hr, StepsOnce]

/-- The joined rule that the members of an object encode, by the parts. -/
theorem joinOfMembers_eq_ok {parts : JoinParts} {members : List (String × Json)} {r : Rule} :
    joinOfMembers parts members = .ok r ↔ ∃ c l r', r = .join c l r' ∧
      ReadsOnce "operator" connectivePart parts.connective members c ∧
      ReadsOnce "left" (decodeValue true) parts.left members l ∧
      ReadsOnce "right" (decodeValue true) parts.right members r' := by
  induction members generalizing parts with
  | nil =>
    rw [joinOfMembers, JoinParts.finish_eq_ok]
    simp only [readsOnce_nil]
  | cons m members ih =>
    obtain ⟨name, j⟩ := m
    simp only [joinOfMembers_cons, ih, readsOnce_cons]
    constructor
    · rintro ⟨parts', ⟨hc, hl, hr⟩, c, l, r', rfl, hc', hl', hr'⟩
      exact ⟨c, l, r', rfl, ⟨_, hc, hc'⟩, ⟨_, hl, hl'⟩, ⟨_, hr, hr'⟩⟩
    · rintro ⟨c, l, r', rfl, ⟨c', hc, hc'⟩, ⟨l', hl, hl'⟩, ⟨s', hr, hr'⟩⟩
      exact ⟨⟨c', l', s'⟩, ⟨hc, hl, hr⟩, c, l, r', rfl, hc', hl', hr'⟩

/-! ### Elements -/

theorem comparisonOfItems_eq_ok {items : List Json} {r : Rule} :
    comparisonOfItems items = .ok r ↔ ∃ o p w c f v, items = [o, p, w] ∧ r = .comparison c f v ∧
      comparisonPart o = .ok c ∧ fieldPart p = .ok f ∧ valuePart w = .ok v := by
  constructor
  · intro h
    match items, h with
    | [], h => cases h
    | [o], h =>
      obtain ⟨_, -, h⟩ := Outcome.bind_eq_ok.1 h
      cases h
    | [o, p], h =>
      obtain ⟨_, -, h⟩ := Outcome.bind_eq_ok.1 h
      obtain ⟨_, -, h⟩ := Outcome.bind_eq_ok.1 h
      cases h
    | o :: p :: w :: more, h =>
      obtain ⟨c, hc, h⟩ := Outcome.bind_eq_ok.1 h
      obtain ⟨f, hf, h⟩ := Outcome.bind_eq_ok.1 h
      obtain ⟨v, hv, h⟩ := Outcome.bind_eq_ok.1 h
      cases more with
      | nil =>
        cases h
        exact ⟨o, p, w, c, f, v, rfl, rfl, hc, hf, hv⟩
      | cons _ _ => cases h
  · rintro ⟨o, p, w, c, f, v, rfl, rfl, hc, hf, hv⟩
    rw [comparisonOfItems, hc, hf, hv]
    rfl

theorem joinOfItems_eq_ok {items : List Json} {r : Rule} :
    joinOfItems items = .ok r ↔ ∃ o p w c l r', items = [o, p, w] ∧ r = .join c l r' ∧
      connectivePart o = .ok c ∧ decodeValue true p = .ok l ∧ decodeValue true w = .ok r' := by
  constructor
  · intro h
    match items, h with
    | [], h =>
      rw [joinOfItems] at h
      cases h
    | [o], h =>
      rw [joinOfItems] at h
      obtain ⟨_, -, h⟩ := Outcome.bind_eq_ok.1 h
      cases h
    | [o, p], h =>
      rw [joinOfItems] at h
      obtain ⟨_, -, h⟩ := Outcome.bind_eq_ok.1 h
      obtain ⟨_, -, h⟩ := Outcome.bind_eq_ok.1 h
      cases h
    | o :: p :: w :: more, h =>
      rw [joinOfItems] at h
      obtain ⟨c, hc, h⟩ := Outcome.bind_eq_ok.1 h
      obtain ⟨l, hl, h⟩ := Outcome.bind_eq_ok.1 h
      obtain ⟨r', hr, h⟩ := Outcome.bind_eq_ok.1 h
      cases more with
      | nil =>
        cases h
        exact ⟨o, p, w, c, l, r', rfl, rfl, hc, hl, hr⟩
      | cons _ _ => cases h
  · rintro ⟨o, p, w, c, l, r', rfl, rfl, hc, hl, hr⟩
    rw [joinOfItems, hc, hl, hr]
    rfl

/-! ### Rules by their parts -/

/-- The parts of a rule can be read from a value. -/
def HasParts (inside : Bool) (j : Json) : Rule → Prop
  | comparison c f v => j.ReadsPart 0 "type" (fun t => Tag.ofGlimpse inside t.glimpse) .comparison ∧
      j.ReadsPart 1 "operator" comparisonPart c ∧ j.ReadsPart 2 "field" fieldPart f ∧
      j.ReadsPart 3 "value" valuePart v
  | join c l r => j.ReadsPart 0 "type" (fun t => Tag.ofGlimpse inside t.glimpse) .join ∧
      j.ReadsPart 1 "operator" connectivePart c ∧ j.ReadsPart 2 "left" (decodeValue true) l ∧
      j.ReadsPart 3 "right" (decodeValue true) r

theorem decodeValue_object {inside : Bool} {members : List (String × Json)} {r : Rule} :
    decodeValue inside (.object members) = .ok r ↔ HasParts inside (.object members) r := by
  rw [decodeValue_object_eq_ok]
  constructor
  · rintro ⟨tag, htag, hr⟩
    rw [tagOfMembers_eq_ok] at htag
    cases tag with
    | comparison =>
      obtain ⟨c, f, v, rfl, hc, hf, hv⟩ := comparisonOfMembers_eq_ok.1 hr
      exact ⟨htag, hc, hf, hv⟩
    | join =>
      obtain ⟨c, l, r', rfl, hc, hl, hr⟩ := joinOfMembers_eq_ok.1 hr
      exact ⟨htag, hc, hl, hr⟩
  · intro h
    cases r with
    | comparison c f v =>
      obtain ⟨htag, hc, hf, hv⟩ := h
      exact ⟨.comparison, tagOfMembers_eq_ok.2 htag,
        comparisonOfMembers_eq_ok.2 ⟨c, f, v, rfl, hc, hf, hv⟩⟩
    | join c l r =>
      obtain ⟨htag, hc, hl, hr⟩ := h
      exact ⟨.join, tagOfMembers_eq_ok.2 htag, joinOfMembers_eq_ok.2 ⟨c, l, r, rfl, hc, hl, hr⟩⟩

theorem readsPart_array {α : Type} {t o p w : Json} {place : Nat} {name : String}
    {read : Json → Except Complaint α} {a : α} :
    (Json.array [t, o, p, w]).ReadsPart place name read a ↔
      ∃ part, [t, o, p, w][place]? = some part ∧ read part = .ok a :=
  exists_congr fun _ => and_congr_left fun _ => and_iff_right rfl

theorem exists_four_of_readsPart {α : Type} {items : List Json} {place : Nat} {name : String}
    {read : Json → Except Complaint α} {a : α} (h : (Json.array items).ReadsPart place name read a) :
    ∃ t o p w, items = [t, o, p, w] := by
  obtain ⟨_, ⟨hlength, -⟩, -⟩ := h
  match items, hlength with
  | [t, o, p, w], _ => exact ⟨t, o, p, w, rfl⟩

theorem decodeValue_array {inside : Bool} {items : List Json} {r : Rule} :
    decodeValue inside (.array items) = .ok r ↔ HasParts inside (.array items) r := by
  rw [decodeValue_array_eq_ok]
  constructor
  · rintro ⟨t, more, tag, rfl, htag, hr⟩
    cases tag with
    | comparison =>
      obtain ⟨o, p, w, c, f, v, rfl, rfl, hc, hf, hv⟩ := comparisonOfItems_eq_ok.1 hr
      exact ⟨readsPart_array.2 ⟨t, rfl, htag⟩, readsPart_array.2 ⟨o, rfl, hc⟩,
        readsPart_array.2 ⟨p, rfl, hf⟩, readsPart_array.2 ⟨w, rfl, hv⟩⟩
    | join =>
      obtain ⟨o, p, w, c, l, r', rfl, rfl, hc, hl, hr⟩ := joinOfItems_eq_ok.1 hr
      exact ⟨readsPart_array.2 ⟨t, rfl, htag⟩, readsPart_array.2 ⟨o, rfl, hc⟩,
        readsPart_array.2 ⟨p, rfl, hl⟩, readsPart_array.2 ⟨w, rfl, hr⟩⟩
  · intro h
    cases r with
    | comparison c f v =>
      obtain ⟨t, o, p, w, rfl⟩ := exists_four_of_readsPart h.1
      simp only [HasParts, readsPart_array] at h
      obtain ⟨⟨_, ⟨⟩, htag⟩, ⟨_, ⟨⟩, hc⟩, ⟨_, ⟨⟩, hf⟩, ⟨_, ⟨⟩, hv⟩⟩ := h
      exact ⟨t, _, .comparison, rfl, htag,
        comparisonOfItems_eq_ok.2 ⟨o, p, w, c, f, v, rfl, rfl, hc, hf, hv⟩⟩
    | join c l r =>
      obtain ⟨t, o, p, w, rfl⟩ := exists_four_of_readsPart h.1
      simp only [HasParts, readsPart_array] at h
      obtain ⟨⟨_, ⟨⟩, htag⟩, ⟨_, ⟨⟩, hc⟩, ⟨_, ⟨⟩, hl⟩, ⟨_, ⟨⟩, hr⟩⟩ := h
      exact ⟨t, _, .join, rfl, htag, joinOfItems_eq_ok.2 ⟨o, p, w, c, l, r, rfl, rfl, hc, hl, hr⟩⟩

/-- A value encodes the rule whose parts can be read from it, in whatever order they stand. -/
theorem decodeValue_eq_ok {inside : Bool} {j : Json} {r : Rule} :
    decodeValue inside j = .ok r ↔ HasParts inside j r := by
  cases j with
  | object members => exact decodeValue_object
  | array items => exact decodeValue_array
  | _ =>
    constructor
    · intro h
      simp [decodeValue] at h
    · intro h
      cases r <;> exact h.1.elim fun _ hpart => hpart.1.elim

/-! ### Canonical values -/

section

variable {α : Type} {j : Json}

theorem readsPart_canonical (hj : j.NamesOnce) {place : Nat} {name : String}
    {read : Json → Except Complaint α} {a : α}
    (hread : ∀ part : Json, part.NamesOnce → (read part.canonical = .ok a ↔ read part = .ok a)) :
    j.canonical.ReadsPart place name read a ↔ j.ReadsPart place name read a := by
  cases j with
  | object members =>
    have hvalues := Json.membersNamedOnce_iff.1 hj.2
    constructor
    · rintro ⟨part', hpart', ha⟩
      obtain ⟨part, hpart, rfl⟩ := (Json.hasMember_canonicalMembers hj.1).1 hpart'
      exact ⟨part, hpart, (hread part (hvalues _ hpart.mem)).1 ha⟩
    · rintro ⟨part, hpart, ha⟩
      exact ⟨part.canonical, (Json.hasMember_canonicalMembers hj.1).2 ⟨part, hpart, rfl⟩,
        (hread part (hvalues _ (HasMember.mem hpart))).2 ha⟩
  | array items =>
    have hparts := Json.itemsNamedOnce_iff.1 hj
    have hitems : (Json.array items).canonical = .array (items.map Json.canonical) := by
      rw [Json.canonical, Json.canonicalItems_eq_map]
    rw [hitems]
    constructor
    · rintro ⟨part', ⟨hlength, hpart'⟩, ha⟩
      rw [List.length_map] at hlength
      rw [List.getElem?_map, Option.map_eq_some_iff] at hpart'
      obtain ⟨part, hpart, rfl⟩ := hpart'
      exact ⟨part, ⟨hlength, hpart⟩, (hread part (hparts _ (List.mem_of_getElem? hpart))).1 ha⟩
    · rintro ⟨part, ⟨hlength, hpart⟩, ha⟩
      refine ⟨part.canonical, ⟨by rw [List.length_map, hlength], ?_⟩,
        (hread part (hparts _ (List.mem_of_getElem? hpart))).2 ha⟩
      rw [List.getElem?_map, hpart]
      rfl
  | _ => exact Iff.rfl

theorem symbolPart_object_eq_ok {symbol : α → String} {all : List α} {s : String} {value : Json}
    {a : α} :
    symbolPart symbol all (.object [(s, value)]) = .ok a ↔
      ofSymbol symbol all s = .ok a ∧ (value = .null ∨ value = .object []) := by
  rw [symbolPart, Outcome.bind_eq_ok]
  constructor
  · rintro ⟨b, hb, h⟩
    split at h
    · cases h
      exact ⟨hb, Or.inl rfl⟩
    · cases h
      exact ⟨hb, Or.inr rfl⟩
    · cases h
  · rintro ⟨ha, rfl | rfl⟩
    · exact ⟨a, ha, rfl⟩
    · exact ⟨a, ha, rfl⟩

/-- A symbol is spelled as it is, or as the name of the only member of an object, with nothing for its
value. -/
theorem symbolPart_eq_ok {symbol : α → String} {all : List α} {a : α} :
    symbolPart symbol all j = .ok a ↔ ∃ s, ofSymbol symbol all s = .ok a ∧
      (j = .string s ∨ ∃ value, j = .object [(s, value)] ∧ (value = .null ∨ value = .object [])) := by
  cases j with
  | string s => simp [symbolPart]
  | object members =>
    match members with
    | [(s, value)] => simp [symbolPart_object_eq_ok]
    | [] => simp [symbolPart]
    | _ :: _ :: _ => simp [symbolPart]
  | _ => simp [symbolPart]

/-- Whatever has a symbol is read from the canonical form of a part as from the part. -/
theorem symbolPart_canonical {symbol : α → String} {all : List α} {a : α} (hj : j.NamesOnce) :
    symbolPart symbol all j.canonical = .ok a ↔ symbolPart symbol all j = .ok a := by
  simp only [symbolPart_eq_ok, Json.canonical_eq_string, Json.canonical_eq_object_singleton hj]
  refine exists_congr fun s => and_congr_right fun _ => or_congr_right ?_
  constructor
  · rintro ⟨_, ⟨value, hvalue, rfl⟩, hempty⟩
    rw [Json.canonical_eq_null, Json.canonical_eq_object_nil] at hempty
    exact ⟨value, hvalue, hempty⟩
  · rintro ⟨value, hvalue, hempty⟩
    rw [← Json.canonical_eq_null, ← Json.canonical_eq_object_nil] at hempty
    exact ⟨_, ⟨value, hvalue, rfl⟩, hempty⟩

theorem fieldPart_canonical (j : Json) : fieldPart j.canonical = fieldPart j := by
  cases j <;> rfl

theorem valuePart_canonical (j : Json) : valuePart j.canonical = valuePart j := by
  cases j <;> rfl

end

/-- A rule is decoded from the canonical form of a value without repeated names exactly if it is
decoded from the value. -/
theorem decodeValue_canonical {inside : Bool} {j : Json} {r : Rule} (hj : j.NamesOnce) :
    decodeValue inside j.canonical = .ok r ↔ decodeValue inside j = .ok r := by
  have htag : ∀ {inside : Bool} {j : Json} {tag : Tag}, j.NamesOnce →
      (j.canonical.ReadsPart 0 "type" (fun t => Tag.ofGlimpse inside t.glimpse) tag ↔
        j.ReadsPart 0 "type" (fun t => Tag.ofGlimpse inside t.glimpse) tag) := fun hj =>
    readsPart_canonical hj fun part _ => by rw [Json.glimpse_canonical]
  -- the parts that are rules themselves have the induction hypotheses
  induction r generalizing inside j with
  | comparison c f v =>
    rw [decodeValue_eq_ok, decodeValue_eq_ok]
    refine and_congr (htag hj) (and_congr ?_ (and_congr ?_ ?_))
    · exact readsPart_canonical hj fun part hpart => symbolPart_canonical hpart
    · exact readsPart_canonical hj fun part _ => by rw [fieldPart_canonical]
    · exact readsPart_canonical hj fun part _ => by rw [valuePart_canonical]
  | join c l r ihl ihr =>
    rw [decodeValue_eq_ok, decodeValue_eq_ok]
    refine and_congr (htag hj) (and_congr ?_ (and_congr ?_ ?_))
    · exact readsPart_canonical hj fun part hpart => symbolPart_canonical hpart
    · exact readsPart_canonical hj fun part hpart => ihl hpart
    · exact readsPart_canonical hj fun part hpart => ihr hpart

end Rule

end Rulebook
