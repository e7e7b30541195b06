import Rulebook.Proofs.Rule.Taking
import Rulebook.Proofs.Settings.Form

/-!
# Records from tokens

A form is filled in from the tokens of a text while they are taken, and a member that is named again is
refused where it stands. It comes to what the value of these tokens is read as, for exactly the values
without repeated names (`Form.read_eq_ok`).
-/

namespace Rulebook.Settings.Form

open Json (Reader Token)

variable {α σ ρ : Type} (form : Form α σ ρ)

/-- Reads one more member of an object. -/
def takeMember (s : σ) (name : String) : Reader σ := fun tokens => do
  let a ← newMember form.name form.all (form.has s) name
  form.take s a (← Json.afterColon tokens)

/-- Reads one more element of an array. -/
def takeItem (state : σ × List α) : Reader (σ × List α) := fun tokens => do
  match state with
  | (_, []) => .error .malformed
  | (s, a :: as) =>
    let (s, tokens) ← form.take s a tokens
    return ((s, as), tokens)

/-- A record from the tokens of a text. -/
def read : Reader ρ
  | .openBrace :: tokens => do
    let (s, tokens) ← Json.members Json.Grade.strict form.takeMember form.start tokens
    return (form.finish s, tokens)
  | .openBracket :: tokens => do
    let ((s, _), tokens) ← Json.elements form.takeItem (form.start, form.all) tokens
    return (form.finish s, tokens)
  | tokens => do
    let (g, _) ← Json.glimpseFirst tokens
    .error (.wrongType g form.wanted)

variable {form} {j : Json} {r : ρ}

/-! ### Steps -/

open Classical in
/-- Reads one more member of an object whose names and values have no repeated names. -/
noncomputable def note (form : Form α σ ρ) (s : σ) (name : String) (j : Json) : Option σ :=
  if j.NamesOnce then
    (newMember form.name form.all (form.has s) name >>= (form.put s · j)).toOption
  else none

open Classical in
/-- Reads one more element of an array whose elements have no repeated names. -/
noncomputable def noteItem (form : Form α σ ρ) (state : σ × List α) (j : Json) :
    Option (σ × List α) :=
  match state with
  | (_, []) => none
  | (s, a :: as) => if j.NamesOnce then (form.put s a j).toOption.map (·, as) else none

theorem note_eq_some {s s' : σ} {name : String} :
    form.note s name j = some s' ↔ j.NamesOnce ∧
      ∃ a, form.name a = name ∧ form.has s a = false ∧ form.put s a j = .ok s' := by
  rw [note, Option.ite_none_right_eq_some, Rule.toOption_eq_some, Outcome.bind_eq_ok]
  simp only [newMember_eq_ok form.name_injective form.mem_all, and_assoc]

theorem noteItem_eq_some {s s' : σ} {a : α} {as as' : List α} :
    form.noteItem (s, a :: as) j = some (s', as') ↔
      j.NamesOnce ∧ form.put s a j = .ok s' ∧ as = as' := by
  rw [noteItem, Option.ite_none_right_eq_some, Option.map_eq_some_iff]
  simp only [Rule.toOption_eq_some, Prod.mk.injEq]
  constructor
  · rintro ⟨hj, s₁, hput, rfl, has⟩
    exact ⟨hj, hput, has⟩
  · rintro ⟨hj, hput, has⟩
    exact ⟨hj, s', hput, rfl, has⟩

theorem takes_members : Json.TakesMember Json.Grade.strict form.takeMember form.note := by
  intro s name tokens s' rest
  simp only [takeMember, Outcome.bind_eq_ok, Json.afterColon_eq_ok, form.take_eq_ok,
    newMember_eq_ok form.name_injective form.mem_all, Json.shows_strict, note_eq_some]
  constructor
  · rintro ⟨a, ⟨hname, hhas⟩, _, rfl, j, rfl, hj, hput⟩
    exact ⟨_, j, rfl, rfl, hj, a, hname, hhas, hput⟩
  · rintro ⟨_, j, rfl, rfl, hj, a, hname, hhas, hput⟩
    exact ⟨a, ⟨hname, hhas⟩, _, rfl, j, rfl, hj, hput⟩

theorem takes_items : Json.TakesItem Json.Grade.strict form.takeItem form.noteItem := by
  rintro ⟨s, as⟩ tokens ⟨s', as'⟩ rest
  simp only [Json.shows_strict]
  cases as with
  | nil =>
    constructor
    · intro h
      cases h
    · rintro ⟨_, _, -, -, h⟩
      cases h
  | cons a as =>
    simp only [takeItem, Outcome.bind_eq_ok, Prod.exists, form.take_eq_ok, noteItem_eq_some]
    constructor
    · rintro ⟨s₁, rest', ⟨j, rfl, hj, hput⟩, h⟩
      cases h
      exact ⟨_, j, rfl, rfl, hj, hput, rfl⟩
    · rintro ⟨_, j, rfl, rfl, hj, hput, rfl⟩
      exact ⟨s', rest, ⟨j, rfl, hj, hput⟩, rfl⟩

/-- Reading members in a row keeps their names apart: those that are still to come have not been read,
and no two of them are the same. -/
theorem foldMembers_note {members : List (String × Json)} {s s' : σ} :
    Json.foldMembers form.note s members = some s' ↔
      (∀ m ∈ members, m.2.NamesOnce) ∧ ∃ ps : List (α × Json),
        members = ps.map (fun p => (form.name p.1, p.2)) ∧ (ps.map Prod.fst).Nodup ∧
        (∀ p ∈ ps, form.has s p.1 = false) ∧ form.gather ps s = .ok s' := by
  induction members generalizing s with
  | nil =>
    constructor
    · intro h
      cases h
      exact ⟨List.forall_mem_nil _, [], rfl, List.nodup_nil, List.forall_mem_nil _, rfl⟩
    · rintro ⟨-, ps, hps, -, -, h⟩
      rw [List.map_eq_nil_iff.1 hps.symm] at h
      cases h
      rfl
  | cons m members ih =>
    obtain ⟨name, j⟩ := m
    rw [Json.foldMembers, Option.bind_eq_some_iff, List.forall_mem_cons]
    simp only [note_eq_some, ih]
    constructor
    · rintro ⟨s₁, ⟨hj, a, rfl, hhas, hput⟩, hvalues, ps, rfl, hnodup, hnew, h⟩
      have hnew' := fun p hp => (form.has_put hput p.1).1 (hnew p hp)
      refine ⟨⟨hj, hvalues⟩, (a, j) :: ps, rfl, ?_, ?_, gather_cons.2 ⟨s₁, hput, h⟩⟩
      · refine List.nodup_cons.2 ⟨fun hmem => ?_, hnodup⟩
        obtain ⟨p, hp, hpa⟩ := List.mem_map.1 hmem
        exact (hnew' p hp).1 hpa
      · exact List.forall_mem_cons.2 ⟨hhas, fun p hp => (hnew' p hp).2⟩
    · rintro ⟨⟨hj, hvalues⟩, ps, hps, hnodup, hnew, h⟩
      cases ps with
      | nil => cases hps
      | cons p ps =>
        cases hps
        obtain ⟨s₁, hput, h⟩ := gather_cons.1 h
        obtain ⟨hp, hnodup⟩ := List.nodup_cons.1 hnodup
        obtain ⟨hhas, hnew⟩ := List.forall_mem_cons.1 hnew
        refine ⟨s₁, ⟨hj, p.1, rfl, hhas, hput⟩, hvalues, ps, rfl, hnodup, fun q hq => ?_, h⟩
        refine (form.has_put hput q.1).2 ⟨fun hqp => hp ?_, hnew q hq⟩
        exact hqp ▸ List.mem_map_of_mem hq

theorem foldItems_noteItem {items : List Json} {s s' : σ} {as : List α} :
    (∃ as', Json.foldItems form.noteItem (s, as) items = some (s', as')) ↔
      (∀ j ∈ items, j.NamesOnce) ∧ items.length ≤ as.length ∧
        form.gather (as.zip items) s = .ok s' := by
  induction items generalizing s as with
  | nil =>
    constructor
    · rintro ⟨as', h⟩
      cases h
      exact ⟨List.forall_mem_nil _, Nat.zero_le _, by rw [List.zip_nil_right]; rfl⟩
    · rintro ⟨-, -, h⟩
      rw [List.zip_nil_right] at h
      cases h
      exact ⟨as, rfl⟩
  | cons j items ih =>
    cases as with
    | nil =>
      constructor
      · rintro ⟨as', h⟩
        cases h
      · rintro ⟨-, hlength, -⟩
        cases hlength
    | cons a as =>
      rw [List.zip_cons_cons, gather_cons, List.forall_mem_cons, List.length_cons, List.length_cons,
        Nat.add_le_add_iff_right]
      constructor
      · rintro ⟨as', h⟩
        obtain ⟨⟨s₁, as₁⟩, hstep, h⟩ := Option.bind_eq_some_iff.1 h
        obtain ⟨hj, hput, rfl⟩ := noteItem_eq_some.1 hstep
        obtain ⟨hitems, hlength, hgather⟩ := ih.1 ⟨as', h⟩
        exact ⟨⟨hj, hitems⟩, hlength, s₁, hput, hgather⟩
      · rintro ⟨⟨hj, hitems⟩, hlength, s₁, hput, hgather⟩
        obtain ⟨as', h⟩ := ih.2 ⟨hitems, hlength, hgather⟩
        exact ⟨as', Option.bind_eq_some_iff.2 ⟨_, noteItem_eq_some.2 ⟨hj, hput, rfl⟩, h⟩⟩

theorem read_openBrace_eq_ok {tokens rest : List Token} :
    form.read (.openBrace :: tokens) = .ok (r, rest) ↔
      ∃ members, tokens = Json.memberTokens true members ++ .closeBrace :: rest ∧
        (Json.object members).NamesOnce ∧ form.ofJson (.object members) = .ok r := by
  have hnames : ∀ ps : List (α × Json),
      ((ps.map fun p => (form.name p.1, p.2)).map Prod.fst).Nodup ↔ (ps.map Prod.fst).Nodup := by
    intro ps
    have hmap : (ps.map fun p => (form.name p.1, p.2)).map Prod.fst =
        (ps.map Prod.fst).map form.name := by
      rw [List.map_map, List.map_map]
      rfl
    rw [hmap, List.nodup_map_iff form.name_injective]
  rw [read, Outcome.bind_eq_ok]
  simp only [Prod.exists, Json.members_eq_ok takes_members, Json.shows_strict, foldMembers_note,
    Json.NamesOnce, Json.membersNamedOnce_iff, ofJson_eq_ok]
  constructor
  · rintro ⟨s, rest', ⟨_, members, rfl, rfl, hvalues, ps, rfl, hnodup, -, h⟩, hr⟩
    cases hr
    exact ⟨_, rfl, ⟨(hnames ps).2 hnodup, hvalues⟩, ps, rfl, s, h, rfl⟩
  · rintro ⟨members, rfl, ⟨hnodup, hvalues⟩, ps, rfl, s, h, rfl⟩
    refine ⟨s, rest, ⟨_, _, rfl, rfl, hvalues, ps, rfl, (hnames ps).1 hnodup, ?_, h⟩, rfl⟩
    exact fun p _ => form.has_start p.1

theorem read_openBracket_eq_ok {tokens rest : List Token} :
    form.read (.openBracket :: tokens) = .ok (r, rest) ↔
      ∃ items, tokens = Json.itemTokens true items ++ .closeBracket :: rest ∧
        (Json.array items).NamesOnce ∧ form.ofJson (.array items) = .ok r := by
  rw [read, Outcome.bind_eq_ok]
  simp only [Prod.exists, Json.elements_eq_ok takes_items, Json.shows_strict, Json.NamesOnce,
    Json.itemsNamedOnce_iff, ofJson_eq_ok]
  constructor
  · rintro ⟨s, as, rest', ⟨_, items, rfl, rfl, h⟩, hr⟩
    cases hr
    obtain ⟨hitems, hlength, hgather⟩ := foldItems_noteItem.1 ⟨as, h⟩
    exact ⟨items, rfl, hitems, _, ⟨hlength, rfl⟩, s, hgather, rfl⟩
  · rintro ⟨items, rfl, hitems, _, ⟨hlength, rfl⟩, s, hgather, rfl⟩
    obtain ⟨as, h⟩ := foldItems_noteItem.2 ⟨hitems, hlength, hgather⟩
    exact ⟨s, as, rest, ⟨_, items, rfl, rfl, h⟩, rfl⟩

theorem read_ne_ok_of_ne_open {tokens : List Token}
    (h : ∀ t, tokens.head? = some t → t ≠ .openBrace ∧ t ≠ .openBracket) (rest : List Token) :
    form.read tokens ≠ .ok (r, rest) := by
  intro hr
  have herror : form.read tokens =
      (Json.glimpseFirst tokens >>= fun g => .error (.wrongType g.1 form.wanted)) := by
    cases tokens with
    | nil => rfl
    | cons t tokens =>
      have hne := h t rfl
      cases t <;> first | rfl | exact absurd rfl hne.1 | exact absurd rfl hne.2
  rw [herror] at hr
  obtain ⟨_, -, h⟩ := Outcome.bind_eq_ok.1 hr
  cases h

/-- Reading a record takes the tokens of a value without repeated names that has the record. -/
theorem read_eq_ok {tokens rest : List Token} :
    form.read tokens = .ok (r, rest) ↔
      ∃ j : Json, tokens = j.tokens ++ rest ∧ j.NamesOnce ∧ form.ofJson j = .ok r := by
  constructor
  · intro h
    by_cases hbrace : ∃ ts, tokens = .openBrace :: ts
    · obtain ⟨ts, rfl⟩ := hbrace
      obtain ⟨members, rfl, hnames, hr⟩ := read_openBrace_eq_ok.1 h
      exact ⟨.object members, by simp [Json.tokens], hnames, hr⟩
    by_cases hbracket : ∃ ts, tokens = .openBracket :: ts
    · obtain ⟨ts, rfl⟩ := hbracket
      obtain ⟨items, rfl, hnames, hr⟩ := read_openBracket_eq_ok.1 h
      exact ⟨.array items, by simp [Json.tokens], hnames, hr⟩
    refine absurd h (read_ne_ok_of_ne_open (fun t ht => ?_) rest)
    obtain ⟨ts, rfl⟩ := List.head?_eq_some_iff.1 ht
    exact ⟨fun heq => hbrace ⟨ts, by rw [heq]⟩, fun heq => hbracket ⟨ts, by rw [heq]⟩⟩
  · rintro ⟨j, rfl, hnames, hr⟩
    cases j with
    | object members =>
      rw [Json.tokens, List.cons_append, List.append_assoc]
      exact read_openBrace_eq_ok.2 ⟨members, rfl, hnames, hr⟩
    | array items =>
      rw [Json.tokens, List.cons_append, List.append_assoc]
      exact read_openBracket_eq_ok.2 ⟨items, rfl, hnames, hr⟩
    | _ => cases hr

end Rulebook.Settings.Form
