import Mathlib.Data.List.Forall2
import Rulebook.Proofs.Json.Gluing
import Rulebook.Proofs.Json.Peak

/-!
# Texts of arrays and objects

The text of an object spells what the texts of its members spell (`shows_objectText`), and that of an
array what the texts of its elements spell (`shows_arrayText`). It can be read exactly if all of them
can be: a text of the form of a value spells a value exactly if each of its tokens denotes something
(`exists_tokens_iff`).
-/

namespace Rulebook.Json

variable {grade : Grade}

/-! ### Tokens between commas -/

theorem Shows.append {ts ts' us us' : List Token} (h : Shows grade ts us) (h' : Shows grade ts' us') :
    Shows grade (ts ++ ts') (us ++ us') :=
  shows_append_right.2 ⟨ts, ts', rfl, h, h'⟩

theorem shows_intercalate {tss uss : List (List Token)} (h : List.Forall₂ (Shows grade) tss uss) :
    Shows grade ([.comma].intercalate tss) ([.comma].intercalate uss) := by
  induction h with
  | nil => exact shows_nil
  | @cons ts us tss uss hfirst hrest ih =>
    cases hrest with
    | nil =>
      rw [List.intercalate_singleton, List.intercalate_singleton]
      exact hfirst
    | cons hsecond hrest =>
      have hcomma : Shows grade [.comma] [.comma] := rfl
      rw [List.intercalate_cons_cons, List.intercalate_cons_cons]
      exact (hfirst.append hcomma).append ih

theorem denotes_intercalate {tss : List (List Token)} :
    (∀ t ∈ [.comma].intercalate tss, t.Denotes) ↔ ∀ ts ∈ tss, ∀ t ∈ ts, t.Denotes := by
  induction tss with
  | nil => exact iff_of_true (fun _ h => absurd h List.not_mem_nil) fun _ h => absurd h List.not_mem_nil
  | cons ts tss ih =>
    cases tss with
    | nil =>
      rw [List.intercalate_singleton, List.forall_mem_cons]
      exact (and_iff_left fun _ h => absurd h List.not_mem_nil).symm
    | cons us tss =>
      have hcomma : ∀ t ∈ [Token.comma], t.Denotes := List.forall_mem_singleton.2 trivial
      rw [List.intercalate_cons_cons, List.forall_mem_append, List.forall_mem_append, ih,
        and_iff_left hcomma, List.forall_mem_cons (l := us :: tss)]

theorem itemTokens_eq_intercalate (items : List Json) :
    itemTokens true items = [.comma].intercalate (items.map tokens) := by
  induction items with
  | nil => rfl
  | cons j items ih =>
    cases items with
    | nil => simp [itemTokens]
    | cons k items =>
      have hmap : [.comma].intercalate ((j :: k :: items).map tokens) =
          j.tokens ++ [.comma] ++ [.comma].intercalate ((k :: items).map tokens) :=
        List.intercalate_cons_cons
      rw [hmap, ← ih]
      simp [itemTokens]

theorem memberTokens_eq_intercalate (members : List (String × Json)) :
    memberTokens true members = [.comma].intercalate (members.map fun m => memberTokens true [m]) := by
  induction members with
  | nil => rfl
  | cons m members ih =>
    cases members with
    | nil => simp
    | cons m' members =>
      have hmap : [.comma].intercalate ((m :: m' :: members).map fun m => memberTokens true [m]) =
          memberTokens true [m] ++ [.comma] ++
            [.comma].intercalate ((m' :: members).map fun m => memberTokens true [m]) :=
        List.intercalate_cons_cons
      rw [hmap, ← ih]
      simp [memberTokens]

/-! ### Texts of containers -/

/-- The text of an object, by the texts of its members. -/
def objectText (members : List (List Char)) : List Char :=
  '{' :: ([','].intercalate members ++ ['}'])

/-- The text of an array, by the texts of its elements. -/
def arrayText (items : List (List Char)) : List Char := '[' :: ([','].intercalate items ++ [']'])

/-- The text of a member is that of its name, a colon and the text of its value. -/
def MemberText (name : String) (value member : List Char) : Prop :=
  ∃ spelled, lex spelled = [.string (some name)] ∧ member = spelled ++ ':' :: value

/-- Every token of a text denotes something. -/
def Readable (cs : List Char) : Prop := ∀ t ∈ lex cs, t.Denotes

theorem lex_objectText {members : List (List Char)} (h : ∀ m ∈ members, .malformed ∉ lex m) :
    lex (objectText members) =
      .openBrace :: ([.comma].intercalate (members.map lex) ++ [.closeBrace]) := by
  have hend : Ends ['}'] := rfl
  rw [objectText, lex_punctuation rfl, lex_intercalate h hend]
  rfl

theorem lex_arrayText {items : List (List Char)} (h : ∀ item ∈ items, .malformed ∉ lex item) :
    lex (arrayText items) =
      .openBracket :: ([.comma].intercalate (items.map lex) ++ [.closeBracket]) := by
  have hend : Ends [']'] := rfl
  rw [arrayText, lex_punctuation rfl, lex_intercalate h hend]
  rfl

theorem MemberText.lex_eq {name : String} {value member : List Char}
    (h : MemberText name value member) : lex member = .string (some name) :: .colon :: lex value := by
  obtain ⟨spelled, hspelled, rfl⟩ := h
  have hname : Token.malformed ∉ lex spelled := by simp [hspelled]
  have hcolon : Ends (':' :: value) := rfl
  rw [lex_append hname hcolon, hspelled, lex_punctuation rfl]
  rfl

theorem memberText_quote (name : String) (value : List Char) :
    MemberText name value (quote name.toList ++ ':' :: value) := by
  refine ⟨quote name.toList, ?_, rfl⟩
  have htext : (string name).text = quote name.toList := List.append_nil _
  rw [← htext, lex_text]
  rfl

theorem MemberText.readable_iff {name : String} {value member : List Char}
    (h : MemberText name value member) : Readable member ↔ Readable value := by
  rw [Readable, h.lex_eq, List.forall_mem_cons, List.forall_mem_cons]
  exact (and_iff_right rfl).trans (and_iff_right trivial)

theorem MemberText.shows {name : String} {value member : List Char}
    (h : MemberText name value member) {j : Json} (hj : Shows Grade.loose (lex value) j.tokens) :
    Shows Grade.loose (lex member) (memberTokens true [(name, j)]) := by
  have hname : Shows Grade.loose [.string (some name), .colon] [.string (some name), .colon] := rfl
  have htokens : memberTokens true [(name, j)] = [.string (some name), .colon] ++ j.tokens := by
    simp [memberTokens]
  rw [h.lex_eq, htokens]
  exact hname.append hj

theorem malformed_notMem_member (m : String × Json) : .malformed ∉ memberTokens true [m] := by
  have h := malformed_notMem_tokens m.2
  simpa [memberTokens] using h

theorem forall_malformed_notMem {α : Type} {texts : List (List Char)} {as : List α}
    {seen : α → List Token} (hseen : ∀ a, .malformed ∉ seen a)
    (h : List.Forall₂ (fun cs a => Shows grade (lex cs) (seen a)) texts as) :
    ∀ cs ∈ texts, .malformed ∉ lex cs := by
  have hboth := h.imp (S := fun cs a => .malformed ∉ lex cs ∧ Shows grade (lex cs) (seen a))
    fun cs a ha => ⟨malformed_notMem_of_seen ha (hseen a), ha⟩
  exact ((List.forall₂_and_left _ _).1 hboth).1

theorem shows_objectText {members : List (List Char)} {ms : List (String × Json)}
    (h : List.Forall₂ (fun member m => Shows grade (lex member) (memberTokens true [m])) members ms) :
    Shows grade (lex (objectText members)) (object ms).tokens := by
  rw [lex_objectText (forall_malformed_notMem malformed_notMem_member h), shows_object,
    memberTokens_eq_intercalate]
  refine ⟨_, rfl, shows_intercalate ?_⟩
  rwa [List.forall₂_map_left_iff, List.forall₂_map_right_iff]

theorem shows_arrayText {items : List (List Char)} {js : List Json}
    (h : List.Forall₂ (fun item j => Shows grade (lex item) (tokens j)) items js) :
    Shows grade (lex (arrayText items)) (array js).tokens := by
  rw [lex_arrayText (forall_malformed_notMem malformed_notMem_tokens h), shows_array,
    itemTokens_eq_intercalate]
  refine ⟨_, rfl, shows_intercalate ?_⟩
  rwa [List.forall₂_map_left_iff, List.forall₂_map_right_iff]

theorem readable_objectText {members : List (List Char)} (h : ∀ m ∈ members, .malformed ∉ lex m) :
    Readable (objectText members) ↔ ∀ m ∈ members, Readable m := by
  have hlast : ∀ t ∈ [Token.closeBrace], t.Denotes := List.forall_mem_singleton.2 trivial
  rw [Readable, lex_objectText h, List.forall_mem_cons, List.forall_mem_append, and_iff_left hlast,
    denotes_intercalate, List.forall_mem_map]
  exact and_iff_right trivial

theorem readable_arrayText {items : List (List Char)} (h : ∀ item ∈ items, .malformed ∉ lex item) :
    Readable (arrayText items) ↔ ∀ item ∈ items, Readable item := by
  have hlast : ∀ t ∈ [Token.closeBracket], t.Denotes := List.forall_mem_singleton.2 trivial
  rw [Readable, lex_arrayText h, List.forall_mem_cons, List.forall_mem_append, and_iff_left hlast,
    denotes_intercalate, List.forall_mem_map]
  exact and_iff_right trivial

theorem readable_of_lex {cs : List Char} {j : Json} (h : lex cs = j.tokens) : Readable cs := by
  intro t ht
  rw [h] at ht
  exact denotes_of_mem_tokens ht

theorem shows_of_lex {cs : List Char} {j : Json} (h : lex cs = j.tokens) :
    Shows Grade.loose (lex cs) j.tokens := by
  rw [h]
  exact shows_loose_self j

theorem lex_of_readable {cs : List Char} {j : Json} (h : Shows Grade.loose (lex cs) j.tokens)
    (hreadable : Readable cs) : lex cs = j.tokens := by
  rw [← show (lex cs).map (Token.seen Grade.loose) = j.tokens from h,
    List.map_congr_left fun t ht => seen_loose_of_denotes (hreadable t ht), List.map_id']

/-- A text whose lexical form is that of a value spells this value if all its tokens denote something,
and no value if not. -/
theorem exists_tokens_iff {cs : List Char} {j : Json} (h : Shows Grade.loose (lex cs) j.tokens)
    {P : Json → Prop} : (∃ k : Json, lex cs = k.tokens ∧ P k) ↔ Readable cs ∧ P j := by
  constructor
  · rintro ⟨k, hk, hP⟩
    have hsame : lex cs ++ [] = lex cs ++ [] := rfl
    obtain ⟨rfl, -⟩ := shows_append_inj h (shows_of_lex hk) hsame
    exact ⟨readable_of_lex hk, hP⟩
  · rintro ⟨hreadable, hP⟩
    exact ⟨j, lex_of_readable h hreadable, hP⟩

end Rulebook.Json
