import Rulebook.Proofs.Json.Contents

/-!
# Reading JSON values

A reader of values takes exactly the tokens of a value that is nested no more deeply than there is
room for (`value_eq_ok`). Since the tokens determine what is read, no token list starts with the
tokens of two values (`tokens_append_inj`).
-/

namespace Rulebook.Json

variable {grade : Grade}

/-! ### Scalars -/

theorem scalar_cons (t : Token) (tokens : List Token) :
    scalar grade (t :: tokens) = match scalar? grade t with
      | some j => .ok (j, tokens)
      | none => .error .malformed := rfl

theorem scalar_eq_ok {tokens rest : List Token} {j : Json} :
    scalar grade tokens = .ok (j, rest) ↔
      ∃ t, tokens = t :: rest ∧ scalar? grade t = some j := by
  cases tokens with
  | nil =>
    constructor
    · intro h
      cases h
    · rintro ⟨t, ht, -⟩
      cases ht
  | cons t tokens =>
    rw [scalar_cons]
    constructor
    · intro h
      split at h
      · next k hk =>
        cases h
        exact ⟨t, rfl, hk⟩
      · cases h
    · rintro ⟨u, hu, hj⟩
      cases hu
      rw [hj]

theorem scalar?_eq_some {t : Token} {j : Json} :
    scalar? grade t = some j ↔ Shows grade [t] j.tokens ∧ j.depth = 0 := by
  unfold Shows
  cases t <;> cases j <;> simp [scalar?, Token.seen, tokens, depth]

theorem tokens_of_depth_eq_zero {j : Json} (h : j.depth = 0) : ∃ t, j.tokens = [t] := by
  cases j <;> simp [depth, tokens] at h ⊢

theorem scalar_eq_ok_shows {tokens rest : List Token} {j : Json} :
    scalar grade tokens = .ok (j, rest) ↔
      ∃ taken, tokens = taken ++ rest ∧ Shows grade taken j.tokens ∧ j.depth = 0 := by
  rw [scalar_eq_ok]
  constructor
  · rintro ⟨t, rfl, hs⟩
    exact ⟨[t], rfl, scalar?_eq_some.1 hs⟩
  · rintro ⟨taken, rfl, hshows, hdepth⟩
    obtain ⟨t, ht⟩ := tokens_of_depth_eq_zero hdepth
    have hlen : taken.length = 1 := by
      have h := congrArg List.length hshows
      rwa [List.length_map, ht] at h
    obtain ⟨u, rfl⟩ := List.length_eq_one_iff.1 hlen
    exact ⟨u, rfl, scalar?_eq_some.2 ⟨hshows, hdepth⟩⟩

/-! ### Containers -/

/-- Reads one more member of an object. -/
def takeMember (grade : Grade) (room : Nat) (members : List (String × Json)) (name : String) :
    Reader (List (String × Json)) := fun tokens => do
  let (j, tokens) ← value grade room (← afterColon tokens)
  return ((name, j) :: members, tokens)

/-- Reads one more element of an array. -/
def takeItem (grade : Grade) (room : Nat) (items : List Json) : Reader (List Json) := fun tokens => do
  let (j, tokens) ← value grade room tokens
  return (j :: items, tokens)

theorem value_openBrace (room : Nat) (tokens : List Token) :
    value grade (room + 1) (.openBrace :: tokens) = (do
      let (ms, tokens) ← members grade (takeMember grade room) [] tokens
      return (.object ms.reverse, tokens)) := rfl

theorem value_openBracket (room : Nat) (tokens : List Token) :
    value grade (room + 1) (.openBracket :: tokens) = (do
      let (items, tokens) ← elements (takeItem grade room) [] tokens
      return (.array items.reverse, tokens)) := rfl

theorem value_zero (tokens : List Token) : value grade 0 tokens = scalar grade tokens := by
  simp only [value]

theorem afterColon_eq_ok {tokens rest : List Token} :
    afterColon tokens = .ok rest ↔ tokens = .colon :: rest := by
  constructor
  · intro h
    unfold afterColon at h
    split at h
    · cases h
      rfl
    · cases h
  · rintro rfl
    rfl

/-- Keeps a member whose value is not nested too deeply. -/
def keepMember (room : Nat) (members : List (String × Json)) (name : String) (j : Json) :
    Option (List (String × Json)) := if j.depth ≤ room then some ((name, j) :: members) else none

/-- Keeps an element that is not nested too deeply. -/
def keepItem (room : Nat) (items : List Json) (j : Json) : Option (List Json) :=
  if j.depth ≤ room then some (j :: items) else none

theorem foldMembers_keep {room : Nat} {state state' ms : List (String × Json)} :
    foldMembers (keepMember room) state ms = some state' ↔
      state' = ms.reverse ++ state ∧ depthOfMembers ms ≤ room := by
  induction ms generalizing state with
  | nil =>
    rw [foldMembers, Option.some.injEq, eq_comm]
    exact ⟨fun h => ⟨h, Nat.zero_le _⟩, fun h => h.1⟩
  | cons m ms ih =>
    obtain ⟨name, j⟩ := m
    rw [foldMembers, keepMember, depthOfMembers]
    split
    · next h =>
      rw [Option.bind_some, ih, Nat.max_le, List.reverse_cons, List.append_assoc]
      exact ⟨fun ⟨hs, hd⟩ => ⟨hs, h, hd⟩, fun ⟨hs, _, hd⟩ => ⟨hs, hd⟩⟩
    · next h =>
      rw [Option.bind_none, Nat.max_le]
      exact ⟨fun hn => (by cases hn), fun ⟨_, hd, _⟩ => absurd hd h⟩

theorem foldItems_keep {room : Nat} {state state' items : List Json} :
    foldItems (keepItem room) state items = some state' ↔
      state' = items.reverse ++ state ∧ depthOfItems items ≤ room := by
  induction items generalizing state with
  | nil =>
    rw [foldItems, Option.some.injEq, eq_comm]
    exact ⟨fun h => ⟨h, Nat.zero_le _⟩, fun h => h.1⟩
  | cons j items ih =>
    rw [foldItems, keepItem, depthOfItems]
    split
    · next h =>
      rw [Option.bind_some, ih, Nat.max_le, List.reverse_cons, List.append_assoc]
      exact ⟨fun ⟨hs, hd⟩ => ⟨hs, h, hd⟩, fun ⟨hs, _, hd⟩ => ⟨hs, hd⟩⟩
    · next h =>
      rw [Option.bind_none, Nat.max_le]
      exact ⟨fun hn => (by cases hn), fun ⟨_, hd, _⟩ => absurd hd h⟩

/-! ### Values -/

/-- What a reader takes for a value: tokens that show the tokens of one that there is room for. -/
def Takes (grade : Grade) (room : Nat) : Prop :=
  ∀ tokens j rest, value grade room tokens = .ok (j, rest) ↔
    ∃ taken, tokens = taken ++ rest ∧ Shows grade taken j.tokens ∧ j.depth ≤ room

theorem Takes.takesMember {room : Nat} (h : Takes grade room) :
    TakesMember grade (takeMember grade room) (keepMember room) := by
  intro state name tokens state' rest
  simp only [takeMember, Outcome.bind_eq_ok, afterColon_eq_ok, Prod.exists, keepMember]
  constructor
  · rintro ⟨tokens', rfl, j, rest', hv, hr⟩
    cases hr
    obtain ⟨taken, rfl, hshows, hdepth⟩ := (h _ _ _).1 hv
    exact ⟨taken, j, rfl, hshows, if_pos hdepth⟩
  · rintro ⟨taken, j, rfl, hshows, hstep⟩
    split at hstep
    · next hdepth =>
      cases hstep
      exact ⟨taken ++ rest, rfl, j, rest, (h _ _ _).2 ⟨taken, rfl, hshows, hdepth⟩, rfl⟩
    · cases hstep

theorem Takes.takesItem {room : Nat} (h : Takes grade room) :
    TakesItem grade (takeItem grade room) (keepItem room) := by
  intro state tokens state' rest
  simp only [takeItem, Outcome.bind_eq_ok, Prod.exists, keepItem]
  constructor
  · rintro ⟨j, rest', hv, hr⟩
    cases hr
    obtain ⟨taken, rfl, hshows, hdepth⟩ := (h _ _ _).1 hv
    exact ⟨taken, j, rfl, hshows, if_pos hdepth⟩
  · rintro ⟨taken, j, rfl, hshows, hstep⟩
    split at hstep
    · next hdepth =>
      cases hstep
      exact ⟨j, rest, (h _ _ _).2 ⟨taken, rfl, hshows, hdepth⟩, rfl⟩
    · cases hstep

theorem value_openBrace_eq_ok {room : Nat} (h : Takes grade room) {tokens rest : List Token}
    {j : Json} :
    value grade (room + 1) (.openBrace :: tokens) = .ok (j, rest) ↔
      ∃ taken ms, tokens = taken ++ .closeBrace :: rest ∧
        Shows grade taken (memberTokens true ms) ∧ depthOfMembers ms ≤ room ∧ j = .object ms := by
  rw [value_openBrace, Outcome.bind_eq_ok]
  constructor
  · rintro ⟨⟨ms', rest'⟩, hm, hr⟩
    cases hr
    obtain ⟨taken, ms, rfl, hshows, hfold⟩ := (members_eq_ok h.takesMember).1 hm
    obtain ⟨rfl, hdepth⟩ := foldMembers_keep.1 hfold
    exact ⟨taken, ms, rfl, hshows, hdepth, by rw [List.append_nil, List.reverse_reverse]⟩
  · rintro ⟨taken, ms, rfl, hshows, hdepth, rfl⟩
    have hfold := foldMembers_keep.2 ⟨(List.append_nil ms.reverse).symm, hdepth⟩
    refine ⟨(ms.reverse, rest), (members_eq_ok h.takesMember).2 ⟨taken, ms, rfl, hshows, hfold⟩, ?_⟩
    simp only [List.reverse_reverse]
    rfl

theorem value_openBracket_eq_ok {room : Nat} (h : Takes grade room) {tokens rest : List Token}
    {j : Json} :
    value grade (room + 1) (.openBracket :: tokens) = .ok (j, rest) ↔
      ∃ taken items, tokens = taken ++ .closeBracket :: rest ∧
        Shows grade taken (itemTokens true items) ∧ depthOfItems items ≤ room ∧
        j = .array items := by
  rw [value_openBracket, Outcome.bind_eq_ok]
  constructor
  · rintro ⟨⟨items', rest'⟩, hm, hr⟩
    cases hr
    obtain ⟨taken, items, rfl, hshows, hfold⟩ := (elements_eq_ok h.takesItem).1 hm
    obtain ⟨rfl, hdepth⟩ := foldItems_keep.1 hfold
    exact ⟨taken, items, rfl, hshows, hdepth, by rw [List.append_nil, List.reverse_reverse]⟩
  · rintro ⟨taken, items, rfl, hshows, hdepth, rfl⟩
    have hfold := foldItems_keep.2 ⟨(List.append_nil items.reverse).symm, hdepth⟩
    refine ⟨(items.reverse, rest),
      (elements_eq_ok h.takesItem).2 ⟨taken, items, rfl, hshows, hfold⟩, ?_⟩
    simp only [List.reverse_reverse]
    rfl

/-- Tokens show bracketed ones exactly if they are bracketed themselves. -/
theorem shows_bracketed {first last : Token} (hfirst : first.isMark) (hlast : last.isMark)
    {taken ts : List Token} :
    Shows grade taken (first :: (ts ++ [last])) ↔
      ∃ us, taken = first :: (us ++ [last]) ∧ Shows grade us ts := by
  rw [shows_cons_right]
  constructor
  · rintro ⟨t, us, rfl, ht, hus⟩
    obtain rfl := (seen_eq_mark hfirst).1 ht
    obtain ⟨vs, ws, rfl, hvs, hws⟩ := shows_append_right.1 hus
    obtain ⟨d, xs, rfl, hd, hxs⟩ := shows_cons_right.1 hws
    obtain rfl := (seen_eq_mark hlast).1 hd
    obtain rfl := List.map_eq_nil_iff.1 hxs
    exact ⟨vs, rfl, hvs⟩
  · rintro ⟨us, rfl, hus⟩
    have hend : Shows grade [last] [last] :=
      shows_cons_right.2 ⟨last, [], rfl, (seen_eq_mark hlast).2 rfl, shows_nil⟩
    exact ⟨first, us ++ [last], rfl, (seen_eq_mark hfirst).2 rfl,
      shows_append_right.2 ⟨us, [last], rfl, hus, hend⟩⟩

theorem shows_object {taken : List Token} {ms : List (String × Json)} :
    Shows grade taken (tokens (.object ms)) ↔
      ∃ us, taken = .openBrace :: (us ++ [.closeBrace]) ∧ Shows grade us (memberTokens true ms) := by
  rw [tokens]
  exact shows_bracketed rfl rfl

theorem shows_array {taken : List Token} {items : List Json} :
    Shows grade taken (tokens (.array items)) ↔
      ∃ us, taken = .openBracket :: (us ++ [.closeBracket]) ∧
        Shows grade us (itemTokens true items) := by
  rw [tokens]
  exact shows_bracketed rfl rfl

theorem exists_object_of_shows {taken tokens rest : List Token} {j : Json}
    (h : Shows grade taken j.tokens) (htaken : .openBrace :: tokens = taken ++ rest) :
    ∃ ms us, j = .object ms ∧ tokens = us ++ .closeBrace :: rest ∧
      Shows grade us (memberTokens true ms) := by
  cases j with
  | object ms =>
    obtain ⟨us, rfl, hus⟩ := shows_object.1 h
    exact ⟨ms, us, rfl, by simpa using htaken, hus⟩
  | array items =>
    obtain ⟨us, rfl, -⟩ := shows_array.1 h
    cases htaken
  | _ =>
    obtain ⟨t, us, rfl, ht, -⟩ := shows_cons_right.1 h
    cases htaken
    cases ht

theorem exists_array_of_shows {taken tokens rest : List Token} {j : Json}
    (h : Shows grade taken j.tokens) (htaken : .openBracket :: tokens = taken ++ rest) :
    ∃ items us, j = .array items ∧ tokens = us ++ .closeBracket :: rest ∧
      Shows grade us (itemTokens true items) := by
  cases j with
  | array items =>
    obtain ⟨us, rfl, hus⟩ := shows_array.1 h
    exact ⟨items, us, rfl, by simpa using htaken, hus⟩
  | object ms =>
    obtain ⟨us, rfl, -⟩ := shows_object.1 h
    cases htaken
  | _ =>
    obtain ⟨t, us, rfl, ht, -⟩ := shows_cons_right.1 h
    cases htaken
    cases ht

theorem depth_of_shows_of_ne_open {taken : List Token} {j : Json} (h : Shows grade taken j.tokens)
    (hne : ∀ t, taken.head? = some t → t ≠ .openBrace ∧ t ≠ .openBracket) : j.depth = 0 := by
  cases j with
  | object ms =>
    obtain ⟨us, rfl, -⟩ := shows_object.1 h
    exact absurd rfl (hne _ rfl).1
  | array items =>
    obtain ⟨us, rfl, -⟩ := shows_array.1 h
    exact absurd rfl (hne _ rfl).2
  | _ => rfl

theorem value_of_ne_open {room : Nat} {tokens : List Token}
    (h : ∀ t, tokens.head? = some t → t ≠ .openBrace ∧ t ≠ .openBracket) :
    value grade room tokens = scalar grade tokens := by
  cases room with
  | zero => exact value_zero tokens
  | succ room =>
    cases tokens with
    | nil => rfl
    | cons t tokens =>
      have hne := h t rfl
      cases t <;> first | rfl | exact absurd rfl hne.1 | exact absurd rfl hne.2

theorem takes_zero : Takes grade 0 := by
  intro tokens j rest
  rw [value_zero, scalar_eq_ok_shows]
  simp only [Nat.le_zero]

theorem Takes.openBrace {room : Nat} (h : Takes grade room) {tokens rest : List Token} {j : Json} :
    value grade (room + 1) (.openBrace :: tokens) = .ok (j, rest) ↔
      ∃ taken, .openBrace :: tokens = taken ++ rest ∧ Shows grade taken j.tokens ∧
        j.depth ≤ room + 1 := by
  rw [value_openBrace_eq_ok h]
  constructor
  · rintro ⟨taken, ms, rfl, hshows, hdepth, rfl⟩
    exact ⟨_, by simp, shows_object.2 ⟨taken, rfl, hshows⟩, Nat.succ_le_succ hdepth⟩
  · rintro ⟨taken, htaken, hshows, hdepth⟩
    obtain ⟨ms, us, rfl, hus, hms⟩ := exists_object_of_shows hshows htaken
    exact ⟨us, ms, hus, hms, Nat.le_of_succ_le_succ hdepth, rfl⟩

theorem Takes.openBracket {room : Nat} (h : Takes grade room) {tokens rest : List Token}
    {j : Json} :
    value grade (room + 1) (.openBracket :: tokens) = .ok (j, rest) ↔
      ∃ taken, .openBracket :: tokens = taken ++ rest ∧ Shows grade taken j.tokens ∧
        j.depth ≤ room + 1 := by
  rw [value_openBracket_eq_ok h]
  constructor
  · rintro ⟨taken, items, rfl, hshows, hdepth, rfl⟩
    exact ⟨_, by simp, shows_array.2 ⟨taken, rfl, hshows⟩, Nat.succ_le_succ hdepth⟩
  · rintro ⟨taken, htaken, hshows, hdepth⟩
    obtain ⟨items, us, rfl, hus, hitems⟩ := exists_array_of_shows hshows htaken
    exact ⟨us, items, hus, hitems, Nat.le_of_succ_le_succ hdepth, rfl⟩

theorem value_eq_ok_of_ne_open {room : Nat} {tokens rest : List Token} {j : Json}
    (hne : ∀ t, tokens.head? = some t → t ≠ .openBrace ∧ t ≠ .openBracket) :
    value grade room tokens = .ok (j, rest) ↔
      ∃ taken, tokens = taken ++ rest ∧ Shows grade taken j.tokens ∧ j.depth ≤ room := by
  rw [value_of_ne_open hne, scalar_eq_ok_shows]
  constructor
  · rintro ⟨taken, rfl, hshows, hdepth⟩
    exact ⟨taken, rfl, hshows, by omega⟩
  · rintro ⟨taken, rfl, hshows, -⟩
    refine ⟨taken, rfl, hshows, depth_of_shows_of_ne_open hshows fun t ht => hne t ?_⟩
    rw [List.head?_append, ht]
    rfl

theorem takes_succ {room : Nat} (h : Takes grade room) : Takes grade (room + 1) := by
  intro tokens j rest
  by_cases hbrace : ∃ ts, tokens = .openBrace :: ts
  · obtain ⟨ts, rfl⟩ := hbrace
    exact h.openBrace
  by_cases hbracket : ∃ ts, tokens = .openBracket :: ts
  · obtain ⟨ts, rfl⟩ := hbracket
    exact h.openBracket
  apply value_eq_ok_of_ne_open
  intro t ht
  obtain ⟨ts, rfl⟩ := List.head?_eq_some_iff.1 ht
  exact ⟨fun h => hbrace ⟨ts, by rw [h]⟩, fun h => hbracket ⟨ts, by rw [h]⟩⟩

theorem takes (grade : Grade) (room : Nat) : Takes grade room := by
  induction room with
  | zero => exact takes_zero
  | succ room ih => exact takes_succ ih

/-- Reading a value takes tokens that show the tokens of one that there is room for. -/
theorem value_eq_ok {room : Nat} {tokens rest : List Token} {j : Json} :
    value grade room tokens = .ok (j, rest) ↔
      ∃ taken, tokens = taken ++ rest ∧ Shows grade taken j.tokens ∧ j.depth ≤ room :=
  takes grade room tokens j rest

theorem value_strict_eq_ok {room : Nat} {tokens rest : List Token} {j : Json} :
    value Grade.strict room tokens = .ok (j, rest) ↔ tokens = j.tokens ++ rest ∧ j.depth ≤ room := by
  rw [value_eq_ok]
  constructor
  · rintro ⟨taken, rfl, hshows, hdepth⟩
    rw [shows_strict.1 hshows]
    exact ⟨rfl, hdepth⟩
  · rintro ⟨rfl, hdepth⟩
    exact ⟨j.tokens, rfl, shows_strict.2 rfl, hdepth⟩

/-! ### Depth and tokens -/

mutual

theorem depth_le_length_tokens : ∀ j : Json, j.depth ≤ j.tokens.length
  | null | boolean _ | number _ | string _ => Nat.zero_le _
  | array items => by
    have h := depthOfItems_le items true
    simp only [depth, tokens, List.length_cons, List.length_append, List.length_nil]
    omega
  | object members => by
    have h := depthOfMembers_le members true
    simp only [depth, tokens, List.length_cons, List.length_append, List.length_nil]
    omega

theorem depthOfItems_le : ∀ (items : List Json) (first : Bool),
    depthOfItems items ≤ (itemTokens first items).length
  | [], _ => Nat.zero_le _
  | j :: items, first => by
    have h := depth_le_length_tokens j
    have ih := depthOfItems_le items false
    simp only [depthOfItems, itemTokens, List.length_append]
    omega

theorem depthOfMembers_le : ∀ (members : List (String × Json)) (first : Bool),
    depthOfMembers members ≤ (memberTokens first members).length
  | [], _ => Nat.zero_le _
  | (name, j) :: members, first => by
    have h := depth_le_length_tokens j
    have ih := depthOfMembers_le members false
    simp only [depthOfMembers, memberTokens, List.length_append]
    omega

end

theorem depthOfItems_le_iff {items : List Json} {n : Nat} :
    depthOfItems items ≤ n ↔ ∀ j ∈ items, j.depth ≤ n := by
  induction items with
  | nil => exact iff_of_true (Nat.zero_le n) fun _ h => absurd h List.not_mem_nil
  | cons item items ih => rw [depthOfItems, Nat.max_le, ih, List.forall_mem_cons]

theorem depthOfMembers_le_iff {members : List (String × Json)} {n : Nat} :
    depthOfMembers members ≤ n ↔ ∀ m ∈ members, m.2.depth ≤ n := by
  induction members with
  | nil => exact iff_of_true (Nat.zero_le n) fun _ h => absurd h List.not_mem_nil
  | cons m members ih => rw [depthOfMembers, Nat.max_le, ih, List.forall_mem_cons]

theorem depth_le_of_mem_items {j : Json} {items : List Json} (h : j ∈ items) :
    j.depth ≤ depthOfItems items :=
  depthOfItems_le_iff.1 (Nat.le_refl _) j h

theorem depth_le_of_mem_members {m : String × Json} {members : List (String × Json)}
    (h : m ∈ members) : m.2.depth ≤ depthOfMembers members :=
  depthOfMembers_le_iff.1 (Nat.le_refl _) m h

theorem mem_itemTokens {j : Json} {items : List Json} (h : j ∈ items) {t : Token} (ht : t ∈ j.tokens)
    (first : Bool) : t ∈ itemTokens first items := by
  induction items generalizing first with
  | nil => cases h
  | cons item items ih =>
    rw [itemTokens]
    obtain rfl | h := List.mem_cons.1 h
    · exact List.mem_append_left _ (List.mem_append_right _ ht)
    · exact List.mem_append_right _ (ih h false)

theorem mem_memberTokens {m : String × Json} {members : List (String × Json)} (h : m ∈ members)
    {t : Token} (ht : t ∈ m.2.tokens) (first : Bool) : t ∈ memberTokens first members := by
  induction members generalizing first with
  | nil => cases h
  | cons member members ih =>
    rw [memberTokens]
    obtain rfl | h := List.mem_cons.1 h
    · exact List.mem_append_left _ (List.mem_append_right _ ht)
    · exact List.mem_append_right _ (ih h false)

/-- Does a token denote something, as far as it is a string or a number? -/
def Token.Denotes : Token → Prop
  | string s => s.isSome
  | number n => n.isSome
  | _ => True

mutual

theorem denotes_of_mem_tokens : ∀ {j : Json} {t : Token}, t ∈ j.tokens → t.Denotes
  | null, t, h | boolean _, t, h => by
    rw [tokens, List.mem_singleton] at h
    rw [h]
    exact trivial
  | number _, t, h | string _, t, h => by
    rw [tokens, List.mem_singleton] at h
    rw [h]
    exact rfl
  | array items, t, h => by
    rw [tokens, List.mem_cons, List.mem_append, List.mem_singleton] at h
    rcases h with rfl | h | rfl
    · exact trivial
    · exact denotes_of_mem_items h
    · exact trivial
  | object members, t, h => by
    rw [tokens, List.mem_cons, List.mem_append, List.mem_singleton] at h
    rcases h with rfl | h | rfl
    · exact trivial
    · exact denotes_of_mem_members h
    · exact trivial

theorem denotes_of_mem_items : ∀ {items : List Json} {first : Bool} {t : Token},
    t ∈ itemTokens first items → t.Denotes
  | [], _, t, h => absurd h List.not_mem_nil
  | j :: items, first, t, h => by
    rw [itemTokens, List.mem_append, List.mem_append] at h
    rcases h with (h | h) | h
    · cases first with
      | true => exact absurd h List.not_mem_nil
      | false =>
        rw [List.mem_singleton.1 h]
        exact trivial
    · exact denotes_of_mem_tokens h
    · exact denotes_of_mem_items h

theorem denotes_of_mem_members : ∀ {members : List (String × Json)} {first : Bool} {t : Token},
    t ∈ memberTokens first members → t.Denotes
  | [], _, t, h => absurd h List.not_mem_nil
  | (name, j) :: members, first, t, h => by
    rw [memberTokens, List.mem_append, List.mem_append, List.mem_append] at h
    rcases h with ((h | h) | h) | h
    · cases first with
      | true => exact absurd h List.not_mem_nil
      | false =>
        rw [List.mem_singleton.1 h]
        exact trivial
    · rcases List.mem_cons.1 h with rfl | h
      · exact rfl
      · rw [List.mem_singleton.1 h]
        exact trivial
    · exact denotes_of_mem_tokens h
    · exact denotes_of_mem_members h

end

theorem seen_loose_of_denotes {t : Token} (h : t.Denotes) : t.seen Grade.loose = t := by
  cases t with
  | string s =>
    obtain ⟨s, rfl⟩ := Option.isSome_iff_exists.1 h
    rfl
  | number n =>
    obtain ⟨n, rfl⟩ := Option.isSome_iff_exists.1 h
    rfl
  | _ => rfl

/-- A loose reader sees the tokens of a value as they are. -/
theorem shows_loose_self (j : Json) : Shows Grade.loose j.tokens j.tokens := by
  unfold Shows
  rw [List.map_congr_left fun t ht => seen_loose_of_denotes (denotes_of_mem_tokens ht), List.map_id']

theorem anyValue_eq_ok {tokens rest : List Token} {j : Json} :
    anyValue tokens = .ok (j, rest) ↔ tokens = j.tokens ++ rest := by
  unfold anyValue
  rw [value_strict_eq_ok]
  refine ⟨fun h => h.1, ?_⟩
  rintro rfl
  have h := depth_le_length_tokens j
  refine ⟨rfl, ?_⟩
  rw [List.length_append]
  omega

/-- What a token list starts with is one value at most, and a grade sees no other one in it. -/
theorem shows_append_inj {taken taken' rest rest' : List Token} {j j' : Json}
    (h : Shows grade taken j.tokens) (h' : Shows grade taken' j'.tokens)
    (ht : taken ++ rest = taken' ++ rest') : j = j' ∧ taken = taken' ∧ rest = rest' := by
  -- a reader with room for both values takes both from the same tokens, and has one answer
  have hleft : value grade (max j.depth j'.depth) (taken ++ rest) = .ok (j, rest) :=
    value_eq_ok.2 ⟨taken, rfl, h, Nat.le_max_left _ _⟩
  have hright : value grade (max j.depth j'.depth) (taken ++ rest) = .ok (j', rest') :=
    value_eq_ok.2 ⟨taken', ht, h', Nat.le_max_right _ _⟩
  rw [hleft] at hright
  cases hright
  exact ⟨rfl, List.append_cancel_right ht, rfl⟩

theorem tokens_append_inj {rest rest' : List Token} {j j' : Json}
    (h : j.tokens ++ rest = j'.tokens ++ rest') : j = j' ∧ rest = rest' := by
  obtain ⟨hj, -, hr⟩ :=
    shows_append_inj (shows_strict.2 (Eq.refl j.tokens)) (shows_strict.2 (Eq.refl j'.tokens)) h
  exact ⟨hj, hr⟩

/-! ### Whole texts -/

theorem whole_eq_ok {α : Type} {read : Reader α} {text : String} {a : α} :
    whole read text = .ok a ↔ read (lex text.toList) = .ok (a, []) := by
  rw [whole, Outcome.bind_eq_ok]
  constructor
  · rintro ⟨⟨b, rest⟩, hread, h⟩
    simp only at h
    split at h
    · next hrest =>
      cases h
      rw [hread, List.isEmpty_iff.1 hrest]
    · cases h
  · intro h
    exact ⟨(a, []), h, rfl⟩

theorem ofText_eq_ok {text : String} {j : Json} :
    ofText text = .ok j ↔ lex text.toList = j.tokens ∧ j.depth ≤ usualRoom := by
  rw [ofText, whole_eq_ok, value_strict_eq_ok, List.append_nil]

end Rulebook.Json
