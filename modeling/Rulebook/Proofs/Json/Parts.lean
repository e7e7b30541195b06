import Rulebook.Proofs.Json.Canonical

/-!
# Parts of a value

Where parts of a value may be missing, each stands under its name in an object or at its place in an
array (`Json.part?`), and a part that is missing counts as its default (`Json.Gives`). The canonical form
of a value has the canonical forms of its parts (`Json.part?_canonical`).
-/

namespace Rulebook.Json

/-- The part that an object has under a name, the last one if there are several, or an array at a
place. -/
def part? (place : Nat) (name : String) : Json → Option Json
  | object members => lastValue? members name
  | array items => items[place]?
  | _ => none

/-- An object whose members have only these names, or an array of no more elements than there are
names. -/
def HasOnly (names : List String) : Json → Prop
  | object members => ∀ m ∈ members, m.1 ∈ names
  | array items => items.length ≤ names.length
  | _ => False

variable {place : Nat} {name : String} {names : List String}

theorem part?_canonical (j : Json) :
    j.canonical.part? place name = (j.part? place name).map canonical := by
  cases j with
  | object members => rw [canonical, part?, part?, lastValue?_canonicalMembers]
  | array items => rw [canonical, part?, part?, canonicalItems_eq_map, List.getElem?_map]
  | _ => rfl

theorem hasOnly_canonical (j : Json) : j.canonical.HasOnly names ↔ j.HasOnly names := by
  cases j with
  | object members =>
    have hnames : ∀ name, name ∈ (canonicalMembers members).map Prod.fst ↔
        name ∈ members.map Prod.fst := fun name => by
      rw [← lastValue?_isSome_iff, ← lastValue?_isSome_iff, lastValue?_canonicalMembers,
        Option.isSome_map]
    have hall : ∀ ms : List (String × Json),
        (object ms).HasOnly names ↔ ∀ name ∈ ms.map Prod.fst, name ∈ names := fun ms =>
      List.forall_mem_map.symm
    rw [canonical, hall, hall]
    simp only [hnames]
  | array items => rw [canonical, HasOnly, HasOnly, canonicalItems_eq_map, List.length_map]
  | _ => exact Iff.rfl

/-- The members of a value, if it is an object, have different names. -/
def DistinctMembers (j : Json) : Prop :=
  ∀ members, j = object members → (members.map Prod.fst).Nodup

theorem NamesOnce.distinctMembers {j : Json} (h : j.NamesOnce) : j.DistinctMembers := by
  rintro members rfl
  exact h.1

theorem distinctMembers_canonical (j : Json) : j.canonical.DistinctMembers := by
  intro members hj
  cases j with
  | object ms =>
    cases hj
    exact nodup_canonicalMembers ms
  | _ => cases hj

theorem NamesOnce.of_part? {j part : Json} (h : j.NamesOnce) (hpart : j.part? place name = some part) :
    part.NamesOnce := by
  cases j with
  | object members =>
    rw [part?, lastValue?_eq_some_iff_mem h.1] at hpart
    exact membersNamedOnce_iff.1 h.2 _ hpart
  | array items => exact itemsNamedOnce_iff.1 h _ (List.mem_of_getElem? hpart)
  | _ => cases hpart

/-- What a part says of a value, or its default where there is no part. -/
def Gives {τ : Type} (Says : Json → τ → Prop) (part : Option Json) (default value : τ) : Prop :=
  match part with
  | some j => Says j value
  | none => value = default

section

variable {τ : Type} {Says Says' : Json → τ → Prop} {part : Option Json} {default value : τ}

theorem gives_map {f : Json → Json} :
    Gives Says (part.map f) default value ↔ Gives (fun j => Says (f j)) part default value := by
  cases part <;> exact Iff.rfl

theorem gives_congr (h : ∀ j, part = some j → (Says j value ↔ Says' j value)) :
    Gives Says part default value ↔ Gives Says' part default value := by
  cases part with
  | none => exact Iff.rfl
  | some j => exact h j rfl

end

end Rulebook.Json
