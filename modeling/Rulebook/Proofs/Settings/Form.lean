import Rulebook.Proofs.Json.Parts
import Rulebook.Proofs.Json.Values
import Rulebook.Proofs.Outcome
import Rulebook.Settings

/-!
# Records with defaults

A form says what a record has for its members and how each of them is read. It is filled in from a
value, as an object that names some of the members or as an array of the first few, and what is not
given has its default: a value is read as the record of which its parts say what they should
(`Form.ofJson_eq_ok_iff_spells`).
-/

namespace Rulebook.Settings

open Json (Complaint Reader)

/-! ### Members by name -/

section

variable {α : Type} {name : α → String} {all : List α}

theorem memberOfName_eq_ok (hname : Function.Injective name) (hall : ∀ a, a ∈ all) {s : String} {a : α} :
    memberOfName name all s = .ok a ↔ name a = s := by
  unfold memberOfName
  constructor
  · intro h
    split at h
    · next b hb =>
      cases h
      simpa using List.find?_some hb
    · cases h
  · rintro rfl
    split
    · next b hb =>
      have hb : name b = name a := by simpa using List.find?_some hb
      rw [hname hb]
    · next hnone => exact absurd (decide_eq_true rfl) (List.find?_eq_none.1 hnone a (hall a))

theorem newMember_eq_ok (hname : Function.Injective name) (hall : ∀ a, a ∈ all) {has : α → Bool}
    {s : String} {a : α} : newMember name all has s = .ok a ↔ name a = s ∧ has a = false := by
  rw [newMember, Outcome.bind_eq_ok]
  simp only [memberOfName_eq_ok hname hall]
  constructor
  · rintro ⟨b, hb, h⟩
    split at h
    · cases h
    · next hhas =>
      cases h
      exact ⟨hb, by simpa using hhas⟩
  · rintro ⟨ha, hhas⟩
    exact ⟨a, ha, if_neg (by simp [hhas])⟩

theorem fill_eq_ok {β : Type} {put : β → α → Json → Except Complaint β} {extent : Nat} {as : List α}
    {js : List Json} {state state' : β} :
    fill put extent as js state = .ok state' ↔ js.length ≤ as.length ∧
      (as.zip js).foldlM (fun s p => put s p.1 p.2) state = .ok state' := by
  induction js generalizing as state with
  | nil => cases as <;> simp [fill, pure, Except.pure]
  | cons j js ih =>
    cases as with
    | nil => simp [fill]
    | cons a as =>
      rw [fill, List.zip_cons_cons, List.foldlM_cons, Outcome.bind_eq_ok, Outcome.bind_eq_ok]
      simp only [ih, List.length_cons, Nat.add_le_add_iff_right]
      constructor
      · rintro ⟨s, hs, hlength, hfold⟩
        exact ⟨hlength, s, hs, hfold⟩
      · rintro ⟨hlength, s, hs, hfold⟩
        exact ⟨s, hs, hlength, hfold⟩

end

/-! ### Forms -/

/-- What a record has for members, and how they are read: `put` from a value and `take` from tokens,
each into what has been read so far. A part says what the record has for a member (`Says`), and what
has been read agrees with the record, where a member that has not been read counts as its default. -/
structure Form (α σ ρ : Type) where
  name : α → String
  all : List α
  wanted : Json.Wanted
  start : σ
  has : σ → α → Bool
  put : σ → α → Json → Except Complaint σ
  take : σ → α → Reader σ
  finish : σ → ρ
  Says : α → Json → ρ → Prop
  Agrees : σ → α → ρ → Prop
  /-- How deeply a part may be nested. -/
  height : Nat
  name_injective : Function.Injective name
  nodup_all : all.Nodup
  mem_all : ∀ a, a ∈ all
  has_start : ∀ a, has start a = false
  has_put : ∀ {s a j s'}, put s a j = .ok s' → ∀ b, has s' b = false ↔ b ≠ a ∧ has s b = false
  take_eq_ok : ∀ {s a tokens s' rest}, take s a tokens = .ok (s', rest) ↔
    ∃ j : Json, tokens = j.tokens ++ rest ∧ j.NamesOnce ∧ put s a j = .ok s'
  exists_put : ∀ {a j r}, Says a j r → ∀ s, ∃ s', put s a j = .ok s'
  agrees_put : ∀ {s a j s'}, put s a j = .ok s' → ∀ r, Agrees s' a r ↔ Says a j r
  agrees_put_of_ne : ∀ {s a j s' b}, put s a j = .ok s' → b ≠ a → ∀ r, Agrees s' b r ↔ Agrees s b r
  finish_eq_iff : ∀ {s r}, finish s = r ↔ ∀ a, Agrees s a r
  depth_le : ∀ {s a j s'}, put s a j = .ok s' → j.depth ≤ height

namespace Form

variable {α σ ρ : Type} (form : Form α σ ρ)

/-- A record from a value. -/
def ofJson : Json → Except Complaint ρ
  | .object members => do
    let member (s : σ) (m : String × Json) : Except Complaint σ := do
      form.put s (← memberOfName form.name form.all m.1) m.2
    return form.finish (← members.foldlM member form.start)
  | .array items => do
    return form.finish (← fill form.put items.length form.all items form.start)
  | other => .error (.wrongType other.glimpse form.wanted)

variable {form} {j : Json} {r : ρ}

/-! ### What a value gives for which member -/

/-- A value gives these parts for these members, in this order. -/
def Lists (form : Form α σ ρ) (j : Json) (ps : List (α × Json)) : Prop :=
  match j with
  | .object members => members = ps.map fun p => (form.name p.1, p.2)
  | .array items => items.length ≤ form.all.length ∧ ps = form.all.zip items
  | _ => False

/-- Reads one part after another. -/
def gather (form : Form α σ ρ) (ps : List (α × Json)) (s : σ) : Except Complaint σ :=
  ps.foldlM (fun s p => form.put s p.1 p.2) s

theorem gather_cons {a : α} {ps : List (α × Json)} {s s' : σ} :
    form.gather ((a, j) :: ps) s = .ok s' ↔
      ∃ s₁, form.put s a j = .ok s₁ ∧ form.gather ps s₁ = .ok s' :=
  Outcome.bind_eq_ok

theorem foldlM_members_eq_ok {members : List (String × Json)} {s s' : σ} :
    members.foldlM (fun s m => do form.put s (← memberOfName form.name form.all m.1) m.2) s = .ok s' ↔
      ∃ ps : List (α × Json), members = ps.map (fun p => (form.name p.1, p.2)) ∧
        form.gather ps s = .ok s' := by
  induction members generalizing s with
  | nil =>
    constructor
    · exact fun h => ⟨[], rfl, h⟩
    · rintro ⟨ps, hps, h⟩
      rwa [List.map_eq_nil_iff.1 hps.symm] at h
  | cons m members ih =>
    obtain ⟨name, j⟩ := m
    rw [List.foldlM_cons, Outcome.bind_eq_ok]
    simp only [Outcome.bind_eq_ok, memberOfName_eq_ok form.name_injective form.mem_all, ih]
    constructor
    · rintro ⟨s₁, ⟨a, rfl, hput⟩, ps, rfl, h⟩
      exact ⟨(a, j) :: ps, rfl, gather_cons.2 ⟨s₁, hput, h⟩⟩
    · rintro ⟨ps, hps, h⟩
      cases ps with
      | nil => cases hps
      | cons p ps =>
        cases hps
        obtain ⟨s₁, hput, h⟩ := gather_cons.1 h
        exact ⟨s₁, ⟨p.1, rfl, hput⟩, ps, rfl, h⟩

theorem ofJson_eq_ok :
    form.ofJson j = .ok r ↔ ∃ ps, form.Lists j ps ∧
      ∃ s, form.gather ps form.start = .ok s ∧ form.finish s = r := by
  cases j with
  | object members =>
    rw [ofJson, Outcome.bind_pure_eq_ok]
    simp only [foldlM_members_eq_ok]
    constructor
    · rintro ⟨s, ⟨ps, hps, h⟩, hr⟩
      exact ⟨ps, hps, s, h, hr⟩
    · rintro ⟨ps, hps, s, h, hr⟩
      exact ⟨s, ⟨ps, hps, h⟩, hr⟩
  | array items =>
    rw [ofJson, Outcome.bind_pure_eq_ok]
    simp only [fill_eq_ok]
    constructor
    · rintro ⟨s, ⟨hlength, h⟩, hr⟩
      exact ⟨_, ⟨hlength, rfl⟩, s, h, hr⟩
    · rintro ⟨_, ⟨hlength, rfl⟩, s, h, hr⟩
      exact ⟨s, ⟨hlength, h⟩, hr⟩
  | _ =>
    constructor
    · intro h
      cases h
    · rintro ⟨ps, hps, -⟩
      exact hps.elim

theorem depth_le_of_gather {ps : List (α × Json)} {s s' : σ} (h : form.gather ps s = .ok s') :
    ∀ p ∈ ps, p.2.depth ≤ form.height := by
  induction ps generalizing s with
  | nil => exact fun p hp => absurd hp List.not_mem_nil
  | cons p ps ih =>
    obtain ⟨s₁, hput, h⟩ := gather_cons.1 h
    exact List.forall_mem_cons.2 ⟨form.depth_le hput, ih h⟩

/-- A record is not nested more deeply than a container of its parts. -/
theorem depth_le_of_ofJson (h : form.ofJson j = .ok r) : j.depth ≤ form.height + 1 := by
  obtain ⟨ps, hlists, s, hgather, -⟩ := ofJson_eq_ok.1 h
  have hparts := depth_le_of_gather hgather
  cases j with
  | object members =>
    cases hlists
    refine Nat.succ_le_succ (Json.depthOfMembers_le_iff.2 ?_)
    exact List.forall_mem_map.2 hparts
  | array items =>
    obtain ⟨hlength, rfl⟩ := hlists
    refine Nat.succ_le_succ (Json.depthOfItems_le_iff.2 fun j hj => ?_)
    have hitems : j ∈ (form.all.zip items).map Prod.snd := by
      rwa [List.map_snd_zip hlength]
    obtain ⟨p, hp, rfl⟩ := List.mem_map.1 hitems
    exact hparts p hp
  | _ => exact hlists.elim

/-! ### What a value says of a record -/

/-- Each part of a value says what the record has for a member, and the record has its default for a
member that has no part. -/
def Spells [DecidableEq α] (form : Form α σ ρ) (j : Json) (r : ρ) : Prop :=
  j.HasOnly (form.all.map form.name) ∧ ∀ a,
    match j.part? (form.all.idxOf a) (form.name a) with
    | some part => form.Says a part r
    | none => form.Agrees form.start a r

/-- The order in which parts for different members are read does not show in the record. -/
theorem gather_eq_ok {ps : List (α × Json)} (h : (ps.map Prod.fst).Nodup) {s : σ} :
    (∃ s', form.gather ps s = .ok s' ∧ form.finish s' = r) ↔
      ∀ a, (∀ part, (a, part) ∈ ps → form.Says a part r) ∧
        (a ∉ ps.map Prod.fst → form.Agrees s a r) := by
  induction ps generalizing s with
  | nil =>
    constructor
    · rintro ⟨s', h, hr⟩ a
      cases h
      exact ⟨fun _ hmem => absurd hmem List.not_mem_nil, fun _ => form.finish_eq_iff.1 hr a⟩
    · intro h
      exact ⟨s, rfl, form.finish_eq_iff.2 fun a => (h a).2 List.not_mem_nil⟩
  | cons p ps ih =>
    obtain ⟨a, j⟩ := p
    obtain ⟨ha, hps⟩ := List.nodup_cons.1 h
    constructor
    · rintro ⟨s', hgather, hr⟩ b
      obtain ⟨s₁, hput, hgather⟩ := gather_cons.1 hgather
      have hrest := (ih hps).1 ⟨s', hgather, hr⟩
      refine ⟨fun part hmem => ?_, fun hb => ?_⟩
      · rcases List.mem_cons.1 hmem with heq | hmem
        · cases heq
          -- the other parts are for other members, so the record still has what this one says
          exact (form.agrees_put hput r).1 ((hrest a).2 ha)
        · exact (hrest b).1 part hmem
      · obtain ⟨hne, hb⟩ := not_or.1 (List.mem_cons.not.1 hb)
        exact (form.agrees_put_of_ne hput hne r).1 ((hrest b).2 hb)
    · intro hall
      have hsays : form.Says a j r := (hall a).1 j List.mem_cons_self
      obtain ⟨s₁, hput⟩ := form.exists_put hsays s
      obtain ⟨s', hgather, hr⟩ := (ih (s := s₁) hps).2 fun b => by
        refine ⟨fun part hmem => (hall b).1 part (List.mem_cons_of_mem _ hmem), fun hb => ?_⟩
        by_cases hba : b = a
        · subst hba
          exact (form.agrees_put hput r).2 hsays
        · refine (form.agrees_put_of_ne hput hba r).2 ((hall b).2 fun hmem => ?_)
          exact (List.mem_cons.1 hmem).elim hba hb
      exact ⟨s', gather_cons.2 ⟨s₁, hput, hgather⟩, hr⟩

theorem nodup_of_lists {ps : List (α × Json)} (h : form.Lists j ps) (hj : j.DistinctMembers) :
    (ps.map Prod.fst).Nodup := by
  cases j with
  | object members =>
    cases h
    have hnodup := hj _ rfl
    rw [List.map_map] at hnodup
    rw [← List.nodup_map_iff form.name_injective, List.map_map]
    exact hnodup
  | array items =>
    obtain ⟨-, rfl⟩ := h
    rw [List.zip_eq_zip_take_min, List.map_fst_zip (by simp)]
    exact form.nodup_all.sublist (List.take_sublist _ _)
  | _ => exact h.elim

theorem mem_iff_of_lists [DecidableEq α] {ps : List (α × Json)} (h : form.Lists j ps)
    (hj : j.DistinctMembers) {a : α} {part : Json} :
    (a, part) ∈ ps ↔ j.part? (form.all.idxOf a) (form.name a) = some part := by
  cases j with
  | object members =>
    rw [Json.part?, Json.lastValue?_eq_some_iff_mem (hj _ rfl)]
    cases h
    rw [List.mem_map]
    constructor
    · exact fun hmem => ⟨_, hmem, rfl⟩
    · rintro ⟨⟨b, k⟩, hmem, heq⟩
      obtain ⟨hname, rfl⟩ := Prod.mk.inj heq
      rwa [← form.name_injective hname]
  | array items =>
    obtain ⟨-, rfl⟩ := h
    rw [List.mem_iff_getElem?, Json.part?]
    simp only [List.getElem?_zip_eq_some]
    constructor
    · rintro ⟨i, ha, hpart⟩
      obtain ⟨hi, rfl⟩ := List.getElem?_eq_some_iff.1 ha
      rwa [form.nodup_all.idxOf_getElem i hi]
    · exact fun hpart => ⟨_, List.getElem?_idxOf (form.mem_all a), hpart⟩
  | _ => exact h.elim

theorem exists_lists : (∃ ps, form.Lists j ps) ↔ j.HasOnly (form.all.map form.name) := by
  cases j with
  | object members =>
    constructor
    · rintro ⟨ps, rfl⟩
      refine List.forall_mem_map.2 fun p _ => ?_
      exact List.mem_map_of_mem (form.mem_all p.1)
    · intro h
      have hnames : ∀ m ∈ members, m.1 ∈ form.all.map form.name := h
      clear h
      induction members with
      | nil => exact ⟨[], rfl⟩
      | cons m members ih =>
        obtain ⟨hm, hmembers⟩ := List.forall_mem_cons.1 hnames
        obtain ⟨a, -, ha⟩ := List.mem_map.1 hm
        obtain ⟨ps, hps⟩ := ih hmembers
        have hps : members = ps.map fun p => (form.name p.1, p.2) := hps
        refine ⟨(a, m.2) :: ps, ?_⟩
        rw [Lists, List.map_cons, ← hps, ha]
  | array items =>
    rw [Json.HasOnly, List.length_map]
    constructor
    · rintro ⟨ps, hlength, -⟩
      exact hlength
    · exact fun hlength => ⟨_, hlength, rfl⟩
  | _ =>
    constructor
    · rintro ⟨ps, h⟩
      exact h
    · exact False.elim

/-- A value whose members have different names is read as the record that its parts spell. -/
theorem ofJson_eq_ok_iff_spells [DecidableEq α] (hj : j.DistinctMembers) :
    form.ofJson j = .ok r ↔ form.Spells j r := by
  have hparts : ∀ {ps : List (α × Json)}, form.Lists j ps → ∀ a,
      ((∀ part, (a, part) ∈ ps → form.Says a part r) ∧
        (a ∉ ps.map Prod.fst → form.Agrees form.start a r) ↔
      match j.part? (form.all.idxOf a) (form.name a) with
      | some part => form.Says a part r
      | none => form.Agrees form.start a r) := by
    intro ps hlists a
    have hmem : ∀ part, (a, part) ∈ ps ↔
        j.part? (form.all.idxOf a) (form.name a) = some part := fun part =>
      mem_iff_of_lists hlists hj
    have hnames : a ∈ ps.map Prod.fst ↔ ∃ part, (a, part) ∈ ps := by
      simp
    simp only [hnames, hmem]
    cases j.part? (form.all.idxOf a) (form.name a) with
    | none => simp
    | some part => simp
  rw [ofJson_eq_ok, Spells, ← exists_lists]
  constructor
  · rintro ⟨ps, hlists, h⟩
    exact ⟨⟨ps, hlists⟩, fun a =>
      (hparts hlists a).1 ((gather_eq_ok (nodup_of_lists hlists hj)).1 h a)⟩
  · rintro ⟨⟨ps, hlists⟩, h⟩
    exact ⟨ps, hlists, (gather_eq_ok (nodup_of_lists hlists hj)).2 fun a =>
      (hparts hlists a).2 (h a)⟩

/-- Where what parts say does not depend on the order of members, the canonical form of a value spells
the same records. -/
theorem spells_canonical [DecidableEq α]
    (h : ∀ a (part : Json), form.Says a part.canonical r ↔ form.Says a part r) :
    form.Spells j.canonical r ↔ form.Spells j r := by
  rw [Spells, Spells, Json.hasOnly_canonical]
  refine and_congr_right fun _ => forall_congr' fun a => ?_
  rw [Json.part?_canonical]
  cases j.part? (form.all.idxOf a) (form.name a) with
  | none => exact Iff.rfl
  | some part => exact h a part

end Form

end Rulebook.Settings
