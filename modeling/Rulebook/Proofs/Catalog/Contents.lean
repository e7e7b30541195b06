import Rulebook.Proofs.Catalog.Refinement

/-!
# What comes into a catalog

A call does one of four things to a catalog: it adds an entry for the rule of a text, it adds an entry
for the conjunction of entries that are there, it removes an entry, or it leaves the catalog alone
(`Catalog.answer_change`). So a property of entries that holds of the first kind of new entries, and is
handed on to the second by their parts, holds of every entry after any calls (`Catalog.run_all`).
-/

namespace Rulebook.Catalog

/-- The entry that a call makes for a rule. -/
def Call.entry (call : Call) (name : String) (description : Option String) (rule : Rule) : Entry :=
  ⟨call.fresh, name, description, rule, call.now, call.now⟩

/-- The catalog has an entry. -/
def Has (c : Catalog) (e : Entry) : Prop := ∃ id, c.entries.find? id = some e

variable {c c' : Catalog}

/-! ### New entries -/

theorem newEntry_eq_ok {call : Call} {name text : String} {description : Option String} {e : Entry} :
    c.newEntry call.fresh call.now name description text = .ok e ↔
      missingParts name text = [] ∧
        ∃ rule, Rule.parse c.limits text = .ok rule ∧ e = call.entry name description rule := by
  unfold newEntry
  by_cases hmissing : missingParts name text = []
  · simp only [hmissing, List.isEmpty_nil, if_true, true_and, Outcome.bind_eq_ok]
    constructor
    · rintro ⟨rule, hrule, he⟩
      cases he
      exact ⟨rule, hrule, rfl⟩
    · rintro ⟨rule, hrule, rfl⟩
      exact ⟨rule, hrule, rfl⟩
  · simp only [hmissing, List.isEmpty_iff, if_false, false_and, iff_false]
    intro he
    cases he

theorem forall₂_find?_iff {ids : List Identifier} {parts : List Entry} :
    List.Forall₂ (fun id part => c.entries.find? id = some part) ids parts ↔
      (∀ id ∈ ids, (c.entries.find? id).isSome) ∧ ids.filterMap c.entries.find? = parts := by
  constructor
  · intro h
    induction h with
    | nil => exact ⟨List.forall_mem_nil _, rfl⟩
    | cons he _ ih =>
      rw [List.filterMap_cons_some he, ih.2]
      exact ⟨List.forall_mem_cons.2 ⟨by rw [he]; rfl, ih.1⟩, rfl⟩
  · rintro ⟨hall, rfl⟩
    induction ids with
    | nil => exact .nil
    | cons id ids ih =>
      obtain ⟨hid, hids⟩ := List.forall_mem_cons.1 hall
      obtain ⟨e, he⟩ := Option.isSome_iff_exists.1 hid
      rw [List.filterMap_cons_some he]
      exact .cons he (ih hids)

theorem entriesOf_eq_ok {ids : List Identifier} {parts : List Entry} :
    c.entriesOf ids = .ok parts ↔
      List.Forall₂ (fun id part => c.entries.find? id = some part) ids parts := by
  have hmissing : (ids.filter fun id => (c.entries.find? id).isNone).isEmpty ↔
      ∀ id ∈ ids, (c.entries.find? id).isSome := by
    simp [List.isEmpty_iff, Option.isSome_iff_ne_none]
  rw [forall₂_find?_iff, ← hmissing]
  unfold entriesOf
  simp only
  split
  · next h =>
    constructor
    · intro hparts
      cases hparts
      exact ⟨h, rfl⟩
    · rintro ⟨-, rfl⟩
      rfl
  · next h =>
    constructor
    · intro hparts
      cases hparts
    · exact fun hparts => absurd hparts.1 h

/-- What a new entry for a conjunction is made from. -/
structure Combines (c : Catalog) (call : Call) (texts : List String) (parts : List Entry) (e : Entry) :
    Prop where
  sources : List.Forall₂ (fun text part => c.get text = .ok part) texts parts
  rule_eq : Rule.conjunctionWithin c.limits.terms (parts.map Entry.rule) = .ok e.rule
  entry_eq : e = call.entry e.name e.description e.rule

theorem has_of_get {text : String} {e : Entry} (h : c.get text = .ok e) : c.Has e := by
  obtain ⟨id, -, h⟩ := Outcome.bind_eq_ok.1 h
  unfold Catalog.entry at h
  split at h
  · next hfind =>
    cases h
    exact ⟨id, hfind⟩
  · cases h

/-- Each text spells an identifier, and under each identifier there is a part. -/
theorem sources_of_forall₂ {texts : List String} {ids : List Identifier} {parts : List Entry}
    (hids : List.Forall₂ (fun text id => identifier text = .ok id) texts ids)
    (hparts : List.Forall₂ (fun id part => c.entries.find? id = some part) ids parts) :
    List.Forall₂ (fun text part => c.get text = .ok part) texts parts := by
  induction hids generalizing parts with
  | nil =>
    cases hparts
    exact .nil
  | cons hid _ ih =>
    cases hparts with
    | cons hfind hrest =>
      refine .cons ?_ (ih hrest)
      exact Outcome.bind_eq_ok.2 ⟨_, hid, by rw [Catalog.entry, hfind]⟩

theorem combines_of_combinedEntry {call : Call} {texts : List String} {e : Entry}
    (h : c.combinedEntry call.fresh call.now texts = .ok e) : ∃ parts, Combines c call texts parts e := by
  obtain ⟨ids, hids, h⟩ := Outcome.bind_eq_ok.1 h
  obtain ⟨parts, hparts, h⟩ := Outcome.bind_eq_ok.1 h
  obtain ⟨rule, hrule, h⟩ := Outcome.bind_eq_ok.1 h
  cases h
  exact ⟨parts, sources_of_forall₂ (Outcome.mapM_eq_ok.1 hids) (entriesOf_eq_ok.1 hparts), hrule, rfl⟩

theorem has_of_sources {texts : List String} {parts : List Entry}
    (h : List.Forall₂ (fun text part => c.get text = .ok part) texts parts) :
    ∀ part ∈ parts, c.Has part := by
  induction h with
  | nil => exact List.forall_mem_nil _
  | cons hget _ ih => exact List.forall_mem_cons.2 ⟨has_of_get hget, ih⟩

/-! ### One call -/

/-- What a call does to a catalog. -/
inductive Change (c : Catalog) (call : Call) : Catalog → Prop
  | create {name text : String} {description : Option String} {rule : Rule}
    (h : Rule.parse c.limits text = .ok rule) :
    Change c call (c.add (call.entry name description rule))
  | combine {texts : List String} {parts : List Entry} {e : Entry}
    (h : Combines c call texts parts e) : Change c call (c.add e)
  | erase (id : Identifier) : Change c call (c.erase id)
  | keep : Change c call c

theorem answer_change (c : Catalog) (call : Call) :
    Change c call (c.answer call.fresh call.now call.request).2 := by
  cases call.request with
  | create name description text =>
    simp only [answer]
    cases h : c.newEntry call.fresh call.now name description text with
    | error f => exact .keep
    | ok e =>
      obtain ⟨-, rule, hrule, rfl⟩ := newEntry_eq_ok.1 h
      exact .create hrule
  | combine texts =>
    simp only [answer]
    cases h : c.combinedEntry call.fresh call.now texts with
    | error f => exact .keep
    | ok e =>
      obtain ⟨parts, hparts⟩ := combines_of_combinedEntry h
      exact .combine hparts
  | get text =>
    simp only [answer]
    cases c.get text <;> exact .keep
  | delete text =>
    obtain ⟨f, hfault⟩ | ⟨id, e, herase⟩ := c.answer_delete call.fresh call.now text
    · rw [hfault]
      exact .keep
    · rw [herase]
      exact .erase id
  | judge text facts =>
    simp only [answer]
    cases c.judge text facts <;> exact .keep
  | list => exact .keep

theorem has_add {e e' : Entry} (h : (c.add e).Has e') : e' = e ∨ c.Has e' := by
  obtain ⟨id, hid⟩ := h
  rw [Catalog.add, Table.find?_insert] at hid
  split_ifs at hid
  · cases hid
    exact Or.inl rfl
  · exact Or.inr ⟨id, hid⟩

theorem has_erase {id : Identifier} {e : Entry} (h : (c.erase id).Has e) : c.Has e := by
  obtain ⟨l, hl⟩ := h
  rw [Catalog.erase, Table.find?_erase] at hl
  split_ifs at hl
  exact ⟨l, hl⟩

/-! ### Any calls -/

theorem limits_run (limits : Limits) (calls : List Call) : (run { limits } calls).1.limits = limits := by
  induction calls using List.reverseRecOn with
  | nil => rfl
  | append_singleton calls call ih =>
    rw [run_concat]
    exact (limits_answer _ _ _ _).trans ih

/-- Every entry has a property that entries for texts have and entries for conjunctions get from their
parts. -/
theorem run_all {P : Entry → Prop} {limits : Limits} {calls : List Call}
    (hcreate : ∀ call ∈ calls, ∀ name description text rule, Rule.parse limits text = .ok rule →
      P (call.entry name description rule))
    (hcombine : ∀ call ∈ calls, ∀ name description rule (parts : List Entry),
      (∀ part ∈ parts, P part) → Rule.conjunctionWithin limits.terms (parts.map Entry.rule) = .ok rule →
      P (call.entry name description rule)) :
    ∀ e, (run { limits } calls).1.Has e → P e := by
  induction calls using List.reverseRecOn with
  | nil =>
    rintro e ⟨id, hid⟩
    cases hid
  | append_singleton calls call ih =>
    have hlimits := limits_run limits calls
    have hcall : call ∈ calls ++ [call] := by simp
    have hbefore := ih (fun d hd => hcreate d (List.mem_append_left _ hd))
      fun d hd => hcombine d (List.mem_append_left _ hd)
    intro e he
    rw [run_concat] at he
    have hchange := answer_change (run { limits } calls).1 call
    change Catalog.Has ((run { limits } calls).1.answer call.fresh call.now call.request).2 e at he
    generalize ((run { limits } calls).1.answer call.fresh call.now call.request).2 = after at he hchange
    cases hchange with
    | create hrule =>
      rw [hlimits] at hrule
      rcases has_add he with rfl | he
      · exact hcreate call hcall _ _ _ _ hrule
      · exact hbefore e he
    | combine hparts =>
      rcases has_add he with rfl | he
      · have hrule := hparts.rule_eq
        rw [hlimits] at hrule
        rw [hparts.entry_eq]
        exact hcombine call hcall _ _ _ _
          (fun part hp => hbefore part (has_of_sources hparts.sources part hp)) hrule
      · exact hbefore e he
    | erase id => exact hbefore e (has_erase he)
    | keep => exact hbefore e he

end Rulebook.Catalog
