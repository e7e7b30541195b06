import Mathlib.Data.List.Induction
import Rulebook.Proofs.Catalog.Holding

/-!
# Catalogs refine rosters

Over any run in which no identifier is given twice, a catalog holds exactly the entries that its
history says were made and not removed, and gives the answers that a roster gives
(`Catalog.run_refines_roster`). An identifier that was removed stays unknown, since no later entry
gets it.
-/

namespace Rulebook

open Catalog (AllNew Call Event Reply Request live made removed)

/-! ### Rosters and histories -/

namespace Roster

/-- What an event does to a roster. -/
inductive Effect (entries : List Entry) (event : Event) : List Entry → Prop where
  | makes {e : Entry} (h : event.made? = some e) : Effect entries event (e :: entries)
  | removes {e : Entry} (hmem : e ∈ entries) (h : event.removed? = some e.id) :
    Effect entries event (entries.filter fun e' => e'.id ≠ e.id)
  | keeps (hm : event.made? = none) (hr : event.removed? = none) : Effect entries event entries

theorem effect_answer (limits : Limits) (entries : List Entry) (fresh : Identifier) (now : Instant)
    (request : Request) :
    Effect entries ⟨request, (answer limits entries fresh now request).1⟩
      (answer limits entries fresh now request).2 := by
  cases request with
  | create name description text =>
    simp only [answer]
    cases newEntry limits fresh now name description text with
    | error f => exact .keeps rfl rfl
    | ok e => exact .makes rfl
  | combine texts =>
    simp only [answer]
    cases combinedEntry limits entries fresh now texts with
    | error f => exact .keeps rfl rfl
    | ok e => exact .makes rfl
  | get text =>
    simp only [answer]
    cases get entries text with
    | error f => exact .keeps rfl rfl
    | ok e => exact .keeps rfl rfl
  | delete text =>
    simp only [answer]
    cases Catalog.identifier text with
    | error f => exact .keeps rfl rfl
    | ok id =>
      simp only
      cases hentry : entry entries id with
      | error f => exact .keeps rfl rfl
      | ok e =>
        obtain ⟨hmem, rfl⟩ := mem_of_entry_eq_ok hentry
        exact .removes hmem rfl
  | judge text facts =>
    simp only [answer]
    cases judge entries text facts with
    | error f => exact .keeps rfl rfl
    | ok verdict => exact .keeps rfl rfl
  | list => exact .keeps rfl rfl

/-- The live entries of a history change as a roster does. -/
theorem Effect.eq_live {history : List Event} {event : Event} {entries : List Entry}
    (h : Effect (live history) event entries) (hnew : AllNew (event :: history))
    (hremoved : removed history ⊆ (made history).map Entry.id) :
    entries = live (event :: history) := by
  cases h with
  | makes hmade =>
    have hid := hnew.not_mem_map_made hmade
    exact (Catalog.live_of_made hmade fun h => hid (hremoved h)).symm
  | removes _ hr => exact (Catalog.live_of_removed hr history).symm
  | keeps hm hr => exact (Catalog.live_of_quiet hm hr history).symm

theorem Effect.removed_made {history : List Event} {event : Event} {entries : List Entry}
    (h : Effect (live history) event entries)
    (hremoved : removed history ⊆ (made history).map Entry.id) :
    removed (event :: history) ⊆ (made (event :: history)).map Entry.id := by
  rw [Catalog.made_cons, Catalog.removed_cons, List.map_append]
  apply List.append_subset.2
  refine ⟨?_, List.subset_append_of_subset_right _ hremoved⟩
  apply List.subset_append_of_subset_right
  intro id hid
  have hid := Option.mem_toList.1 hid
  cases h with
  | makes hm =>
    rw [Event.removed?_of_made? hm] at hid
    cases hid
  | removes hmem hr =>
    rw [hr] at hid
    cases hid
    exact List.mem_map_of_mem (Catalog.mem_made_of_mem_live hmem)
  | keeps _ hr =>
    rw [hr] at hid
    cases hid

end Roster

/-! ### Runs -/

namespace Catalog

/-- A catalog that is asked to delete an entry stays as it was or erases an identifier. -/
theorem answer_delete (c : Catalog) (fresh : Identifier) (now : Instant) (text : String) :
    (∃ f, c.answer fresh now (.delete text) = (.fault f, c)) ∨
      ∃ id e, c.answer fresh now (.delete text) = (.entry e, c.erase id) := by
  simp only [answer]
  cases identifier text with
  | error f => exact Or.inl ⟨f, rfl⟩
  | ok id =>
    simp only
    cases c.entry id with
    | error f => exact Or.inl ⟨f, rfl⟩
    | ok e => exact Or.inr ⟨id, e, rfl⟩

theorem limits_answer (c : Catalog) (fresh : Identifier) (now : Instant) (request : Request) :
    (c.answer fresh now request).2.limits = c.limits := by
  have hreply : ∀ (outcome : Except Fault Entry) (change : Entry → Catalog),
      (∀ e, (change e).limits = c.limits) → (c.reply outcome change).2.limits = c.limits := by
    intro outcome change hchange
    cases outcome with
    | error f => rfl
    | ok e => exact hchange e
  cases request with
  | judge text facts =>
    simp only [answer]
    cases c.judge text facts <;> rfl
  | delete text =>
    obtain ⟨f, hfault⟩ | ⟨id, e, herase⟩ := c.answer_delete fresh now text
    · rw [hfault]
    · rw [herase]
      rfl
  | list => rfl
  | _ => exact hreply _ _ fun _ => rfl

/-- A catalog and a roster have answered the same calls. -/
structure Follows (limits : Limits) (state : Catalog × List Event)
    (state' : List Entry × List Event) : Prop where
  limits_eq : state.1.limits = limits
  entries_eq : state'.1 = live state.2
  history_eq : state'.2 = state.2
  holds : Holds state.1 (live state.2)
  removed_made : removed state.2 ⊆ (made state.2).map Entry.id

theorem Follows.next {limits : Limits} {state : Catalog × List Event}
    {state' : List Entry × List Event} (h : Follows limits state state') {call : Call}
    (hnew : AllNew (next state call).2) :
    Follows limits (next state call) (Roster.next limits state' call) := by
  obtain ⟨c, history⟩ := state
  obtain ⟨entries, history'⟩ := state'
  obtain ⟨hlimits, hentries, hhistory, hholds, hremoved⟩ := h
  simp only at hlimits hentries hhistory hholds hremoved
  subst hlimits hentries hhistory
  -- whatever is live was made before, so a new identifier is none of the live ones
  have hid : ∀ e, Event.made? ⟨call.request, (c.answer call.fresh call.now call.request).1⟩ = some e →
      e.id ∉ (live history').map Entry.id := by
    intro e he hmem
    exact hnew.not_mem_map_made he (List.map_subset _ (fun _ => mem_made_of_mem_live) hmem)
  obtain ⟨hreply, hholds'⟩ := hholds.agrees_answer hid
  have heffect := Roster.effect_answer c.limits (live history') call.fresh call.now call.request
  rw [← hreply] at heffect
  have hlive := heffect.eq_live hnew hremoved
  exact {
    limits_eq := limits_answer c call.fresh call.now call.request
    entries_eq := hlive
    history_eq := by
      simp only [Roster.next, Catalog.next, hreply]
    holds := by
      rw [hlive] at hholds'
      exact hholds'
    removed_made := heffect.removed_made hremoved }

theorem run_follows (limits : Limits) (calls : List Call)
    (hnew : AllNew (run { limits } calls).2) :
    Follows limits (run { limits } calls) (Roster.run limits calls) := by
  -- the last call is the newest event, so calls are taken off the end
  induction calls using List.reverseRecOn with
  | nil => exact ⟨rfl, rfl, rfl, Holds.empty limits, List.nil_subset _⟩
  | append_singleton calls call ih =>
    rw [run_concat] at hnew ⊢
    rw [Roster.run_concat]
    exact (ih hnew.tail).next hnew

/-! ### What a history says of a catalog -/

/-- A catalog shows exactly the live entries of a history, newest first. -/
structure Mirrors (c : Catalog) (history : List Event) : Prop where
  order_eq : c.order = (live history).map Entry.id
  order_nodup : c.order.Nodup
  mem_order_iff : ∀ id, id ∈ c.order ↔ id ∈ c.entries.keys
  listed_eq : c.summaries.map Entry.Summary.id = (live history).map Entry.id
  summaries_eq : c.summaries = (live history).map fun e =>
    ⟨e.id, e.name, e.description, e.createdAt, e.updatedAt⟩
  size_eq : c.size = (live history).length
  isEmpty_iff : c.isEmpty ↔ c.size = 0
  get_live : ∀ e ∈ live history, ∀ text, Identifier.read? text = some e.id → c.get text = .ok e

/-- A catalog refuses every request that names an identifier, for it has no entry of it. -/
structure Forgets (c : Catalog) (id : Identifier) : Prop where
  get : ∀ fresh now text, Identifier.read? text = some id →
    c.answer fresh now (.get text) = (.fault (.noEntries [id]), c)
  delete : ∀ fresh now text, Identifier.read? text = some id →
    c.answer fresh now (.delete text) = (.fault (.noEntries [id]), c)
  judge : ∀ fresh now text facts, Identifier.read? text = some id →
    c.answer fresh now (.judge text facts) = (.fault (.noEntries [id]), c)
  combine : ∀ fresh now texts ids, texts.mapM identifier = .ok ids → id ∈ ids →
    ∃ missing, id ∈ missing ∧
      c.answer fresh now (.combine texts) = (.fault (.noEntries missing), c)

theorem isEmpty_iff (c : Catalog) : c.isEmpty ↔ c.size = 0 := by
  unfold isEmpty size Table.size
  rw [List.isEmpty_iff, List.length_eq_zero_iff]

theorem get_of_read? (c : Catalog) {text : String} {id : Identifier}
    (h : Identifier.read? text = some id) : c.get text = c.entry id := by
  simp only [Catalog.get, identifier, h]
  rfl

theorem Holds.mirrors {c : Catalog} {history : List Event} (h : Holds c (live history)) :
    Mirrors c history where
  order_eq := h.order_eq
  order_nodup := h.order_nodup
  mem_order_iff _ := h.mem_order_iff
  listed_eq := by
    rw [h.summaries_eq, List.map_map]
    rfl
  summaries_eq := h.summaries_eq
  size_eq := h.size_eq
  isEmpty_iff := c.isEmpty_iff
  get_live e he text htext := by
    rw [c.get_of_read? htext, entry, h.find?_eq, Roster.find?_eq_some_of_mem h.nodup he]

/-- Unknown identifiers are reported together, before anything is joined. -/
theorem combinedEntry_of_mem {c : Catalog} {id : Identifier} (h : c.entries.find? id = none)
    {texts : List String} {ids : List Identifier} (htexts : texts.mapM identifier = .ok ids)
    (hid : id ∈ ids) (fresh : Identifier) (now : Instant) :
    ∃ missing, id ∈ missing ∧ c.combinedEntry fresh now texts = .error (.noEntries missing) := by
  have hmissing : id ∈ ids.filter fun id => (c.entries.find? id).isNone := by
    rw [List.mem_filter, h]
    exact ⟨hid, rfl⟩
  have hnonempty : (ids.filter fun id => (c.entries.find? id).isNone).isEmpty = false := by
    rw [List.isEmpty_eq_false_iff]
    exact List.ne_nil_of_mem hmissing
  have hparts : c.entriesOf ids =
      .error (.noEntries (ids.filter fun id => (c.entries.find? id).isNone)) := by
    unfold entriesOf
    simp only [hnonempty, Bool.false_eq_true, if_false]
  refine ⟨_, hmissing, ?_⟩
  unfold combinedEntry
  rw [htexts]
  change (c.entriesOf ids >>= _) = _
  rw [hparts]
  rfl

/-- An identifier without an entry is refused, whatever is asked about it. -/
theorem forgets_of_find?_eq_none {c : Catalog} {id : Identifier} (h : c.entries.find? id = none) :
    Forgets c id := by
  have hget : ∀ text, Identifier.read? text = some id → c.get text = .error (.noEntries [id]) := by
    intro text htext
    rw [c.get_of_read? htext, entry, h]
  exact {
    get := by
      intro fresh now text htext
      simp only [answer, hget text htext]
      rfl
    delete := by
      intro fresh now text htext
      simp only [answer, identifier, htext, entry, h]
      rfl
    judge := by
      intro fresh now text facts htext
      simp only [answer, Catalog.judge, hget text htext]
      rfl
    combine := by
      intro fresh now texts ids htexts hid
      obtain ⟨missing, hmem, hmissing⟩ := combinedEntry_of_mem h htexts hid fresh now
      refine ⟨missing, hmem, ?_⟩
      simp only [answer, hmissing]
      rfl }

/-- Requests that fail and requests that only read leave a catalog as it was. -/
theorem answer_unchanged (c : Catalog) (fresh : Identifier) (now : Instant) (request : Request)
    (h : (∃ f, (c.answer fresh now request).1 = .fault f) ∨ request.isReading) :
    (c.answer fresh now request).2 = c := by
  have hreply : ∀ (outcome : Except Fault Entry) (change : Entry → Catalog),
      (∃ f, (c.reply outcome change).1 = .fault f) → (c.reply outcome change).2 = c := by
    rintro outcome change ⟨f, hf⟩
    cases outcome with
    | error g => rfl
    | ok e => cases hf
  cases request with
  | create name description text => exact hreply _ _ (h.resolve_right Bool.false_ne_true)
  | combine texts => exact hreply _ _ (h.resolve_right Bool.false_ne_true)
  | get text =>
    simp only [answer]
    cases c.get text <;> rfl
  | delete text =>
    obtain ⟨f, hfault⟩ | ⟨id, e, herase⟩ := c.answer_delete fresh now text
    · rw [hfault]
    · obtain ⟨f, hf⟩ := h.resolve_right Bool.false_ne_true
      rw [herase] at hf
      cases hf
  | judge text facts =>
    simp only [answer]
    cases c.judge text facts <;> rfl
  | list => rfl

/-- A catalog that starts empty refines a roster: over all calls that make no two entries under one
identifier, it gives the answers of a roster and shows the entries that were made and not removed,
newest first. What was removed is unknown from then on, and what fails or only reads changes
nothing. -/
theorem run_refines_roster (limits : Limits) (calls : List Call)
    (hnew : AllNew (run { limits } calls).2) :
    Roster.run limits calls = (live (run { limits } calls).2, (run { limits } calls).2) ∧
      (run { limits } calls).1.Mirrors (run { limits } calls).2 ∧
      (∀ id ∈ removed (run { limits } calls).2, (run { limits } calls).1.Forgets id) ∧
      ∀ fresh now request,
        (∃ f, ((run { limits } calls).1.answer fresh now request).1 = .fault f) ∨
          request.isReading →
        ((run { limits } calls).1.answer fresh now request).2 = (run { limits } calls).1 := by
  have hrun := run_follows limits calls hnew
  refine ⟨Prod.ext hrun.entries_eq hrun.history_eq, hrun.holds.mirrors, ?_, answer_unchanged _⟩
  intro id hid
  apply forgets_of_find?_eq_none
  rw [hrun.holds.find?_eq, ← Option.not_isSome_iff_eq_none, Roster.find?_isSome_iff]
  intro hmem
  obtain ⟨e, he, rfl⟩ := List.mem_map.1 hmem
  exact of_decide_eq_true (List.mem_filter.1 he).2 hid

/-- An entry is made, joined with itself and removed. -/
theorem run_refines_roster_three :
    ∃ calls : List Call, ((made (run {} calls).2).map Entry.id = [⟨2⟩, ⟨1⟩] ∧
      removed (run {} calls).2 = [⟨1⟩]) ∧ (run {} calls).1.Mirrors (run {} calls).2 := by
  let id : Identifier := ⟨1⟩
  let calls : List Call := [
    ⟨id, ⟨⟨2024, 1, 1⟩, 0, 0⟩, .create "named" none "name = 'x'"⟩,
    ⟨⟨2⟩, ⟨⟨2024, 1, 1⟩, 1, 0⟩, .combine [id.text, id.text]⟩,
    ⟨⟨3⟩, ⟨⟨2024, 1, 1⟩, 2, 0⟩, .delete id.text⟩]
  have hids : (made (run {} calls).2).map Entry.id = [⟨2⟩, ⟨1⟩] ∧
      removed (run {} calls).2 = [⟨1⟩] := by decide +kernel
  have hnew : AllNew (run {} calls).2 := by
    unfold AllNew
    rw [hids.1]
    decide
  exact ⟨calls, hids, (run_refines_roster {} calls hnew).2.1⟩

end Catalog

end Rulebook
