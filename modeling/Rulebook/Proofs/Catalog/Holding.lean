import Rulebook.Proofs.Catalog.Roster
import Rulebook.Proofs.Table

/-!
# What a catalog holds

A catalog holds a roster if its order lists the identifiers of the roster and its table has the
entries of the roster under them. Adding and erasing keep this up with what a roster does, so a
catalog gives the answers of the roster that it holds and then holds the roster that comes of them
(`Holds.agrees_answer`).
-/

namespace Rulebook

namespace Catalog

variable {c : Catalog} {entries : List Entry}

/-- The catalog has exactly the entries of a roster, in their order. -/
structure Holds (c : Catalog) (entries : List Entry) : Prop where
  order_eq : c.order = entries.map Entry.id
  find?_eq : ∀ id, c.entries.find? id = Roster.find? entries id
  nodup : (entries.map Entry.id).Nodup

namespace Holds

theorem empty (limits : Limits) : Holds { limits } [] where
  order_eq := rfl
  find?_eq _ := rfl
  nodup := List.nodup_nil

theorem add (h : Holds c entries) {e : Entry} (hnew : e.id ∉ entries.map Entry.id) :
    Holds (c.add e) (e :: entries) where
  order_eq := by
    unfold Catalog.add
    rw [h.order_eq, List.map_cons]
  find?_eq id := by
    unfold Catalog.add
    rw [Table.find?_insert, Roster.find?_cons, h.find?_eq]
  nodup := List.nodup_cons.2 ⟨hnew, h.nodup⟩

theorem erase (h : Holds c entries) (id : Identifier) :
    Holds (c.erase id) (entries.filter fun e => e.id ≠ id) where
  order_eq := by
    unfold Catalog.erase
    rw [h.order_eq, List.filter_map]
    rfl
  find?_eq l := by
    unfold Catalog.erase
    rw [Table.find?_erase, Roster.find?_filter_ne, h.find?_eq]
  nodup := h.nodup.sublist (List.filter_sublist.map Entry.id)

/-! ### The two structures of a catalog -/

theorem order_nodup (h : Holds c entries) : c.order.Nodup := by
  rw [h.order_eq]
  exact h.nodup

theorem mem_order_iff (h : Holds c entries) {id : Identifier} :
    id ∈ c.order ↔ id ∈ c.entries.keys := by
  rw [h.order_eq, Table.mem_keys_iff, h.find?_eq, Roster.find?_isSome_iff]

theorem size_eq (h : Holds c entries) : c.size = entries.length := by
  have hperm : c.order.Perm c.entries.keys :=
    (List.perm_ext_iff_of_nodup h.order_nodup c.entries.nodup_keys).2 fun _ => h.mem_order_iff
  have hlength := hperm.length_eq
  rw [h.order_eq, List.length_map] at hlength
  rw [hlength]
  exact (List.length_map _).symm

theorem summaries_eq (h : Holds c entries) : c.summaries = entries.map Entry.summary := by
  have hentries : c.order.filterMap c.entries.find? = entries := by
    have hfind : ∀ e ∈ entries, c.entries.find? e.id = some e := by
      intro e he
      rw [h.find?_eq, Roster.find?_eq_some_of_mem h.nodup he]
    rw [h.order_eq, List.filterMap_map]
    exact Roster.filterMap_eq_self hfind
  rw [summaries, hentries]

/-! ### Answers -/

theorem entry_eq (h : Holds c entries) (id : Identifier) : c.entry id = Roster.entry entries id := by
  cases hfind : Roster.find? entries id <;>
    simp only [Catalog.entry, Roster.entry, h.find?_eq, hfind]

theorem get_eq (h : Holds c entries) (text : String) : c.get text = Roster.get entries text := by
  unfold Catalog.get Roster.get
  cases identifier text with
  | error f => rfl
  | ok id => exact h.entry_eq id

theorem entriesOf_eq (h : Holds c entries) (ids : List Identifier) :
    c.entriesOf ids = Roster.partsOf entries ids := by
  have hmissing : (ids.filter fun id => (c.entries.find? id).isNone) =
      ids.filter fun id => id ∉ entries.map Entry.id := by
    apply List.filter_congr
    intro id _
    rw [h.find?_eq, ← Option.not_isSome, Bool.eq_iff_iff, Bool.not_eq_true', decide_eq_true_iff,
      ← Roster.find?_isSome_iff, Bool.not_eq_true]
  have hfind : c.entries.find? = Roster.find? entries := funext h.find?_eq
  unfold entriesOf Roster.partsOf
  rw [hmissing, hfind]

theorem combinedEntry_eq (h : Holds c entries) (fresh : Identifier) (now : Instant)
    (texts : List String) :
    c.combinedEntry fresh now texts = Roster.combinedEntry c.limits entries fresh now texts := by
  unfold combinedEntry Roster.combinedEntry
  simp only [h.entriesOf_eq]

theorem judge_eq (h : Holds c entries) (text : String) (facts : Facts) :
    c.judge text facts = Roster.judge entries text facts := by
  unfold judge Roster.judge
  rw [h.get_eq]

end Holds

/-- A catalog and a roster give one reply, after which the catalog holds the roster. -/
structure Agrees (a : Reply × Catalog) (b : Reply × List Entry) : Prop where
  reply_eq : a.1 = b.1
  holds : Holds a.2 b.2

/-- Answers that rest on one outcome agree if the changes that it causes do. -/
theorem Holds.agrees_reply (h : Holds c entries) {outcome : Except Fault Entry}
    {change : Entry → Catalog} {change' : Entry → List Entry}
    (hchange : ∀ e, outcome = .ok e → Holds (change e) (change' e)) :
    Agrees (c.reply outcome change) (Roster.reply entries outcome change') := by
  cases outcome with
  | error f => exact ⟨rfl, h⟩
  | ok e => exact ⟨rfl, hchange e rfl⟩

/-- A catalog answers as the roster that it holds, unless it makes an entry under an identifier that
it has already. -/
theorem Holds.agrees_answer (h : Holds c entries) {fresh : Identifier} {now : Instant}
    {request : Request} (hnew : ∀ e, Event.made? ⟨request, (c.answer fresh now request).1⟩ = some e →
      e.id ∉ entries.map Entry.id) :
    Agrees (c.answer fresh now request) (Roster.answer c.limits entries fresh now request) := by
  cases request with
  | create name description text =>
    apply h.agrees_reply
    intro e he
    have hmade : Event.made? ⟨.create name description text,
        (c.answer fresh now (.create name description text)).1⟩ = some e := by
      simp only [answer, reply, he, Event.made?]
    exact h.add (hnew e hmade)
  | combine texts =>
    have hmade : ∀ e, c.combinedEntry fresh now texts = .ok e →
        Event.made? ⟨.combine texts, (c.answer fresh now (.combine texts)).1⟩ = some e := by
      intro e he
      simp only [answer, reply, he, Event.made?]
    simp only [answer, Roster.answer, ← h.combinedEntry_eq]
    exact h.agrees_reply fun e he => h.add (hnew e (hmade e he))
  | get text =>
    simp only [answer, Roster.answer, ← h.get_eq]
    exact h.agrees_reply fun _ _ => h
  | delete text =>
    simp only [answer, Roster.answer]
    cases identifier text with
    | error f => exact ⟨rfl, h⟩
    | ok id =>
      simp only [← h.entry_eq]
      exact h.agrees_reply fun _ _ => h.erase id
  | judge text facts =>
    simp only [answer, Roster.answer, ← h.judge_eq]
    cases c.judge text facts with
    | error f => exact ⟨rfl, h⟩
    | ok verdict => exact ⟨rfl, h⟩
  | list => exact ⟨congrArg Reply.summaries h.summaries_eq, h⟩

end Catalog

end Rulebook
