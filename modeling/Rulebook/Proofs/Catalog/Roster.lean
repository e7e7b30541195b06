import Rulebook.Proofs.Catalog.History
import Rulebook.Proofs.Outcome

/-!
# Rosters

A roster is a plain list of entries, newest first. It answers the same requests as a catalog by going
over the list: it looks for the first entry of an identifier, puts new entries in front and filters
out removed ones.
-/

namespace Rulebook.Roster

open Catalog (Call Event Request Reply)

/-- The first entry of an identifier. -/
def find? (entries : List Entry) (id : Identifier) : Option Entry :=
  entries.find? fun e => e.id = id

def entry (entries : List Entry) (id : Identifier) : Except Fault Entry :=
  match find? entries id with
  | some e => .ok e
  | none => .error (.noEntries [id])

def get (entries : List Entry) (text : String) : Except Fault Entry := do
  entry entries (← Catalog.identifier text)

/-- The entries of some identifiers, all of which are to be known. -/
def partsOf (entries : List Entry) (ids : List Identifier) : Except Fault (List Entry) :=
  let missing := ids.filter fun id => id ∉ entries.map Entry.id
  if missing.isEmpty then .ok (ids.filterMap (find? entries)) else .error (.noEntries missing)

def combinedEntry (limits : Limits) (entries : List Entry) (fresh : Identifier) (now : Instant)
    (texts : List String) : Except Fault Entry := do
  let ids ← texts.mapM Catalog.identifier
  let parts ← partsOf entries ids
  let rule ← Rule.conjunctionWithin limits.terms (parts.map Entry.rule)
  return ⟨fresh, Catalog.combinedName parts, some (Catalog.combinedDescription ids), rule, now, now⟩

def judge (entries : List Entry) (text : String) (facts : Facts) :
    Except Fault (Bool × Identifier) := do
  let e ← get entries text
  return (← e.rule.judge facts, e.id)

/-- What a new entry for a rule text is does not depend on the entries that are there. -/
def newEntry (limits : Limits) (fresh : Identifier) (now : Instant) (name : String)
    (description : Option String) (text : String) : Except Fault Entry :=
  Catalog.newEntry { limits } fresh now name description text

def reply (entries : List Entry) (outcome : Except Fault Entry) (change : Entry → List Entry) :
    Reply × List Entry :=
  match outcome with
  | .ok e => (.entry e, change e)
  | .error f => (.fault f, entries)

def answer (limits : Limits) (entries : List Entry) (fresh : Identifier) (now : Instant) :
    Request → Reply × List Entry
  | .create name description text =>
    reply entries (newEntry limits fresh now name description text) (· :: entries)
  | .combine texts => reply entries (combinedEntry limits entries fresh now texts) (· :: entries)
  | .get text => reply entries (get entries text) fun _ => entries
  | .delete text =>
    match Catalog.identifier text with
    | .ok id => reply entries (entry entries id) fun _ => entries.filter fun e => e.id ≠ id
    | .error f => (.fault f, entries)
  | .judge text facts =>
    match judge entries text facts with
    | .ok (holds, id) => (.verdict holds id, entries)
    | .error f => (.fault f, entries)
  | .list => (.summaries (entries.map fun e =>
      ⟨e.id, e.name, e.description, e.createdAt, e.updatedAt⟩), entries)

/-- Answers one call and records it. -/
def next (limits : Limits) (state : List Entry × List Event) (call : Call) :
    List Entry × List Event :=
  let (reply, entries) := answer limits state.1 call.fresh call.now call.request
  (entries, ⟨call.request, reply⟩ :: state.2)

/-- The entries after some calls, and the history of the calls. -/
def run (limits : Limits) (calls : List Call) : List Entry × List Event :=
  calls.foldl (next limits) ([], [])

theorem run_concat (limits : Limits) (calls : List Call) (call : Call) :
    run limits (calls ++ [call]) = next limits (run limits calls) call := by
  rw [run, List.foldl_append]
  rfl

/-! ### Looking entries up -/

theorem find?_cons (e : Entry) (entries : List Entry) (id : Identifier) :
    find? (e :: entries) id = if id = e.id then some e else find? entries id := by
  unfold find?
  rw [List.find?_cons]
  by_cases h : e.id = id
  · simp [h]
  · simp [h, Ne.symm h]

theorem find?_filter_ne (entries : List Entry) (id l : Identifier) :
    find? (entries.filter fun e => e.id ≠ id) l = if l = id then none else find? entries l := by
  induction entries with
  | nil => simp [find?]
  | cons e entries ih =>
    by_cases he : e.id = id
    · rw [List.filter_cons_of_neg (by simp [he]), ih, find?_cons]
      by_cases hl : l = id
      · rw [if_pos hl, if_pos hl]
      · have hle : l ≠ e.id := fun h => hl (h.trans he)
        rw [if_neg hl, if_neg hl, if_neg hle]
    · rw [List.filter_cons_of_pos (by simp [he]), find?_cons, find?_cons, ih]
      by_cases hl : l = id
      · have hle : l ≠ e.id := fun h => he (h.symm.trans hl)
        rw [if_neg hle, if_pos hl, if_pos hl]
      · rw [if_neg hl, if_neg hl]

theorem find?_isSome_iff {entries : List Entry} {id : Identifier} :
    (find? entries id).isSome ↔ id ∈ entries.map Entry.id := by
  simp [find?, List.find?_isSome]

theorem find?_eq_some_of_mem {entries : List Entry} (hnodup : (entries.map Entry.id).Nodup)
    {e : Entry} (h : e ∈ entries) : find? entries e.id = some e := by
  induction entries with
  | nil => cases h
  | cons d entries ih =>
    obtain ⟨hd, hnodup⟩ := List.nodup_cons.1 hnodup
    rw [find?_cons]
    rcases List.mem_cons.1 h with rfl | h
    · rw [if_pos rfl]
    · have hne : e.id ≠ d.id := fun heq => hd (heq ▸ List.mem_map_of_mem h)
      rw [if_neg hne, ih hnodup h]

theorem filterMap_eq_self {f : Identifier → Option Entry} {entries : List Entry}
    (h : ∀ e ∈ entries, f e.id = some e) : entries.filterMap (f ∘ Entry.id) = entries := by
  induction entries with
  | nil => rfl
  | cons e entries ih =>
    have hhead : (f ∘ Entry.id) e = some e := h e List.mem_cons_self
    have htail := ih fun d hd => h d (List.mem_cons_of_mem e hd)
    rw [List.filterMap_cons_some hhead, htail]

theorem mem_of_find?_eq_some {entries : List Entry} {id : Identifier} {e : Entry}
    (h : find? entries id = some e) : e ∈ entries ∧ e.id = id := by
  have hid := List.find?_some h
  exact ⟨List.mem_of_find?_eq_some h, of_decide_eq_true hid⟩

theorem mem_of_entry_eq_ok {entries : List Entry} {id : Identifier} {e : Entry}
    (h : entry entries id = .ok e) : e ∈ entries ∧ e.id = id := by
  unfold entry at h
  split at h
  · next hfind =>
    cases h
    exact mem_of_find?_eq_some hfind
  · cases h

end Rulebook.Roster
