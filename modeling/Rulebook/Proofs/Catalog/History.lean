import Rulebook.Catalog

/-!
# Histories of catalogs

A catalog answers calls one after the other. Its history lists what was asked and what was answered,
the newest first, and tells which entries were made and which of them are still live. Everything a
history tells about entries is read off the answers alone.
-/

namespace Rulebook.Catalog

/-- A request, with the identifier and the instant that a new entry would get. -/
structure Call where
  fresh : Identifier
  now : Instant
  request : Request

/-- A request and what was answered. -/
structure Event where
  request : Request
  reply : Reply

/-- Requests that do not change a catalog. -/
def Request.isReading : Request → Bool
  | get _ | judge _ _ | list => true
  | create _ _ _ | combine _ | delete _ => false

/-- The entry that an event made. -/
def Event.made? : Event → Option Entry
  | ⟨.create _ _ _, .entry e⟩ | ⟨.combine _, .entry e⟩ => some e
  | _ => none

/-- The identifier that an event removed. -/
def Event.removed? : Event → Option Identifier
  | ⟨.delete _, .entry e⟩ => some e.id
  | _ => none

/-- The entries that were made, newest first. -/
def made (history : List Event) : List Entry := history.filterMap Event.made?

/-- The identifiers that were removed, the last one first. -/
def removed (history : List Event) : List Identifier := history.filterMap Event.removed?

/-- The entries that were made and not removed, newest first. -/
def live (history : List Event) : List Entry :=
  (made history).filter fun e => e.id ∉ removed history

/-- No two entries were made under one identifier. -/
def AllNew (history : List Event) : Prop := ((made history).map Entry.id).Nodup

/-! ### One more event -/

theorem made_cons (event : Event) (history : List Event) :
    made (event :: history) = event.made?.toList ++ made history := by
  unfold made
  rw [List.filterMap_cons]
  cases event.made? <;> rfl

theorem removed_cons (event : Event) (history : List Event) :
    removed (event :: history) = event.removed?.toList ++ removed history := by
  unfold removed
  rw [List.filterMap_cons]
  cases event.removed? <;> rfl

theorem Event.removed?_of_made? {event : Event} {e : Entry} (h : event.made? = some e) :
    event.removed? = none := by
  unfold made? at h
  split at h
  · rfl
  · rfl
  · cases h

theorem live_of_quiet {event : Event} (hm : event.made? = none) (hr : event.removed? = none)
    (history : List Event) : live (event :: history) = live history := by
  unfold live
  rw [made_cons, removed_cons, hm, hr]
  rfl

theorem live_of_made {event : Event} {e : Entry} (h : event.made? = some e) {history : List Event}
    (hnew : e.id ∉ removed history) : live (event :: history) = e :: live history := by
  unfold live
  rw [made_cons, removed_cons, h, Event.removed?_of_made? h]
  exact List.filter_cons_of_pos (decide_eq_true hnew)

theorem live_of_removed {event : Event} {id : Identifier} (h : event.removed? = some id)
    (history : List Event) :
    live (event :: history) = (live history).filter fun e => e.id ≠ id := by
  have hmade : event.made? = none := by
    cases hm : event.made? with
    | none => rfl
    | some e =>
      rw [Event.removed?_of_made? hm] at h
      cases h
  unfold live
  rw [made_cons, removed_cons, hmade, h, List.filter_filter]
  apply List.filter_congr
  intro e _
  simp

theorem mem_made_of_mem_live {history : List Event} {e : Entry} (h : e ∈ live history) :
    e ∈ made history := (List.mem_filter.1 h).1

theorem AllNew.tail {event : Event} {history : List Event} (h : AllNew (event :: history)) :
    AllNew history := by
  unfold AllNew at h ⊢
  rw [made_cons, List.map_append] at h
  exact (List.nodup_append.1 h).2.1

theorem AllNew.not_mem_map_made {event : Event} {history : List Event} {e : Entry}
    (h : AllNew (event :: history)) (hm : event.made? = some e) :
    e.id ∉ (made history).map Entry.id := by
  unfold AllNew at h
  rw [made_cons, hm] at h
  exact (List.nodup_cons.1 h).1

/-! ### Runs -/

/-- Answers one call and records it. -/
def next (state : Catalog × List Event) (call : Call) : Catalog × List Event :=
  let (reply, c) := state.1.answer call.fresh call.now call.request
  (c, ⟨call.request, reply⟩ :: state.2)

/-- What a catalog becomes after some calls, and their history. -/
def run (c : Catalog) (calls : List Call) : Catalog × List Event := calls.foldl next (c, [])

theorem run_concat (c : Catalog) (calls : List Call) (call : Call) :
    c.run (calls ++ [call]) = next (c.run calls) call := by
  rw [run, List.foldl_append]
  rfl

end Rulebook.Catalog
