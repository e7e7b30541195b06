import Mathlib.Data.Finset.Card
import Rulebook.Table

/-!
# The keys of a table

The keys of a table are distinct, so their set is as large as the table, and it is known from what the
table finds.
-/

namespace Rulebook.Table

variable {κ α : Type} [DecidableEq κ]

theorem mem_keys_iff {t : Table κ α} {k : κ} : k ∈ t.keys ↔ (t.find? k).isSome := by
  unfold keys find?
  rw [List.lookup_isSome_iff]
  simp

/-- The set of the keys. -/
def keySet (t : Table κ α) : Finset κ := t.keys.toFinset

theorem mem_keySet_iff {t : Table κ α} {k : κ} : k ∈ t.keySet ↔ (t.find? k).isSome := by
  rw [keySet, List.mem_toFinset, mem_keys_iff]

theorem card_keySet (t : Table κ α) : t.keySet.card = t.size := by
  have hcard : t.keySet.card = t.keys.length := List.toFinset_card_of_nodup t.nodup_keys
  rw [hcard]
  exact List.length_map _

theorem keySet_insert (t : Table κ α) (k : κ) (v : α) :
    (t.insert k v).keySet = Insert.insert k t.keySet := by
  ext l
  rw [mem_keySet_iff, find?_insert, Finset.mem_insert, mem_keySet_iff]
  by_cases h : l = k
  · simp [h]
  · simp [h]

/-! ### Tables of pairs -/

/-- In pairs with distinct keys a key finds what stands beside it. -/
theorem lookup_eq_some_iff_mem {pairs : List (κ × α)} (h : (pairs.map Prod.fst).Nodup) {k : κ} {v : α} :
    pairs.lookup k = some v ↔ (k, v) ∈ pairs := by
  induction pairs with
  | nil => simp
  | cons p pairs ih =>
    obtain ⟨l, w⟩ := p
    obtain ⟨hl, hpairs⟩ := List.nodup_cons.1 h
    rw [List.lookup_cons, List.mem_cons, Prod.mk.injEq]
    by_cases hk : k = l
    · subst hk
      have hnone : (k, v) ∉ pairs := fun hmem => hl (List.mem_map.2 ⟨_, hmem, rfl⟩)
      simp [hnone, eq_comm]
    · simp [hk, beq_eq_false_iff_ne.2 hk, ih hpairs]

theorem find?_foldl_insert {pairs : List (κ × α)} (h : (pairs.map Prod.fst).Nodup) (t : Table κ α)
    (k : κ) :
    (pairs.foldl (fun t p => t.insert p.1 p.2) t).find? k = (pairs.lookup k).or (t.find? k) := by
  induction pairs generalizing t with
  | nil => rfl
  | cons p pairs ih =>
    obtain ⟨l, w⟩ := p
    obtain ⟨hl, hpairs⟩ := List.nodup_cons.1 h
    rw [List.foldl_cons, ih hpairs, find?_insert, List.lookup_cons]
    by_cases hk : k = l
    · subst hk
      have hnone : pairs.lookup k = none := by
        rw [Option.eq_none_iff_forall_ne_some]
        intro v hv
        exact hl (List.mem_map.2 ⟨_, (lookup_eq_some_iff_mem hpairs).1 hv, rfl⟩)
      simp [hnone]
    · simp [hk, beq_eq_false_iff_ne.2 hk]

/-- A table of pairs with distinct keys holds exactly these. -/
theorem find?_ofPairs_eq_some {pairs : List (κ × α)} (h : (pairs.map Prod.fst).Nodup) {k : κ} {v : α} :
    (ofPairs pairs).find? k = some v ↔ (k, v) ∈ pairs := by
  rw [ofPairs, find?_foldl_insert h, find?_empty, Option.or_none, lookup_eq_some_iff_mem h]

end Rulebook.Table
