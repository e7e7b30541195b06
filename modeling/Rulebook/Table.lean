/-!
# Tables

A table holds at most one value under each key. Writing under a key that the table has replaces the
value; all other keys keep theirs.
-/

namespace Rulebook

/-- Values under distinct keys. -/
structure Table (κ α : Type) where
  pairs : List (κ × α)
  nodup_keys : (pairs.map Prod.fst).Nodup

namespace Table

variable {κ α : Type}

def empty : Table κ α := ⟨[], List.nodup_nil⟩

instance : Inhabited (Table κ α) := ⟨empty⟩

def keys (t : Table κ α) : List κ := t.pairs.map Prod.fst

def size (t : Table κ α) : Nat := t.pairs.length

variable [DecidableEq κ]

def find? (t : Table κ α) (k : κ) : Option α := t.pairs.lookup k

/-- Pairs with the value under one key replaced. -/
def replacePair (k : κ) (v : α) : List (κ × α) → List (κ × α)
  | [] => []
  | (l, w) :: pairs => if l = k then (k, v) :: pairs else (l, w) :: replacePair k v pairs

theorem map_fst_replacePair (k : κ) (v : α) (pairs : List (κ × α)) :
    (replacePair k v pairs).map Prod.fst = pairs.map Prod.fst := by
  induction pairs with
  | nil => rfl
  | cons p pairs ih =>
    obtain ⟨l, w⟩ := p
    by_cases h : l = k <;> simp [replacePair, h, ih]

def insert (t : Table κ α) (k : κ) (v : α) : Table κ α :=
  if h : k ∈ t.pairs.map Prod.fst then
    ⟨replacePair k v t.pairs, by rw [map_fst_replacePair]; exact t.nodup_keys⟩
  else ⟨(k, v) :: t.pairs, by simpa using ⟨by simpa using h, t.nodup_keys⟩⟩

def erase (t : Table κ α) (k : κ) : Table κ α :=
  ⟨t.pairs.filter fun p => p.1 ≠ k, t.nodup_keys.sublist (List.filter_sublist.map Prod.fst)⟩

/-- Writes pairs in their order, so that the last one of each key stays. -/
def ofPairs (pairs : List (κ × α)) : Table κ α :=
  pairs.foldl (fun t p => t.insert p.1 p.2) empty

@[simp] theorem find?_empty (k : κ) : (empty : Table κ α).find? k = none := rfl

theorem lookup_replacePair (k l : κ) (v : α) (pairs : List (κ × α))
    (h : k ∈ pairs.map Prod.fst) :
    (replacePair k v pairs).lookup l = if l = k then some v else pairs.lookup l := by
  induction pairs with
  | nil => simp at h
  | cons p pairs ih =>
    obtain ⟨m, w⟩ := p
    by_cases hm : m = k
    · subst hm
      by_cases hl : l = m <;> simp [replacePair, List.lookup_cons, hl]
      simp [beq_eq_false_iff_ne.2 hl]
    · have hk : k ∈ pairs.map Prod.fst := by
        rcases List.mem_cons.1 h with h | h
        · exact absurd h.symm hm
        · exact h
      simp only [replacePair, hm, if_false, List.lookup_cons]
      by_cases hl : l = m
      · subst hl; simp [hm]
      · simp [beq_eq_false_iff_ne.2 hl, ih hk]

@[simp] theorem find?_insert (t : Table κ α) (k l : κ) (v : α) :
    (t.insert k v).find? l = if l = k then some v else t.find? l := by
  unfold insert find?
  split
  · next h => exact lookup_replacePair k l v t.pairs h
  · by_cases hl : l = k
    · simp [hl]
    · simp [List.lookup_cons, hl, beq_eq_false_iff_ne.2 hl]

theorem lookup_filter_ne (k l : κ) (pairs : List (κ × α)) :
    (pairs.filter fun p => p.1 ≠ k).lookup l = if l = k then none else pairs.lookup l := by
  induction pairs with
  | nil => simp
  | cons p pairs ih =>
    obtain ⟨m, w⟩ := p
    by_cases hm : m = k
    · subst hm
      by_cases hl : l = m
      · simpa [hl] using ih
      · simpa [List.lookup_cons, hl, beq_eq_false_iff_ne.2 hl] using ih
    · by_cases hl : l = m
      · subst hl; simp [hm]
      · simpa [List.lookup_cons, hm, beq_eq_false_iff_ne.2 hl] using ih

@[simp] theorem find?_erase (t : Table κ α) (k l : κ) :
    (t.erase k).find? l = if l = k then none else t.find? l :=
  lookup_filter_ne k l t.pairs

end Table

end Rulebook
