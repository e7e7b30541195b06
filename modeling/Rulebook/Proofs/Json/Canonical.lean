import Mathlib.Data.List.Perm.Basic
import Mathlib.Data.List.Nodup
import Rulebook.Json.Complaint

/-!
# Values as dictionaries

The canonical form of a value sorts the members of its objects and keeps one member of each name. Where
no object repeats a name (`Json.NamesOnce`) it keeps them all, so a member is found in the canonical
form exactly if it is found in the value (`hasMember_canonicalMembers`), and the order in which members
stand does not show (`Reorders.canonical_eq`).
-/

namespace Rulebook.Json

mutual

/-- No object in a value repeats a member name. -/
def NamesOnce : Json → Prop
  | array items => ItemsNamedOnce items
  | object members => (members.map Prod.fst).Nodup ∧ MembersNamedOnce members
  | _ => True

def ItemsNamedOnce : List Json → Prop
  | [] => True
  | item :: items => item.NamesOnce ∧ ItemsNamedOnce items

def MembersNamedOnce : List (String × Json) → Prop
  | [] => True
  | (_, value) :: members => value.NamesOnce ∧ MembersNamedOnce members

end

theorem itemsNamedOnce_iff {items : List Json} :
    ItemsNamedOnce items ↔ ∀ item ∈ items, item.NamesOnce := by
  induction items with
  | nil => exact iff_of_true trivial fun _ h => absurd h List.not_mem_nil
  | cons item items ih => rw [ItemsNamedOnce, ih, List.forall_mem_cons]

theorem membersNamedOnce_iff {members : List (String × Json)} :
    MembersNamedOnce members ↔ ∀ m ∈ members, m.2.NamesOnce := by
  induction members with
  | nil => exact iff_of_true trivial fun _ h => absurd h List.not_mem_nil
  | cons m members ih => rw [MembersNamedOnce, ih, List.forall_mem_cons]

/-! ### The canonical form -/

theorem canonicalItems_eq_map (items : List Json) : canonicalItems items = items.map canonical := by
  induction items with
  | nil => rfl
  | cons item items ih => rw [canonicalItems, ih, List.map_cons]

theorem addMember_perm {name : String} {value : Json} {members : List (String × Json)}
    (h : name ∉ members.map Prod.fst) :
    (addMember name value members).Perm ((name, value) :: members) := by
  induction members with
  | nil => exact .refl _
  | cons m members ih =>
    obtain ⟨other, kept⟩ := m
    rw [List.map_cons, List.mem_cons, not_or] at h
    rw [addMember]
    split_ifs with hlt heq
    · exact .refl _
    · exact absurd heq h.1
    · exact ((ih h.2).cons _).trans (.swap _ _ _)

theorem canonicalMembers_perm {members : List (String × Json)} (h : (members.map Prod.fst).Nodup) :
    (canonicalMembers members).Perm (members.map fun m => (m.1, m.2.canonical)) := by
  induction members with
  | nil => exact .refl _
  | cons m members ih =>
    obtain ⟨name, value⟩ := m
    rw [List.map_cons, List.nodup_cons] at h
    have hperm := ih h.2
    rw [canonicalMembers, List.map_cons]
    refine (addMember_perm ?_).trans (hperm.cons _)
    rw [(hperm.map Prod.fst).mem_iff, List.map_map]
    exact h.1

theorem addMember_ne_nil (name : String) (value : Json) (members : List (String × Json)) :
    addMember name value members ≠ [] := by
  cases members with
  | nil => exact List.cons_ne_nil _ _
  | cons m members =>
    rw [addMember]
    split_ifs <;> exact List.cons_ne_nil _ _

theorem canonicalMembers_eq_nil {members : List (String × Json)} :
    canonicalMembers members = [] ↔ members = [] := by
  cases members with
  | nil => exact Iff.rfl
  | cons m members =>
    rw [canonicalMembers]
    exact iff_of_false (addMember_ne_nil _ _ _) (List.cons_ne_nil _ _)

theorem map_canonical_perm_singleton {members : List (String × Json)} {name : String} {value' : Json} :
    (members.map fun m => (m.1, m.2.canonical)).Perm [(name, value')] ↔
      ∃ value, members = [(name, value)] ∧ value.canonical = value' := by
  rw [List.perm_singleton, List.map_eq_singleton_iff]
  constructor
  · rintro ⟨⟨name', value⟩, rfl, hsame⟩
    cases hsame
    exact ⟨value, rfl, rfl⟩
  · rintro ⟨value, rfl, rfl⟩
    exact ⟨_, rfl, rfl⟩

theorem canonicalMembers_eq_singleton {members : List (String × Json)}
    (h : (members.map Prod.fst).Nodup) {name : String} {value' : Json} :
    canonicalMembers members = [(name, value')] ↔
      ∃ value, members = [(name, value)] ∧ value.canonical = value' := by
  rw [← map_canonical_perm_singleton, ← List.perm_singleton]
  exact (canonicalMembers_perm h).congr_left _

/-! ### Shapes that the canonical form keeps -/

theorem glimpse_canonical (j : Json) : j.canonical.glimpse = j.glimpse := by
  cases j <;> rfl

theorem canonical_eq_null {j : Json} : j.canonical = .null ↔ j = .null := by
  cases j <;> simp [canonical]

theorem canonical_eq_string {j : Json} {s : String} : j.canonical = .string s ↔ j = .string s := by
  cases j <;> simp [canonical]

theorem canonical_eq_object_nil {j : Json} : j.canonical = .object [] ↔ j = .object [] := by
  cases j <;> simp [canonical, canonicalMembers_eq_nil]

theorem canonical_eq_object_singleton {j : Json} (h : j.NamesOnce) {name : String} {value' : Json} :
    j.canonical = .object [(name, value')] ↔
      ∃ value, j = .object [(name, value)] ∧ value.canonical = value' := by
  cases j with
  | object members => simpa [canonical] using canonicalMembers_eq_singleton h.1
  | _ => simp [canonical]

/-! ### Members by name -/

/-- An object has one member of a name, and its value is this one. -/
def HasMember (name : String) (value : Json) (members : List (String × Json)) : Prop :=
  members.filter (fun m => m.1 = name) = [(name, value)]

theorem HasMember.mem {name : String} {value : Json} {members : List (String × Json)}
    (h : HasMember name value members) : (name, value) ∈ members := by
  have hmem : (name, value) ∈ members.filter fun m => m.1 = name := by
    rw [h]
    exact List.mem_singleton_self _
  exact List.mem_of_mem_filter hmem

theorem hasMember_canonicalMembers {members : List (String × Json)}
    (h : (members.map Prod.fst).Nodup) {name : String} {value' : Json} :
    HasMember name value' (canonicalMembers members) ↔
      ∃ value, HasMember name value members ∧ value.canonical = value' := by
  have hfilter := (canonicalMembers_perm h).filter fun m => m.1 = name
  rw [List.filter_map] at hfilter
  unfold HasMember
  rw [← map_canonical_perm_singleton, ← List.perm_singleton]
  exact hfilter.congr_left _

/-! ### Sorted members -/

theorem mem_addMember {m : String × Json} {name : String} {value : Json}
    {members : List (String × Json)} (h : m ∈ addMember name value members) :
    m = (name, value) ∨ m ∈ members := by
  induction members with
  | nil => exact Or.inl (List.mem_singleton.1 h)
  | cons m' members ih =>
    rw [addMember] at h
    split_ifs at h
    · exact List.mem_cons.1 h
    · exact Or.inr h
    · rcases List.mem_cons.1 h with rfl | h
      · exact Or.inr List.mem_cons_self
      · exact (ih h).imp_right (List.mem_cons_of_mem _)

theorem sorted_addMember {members : List (String × Json)}
    (h : members.Pairwise fun m m' => m.1 < m'.1) (name : String) (value : Json) :
    (addMember name value members).Pairwise fun m m' => m.1 < m'.1 := by
  induction members with
  | nil => exact List.pairwise_singleton _ _
  | cons m members ih =>
    obtain ⟨other, kept⟩ := m
    obtain ⟨hothers, hmembers⟩ := List.pairwise_cons.1 h
    rw [addMember]
    split_ifs with hlt heq
    · refine h.cons fun m hm => ?_
      rcases List.mem_cons.1 hm with rfl | hm
      · exact hlt
      · exact String.lt_trans hlt (hothers _ hm)
    · exact h
    · have hgt : other < name := Std.lt_of_le_of_ne (Std.not_lt.1 hlt) (Ne.symm heq)
      refine (ih hmembers).cons fun m hm => ?_
      rcases mem_addMember hm with rfl | hm
      · exact hgt
      · exact hothers _ hm

theorem sorted_canonicalMembers (members : List (String × Json)) :
    (canonicalMembers members).Pairwise fun m m' => m.1 < m'.1 := by
  induction members with
  | nil => exact .nil
  | cons m members ih => exact sorted_addMember ih _ _

/-! ### The last member of a name -/

/-- The value of the last member of a name. -/
def lastValue? (members : List (String × Json)) (name : String) : Option Json :=
  (members.filter fun m => m.1 = name).getLast?.map Prod.snd

theorem lastValue?_cons (other : String) (value : Json) (members : List (String × Json))
    (name : String) :
    lastValue? ((other, value) :: members) name =
      (lastValue? members name).or (if other = name then some value else none) := by
  unfold lastValue?
  by_cases h : other = name
  · rw [List.filter_cons_of_pos (by simpa using h), List.getLast?_cons, if_pos h]
    cases (members.filter fun m => m.1 = name).getLast? <;> rfl
  · rw [List.filter_cons_of_neg (by simpa using h), if_neg h, Option.or_none]

theorem lastValue?_isSome_iff {members : List (String × Json)} {name : String} :
    (lastValue? members name).isSome ↔ name ∈ members.map Prod.fst := by
  induction members with
  | nil => simp [lastValue?]
  | cons m members ih =>
    obtain ⟨other, value⟩ := m
    rw [lastValue?_cons, Option.isSome_or, Bool.or_eq_true, ih, List.map_cons, List.mem_cons, or_comm]
    by_cases h : other = name
    · simp [h]
    · simp [h, Ne.symm h]

/-- Sorted members have no room for a name that they have. -/
theorem addMember_of_mem {members : List (String × Json)}
    (h : members.Pairwise fun m m' => m.1 < m'.1) {name : String} (hname : name ∈ members.map Prod.fst)
    (value : Json) : addMember name value members = members := by
  induction members with
  | nil => cases hname
  | cons m members ih =>
    obtain ⟨other, kept⟩ := m
    obtain ⟨hothers, hmembers⟩ := List.pairwise_cons.1 h
    rw [addMember]
    rcases List.mem_cons.1 hname with heq | hname
    · have hirrefl : ¬ name < other := heq ▸ String.lt_irrefl name
      rw [if_neg hirrefl, if_pos heq]
    · obtain ⟨m, hm, rfl⟩ := List.mem_map.1 hname
      have hlt : other < m.1 := hothers m hm
      have hle : ¬ m.1 < other := fun hgt => String.lt_irrefl _ (String.lt_trans hlt hgt)
      have hne : m.1 ≠ other := by
        intro heq
        rw [heq] at hlt
        exact String.lt_irrefl _ hlt
      rw [if_neg hle, if_neg hne, ih hmembers hname]

/-- The canonical form keeps the last member of each name. -/
theorem mem_canonicalMembers {members : List (String × Json)} {name : String} {value' : Json} :
    (name, value') ∈ canonicalMembers members ↔
      ∃ value, lastValue? members name = some value ∧ value.canonical = value' := by
  induction members generalizing name value' with
  | nil => simp [canonicalMembers, lastValue?]
  | cons m members ih =>
    obtain ⟨other, value⟩ := m
    have hnames : ∀ n, n ∈ (canonicalMembers members).map Prod.fst ↔ (lastValue? members n).isSome := by
      intro n
      rw [List.mem_map, Option.isSome_iff_exists]
      constructor
      · rintro ⟨⟨n', v'⟩, hmem, rfl⟩
        obtain ⟨v, hv, -⟩ := ih.1 hmem
        exact ⟨v, hv⟩
      · rintro ⟨v, hv⟩
        exact ⟨(n, v.canonical), ih.2 ⟨v, hv, rfl⟩, rfl⟩
    rw [canonicalMembers, lastValue?_cons]
    by_cases hmem : other ∈ (canonicalMembers members).map Prod.fst
    · rw [addMember_of_mem (sorted_canonicalMembers members) hmem, ih]
      by_cases hname : other = name
      · subst hname
        obtain ⟨last, hlast⟩ := Option.isSome_iff_exists.1 ((hnames other).1 hmem)
        rw [hlast, Option.some_or]
      · rw [if_neg hname, Option.or_none]
    · rw [(addMember_perm hmem).mem_iff, List.mem_cons, Prod.mk.injEq, ih]
      by_cases hname : other = name
      · subst hname
        have hnone : lastValue? members other = none := by
          rw [← Option.not_isSome_iff_eq_none, ← hnames]
          exact hmem
        simp [hnone, eq_comm]
      · simp [hname, Ne.symm hname]

theorem nodup_canonicalMembers (members : List (String × Json)) :
    ((canonicalMembers members).map Prod.fst).Nodup := by
  refine List.Pairwise.map Prod.fst (fun m m' hlt heq => ?_) (sorted_canonicalMembers members)
  rw [heq] at hlt
  exact String.lt_irrefl _ hlt

/-- Where names are distinct, the last value of a name is its only one. -/
theorem lastValue?_eq_some_iff_mem {members : List (String × Json)}
    (h : (members.map Prod.fst).Nodup) {name : String} {value : Json} :
    lastValue? members name = some value ↔ (name, value) ∈ members := by
  induction members with
  | nil => simp [lastValue?]
  | cons m members ih =>
    obtain ⟨other, first⟩ := m
    obtain ⟨hother, hmembers⟩ := List.nodup_cons.1 h
    rw [lastValue?_cons, Option.or_eq_some_iff, ih hmembers, List.mem_cons, Prod.mk.injEq]
    by_cases hname : other = name
    · subst hname
      have hnone : lastValue? members other = none := by
        rw [← Option.not_isSome_iff_eq_none, lastValue?_isSome_iff]
        exact hother
      have hmem : (other, value) ∉ members := fun hmem =>
        hother (List.mem_map.2 ⟨(other, value), hmem, rfl⟩)
      simp [hnone, hmem, eq_comm]
    · simp [hname, Ne.symm hname]

theorem lastValue?_canonicalMembers (members : List (String × Json)) (name : String) :
    lastValue? (canonicalMembers members) name = (lastValue? members name).map canonical := by
  ext value
  rw [lastValue?_eq_some_iff_mem (nodup_canonicalMembers members), mem_canonicalMembers,
    Option.map_eq_some_iff]

/-! ### The order of members -/

/-- Members of different names have one canonical form, in whatever order they stand. -/
theorem canonicalMembers_eq_of_perm {members members' : List (String × Json)}
    (h : (members.map Prod.fst).Nodup)
    (hperm : (members.map fun m => (m.1, m.2.canonical)).Perm
      (members'.map fun m => (m.1, m.2.canonical))) :
    canonicalMembers members = canonicalMembers members' := by
  have hnames : (members.map Prod.fst).Perm (members'.map Prod.fst) := by
    have hfst := hperm.map Prod.fst
    rwa [List.map_map, List.map_map] at hfst
  refine List.Perm.eq_of_pairwise ?_ (sorted_canonicalMembers _) (sorted_canonicalMembers _)
    ((canonicalMembers_perm h).trans (hperm.trans (canonicalMembers_perm (hnames.nodup h)).symm))
  intro m m' _ _ hlt hgt
  exact absurd (String.lt_trans hlt hgt) (String.lt_irrefl _)

/-- Two values differ at most in the order in which their objects have their members. -/
inductive Reorders : Json → Json → Prop where
  | refl (j : Json) : Reorders j j
  | trans {j k l : Json} : Reorders j k → Reorders k l → Reorders j l
  | perm {members members' : List (String × Json)} :
      members.Perm members' → Reorders (object members) (object members')
  | item {j k : Json} (before after : List Json) :
      Reorders j k → Reorders (array (before ++ j :: after)) (array (before ++ k :: after))
  | member {j k : Json} (before : List (String × Json)) (name : String)
      (after : List (String × Json)) : Reorders j k →
      Reorders (object (before ++ (name, j) :: after)) (object (before ++ (name, k) :: after))

/-- A value without repeated names has none in any other order of its members, and then it is the
same dictionary. -/
theorem Reorders.canonical_eq {j k : Json} (h : Reorders j k) (hj : j.NamesOnce) :
    k.NamesOnce ∧ j.canonical = k.canonical := by
  induction h with
  | refl j => exact ⟨hj, rfl⟩
  | trans _ _ ihjk ihkl =>
    obtain ⟨hk, hjk⟩ := ihjk hj
    obtain ⟨hl, hkl⟩ := ihkl hk
    exact ⟨hl, hjk.trans hkl⟩
  | perm hperm =>
    have hvalues := membersNamedOnce_iff.1 hj.2
    refine ⟨⟨(hperm.map Prod.fst).nodup hj.1, membersNamedOnce_iff.2 fun m hm => ?_⟩,
      congrArg object (canonicalMembers_eq_of_perm hj.1 (hperm.map _))⟩
    exact hvalues m (hperm.mem_iff.2 hm)
  | item before after _ ih =>
    rw [NamesOnce, itemsNamedOnce_iff, List.forall_mem_append, List.forall_mem_cons] at hj ⊢
    obtain ⟨hbefore, hj, hafter⟩ := hj
    obtain ⟨hk, hsame⟩ := ih hj
    refine ⟨⟨hbefore, hk, hafter⟩, ?_⟩
    simp only [canonical, canonicalItems_eq_map, List.map_append, List.map_cons, hsame]
  | @member j k before name after _ ih =>
    have hnames : (before ++ (name, j) :: after).map Prod.fst =
        (before ++ (name, k) :: after).map Prod.fst := by
      rw [List.map_append, List.map_append, List.map_cons, List.map_cons]
    obtain ⟨hnodup, hvalues⟩ := hj
    rw [membersNamedOnce_iff, List.forall_mem_append, List.forall_mem_cons] at hvalues
    obtain ⟨hbefore, hj, hafter⟩ := hvalues
    obtain ⟨hk, hsame⟩ := ih hj
    refine ⟨⟨hnames ▸ hnodup, ?_⟩, congrArg object (canonicalMembers_eq_of_perm hnodup ?_)⟩
    · rw [membersNamedOnce_iff, List.forall_mem_append, List.forall_mem_cons]
      exact ⟨hbefore, hk, hafter⟩
    · rw [List.map_append, List.map_append, List.map_cons, List.map_cons, hsame]

end Rulebook.Json
