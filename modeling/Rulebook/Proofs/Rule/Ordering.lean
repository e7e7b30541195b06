import Rulebook.Proofs.Text.Words
import Rulebook.Rule.Judgement

/-!
# How two values compare

All five comparisons of two values look at one thing, the order of the values, save that equality
also asks for values of one kind. Exchanging the values reverses their order (`Value.order_swap`), and
they have none exactly if a side is not a number where a number is needed (`Value.order_eq_none`). The
laws that tie the comparisons to each other come from these two facts
(`Comparison.holds_consistent`). Which number a text counts as beside a number is said apart from how
it is read (`Value.CountsAs`).
-/

namespace Rulebook

/-! ### The order of numbers -/

namespace Binary64

variable {x y : Binary64}

theorem order_swap (x y : Binary64) : y.order x = (x.order y).map Ordering.swap := by
  cases x with
  | nan => cases y <;> rfl
  | signed s m =>
    cases y with
    | nan => rfl
    | signed t n => exact congrArg some (Int.compare_swap (place s m) (place t n)).symm

theorem order_eq_none : x.order y = none ↔ x = nan ∨ y = nan := by
  cases x <;> cases y <;> simp [order]

theorem same_iff : x.same y ↔ x.order y = some .eq := decide_eq_true_iff

/-- Equal numbers stand in the same order to every number. -/
theorem order_of_same (h : x.same y) (z : Binary64) : x.order z = y.order z := by
  rw [same_iff] at h
  cases x with
  | nan => cases h
  | signed s m =>
    cases y with
    | nan => cases h
    | signed t n =>
      have hplace : place s m = place t n := Int.compare_eq_eq.1 (Option.some.inj h)
      cases z with
      | nan => rfl
      | signed u k => simp only [order, hplace]

end Binary64

/-! ### The order of values -/

namespace Value

/-- The number that a value counts as beside a number. -/
def toNumber : Value → Binary64
  | number x => x
  | text s => numberOfText s

/-- The number that a value counts as beside a number. A number counts as itself and a blank text as
zero. Any other text counts as the number that its core spells, and as not a number if its core is no
numeral. -/
inductive CountsAs : Value → Binary64 → Prop
  | number {x : Binary64} : CountsAs (number x) x
  | blank {s : String} : s.toList.all Text.isBlank → CountsAs (text s) .zero
  | numeral {s : String} {core : List Char} {x : Binary64} :
    Text.HasCore s.toList core → Numeral.read? core = some x → CountsAs (text s) x
  | other {s : String} {core : List Char} :
    Text.HasCore s.toList core → Numeral.read? core = none → CountsAs (text s) .nan

variable {a b : Value}

theorem numberOfText_of_hasCore {s : String} {core : List Char}
    (h : Text.HasCore s.toList core) : numberOfText s = (Numeral.read? core).getD .nan := by
  obtain ⟨c, ds, hcore, -⟩ := h.first
  rw [numberOfText, h.trim_eq, hcore]
  rfl

theorem countsAs_numberOfText (s : String) : (text s).CountsAs (numberOfText s) := by
  by_cases hblank : Text.trim s.toList = []
  · have hzero : numberOfText s = .zero := by
      rw [numberOfText, hblank]
      rfl
    rw [hzero]
    exact .blank (Text.trim_eq_nil_iff.1 hblank)
  · have hcore := Text.hasCore_trim hblank
    rw [numberOfText_of_hasCore hcore]
    cases hread : Numeral.read? (Text.trim s.toList) with
    | none => exact .other hcore hread
    | some x => exact .numeral hcore hread

/-- Every value counts as one number. -/
theorem countsAs_iff {v : Value} {x : Binary64} : v.CountsAs x ↔ v.toNumber = x := by
  constructor
  · intro h
    cases h with
    | number => rfl
    | blank hblank =>
      rw [toNumber, numberOfText, Text.trim_eq_nil_iff.2 hblank]
      rfl
    | numeral hcore hread => rw [toNumber, numberOfText_of_hasCore hcore, hread, Option.getD_some]
    | other hcore hread => rw [toNumber, numberOfText_of_hasCore hcore, hread, Option.getD_none]
  · rintro rfl
    cases v with
    | number x => exact .number
    | text s => exact countsAs_numberOfText s

theorem alike_comm (a b : Value) : b.alike a = a.alike b := by
  cases a <;> cases b <;> rfl

theorem order_swap (a b : Value) : b.order a = (a.order b).map Ordering.swap := by
  cases a with
  | number x =>
    cases b with
    | number y => exact x.order_swap y
    | text t => exact x.order_swap (numberOfText t)
  | text s =>
    cases b with
    | number y => exact (numberOfText s).order_swap y
    | text t =>
      exact congrArg some
        (compareOfLessAndEq_eq_swap String.le_antisymm String.le_total String.not_le)

theorem order_of_not_alike (h : ¬ a.alike b) : a.order b = a.toNumber.order b.toNumber := by
  cases a <;> cases b
  · rfl
  · rfl
  · rfl
  · exact absurd rfl h

/-- Two values have no order exactly if one of them is not a number, or counts as none beside a
number. -/
theorem order_eq_none : a.order b = none ↔
    a = number .nan ∨ b = number .nan ∨
      ¬ a.alike b ∧ (a.toNumber = .nan ∨ b.toNumber = .nan) := by
  cases a with
  | number x => cases b <;> simp [order, alike, toNumber, Binary64.order_eq_none]
  | text s =>
    cases b with
    | number y => simp [order, alike, toNumber, Binary64.order_eq_none, or_comm]
    | text t => exact iff_of_false (fun h => nomatch h) (by simp [alike])

/-- The same values stand in the same order to every value. -/
theorem order_of_same (h : a.same b) (v : Value) : a.order v = b.order v := by
  cases a with
  | number x =>
    cases b with
    | number y => cases v <;> exact Binary64.order_of_same h _
    | text t => cases h
  | text s =>
    cases b with
    | number y => cases h
    | text t =>
      obtain rfl : s = t := of_decide_eq_true h
      rfl

theorem alike_of_same (h : a.same b) (v : Value) : a.alike v = b.alike v := by
  cases a with
  | number x =>
    cases b with
    | number y => cases v <;> rfl
    | text t => cases h
  | text s =>
    cases b with
    | number y => cases h
    | text t => cases v <;> rfl

end Value

/-! ### The comparisons -/

namespace Comparison

/-- The comparison that says the same of two values when they change places. -/
def mirrored : Comparison → Comparison
  | greater => less
  | less => greater
  | equal => equal
  | atLeast => atMost
  | atMost => atLeast

variable {a b : Value}

theorem mirrored_eq_equal {c : Comparison} : c.mirrored = equal ↔ c = equal := by
  cases c <;> decide

theorem admits_swap (c : Comparison) (o : Ordering) : c.mirrored.admits o.swap = c.admits o := by
  cases c <;> cases o <;> rfl

theorem holds_iff {c : Comparison} :
    c.holds a b ↔ (c = equal → a.alike b) ∧ ∃ o, a.order b = some o ∧ c.admits o := by
  unfold holds
  split
  · next h => simp [h]
  · next h =>
    have hkind : c = equal → a.alike b := fun hc => Decidable.not_not.1 fun hn => h ⟨hc, hn⟩
    rw [Option.any_eq_true, and_iff_right hkind]

theorem holds_equal_number (x y : Binary64) : equal.holds (.number x) (.number y) = x.same y := by
  rw [Bool.eq_iff_iff, holds_iff, Binary64.same_iff]
  simp [Value.alike, Value.order, admits]

theorem holds_less_number {x y : Binary64} :
    less.holds (.number x) (.number y) ↔ x.order y = some .lt := by
  rw [holds_iff]
  simp [Value.order, admits]

/-- Texts compare by their characters. -/
theorem holds_text {c : Comparison} {s t : String} :
    c.holds (.text s) (.text t) ↔ c.admits (compareOfLessAndEq s t) := by
  rw [holds_iff]
  simp [Value.alike, Value.order]

theorem holds_less_text {s t : String} : less.holds (.text s) (.text t) ↔ s < t := by
  rw [holds_text]
  simp only [admits, decide_eq_true_iff, compareOfLessAndEq_eq_lt]

theorem holds_equal_text {s t : String} : equal.holds (.text s) (.text t) ↔ s = t := by
  rw [holds_text]
  simp only [admits, decide_eq_true_iff, compareOfLessAndEq_eq_eq String.le_refl String.not_le]

theorem holds_mirrored (c : Comparison) (a b : Value) : c.mirrored.holds b a = c.holds a b := by
  rw [Bool.eq_iff_iff, holds_iff, holds_iff, mirrored_eq_equal, Value.alike_comm, a.order_swap]
  cases a.order b with
  | none => simp
  | some o => simp [admits_swap]

theorem holds_of_same {c : Comparison} {v w : Value} (h : v.same w) (u : Value) :
    c.holds v u = c.holds w u := by
  unfold holds
  rw [Value.order_of_same h, Value.alike_of_same h]

/-- Between values of two kinds an ordering compares their numbers. -/
theorem holds_toNumber {c : Comparison} (h : ¬ a.alike b) (hc : c ≠ equal) :
    c.holds a b = c.holds (.number a.toNumber) (.number b.toNumber) := by
  rw [Bool.eq_iff_iff, holds_iff, holds_iff, Value.order_of_not_alike h]
  simp only [hc, false_imp_iff, true_and]
  rfl

theorem eq_of_admits (o : Ordering) : ∀ c ∈ [greater, less, equal], ∀ d ∈ [greater, less, equal],
    c.admits o → d.admits o → c = d := by
  cases o <;> decide

theorem eq_of_holds {c d : Comparison} (hc : c ∈ [greater, less, equal])
    (hd : d ∈ [greater, less, equal]) (h : c.holds a b) (h' : d.holds a b) : c = d := by
  obtain ⟨-, o, ho, hco⟩ := holds_iff.1 h
  obtain ⟨-, o', ho', hdo⟩ := holds_iff.1 h'
  obtain rfl : o = o' := Option.some.inj (ho.symm.trans ho')
  exact eq_of_admits o c hc d hd hco hdo

theorem holds_atLeast_iff (h : a.alike b) :
    atLeast.holds a b ↔ greater.holds a b ∨ equal.holds a b := by
  simp only [holds_iff, h, implies_true, true_and]
  cases a.order b with
  | none => simp
  | some o => cases o <;> simp [admits]

theorem holds_atMost_iff (h : a.alike b) :
    atMost.holds a b ↔ less.holds a b ∨ equal.holds a b := by
  rw [← holds_mirrored atMost, ← holds_mirrored less, ← holds_mirrored equal]
  exact holds_atLeast_iff (by rwa [Value.alike_comm])

theorem not_holds_equal (h : ¬ a.alike b) : ¬ equal.holds a b := by
  intro hequal
  exact h ((holds_iff.1 hequal).1 rfl)

theorem holds_atLeast_and_atMost :
    atLeast.holds a b ∧ atMost.holds a b ↔ a.order b = some .eq := by
  rw [holds_iff, holds_iff]
  cases a.order b with
  | none => simp
  | some o => cases o <;> simp [admits]

theorem forall_not_holds : (∀ c : Comparison, ¬ c.holds a b) ↔ a.order b = none := by
  simp only [holds_iff]
  cases a.order b with
  | none => simp
  | some o =>
    simp only [reduceCtorEq, iff_false]
    intro hnone
    cases o with
    | lt => exact hnone less ⟨Comparison.noConfusion, .lt, rfl, rfl⟩
    | eq => exact hnone atLeast ⟨Comparison.noConfusion, .eq, rfl, rfl⟩
    | gt => exact hnone greater ⟨Comparison.noConfusion, .gt, rfl, rfl⟩

/-- The five comparisons of two values hang together: each says the same as its mirror image with the
values exchanged, and no two of greater, less and equal hold at once. Values of one kind are at least
or at most each other if one of the parts of that holds; numbers are less or equal as numbers, and texts
by their characters. Every value counts as one number, and values of two kinds are never equal and are
ordered as the numbers that they count as, so each is at least the other exactly if the numbers are
equal. No comparison holds exactly if one side is not a number, or counts as none beside a number. -/
theorem holds_consistent (a b : Value) :
    (∀ c : Comparison, c.mirrored.holds b a = c.holds a b) ∧
    (∀ c ∈ [greater, less, equal], ∀ d ∈ [greater, less, equal],
      c.holds a b → d.holds a b → c = d) ∧
    (a.alike b →
      (atLeast.holds a b ↔ greater.holds a b ∨ equal.holds a b) ∧
      (atMost.holds a b ↔ less.holds a b ∨ equal.holds a b)) ∧
    (∀ x y : Binary64, (less.holds (.number x) (.number y) ↔ x.order y = some .lt) ∧
      equal.holds (.number x) (.number y) = x.same y) ∧
    (∀ s t : String, (less.holds (.text s) (.text t) ↔ s < t) ∧
      (equal.holds (.text s) (.text t) ↔ s = t)) ∧
    (∀ v : Value, ∃! x, v.CountsAs x) ∧
    (¬ a.alike b → ¬ equal.holds a b ∧ ∀ x y, a.CountsAs x → b.CountsAs y →
      (∀ c, c ≠ equal → c.holds a b = c.holds (.number x) (.number y)) ∧
      (atLeast.holds a b ∧ atMost.holds a b ↔ x.same y)) ∧
    ((∀ c : Comparison, ¬ c.holds a b) ↔
      a = .number .nan ∨ b = .number .nan ∨
        ¬ a.alike b ∧ (a.CountsAs .nan ∨ b.CountsAs .nan)) := by
  refine ⟨fun c => holds_mirrored c a b, fun c hc d hd => eq_of_holds hc hd, ?_,
    fun x y => ⟨holds_less_number, holds_equal_number x y⟩,
    fun s t => ⟨holds_less_text, holds_equal_text⟩, fun v => ?_, ?_, ?_⟩
  · intro h
    exact ⟨holds_atLeast_iff h, holds_atMost_iff h⟩
  · exact ⟨v.toNumber, Value.countsAs_iff.2 rfl, fun x hx => (Value.countsAs_iff.1 hx).symm⟩
  · intro h
    refine ⟨not_holds_equal h, fun x y hx hy => ?_⟩
    obtain rfl := Value.countsAs_iff.1 hx
    obtain rfl := Value.countsAs_iff.1 hy
    refine ⟨fun c => holds_toNumber h, ?_⟩
    rw [holds_atLeast_and_atMost, Value.order_of_not_alike h, Binary64.same_iff]
  · rw [forall_not_holds, Value.order_eq_none, Value.countsAs_iff, Value.countsAs_iff]

end Comparison

end Rulebook
