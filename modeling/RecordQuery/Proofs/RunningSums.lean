import Mathlib.Algebra.BigOperators.Group.List.Basic
import Mathlib.Algebra.Ring.Int.Defs
import Mathlib.Data.List.Infix
import RecordQuery.Proofs.Aggregates

/-!
# `RecordQuery.Proofs.RunningSums`: aggregates of the same rows in another order

Rows come in the order of a scan, of an index or of several workers. Without floating-point numbers,
the counts, the smallest and the largest value are those of the rows as a collection. A sum of
integers is kept in 64 bits and is given rounded once it has not fitted, even if later rows bring it
back. So it is exact if every beginning of the rows has a sum that fits, and whether that is so is a
matter of the order.

`RunningFits` says this of a list of numbers, and `Accumulator.SumsUp` is the invariant of feeding
rows to an `Accumulator`: its `intSum` is there exactly as long as the running sums fit. Then the
orders are compared. All running sums lie between the sum of the `negatives` and that of the
`positives`, and each of these two is a running sum in some order. So the sum is exact in every
order exactly if these two fit.

Averages and other results that divide a sum are left out: they are rounded in any order. Values
that are no numbers are among the rows, and a sum passes over them.

The theorems:

* `IsFirstOf.eq_of_perm`: the first value in an order is that of the collection.
* `Accumulator.sumsUp_feedAll`: the integer sum is kept as long as every running sum fits.
* `RunningFits.of_parts`, `Accumulator.exists_perm_parts`: running sums stay between the sums of the
  negative and of the positive numbers alone, and some order reaches each of the two.
* `Accumulator.result_reordered`: what the order of the rows changes, and what it does not.
-/

set_option autoImplicit false

namespace RecordQuery

/-- The first value of a list in an order is the first one of the list in any order, if only equal
values compare equal, `heq`. With floating-point numbers an integer may compare equal to another
value. -/
theorem IsFirstOf.eq_of_perm {cmp : Value → Value → Ordering} {p : Value → Prop}
    (htotal : TotalOn cmp p) (heq : ∀ {a b}, p a → p b → cmp a b = .eq → a = b)
    {values others : List Value} (hvalues : ∀ v ∈ values, p v) (hperm : others.Perm values)
    {first second : Option Value} (hfirst : IsFirstOf cmp values first)
    (hsecond : IsFirstOf cmp others second) : second = first := by
  cases first with
  | none =>
      obtain rfl : values = [] := hfirst
      obtain rfl : others = [] := hperm.eq_nil
      cases second with
      | none => rfl
      | some b => exact absurd hsecond.1 List.not_mem_nil
  | some a =>
      obtain ⟨ha, hleast⟩ := hfirst
      cases second with
      | none =>
          obtain rfl : others = [] := hsecond
          exact absurd (hperm.mem_iff.mpr ha) List.not_mem_nil
      | some b =>
          obtain ⟨hb, hother⟩ := hsecond
          have hb' : b ∈ values := hperm.mem_iff.mp hb
          -- each of the two comes before all values, and so before the other
          have hboth : cmp b a = .eq := htotal.eq_of_isLE (hvalues b hb') (hvalues a ha)
            (hother a (hperm.mem_iff.mpr ha)) (hleast b hb')
          rw [heq (hvalues b hb') (hvalues a ha) hboth]

/-! ## Running sums

A sum is exact as long as every sum on the way to it fits. No such sum leaves the range between the
sum of the negative numbers and that of the positive ones, so in any order it is enough that these
two fit (`RunningFits.of_parts`). -/

/-- The number is one of 64 bits, from `Int64.minValue` to `Int64.maxValue`. -/
def FitsInt64 (n : Int) : Prop := Int64.minValue.toInt ≤ n ∧ n ≤ Int64.maxValue.toInt

instance (n : Int) : Decidable (FitsInt64 n) := inferInstanceAs (Decidable (_ ∧ _))

/-- `Int64.ofInt` of a number that fits has this number for its `toInt`. -/
theorem FitsInt64.toInt_ofInt {n : Int} (h : FitsInt64 n) : (Int64.ofInt n).toInt = n :=
  Int64.toInt_ofInt_of_le h.1 (Int.lt_add_one_of_le h.2)

/-- Every beginning of the numbers, from `List.inits`, has a sum of 64 bits, the empty one and the
whole included. -/
def RunningFits (ns : List Int) : Prop := ∀ ms ∈ ns.inits, FitsInt64 ms.sum

instance (ns : List Int) : Decidable (RunningFits ns) :=
  inferInstanceAs (Decidable (∀ ms ∈ ns.inits, FitsInt64 ms.sum))

/-- The last running sum is that of all numbers, so it fits as well. -/
theorem RunningFits.toInt_sum {ns : List Int} (h : RunningFits ns) :
    (Int64.ofInt ns.sum).toInt = ns.sum :=
  FitsInt64.toInt_ofInt (h ns ((List.mem_inits ns ns).mpr List.prefix_rfl))

/-- With one more number `n`, `RunningFits` asks that the sum of all of them fits as well. -/
theorem runningFits_concat {ns : List Int} {n : Int} :
    RunningFits (ns ++ [n]) ↔ RunningFits ns ∧ FitsInt64 (ns.sum + n) := by
  have hsum : (ns ++ [n]).sum = ns.sum + n := by simp
  simp only [RunningFits, List.mem_inits, List.prefix_concat_iff]
  refine ⟨fun h => ⟨fun ms hms => h ms (.inr hms), hsum ▸ h _ (.inl rfl)⟩, fun h ms hms => ?_⟩
  rcases hms with rfl | hms
  · exact hsum ▸ h.2
  · exact h.1 ms hms

/-- The positive numbers alone. -/
def positives (ns : List Int) : List Int := ns.filter (0 < ·)

/-- The negative numbers alone. -/
def negatives (ns : List Int) : List Int := ns.filter (· < 0)

/-- The sum of some numbers lies between those of the `negatives` and of the `positives` alone. -/
theorem sum_between (ns : List Int) :
    ((negatives ns).sum ≤ 0 ∧ 0 ≤ (positives ns).sum) ∧
      (negatives ns).sum ≤ ns.sum ∧ ns.sum ≤ (positives ns).sum := by
  induction ns with
  | nil => decide
  | cons n ns ih =>
      unfold negatives positives at ih ⊢
      simp only [List.filter_cons, decide_eq_true_eq, apply_ite List.sum, List.sum_cons]
      split <;> split <;> omega

/-- Running sums stay between the sums of the `negatives` and of the `positives`. So if these fit,
every running sum does. -/
theorem RunningFits.of_parts {ns : List Int} (hnegatives : FitsInt64 (negatives ns).sum)
    (hpositives : FitsInt64 (positives ns).sum) : RunningFits ns := by
  intro ms hms
  obtain ⟨rest, rfl⟩ := (List.mem_inits ms ns).mp hms
  -- what has not been added yet only widens the range
  have hbefore := sum_between ms
  have hafter := sum_between rest
  unfold negatives positives FitsInt64 at *
  simp only [List.filter_append, List.sum_append] at hnegatives hpositives
  omega

namespace Accumulator

/-! ## The integers of some rows

Rows without a value, with null, or with a value that is no number take no part in a sum. What
remains are the `integers`, in the order of the rows. -/

/-- The number of an integer value, and `none` for any other value. -/
def integer? : Value → Option Int
  | .int n => some n.toInt
  | _ => none

/-- The integers among the values of some rows, in their order, as `integer?` reads them. -/
def integers (values : List (Option Value)) : List Int := values.filterMap (·.bind integer?)

/-- A row without a value, or with a null one, has no integer, so `present` may be applied
before. -/
theorem integers_present (values : List (Option Value)) :
    (present values).filterMap integer? = integers values := by
  induction values with
  | nil => rfl
  | cons value values ih =>
      cases value with
      | none => exact ih
      | some v => cases v <;> first | exact ih | exact congrArg (_ :: ·) ih

/-- Rows in another order have the same values that are not null (`present`). -/
theorem present_perm {values others : List (Option Value)} (h : others.Perm values) :
    (present others).Perm (present values) :=
  (h.filterMap id).filter _

/-- Rows in another order have the same `integers`. -/
theorem integers_perm {values others : List (Option Value)} (h : others.Perm values) :
    (integers others).Perm (integers values) :=
  h.filterMap _

/-- Among the rows whose integer has the property `p`, the `integers` are those that have it. -/
theorem integers_filter (values : List (Option Value)) (p : Int → Bool) :
    integers (values.filter fun value => (value.bind integer?).any p) =
      (integers values).filter p := by
  unfold integers
  rw [List.filterMap_filter, List.filter_filterMap]
  refine List.filterMap_congr fun value _ => ?_
  cases value.bind integer? with
  | none => rfl
  | some n => rfl

/-- The rows can be put in an order in which the integers with a property come first. With the
`positives` or the `negatives` in front, their sum is a running sum, one of `List.inits`. -/
theorem exists_perm_parts (values : List (Option Value)) (p : Int → Bool) :
    ∃ others, others.Perm values ∧ (integers values).filter p ∈ (integers others).inits := by
  let q : Option Value → Bool := fun value => (value.bind integer?).any p
  refine ⟨values.filter q ++ values.filter (!q ·), List.filter_append_perm q values, ?_⟩
  rw [List.mem_inits, ← integers_filter values p]
  unfold integers
  rw [List.filterMap_append]
  exact List.prefix_append _ _

/-! ## What has been summed up

The accumulator goes over to floating-point numbers when a sum does not fit, and stays with them.
`SumsUp` says what it holds after some integers. -/

/-- The sum of some integers as floating-point numbers, rounded at every step, as `floatSum` adds
them up. -/
def roundedSum (ns : List Int) : Binary64 := ns.foldl (fun sum n => sum.add (.ofInt n)) .zero

/-- The accumulator has summed up the integers `ns`: in `intSum` exactly as long as every running
sum fits, and in `floatSum` rounded in any case. -/
structure SumsUp (ns : List Int) (acc : Accumulator) : Prop where
  /-- Each of them is counted as a number. -/
  numeric : acc.numeric = ns.length
  /-- The exact sum, as long as there is one. -/
  int : ∀ total, acc.intSum = some total ↔ RunningFits ns ∧ total.toInt = ns.sum
  /-- The rounded sum. -/
  float : acc.floatSum = roundedSum ns

/-- Two integers are added if their sum fits, `FitsInt64`. -/
theorem addChecked?_iff {a b total : Int64} :
    addChecked? a b = some total ↔
      FitsInt64 (a.toInt + b.toInt) ∧ total.toInt = a.toInt + b.toInt := by
  have hfits : addChecked? a b = if FitsInt64 (a.toInt + b.toInt)
      then some (Int64.ofInt (a.toInt + b.toInt)) else none := rfl
  by_cases h : FitsInt64 (a.toInt + b.toInt)
  · rw [hfits, if_pos h, Option.some.injEq]
    refine ⟨fun heq => heq ▸ ⟨h, h.toInt_ofInt⟩, fun heq => Int64.toInt_inj.mp ?_⟩
    rw [h.toInt_ofInt, heq.2]
  · rw [hfits, if_neg h]
    exact ⟨nofun, fun heq => absurd heq.1 h⟩

/-- Before any row nothing has been summed up: `.empty` starts both sums at 0. -/
theorem sumsUp_empty : SumsUp [] .empty where
  numeric := rfl
  int total := by
    have hzero : RunningFits [] := by decide
    have hsum : (0 : Int64).toInt = ([] : List Int).sum := rfl
    rw [← hsum, Int64.toInt_inj]
    exact ⟨fun h => ⟨hzero, (Option.some.inj h).symm⟩, fun h => congrArg some h.2.symm⟩
  float := rfl

/-- `addValue` adds one more integer to the sums. A sum that did not fit before stays away. -/
theorem SumsUp.addInt {ns : List Int} {acc : Accumulator} (h : SumsUp ns acc) (n : Int64) :
    SumsUp (ns ++ [n.toInt]) (acc.addValue (.int n)) where
  numeric := by
    have hadd : (acc.addValue (.int n)).numeric = acc.numeric + 1 := rfl
    rw [hadd, h.numeric, List.length_append, List.length_singleton]
  int total := by
    have hadd : (acc.addValue (.int n)).intSum = acc.intSum.bind (addChecked? · n) := by
      show addToInt acc.intSum (.int n) = _
      cases acc.intSum <;> rfl
    have hsum : (ns ++ [n.toInt]).sum = ns.sum + n.toInt := by simp
    rw [hadd, Option.bind_eq_some_iff, runningFits_concat, hsum]
    constructor
    · rintro ⟨before, hbefore, hchecked⟩
      obtain ⟨hfits, hbefore⟩ := (h.int before).mp hbefore
      rw [← hbefore]
      exact ⟨⟨hfits, (addChecked?_iff.mp hchecked).1⟩, (addChecked?_iff.mp hchecked).2⟩
    · -- the sum so far is a running sum as well
      rintro ⟨⟨hfits, hnext⟩, htotal⟩
      refine ⟨Int64.ofInt ns.sum, (h.int _).mpr ⟨hfits, hfits.toInt_sum⟩, addChecked?_iff.mpr ?_⟩
      rw [hfits.toInt_sum]
      exact ⟨hnext, htotal⟩
  float := by
    have hadd : (acc.addValue (.int n)).floatSum = acc.floatSum.add (.ofInt n.toInt) := rfl
    unfold roundedSum
    rw [hadd, h.float, List.foldl_append]
    rfl

/-- `addValue` leaves the sums as they are for a value that is no number. -/
theorem SumsUp.addOther {ns : List Int} {acc : Accumulator} (h : SumsUp ns acc) {v : Value}
    (hv : v.number? = none) : SumsUp ns (acc.addValue v) := by
  have hnumeric : (acc.addValue v).numeric = acc.numeric := by simp only [addValue, hv]
  have hint : (acc.addValue v).intSum = acc.intSum := by simp only [addValue, hv]
  have hfloat : (acc.addValue v).floatSum = acc.floatSum := by simp only [addValue, hv]
  exact ⟨hnumeric.trans h.numeric, fun total => hint ▸ h.int total, hfloat.trans h.float⟩

/-- After `feedAll` of any rows without floating-point numbers, their `integers` have been summed
up. The induction is on the rows from the back. -/
theorem sumsUp_feedAll {values : List (Option Value)}
    (hexact : ∀ v ∈ present values, v.isExact = true) :
    SumsUp (integers values) (feedAll values) := by
  rw [← integers_present]
  refine feedAll_induction (P := fun vs acc => (∀ v ∈ vs, v.isExact = true) →
    SumsUp (vs.filterMap integer?) acc) (fun _ => sumsUp_empty)
    (fun _ _ h hvs => ⟨(h hvs).numeric, (h hvs).int, (h hvs).float⟩) ?_ values hexact
  intro vs acc v _ ih hvs
  have hbefore := ih fun w hw => hvs w (List.mem_append_left _ hw)
  have hv : v.isExact = true := hvs v (by simp)
  rw [List.filterMap_append]
  cases v with
  | int n => exact hbefore.addInt n
  | float x => cases hv
  | _ => exact (List.append_nil (vs.filterMap integer?)).symm ▸ hbefore.addOther rfl

/-- What a sum of integers comes to in the order they are fed: nothing without any integer, the
exact sum as long as `RunningFits` holds, and else the rounded one. -/
def integerSum (ns : List Int) : Value :=
  if ns = [] then .null
  else if RunningFits ns then .int (Int64.ofInt ns.sum)
  else .float (roundedSum ns)

/-- The result of a sum is read off from what has been summed up: `integerSum`. -/
theorem SumsUp.result_sum {ns : List Int} {acc : Accumulator} (h : SumsUp ns acc)
    (countsRows : Bool) : acc.result .sum countsRows = integerSum ns := by
  unfold result integerSum
  dsimp only
  refine if_congr (by rw [h.numeric, List.length_eq_zero_iff]) rfl ?_
  by_cases hfits : RunningFits ns
  · rw [(h.int _).mpr ⟨hfits, hfits.toInt_sum⟩, if_pos hfits]
  · have hnone : acc.intSum = none :=
      Option.eq_none_iff_forall_ne_some.mpr fun total htotal => hfits ((h.int total).mp htotal).1
    rw [hnone, if_neg hfits, h.float]

/-- `integerSum` is exact if there is an integer and every running sum fits. -/
theorem integerSum_exact_iff {ns : List Int} :
    (∃ total : Int64, total.toInt = ns.sum ∧ integerSum ns = .int total) ↔
      ns ≠ [] ∧ RunningFits ns := by
  unfold integerSum
  by_cases hempty : ns = []
  · simp [hempty]
  · by_cases hfits : RunningFits ns
    · simp only [if_neg hempty, if_pos hfits]
      exact iff_of_true ⟨_, hfits.toInt_sum, rfl⟩ ⟨hempty, hfits⟩
    · simp only [if_neg hempty, if_neg hfits]
      exact iff_of_false (fun ⟨_, _, h⟩ => nomatch h) fun h => hfits h.2

/-! ## Rows in another order

Counts and extreme values depend on the collection of rows alone. A sum can depend on their order
too, but only where some running sum does not fit. -/

section

variable {values : List (Option Value)} (hexact : ∀ v, some v ∈ values → v.isExact = true)

include hexact

/-- The values that are not null are some of the rows' values, which `hexact` is about. -/
theorem exact_of_mem_present {v : Value} (hv : v ∈ present values) : v.isExact = true :=
  hexact v (by simpa using List.mem_of_mem_filter hv)

/-- The counts, the smallest and the largest value are those of the collection of rows. `countsRows`
says whether a count is one of rows or of values. -/
theorem result_of_perm {others : List (Option Value)} (hperm : others.Perm values)
    {fn : AggregateFn} (hfn : fn = .count ∨ fn = .min ∨ fn = .max) (countsRows : Bool) :
    (feedAll others).result fn countsRows = (feedAll values).result fn countsRows := by
  have hpresent := present_perm hperm
  have hvalues : ∀ v ∈ present values, v.isExact = true := fun _ => exact_of_mem_present hexact
  have hothers : ∀ v ∈ present others, v.isExact = true :=
    fun v hv => hvalues v (hpresent.mem_iff.mp hv)
  have htotal := Value.totalOn_exact
  -- counts only count, and the first value of an order does not depend on where it stands
  rcases hfn with rfl | rfl | rfl
  · unfold result
    rw [rows_feedAll, rows_feedAll, nonNull_feedAll, nonNull_feedAll, hperm.length_eq,
      hpresent.length_eq]
  · have hmin := (min_feedAll htotal values hvalues).eq_of_perm htotal Value.eq_of_compare_eq
      hvalues hpresent (min_feedAll htotal others hothers)
    exact congrArg (·.getD .null) hmin
  · have hmax := (max_feedAll htotal values hvalues).eq_of_perm htotal.reversed
      (fun ha hb h => Value.eq_of_compare_eq ha hb (by simpa using h)) hvalues hpresent
      (max_feedAll htotal others hothers)
    exact congrArg (·.getD .null) hmax

/-- The `.sum` is what the `integers` come to in the order of the rows. -/
theorem result_sum (countsRows : Bool) :
    (feedAll values).result .sum countsRows = integerSum (integers values) :=
  (sumsUp_feedAll fun _ => exact_of_mem_present hexact).result_sum countsRows

/-- The order of rows without floating-point numbers does not change their counts, nor the smallest
or the largest value. The sum of their integers is exact as long as every running sum fits in the
order they come, and rounded from there on, `integerSum`; so it is exact in every order precisely if
the positive and the negative integers alone have sums that fit. -/
theorem result_reordered :
    (∀ others, others.Perm values → ∀ fn, fn = .count ∨ fn = .min ∨ fn = .max → ∀ countsRows,
      (feedAll others).result fn countsRows = (feedAll values).result fn countsRows) ∧
    (∀ countsRows, (feedAll values).result .sum countsRows = integerSum (integers values)) ∧
    (integers values ≠ [] →
      ((∀ others, others.Perm values → ∀ countsRows, ∃ total, total.toInt = (integers values).sum ∧
          (feedAll others).result .sum countsRows = .int total) ↔
        FitsInt64 (negatives (integers values)).sum ∧
          FitsInt64 (positives (integers values)).sum)) := by
  refine ⟨fun _ hperm _ hfn => result_of_perm hexact hperm hfn, result_sum hexact, fun hsome => ?_⟩
  have hsums : ∀ others, others.Perm values → ∀ countsRows,
      (∃ total, total.toInt = (integers values).sum ∧
        (feedAll others).result .sum countsRows = .int total) ↔ RunningFits (integers others) := by
    intro others hperm countsRows
    have hintegers := integers_perm hperm
    have hothers : integers others ≠ [] := fun h => hsome (hintegers.symm.trans (.of_eq h)).eq_nil
    rw [result_sum (fun v hv => hexact v (hperm.mem_iff.mp hv)), ← hintegers.sum_eq,
      integerSum_exact_iff]
    exact and_iff_right hothers
  constructor
  · -- the integers of one sign can come first, and are a beginning then
    intro h
    have hpart : ∀ p : Int → Bool, FitsInt64 ((integers values).filter p).sum := by
      intro p
      obtain ⟨others, hperm, hfirst⟩ := exists_perm_parts values p
      exact (hsums others hperm true).mp (h others hperm true) _ hfirst
    exact ⟨hpart _, hpart _⟩
  · rintro ⟨hnegatives, hpositives⟩ others hperm countsRows
    have hintegers := integers_perm hperm
    refine (hsums others hperm countsRows).mpr (RunningFits.of_parts ?_ ?_)
    · rwa [negatives, (hintegers.filter _).sum_eq]
    · rwa [positives, (hintegers.filter _).sum_eq]

end

/-- Rows with some integers, a text, a null value and no value. Their `integers` add up to 1. -/
def mixed : List (Option Value) :=
  [some (.int 3), none, some (.string "a"), some (.int (-5)), some .null, some (.int 3)]

/-- The rows of `mixed` turned around have the same smallest value and the same sum. -/
theorem result_mixed :
    (feedAll mixed.reverse).result .min false = (feedAll mixed).result .min false ∧
      ∃ total, total.toInt = 1 ∧ (feedAll mixed.reverse).result .sum false = .int total := by
  have hexact : ∀ v, some v ∈ mixed → v.isExact = true := by simp [mixed, Value.isExact]
  have hreordered := result_reordered hexact
  have hperm : mixed.reverse.Perm mixed := mixed.reverse_perm
  exact ⟨hreordered.1 _ hperm .min (.inr (.inl rfl)) false,
    (hreordered.2.2 (by decide)).mpr (by decide) _ hperm false⟩

/-- The largest integer, one more and one less again: the sum leaves the range on the way. -/
def widened : List (Option Value) :=
  [some (.int Int64.maxValue), some (.int 1), some (.int (-1))]

/-- The rows of `widened` in another order: one less and then one more, so every running sum
fits. -/
def restored : List (Option Value) :=
  [some (.int Int64.maxValue), some (.int (-1)), some (.int 1)]

/-- The sum of the integers is the largest one in any order: `restored` is summed up exactly, and
`widened` is rounded. -/
theorem result_widened :
    restored.Perm widened ∧ (∀ v, some v ∈ widened → v.isExact = true) ∧
      (integers widened).sum = Int64.maxValue.toInt ∧
      (feedAll restored).result .sum false = .int Int64.maxValue ∧
      (feedAll widened).result .sum false = .float (.ofInt (2 ^ 63)) := by
  refine ⟨?_, ?_, by decide, by rfl, by rfl⟩
  · exact .cons _ (.swap _ _ _)
  · simp [widened, Value.isExact]

end Accumulator

end RecordQuery
