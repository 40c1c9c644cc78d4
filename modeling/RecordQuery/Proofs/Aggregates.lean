import Mathlib.Data.List.Induction
import RecordQuery.Proofs.ValueOrder
import RecordQuery.Run.Grouping

/-!
# `RecordQuery.Proofs.Aggregates`: what an aggregate amounts to

An `Accumulator` is fed row by row (`Accumulator.feed`), with `none` where the aggregate has no
field, as `count(*)`. Null values count as rows and as nothing else. So the state after any rows is
what their values other than null, `Accumulator.present`, make of it one after the other.
`Accumulator.feedAll_induction` states this once as an induction principle, with one case for
counting a row and one for adding a value. The counts, the smallest value and the largest value are
instances of it. So are the sums, which need arithmetic and are in `RecordQuery.Proofs.RunningSums`.

`IsFirstOf` describes the smallest and the largest value at once: the largest is the first one in
the order turned around. It is a statement about a total order. Where values do not compare
transitively, the smallest value depends on the order of the rows.

The theorems:

* `Accumulator.feedAll_induction`: what each row and each value keeps up holds after any rows.
* `Accumulator.rows_feedAll`, `Accumulator.nonNull_feedAll`: the two counts.
* `Accumulator.min_feedAll`, `Accumulator.max_feedAll`: the smallest and the largest value, in a
  total order.
-/

set_option autoImplicit false

namespace RecordQuery

/-! ## The first value in an order -/

/-- `some first`: a value of the list that none of the others comes before. `none`: the list is
empty. Where several values compare equal, each of them is a first one. -/
def IsFirstOf (cmp : Value → Value → Ordering) (values : List Value) : Option Value → Prop
  | none => values = []
  | some first => first ∈ values ∧ ∀ v ∈ values, (cmp first v).isLE = true

/-- One step of a running minimum: `v` if it comes strictly before `best`, and else `best`. So of
equal values the earlier one stays. -/
def firstOf (cmp : Value → Value → Ordering) (best : Option Value) (v : Value) : Value :=
  match best with
  | none => v
  | some m => if (cmp v m).isLT then v else m

/-- `firstOf` keeps `IsFirstOf` when one more value comes at the end of the list. `htotal` is needed
where `v` becomes the first one: it comes before `best`, and so before all that `best` comes
before. -/
theorem IsFirstOf.concat {cmp : Value → Value → Ordering} {p : Value → Prop}
    (htotal : TotalOn cmp p) {values : List Value} (hvalues : ∀ v ∈ values, p v) {v : Value}
    (hv : p v) {best : Option Value} (h : IsFirstOf cmp values best) :
    IsFirstOf cmp (values ++ [v]) (some (firstOf cmp best v)) := by
  have hself : (cmp v v).isLE = true := by
    rw [htotal.refl hv]
    rfl
  cases best with
  | none =>
      obtain rfl : values = [] := h
      show v ∈ [v] ∧ ∀ w ∈ [v], (cmp v w).isLE = true
      refine ⟨List.mem_singleton_self v, fun w hw => ?_⟩
      rw [List.mem_singleton.mp hw]
      exact hself
  | some m =>
      obtain ⟨hm, hleast⟩ : m ∈ values ∧ ∀ w ∈ values, (cmp m w).isLE = true := h
      by_cases hlt : cmp v m = .lt
      · have hfirst : firstOf cmp (some m) v = v := if_pos (by rw [hlt]; rfl)
        rw [hfirst]
        refine ⟨by simp, fun w hw => ?_⟩
        rcases List.mem_append.mp hw with hw | hw
        · rw [htotal.lt_of_lt_of_isLE hv (hvalues m hm) (hvalues w hw) hlt (hleast w hw)]
          rfl
        · rw [List.mem_singleton.mp hw]
          exact hself
      · have hfirst : firstOf cmp (some m) v = m := if_neg (by simpa using hlt)
        rw [hfirst]
        refine ⟨by simp [hm], fun w hw => ?_⟩
        rcases List.mem_append.mp hw with hw | hw
        · exact hleast w hw
        · -- the new value does not come before the one that is kept
          rw [List.mem_singleton.mp hw, htotal.swap hv (hvalues m hm)]
          cases hcmp : cmp v m <;> simp_all

namespace Accumulator

/-! ## Runs of an accumulator -/

/-- The accumulator after some rows, from `Accumulator.empty` on. -/
def feedAll (values : List (Option Value)) : Accumulator := values.foldl feed .empty

/-- The values of some rows, those that are null and those of rows without a field (`none`) left
out. -/
def present (values : List (Option Value)) : List Value :=
  (values.filterMap id).filter fun v => !v.isNull

/-- A row without a value, or with a null one, is counted in `rows` and changes nothing else. -/
theorem feed_of_absent {acc : Accumulator} {value : Option Value} (h : present [value] = []) :
    acc.feed value = { acc with rows := acc.rows + 1 } := by
  cases value with
  | none => rfl
  | some v =>
      have hnull : v.isNull = true := by simpa [present] using h
      simp only [feed, hnull, if_true]

/-- A value other than null is counted with its row, and added by `Accumulator.add`. -/
theorem feed_of_present {acc : Accumulator} {v : Value} (h : v.isNull = false) :
    acc.feed (some v) = { acc with rows := acc.rows + 1 }.addValue v := by
  simp only [feed, h, Bool.false_eq_true, if_false]

/-- `feedAll` of one more row feeds it to what the others have come to. -/
theorem feedAll_concat (values : List (Option Value)) (fed : Option Value) :
    feedAll (values ++ [fed]) = (feedAll values).feed fed := by
  unfold feedAll
  rw [List.foldl_append, List.foldl_cons, List.foldl_nil]

/-- The induction principle for runs of an accumulator. `P` relates the values other than null to
the accumulator. `empty` is the case before any row, `row` that of a row that is only counted, and
`add` that of one more value. The induction is from the end of the list, as `feedAll` is a left
fold. -/
theorem feedAll_induction {P : List Value → Accumulator → Prop} (empty : P [] .empty)
    (row : ∀ vs acc, P vs acc → P vs { acc with rows := acc.rows + 1 })
    (value : ∀ vs acc v, v.isNull = false → P vs acc → P (vs ++ [v]) (acc.addValue v))
    (values : List (Option Value)) : P (present values) (feedAll values) := by
  induction values using List.reverseRecOn with
  | nil => exact empty
  | append_singleton values fed ih =>
      have hpresent : present (values ++ [fed]) = present values ++ present [fed] := by
        unfold present
        rw [List.filterMap_append, List.filter_append]
      rw [feedAll_concat, hpresent]
      -- a missing value and a null count as a row, and add nothing
      by_cases habsent : present [fed] = []
      · rw [habsent, List.append_nil, feed_of_absent habsent]
        exact row _ _ ih
      · obtain ⟨v, rfl, hv⟩ : ∃ v, fed = some v ∧ v.isNull = false := by
          cases fed with
          | none => exact absurd rfl habsent
          | some v => exact ⟨v, rfl, by simpa [present] using habsent⟩
        have hone : present [some v] = [v] := by simp [present, hv]
        rw [hone, feed_of_present hv]
        exact value _ _ v hv (row _ _ ih)

/-- `feedAll` counts every row, with a value or without one. -/
theorem rows_feedAll (values : List (Option Value)) : (feedAll values).rows = values.length := by
  induction values using List.reverseRecOn with
  | nil => rfl
  | append_singleton values fed ih =>
      have hfeed : ((feedAll values).feed fed).rows = (feedAll values).rows + 1 := by
        cases fed with
        | none => rfl
        | some v =>
            simp only [feed, addValue]
            split
            · rfl
            · split <;> rfl
      rw [feedAll_concat, hfeed, ih, List.length_append, List.length_singleton]

/-- Every value other than null is counted. This is what `count(field)` gives. -/
theorem nonNull_feedAll (values : List (Option Value)) :
    (feedAll values).nonNull = (present values).length := by
  refine feedAll_induction (P := fun vs acc => acc.nonNull = vs.length) rfl (fun _ _ h => h) ?_
    values
  intro vs acc v _ h
  have hadd : (acc.addValue v).nonNull = acc.nonNull + 1 := by
    unfold addValue
    dsimp only
    split <;> rfl
  rw [hadd, h, List.length_append, List.length_singleton]

section

variable {p : Value → Prop} (htotal : TotalOn Value.compare p)

include htotal

/-- The smallest value is the first one of `present values`, if the order is total on these. With no
such value it is `none`, and the aggregate gives null. -/
theorem min_feedAll (values : List (Option Value)) (hvalues : ∀ v ∈ present values, p v) :
    IsFirstOf Value.compare (present values) (feedAll values).min := by
  refine feedAll_induction (P := fun vs acc => (∀ v ∈ vs, p v) → IsFirstOf Value.compare vs acc.min)
    (fun _ => rfl) (fun _ _ h => h) ?_ values hvalues
  intro vs acc v _ ih hvs
  have hmin : (acc.addValue v).min = some (firstOf Value.compare acc.min v) := rfl
  have hbefore : ∀ w ∈ vs, p w := fun w hw => hvs w (List.mem_append_left _ hw)
  rw [hmin]
  exact (ih hbefore).concat htotal hbefore (hvs v (by simp))

/-- The largest value is the first one in the order turned around, if the order is total on
`present values`. -/
theorem max_feedAll (values : List (Option Value)) (hvalues : ∀ v ∈ present values, p v) :
    IsFirstOf (fun a b => (a.compare b).swap) (present values) (feedAll values).max := by
  refine feedAll_induction
    (P := fun vs acc => (∀ v ∈ vs, p v) → IsFirstOf (fun a b => (a.compare b).swap) vs acc.max)
    (fun _ => rfl) (fun _ _ h => h) ?_ values hvalues
  intro vs acc v _ ih hvs
  have hmax : (acc.addValue v).max =
      some (firstOf (fun a b => (a.compare b).swap) acc.max v) := by
    unfold addValue firstOf
    cases acc.max with
    | none => rfl
    | some m => simp only [Ordering.isLT_swap]
  have hbefore : ∀ w ∈ vs, p w := fun w hw => hvs w (List.mem_append_left _ hw)
  rw [hmax]
  exact (ih hbefore).concat htotal.reversed hbefore (hvs v (by simp))

end

end Accumulator

end RecordQuery
