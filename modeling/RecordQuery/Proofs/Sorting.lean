import Mathlib.Data.List.Perm.Basic
import RecordQuery.Proofs.Order
import RecordQuery.StableSort

/-!
# `RecordQuery.Proofs.Sorting`: what sorting gives

`stableSortBy` models the sort of the program down to its runs. The program sorts values beyond
`2 ^ 53` too, on which the comparison is no total order, and then the outcome depends on which
elements are compared. For such comparisons only one thing is proved: whatever the comparison,
sorting rearranges the elements. `Runs` has one lemma for each step of the algorithm, from ordering
two elements to joining runs, and each of them says that the step loses and invents nothing.

The order of the outcome is stated for comparisons that are total on the elements (`TotalOn cmp p`).
There the steps of the algorithm do not matter. `stableSortBy_eq_insertionSort` brings every sort
back to insertion into a descending list, and the rest of the module is about that.

The theorems:

* `insertionSort_perm`, `Runs.sortRuns_perm`, `stableSort_perm`: no way of sorting loses or invents
  elements, not even in an order that contradicts itself.
* `stableSortBy_eq_insertionSort`, `stableSortBy_ascending`: in a total order `stableSortBy` is
  insertion sort, whatever runs it finds, and its outcome is ascending.
* `insertionSort_least`: the element that is sorted to the front. It is the step of a merge.
* `take_stableSortBy`: to the first elements of a sorted list it does not matter whether the list
  was cut back to as many elements before. A page with LIMIT sorts so.
* `sortDistinct_strict`, `sortChoices_strict`, `mem_sortDistinct`: sorting with repeats dropped
  gives each element once, in strictly ascending order.
-/

set_option autoImplicit false

namespace RecordQuery

universe u

variable {α : Type u} {cmp : α → α → Ordering} {p : α → Prop}

/-- No element comes after one that stands behind it, as `cmp` compares them. Equal elements may
stand next to each other. -/
def Ascending (cmp : α → α → Ordering) (xs : List α) : Prop :=
  xs.Pairwise fun x y => (cmp x y).isLE = true

/-- Every element comes strictly before those that stand behind it, so no two elements compare
`.eq`. -/
def StrictlyAscending (cmp : α → α → Ordering) (xs : List α) : Prop :=
  xs.Pairwise fun x y => cmp x y = .lt

/-! ## Insertion

Inserting into a descending list is what every sort is compared with. An element goes behind all
that are larger and before those that equal it, so equal ones keep their order when the list is read
from its end. -/

/-- `insertDown` puts the element among the others, and drops none of them. -/
theorem insertDown_perm (cmp : α → α → Ordering) (x : α) (ys : List α) :
    (insertDown cmp x ys).Perm (x :: ys) := by
  induction ys with
  | nil => exact .refl _
  | cons y ys ih =>
      simp only [insertDown]
      split
      · exact (ih.cons y).trans (.swap x y ys)
      · exact .refl _

/-- `insertDown` puts elements into a list, one after the other, and loses none. -/
theorem foldl_insertDown_perm (cmp : α → α → Ordering) (xs down : List α) :
    (xs.foldl (fun down x => insertDown cmp x down) down).Perm (xs ++ down) := by
  induction xs generalizing down with
  | nil => exact .refl _
  | cons x xs ih =>
      exact (ih _).trans (((insertDown_perm cmp x down).append_left xs).trans List.perm_middle)

/-- `insertAll` keeps the elements sorted before and those inserted. -/
theorem insertAll_perm (cmp : α → α → Ordering) (sorted xs : List α) :
    (insertAll cmp sorted xs).Perm (sorted ++ xs) := by
  have hfold := foldl_insertDown_perm cmp xs sorted.reverse
  exact (List.reverse_perm _).trans
    (hfold.trans (((List.reverse_perm sorted).append_left xs).trans List.perm_append_comm))

/-- `insertionSort` rearranges the elements. -/
theorem insertionSort_perm (cmp : α → α → Ordering) (xs : List α) :
    (insertionSort cmp xs).Perm xs :=
  insertAll_perm cmp [] xs

/-- In a total order `insertDown` keeps a descending list descending. The list is descending, and
not ascending, because the sort compares a new element with the last one sorted first. -/
theorem insertDown_descending (h : TotalOn cmp p) {x : α} {ys : List α} (hx : p x)
    (hys : ∀ y ∈ ys, p y) (hsorted : ys.Pairwise fun a b => (cmp b a).isLE = true) :
    (insertDown cmp x ys).Pairwise fun a b => (cmp b a).isLE = true := by
  induction ys with
  | nil => exact List.pairwise_singleton _ _
  | cons y ys ih =>
      have hy := hys y (List.mem_cons_self ..)
      obtain ⟨hfirst, hrest⟩ := List.pairwise_cons.mp hsorted
      simp only [insertDown]
      -- a smaller element goes on towards the end; otherwise it stands in front of all the rest
      split
      next hlt =>
        refine List.pairwise_cons.mpr
          ⟨?_, ih (fun z hz => hys z (List.mem_cons_of_mem _ hz)) hrest⟩
        intro z hz
        rcases List.mem_cons.mp ((insertDown_perm cmp x ys).mem_iff.mp hz) with rfl | hz
        · cases hcmp : cmp z y <;> simp_all
        · exact hfirst z hz
      next hge =>
        have hyx : (cmp y x).isLE = true := by
          rw [h.swap hx hy]
          cases hcmp : cmp x y <;> simp_all
        refine List.pairwise_cons.mpr ⟨?_, hsorted⟩
        intro z hz
        rcases List.mem_cons.mp hz with rfl | hz
        · exact hyx
        · exact h.isLE_trans (hys z (List.mem_cons_of_mem _ hz)) hy hx (hfirst z hz) hyx

/-- `insertDown` keeps a descending list descending, for one element after the other. -/
theorem foldl_insertDown_descending (h : TotalOn cmp p) (xs down : List α)
    (hxs : ∀ x ∈ xs, p x) (hdown : ∀ y ∈ down, p y)
    (hsorted : down.Pairwise fun a b => (cmp b a).isLE = true) :
    (xs.foldl (fun down x => insertDown cmp x down) down).Pairwise
      fun a b => (cmp b a).isLE = true := by
  induction xs generalizing down with
  | nil => exact hsorted
  | cons x xs ih =>
      have hx := hxs x (List.mem_cons_self ..)
      refine ih _ (fun z hz => hxs z (List.mem_cons_of_mem _ hz)) ?_
        (insertDown_descending h hx hdown hsorted)
      intro z hz
      rcases List.mem_cons.mp ((insertDown_perm cmp x down).mem_iff.mp hz) with rfl | hz
      · exact hx
      · exact hdown z hz

/-- In a total order `insertionSort` gives an ascending list. -/
theorem insertionSort_ascending (h : TotalOn cmp p) {xs : List α} (hxs : ∀ x ∈ xs, p x) :
    Ascending cmp (insertionSort cmp xs) := by
  have hdown := foldl_insertDown_descending h xs [] hxs (by simp) List.Pairwise.nil
  exact List.pairwise_reverse.mpr hdown

/-! ## Runs

Every step of sorting by runs rearranges the elements it works on. -/

namespace Runs

/-- `sort2` gives back its two elements. -/
theorem sort2_perm (cmp : α → α → Ordering) (x y : α) :
    [(sort2 cmp x y).1, (sort2 cmp x y).2].Perm [x, y] := by
  unfold sort2
  split
  · exact .swap x y []
  · exact .refl _

/-- `sort4` gives back its four elements. -/
theorem sort4_perm (cmp : α → α → Ordering) (w x y z : α) :
    (sort4 cmp w x y z).Perm [w, x, y, z] := by
  have hall := (sort2_perm cmp w x).append (sort2_perm cmp y z)
  unfold sort4
  generalize sort2 cmp w x = ab at hall ⊢
  generalize sort2 cmp y z = cd at hall ⊢
  obtain ⟨a, b⟩ := ab
  obtain ⟨c, d⟩ := cd
  refine List.Perm.trans ?_ hall
  -- the two elements that `sort2` puts into the middle, between an outer pair
  have hmiddle : ∀ s t u v : α,
      [s, (sort2 cmp t u).1, (sort2 cmp t u).2, v].Perm [s, t, u, v] := fun s t u v =>
    ((sort2_perm cmp t u).append_right [v]).cons s
  show List.Perm _ [a, b, c, d]
  dsimp only
  split
  · exact hmiddle a b c d
  · refine (hmiddle a c d b).trans (List.Perm.cons a ?_)
    exact (show ([c, d] ++ [b]).Perm ([b] ++ [c, d]) from List.perm_append_comm)
  · refine (hmiddle c a b d).trans ?_
    exact List.Perm.append_right [d]
      (show ([c] ++ [a, b]).Perm ([a, b] ++ [c]) from List.perm_append_comm)
  · refine (hmiddle c a d b).trans ((List.Perm.swap a c [d, b]).trans (List.Perm.cons a ?_))
    exact (show ([c, d] ++ [b]).Perm ([b] ++ [c, d]) from List.perm_append_comm)

/-- `mergeFront` takes as many elements off the two lists as it has steps, `i` of them off the first
list. Which ones depends on the comparison, and nothing else does. -/
theorem mergeFront_takes (cmp : α → α → Ordering) {steps : Nat} {xs ys : List α}
    (hxs : steps ≤ xs.length) (hys : steps ≤ ys.length) :
    ∃ i ≤ steps, (mergeFront cmp steps xs ys).1.Perm (xs.take i ++ ys.take (steps - i)) ∧
      (mergeFront cmp steps xs ys).2 = (xs.drop i, ys.drop (steps - i)) := by
  induction steps generalizing xs ys with
  | zero => exact ⟨0, by omega, by simp [mergeFront]⟩
  | succ steps ih =>
      match xs, ys with
      | [], _ => simp at hxs
      | _ :: _, [] => simp at hys
      | x :: xs, y :: ys =>
          simp only [List.length_cons] at hxs hys
          simp only [mergeFront]
          -- the step takes from the right only if its element is strictly smaller
          split
          · obtain ⟨i, hi, hperm, hrest⟩ := @ih (x :: xs) ys
              (by simp only [List.length_cons]; omega) (by omega)
            refine ⟨i, by omega, ?_, ?_⟩
            · rw [show steps + 1 - i = steps - i + 1 by omega, List.take_succ_cons]
              exact (hperm.cons y).trans List.perm_middle.symm
            · rw [show steps + 1 - i = steps - i + 1 by omega, List.drop_succ_cons]
              exact hrest
          · obtain ⟨i, hi, hperm, hrest⟩ := @ih xs (y :: ys) (by omega)
              (by simp only [List.length_cons]; omega)
            refine ⟨i + 1, by omega, ?_, ?_⟩
            · rw [show steps + 1 - (i + 1) = steps - i by omega, List.take_succ_cons]
              exact hperm.cons x
            · rw [show steps + 1 - (i + 1) = steps - i by omega, List.drop_succ_cons]
              exact hrest

/-- Merging from the back is merging the reversed lists from the front, with their roles and the
order exchanged. So what is proved of `mergeFront` holds of `mergeBack`. -/
theorem mergeBack_eq (cmp : α → α → Ordering) (steps : Nat) (xs ys : List α) :
    mergeBack cmp steps xs ys =
      ((mergeFront (fun a b => cmp b a) steps ys xs).1,
        (mergeFront (fun a b => cmp b a) steps ys xs).2.2,
        (mergeFront (fun a b => cmp b a) steps ys xs).2.1) := by
  induction steps generalizing xs ys with
  | zero => cases xs <;> cases ys <;> rfl
  | succ steps ih =>
      match xs, ys with
      | [], [] => rfl
      | [], _ :: _ => rfl
      | _ :: _, [] => rfl
      | x :: xs, y :: ys =>
          simp only [mergeBack, mergeFront]
          split
          · rw [ih]
          · rw [ih]

/-- The last `j` elements of a list are the first ones of the reversed list. -/
theorem take_reverse_perm (xs : List α) {i j : Nat} (h : i + j = xs.length) :
    (xs.reverse.take j).Perm (xs.drop i) := by
  rw [List.take_reverse, show xs.length - j = i by omega]
  exact List.reverse_perm _

/-- The beginnings of two lists and then their ends are the two lists. It puts the two halves of
`mergeHalves` together, one merged from the front and one from the back. -/
theorem append_halves_perm {front back as bs as' bs' xs ys : List α}
    (hfront : front.Perm (as ++ bs)) (hback : back.Perm (as' ++ bs'))
    (hxs : (as ++ as').Perm xs) (hys : (bs ++ bs').Perm ys) :
    (front ++ back).Perm (xs ++ ys) := by
  refine (hfront.append hback).trans (List.Perm.trans ?_ (hxs.append hys))
  rw [List.append_assoc, List.append_assoc]
  refine List.Perm.append_left as ?_
  rw [← List.append_assoc, ← List.append_assoc]
  exact List.Perm.append_right bs' List.perm_append_comm

/-- `mergeHalves` gives the elements of both halves. From the front and from the back it makes as
many steps as the halves have elements. So the two merges meet, and no element is taken twice,
whatever the comparison. -/
theorem mergeHalves_perm (cmp : α → α → Ordering) {left right : List α}
    (h : right.length = left.length ∨ right.length = left.length + 1) :
    (mergeHalves cmp left right).Perm (left ++ right) := by
  obtain ⟨i, hi, hfront, hrest⟩ :=
    mergeFront_takes cmp (Nat.le_refl left.length) (show left.length ≤ right.length by omega)
  obtain ⟨j, hj, hback, hrest'⟩ :=
    @mergeFront_takes α (fun a b => cmp b a) left.length right.reverse left.reverse
      (by simp only [List.length_reverse]; omega) (by simp)
  simp only [mergeHalves, mergeBack_eq, hrest, hrest', List.length_drop, List.length_reverse]
  generalize (mergeFront cmp left.length left right).1 = front at hfront ⊢
  generalize (mergeFront (fun a b => cmp b a) left.length right.reverse left.reverse).1 = back
    at hback ⊢
  -- the back takes `j` elements of the second half and the others of the first half
  have hback' : back.reverse.Perm
      (left.drop j ++ right.drop (right.length - j)) := by
    refine (List.reverse_perm _).trans (hback.trans (List.perm_append_comm.trans ?_))
    exact (take_reverse_perm left (by omega)).append (take_reverse_perm right (by omega))
  split
  · split
    · refine append_halves_perm hfront hback' ?_ ?_
      · rw [show j = i by omega, List.take_append_drop]
      · rw [show right.length - j = left.length - i by omega, List.take_append_drop]
    · exact .refl _
  · split
    · rw [List.append_assoc]
      have hmiddle : ((right.drop (left.length - i)).take 1 ++ back.reverse).Perm
          (left.drop j ++ right.drop (left.length - i)) := by
        rw [show right.length - j = left.length - i + 1 by omega] at hback'
        refine (hback'.append_left _).trans ?_
        rw [← List.append_assoc]
        refine (List.perm_append_comm.append_right _).trans ?_
        rw [List.append_assoc, ← List.drop_drop, List.take_append_drop]
      refine append_halves_perm hfront hmiddle ?_ ?_
      · rw [show j = i by omega, List.take_append_drop]
      · rw [List.take_append_drop]
    · split
      · rw [List.append_assoc]
        have hmiddle : ((left.drop i).take 1 ++ back.reverse).Perm
            (left.drop i ++ right.drop (left.length - i)) := by
          rw [show right.length - j = left.length - i by omega,
            show j = i + 1 by omega] at hback'
          refine (hback'.append_left _).trans ?_
          rw [← List.append_assoc, ← List.drop_drop, List.take_append_drop]
        refine append_halves_perm hfront hmiddle ?_ ?_
        · rw [List.take_append_drop]
        · rw [List.take_append_drop]
      · exact .refl _

/-- `sortFirst` rearranges the first elements of a half. -/
theorem sortFirst_perm (cmp : α → α → Ordering) (xs : List α) :
    (sortFirst cmp xs).Perm xs := by
  unfold sortFirst
  split
  · exact sort4_perm ..
  · next a b c d w x y z =>
      have hleft := sort4_perm cmp a b c d
      have hright := sort4_perm cmp w x y z
      have hlength : (sort4 cmp w x y z).length = (sort4 cmp a b c d).length := by
        rw [hleft.length_eq, hright.length_eq]
        rfl
      exact (mergeHalves_perm cmp (Or.inl hlength)).trans (hleft.append hright)
  · exact insertionSort_perm ..

/-- `sortHalf` rearranges a half. -/
theorem sortHalf_perm (cmp : α → α → Ordering) (first : Nat) (xs : List α) :
    (sortHalf cmp first xs).Perm xs := by
  refine (insertAll_perm cmp _ _).trans ?_
  refine ((sortFirst_perm cmp _).append_right _).trans ?_
  rw [List.take_append_drop]

/-- `sortPiece` rearranges a short piece, whatever `lead` is. -/
theorem sortPiece_perm (cmp : α → α → Ordering) (lead : Nat) (xs : List α) :
    (sortPiece cmp lead xs).Perm xs := by
  have hleft := sortHalf_perm cmp (firstLength lead xs.length) (xs.take (xs.length / 2))
  have hright := sortHalf_perm cmp (firstLength lead xs.length) (xs.drop (xs.length / 2))
  refine (mergeHalves_perm cmp ?_).trans ((hleft.append hright).trans ?_)
  · rw [hleft.length_eq, hright.length_eq, List.length_take, List.length_drop]
    omega
  · rw [List.take_append_drop]

/-- `frontRun` parts the list into the run at its front, turned around if it descends, and the
rest. -/
theorem frontRun_perm (cmp : α → α → Ordering) (xs : List α) :
    ((frontRun cmp xs).1 ++ (frontRun cmp xs).2).Perm xs := by
  unfold frontRun
  split
  · next x y ys =>
      dsimp only
      split
      · refine ((List.reverse_perm _).append_right _).trans ?_
        rw [List.take_append_drop]
      · rw [List.take_append_drop]
  · rw [List.append_nil]

/-- The `frontRun` of a list that is not empty has an element, so cutting runs off comes to an
end. -/
theorem frontRun_length_pos (cmp : α → α → Ordering) {xs : List α} (h : xs ≠ []) :
    0 < (frontRun cmp xs).1.length := by
  unfold frontRun
  split
  · dsimp only
    split <;> simp
  · exact List.length_pos_of_ne_nil h

/-- `takeRun` parts the list into the next run, which may be a short piece that it sorts itself, and
the rest. -/
theorem takeRun_perm (cmp : α → α → Ordering) (lead goodLength : Nat) (eager : Bool)
    (xs : List α) :
    ((takeRun cmp lead goodLength eager xs).1.items ++
      (takeRun cmp lead goodLength eager xs).2).Perm xs := by
  have hfront := frontRun_perm cmp xs
  unfold takeRun
  generalize frontRun cmp xs = front at hfront ⊢
  obtain ⟨run, rest⟩ := front
  dsimp only
  split
  · exact hfront
  · split
    · refine ((sortPiece_perm cmp lead _).append_right _).trans ?_
      rw [List.take_append_drop]
    · rw [List.take_append_drop]

/-- `takeRun` takes at least one element off a list that is not empty, so as many rounds as elements
are enough. -/
theorem takeRun_length_lt (cmp : α → α → Ordering) (lead goodLength : Nat) (eager : Bool)
    {xs : List α} (h : xs ≠ []) :
    (takeRun cmp lead goodLength eager xs).2.length < xs.length := by
  have hlength := (frontRun_perm cmp xs).length_eq
  have hfront := frontRun_length_pos cmp h
  have hxs := List.length_pos_of_ne_nil h
  have hlimit : 0 < pieceLimit := by decide
  unfold takeRun
  -- a run has an element, and a piece cut instead of it has a positive length
  generalize frontRun cmp xs = front at hlength hfront ⊢
  obtain ⟨run, rest⟩ := front
  rw [List.length_append] at hlength
  dsimp only at hlength hfront ⊢
  split
  · show rest.length < xs.length
    omega
  · split
    · rw [List.length_drop]
      omega
    · rw [List.length_drop]
      omega

/-- `mergeSorted` has the elements of both lists. -/
theorem mergeSorted_perm (cmp : α → α → Ordering) (left right : List α) :
    (mergeSorted cmp left right).Perm (left ++ right) := by
  unfold mergeSorted
  split
  · exact List.merge_perm_append _
  · refine (List.reverse_perm _).trans ((List.merge_perm_append _).trans ?_)
    refine ((List.reverse_perm right).append (List.reverse_perm left)).trans ?_
    exact List.perm_append_comm

section

variable {sort : List α → List α} (hsort : ∀ xs, (sort xs).Perm xs)

include hsort

/-- `Run.order` rearranges the items of a run. -/
theorem Run.order_perm (run : Run α) : (run.order sort).Perm run.items := by
  unfold Run.order
  split
  · exact .refl _
  · exact hsort _

/-- `Run.join` has the items of both runs. -/
theorem Run.join_perm (cmp : α → α → Ordering) (left right : Run α) :
    (left.join cmp sort right).items.Perm (left.items ++ right.items) := by
  unfold Run.join
  split
  · exact (mergeSorted_perm cmp _ _).trans
      ((Run.order_perm hsort left).append (Run.order_perm hsort right))
  · exact .refl _

/-- `joinDeeper` joins the last runs of the stack and keeps the items of all of them. -/
theorem joinDeeper_perm (cmp : α → α → Ordering) (depth : Nat) (before : List (Run α × Nat))
    (last : Run α) :
    ((joinDeeper cmp sort depth before last).1.flatMap (·.1.items) ++
      (joinDeeper cmp sort depth before last).2.items).Perm
      (before.flatMap (·.1.items) ++ last.items) := by
  induction before generalizing last with
  | nil => exact .refl _
  | cons entry before ih =>
      obtain ⟨run, border⟩ := entry
      simp only [joinDeeper]
      split
      · refine (ih _).trans ?_
        refine ((Run.join_perm hsort cmp run last).append_left _).trans ?_
        rw [← List.append_assoc]
        exact List.Perm.append_right last.items List.perm_append_comm
      · exact .refl _

/-- At depth zero `joinDeeper` joins every run. -/
theorem joinDeeper_zero_perm (cmp : α → α → Ordering) (before : List (Run α × Nat))
    (last : Run α) :
    (joinDeeper cmp sort 0 before last).2.items.Perm
      (before.flatMap (·.1.items) ++ last.items) := by
  have hempty : (joinDeeper cmp sort 0 before last).1 = [] := by
    induction before generalizing last with
    | nil => rfl
    | cons entry before ih =>
        obtain ⟨run, border⟩ := entry
        simp only [joinDeeper, Nat.zero_le, if_true]
        exact ih _
  have hall := joinDeeper_perm hsort cmp 0 before last
  rwa [hempty, List.flatMap_nil, List.nil_append] at hall

/-- The runs taken off a list and joined are the elements of the list. `h`: there are as many rounds
as elements, so the list is used up. -/
theorem joinRuns_perm (cmp : α → α → Ordering) (lead length goodLength : Nat) (eager : Bool)
    {rounds taken : Nat} {before : List (Run α × Nat)} {last : Run α} {rest : List α}
    (h : rest.length ≤ rounds) :
    (joinRuns cmp sort lead length goodLength eager rounds taken before last rest).items.Perm
      (before.flatMap (·.1.items) ++ last.items ++ rest) := by
  -- on the rounds: each takes a run off the rest, which is shorter after it
  induction rounds generalizing taken before last rest with
  | zero =>
      have hrest : rest = [] := List.eq_nil_of_length_eq_zero (by omega)
      subst hrest
      rw [List.append_nil]
      exact joinDeeper_zero_perm hsort cmp before last
  | succ rounds ih =>
      match rest with
      | [] =>
          rw [List.append_nil]
          exact joinDeeper_zero_perm hsort cmp before last
      | x :: rest =>
          have htake := takeRun_perm cmp lead goodLength eager (x :: rest)
          have hlength := takeRun_length_lt cmp lead goodLength eager (List.cons_ne_nil x rest)
          simp only [joinRuns]
          generalize takeRun cmp lead goodLength eager (x :: rest) = taking at htake hlength ⊢
          obtain ⟨next, others⟩ := taking
          simp only [List.length_cons] at h hlength htake
          have hrounds : others.length ≤ rounds := by omega
          refine (ih hrounds).trans ?_
          rw [List.flatMap_cons]
          -- the run that was taken is now the last one, and what was joined stands before it
          refine List.Perm.trans ?_ (htake.append_left _)
          rw [List.append_assoc]
          refine List.Perm.append_right _ ?_
          exact List.perm_append_comm.trans (joinDeeper_perm hsort cmp _ before last)

/-- Sorting by runs rearranges the elements, if the sort of its unsorted runs does (`hsort`). The
two sorts call each other, so this is a hypothesis here, and `sortByPivots_perm` discharges it. -/
theorem sortRuns_perm (cmp : α → α → Ordering) (lead : Nat) (eager : Bool) (xs : List α) :
    (sortRuns cmp sort lead eager xs).Perm xs := by
  unfold sortRuns
  dsimp only
  generalize (if xs.length ≤ 4096 then min (xs.length - xs.length / 2) 64
    else roughRoot xs.length) = goodLength
  have htake := takeRun_perm cmp lead goodLength eager xs
  have hlength := htake.length_eq
  rw [List.length_append] at hlength
  refine (Run.order_perm hsort _).trans ((joinRuns_perm hsort cmp _ _ _ _ (by omega)).trans ?_)
  rw [List.flatMap_nil, List.nil_append]
  exact htake

end

/-- The two sides that `partAround` makes around a pivot have all elements. -/
theorem partAround_perm (pivot : Nat) (pivotLeft : Bool) (isLeft : α → Bool) (xs : List α) :
    ((partAround pivot pivotLeft isLeft xs).1 ++
      (partAround pivot pivotLeft isLeft xs).2).Perm xs := by
  unfold partAround
  simp only [List.partition_eq_filter_filter]
  rw [← List.map_append]
  refine ((List.filter_append_perm _ _).map _).trans ?_
  rw [List.map_map]
  show (xs.zipIdx.map Prod.fst).Perm xs
  rw [List.zipIdx_map_fst]

/-- Sorting by partitions rearranges the elements. The induction is on `limit`, which bounds the
depth of partitions; at zero it falls back to runs. -/
theorem sortByPivots_perm (cmp : α → α → Ordering) (lead limit : Nat) (above : Option α)
    (xs : List α) : (sortByPivots cmp lead limit above xs).Perm xs := by
  -- on the limit of partitions; when none is left, runs are sorted instead
  induction limit generalizing above xs with
  | zero =>
      unfold sortByPivots
      split
      · exact sortPiece_perm ..
      · exact sortRuns_perm List.Perm.refl ..
  | succ limit ih =>
      unfold sortByPivots
      split
      · exact sortPiece_perm ..
      · dsimp only
        split
        · exact .refl _
        · next pivot _ =>
            split
            · exact ((ih _ _).append_left _).trans (partAround_perm ..)
            · exact ((ih _ _).append (ih _ _)).trans (partAround_perm ..)

end Runs

/-- `runSort` rearranges the elements. -/
theorem runSort_perm (cmp : α → α → Ordering) (lead : Nat) (xs : List α) :
    (runSort cmp lead xs).Perm xs :=
  Runs.sortRuns_perm (fun ys => Runs.sortByPivots_perm cmp lead _ none ys) cmp lead _ xs

/-! ## Stable sorting

`stableSortBy` takes the outcome of insertion if it is in order between any two elements, which is
what `isRanked` tests. In a total order it always is, so the runs matter only where the comparison
contradicts itself. -/

/-- `stableSortBy` rearranges the elements, whatever the comparison. -/
theorem stableSortBy_perm (lead : Nat) (cmp : α → α → Ordering) (xs : List α) :
    (stableSortBy lead cmp xs).Perm xs := by
  unfold stableSortBy
  dsimp only
  split
  · exact insertionSort_perm cmp xs
  · exact runSort_perm cmp lead xs

/-- `stableSort` rearranges the elements, whatever the comparison: no order is asked of `cmp`. -/
theorem stableSort_perm (cmp : α → α → Ordering) (xs : List α) : (stableSort cmp xs).Perm xs :=
  stableSortBy_perm 4 cmp xs

/-- `isRanked` recognises an ascending list in a total order as one. -/
theorem isRanked_of_ascending (h : TotalOn cmp p) {xs : List α} (hxs : ∀ x ∈ xs, p x)
    (hsorted : Ascending cmp xs) : isRanked cmp xs = true := by
  induction xs with
  | nil => rfl
  | cons x xs ih =>
      obtain ⟨hfirst, hrest⟩ := List.pairwise_cons.mp hsorted
      have hx := hxs x (List.mem_cons_self ..)
      have htail := fun y hy => hxs y (List.mem_cons_of_mem x hy)
      match xs with
      | [] => rfl
      | y :: rest =>
          have hy := htail y (List.mem_cons_self ..)
          have hyrest := (List.pairwise_cons.mp hrest).1
          have hp : ∀ z ∈ rest, p z := fun z hz => htail z (List.mem_cons_of_mem y hz)
          simp only [isRanked, Bool.and_eq_true]
          refine ⟨?_, ih htail hrest⟩
          have hxy := hfirst y (List.mem_cons_self ..)
          -- what the first element is to the second, it is to all behind it
          cases hcmp : cmp x y with
          | lt =>
              refine List.all_eq_true.mpr fun z hz => ?_
              rw [h.lt_of_lt_of_isLE hx hy (hp z hz) hcmp (hyrest z hz)]
              rfl
          | eq =>
              refine List.all_eq_true.mpr fun z hz => ?_
              rw [h.congr_left hx hy (hp z hz) hcmp]
              cases cmp y z <;> rfl
          | gt => rw [hcmp] at hxy; simp at hxy

/-- In a total order `stableSortBy` is insertion sort. The outcome of insertion is then ranked,
which is the test by which `stableSortBy` chooses it. -/
theorem stableSortBy_eq_insertionSort (h : TotalOn cmp p) (lead : Nat) {xs : List α}
    (hxs : ∀ x ∈ xs, p x) : stableSortBy lead cmp xs = insertionSort cmp xs := by
  have hmem : ∀ x ∈ insertionSort cmp xs, p x := fun x hx =>
    hxs x ((insertionSort_perm cmp xs).mem_iff.mp hx)
  unfold stableSortBy
  simp only [isRanked_of_ascending h hmem (insertionSort_ascending h hxs), Bool.or_true, if_true]

/-- In a total order `stableSortBy` gives an ascending list. -/
theorem stableSortBy_ascending (h : TotalOn cmp p) (lead : Nat) {xs : List α}
    (hxs : ∀ x ∈ xs, p x) : Ascending cmp (stableSortBy lead cmp xs) := by
  rw [stableSortBy_eq_insertionSort h lead hxs]
  exact insertionSort_ascending h hxs

/-! ## The least element of a list

A merge takes one record, and a sort by insertion gives it first. This is the step of the induction
that makes a merge of sorted inputs a sort. -/

/-- `insertDown` takes an element that is smaller than all others to the end of a descending list,
past all of them. -/
theorem insertDown_of_lt {x : α} {down : List α} (h : ∀ y ∈ down, cmp x y = .lt) :
    insertDown cmp x down = down ++ [x] := by
  induction down with
  | nil => rfl
  | cons y down ih =>
      obtain ⟨hy, hdown⟩ := List.forall_mem_cons.mp h
      rw [insertDown, if_pos (by rw [hy]; rfl), ih hdown, List.cons_append]

/-- `insertDown` takes no element behind one that it is not smaller than. -/
theorem insertDown_append {x y : α} (h : (cmp y x).isLT = false) (down : List α) :
    insertDown cmp y (down ++ [x]) = insertDown cmp y down ++ [x] := by
  induction down with
  | nil => simp [insertDown, h]
  | cons z down ih =>
      rw [List.cons_append, insertDown, insertDown, ih]
      split <;> rfl

/-- The element that `insertionSort` puts first: it is smaller than those before it and not larger
than those behind it, so of equal elements it is the first one. The others are sorted without it. A
merge takes such an element at each step. -/
theorem insertionSort_least {x : α} {before after : List α} (hbefore : ∀ y ∈ before, cmp x y = .lt)
    (hafter : ∀ y ∈ after, (cmp y x).isLT = false) :
    insertionSort cmp (before ++ x :: after) = x :: insertionSort cmp (before ++ after) := by
  -- no later element is inserted behind the least one
  have hlast (down : List α) :
      after.foldl (fun down y => insertDown cmp y down) (down ++ [x]) =
        after.foldl (fun down y => insertDown cmp y down) down ++ [x] := by
    induction after generalizing down with
    | nil => rfl
    | cons y after ih =>
        obtain ⟨hy, hafter⟩ := List.forall_mem_cons.mp hafter
        rw [List.foldl_cons, List.foldl_cons, insertDown_append hy, ih hafter]
  have hsmaller : ∀ y ∈ before.foldl (fun down y => insertDown cmp y down) [], cmp x y = .lt := by
    intro y hy
    refine hbefore y ?_
    simpa using (foldl_insertDown_perm cmp before []).mem_iff.mp hy
  unfold insertionSort insertAll
  rw [List.foldl_append, List.foldl_cons, List.foldl_append, List.reverse_nil,
    insertDown_of_lt hsmaller, hlast, List.reverse_append]
  rfl

/-! ## Cutting a sorted list back

The list built by insertion is descending, so the first elements of the sorted list are its last
ones, `lastOf`. An element that is cut off stands before them, and no later insertion brings it
back. -/

/-- The last elements of a list, at most `count` of them. Of a descending list these are the
smallest ones. -/
def lastOf (count : Nat) (down : List α) : List α := down.drop (down.length - count)

/-- `lastOf` cuts nothing off a list that is short enough. -/
theorem lastOf_of_length_le {count : Nat} {down : List α} (h : down.length ≤ count) :
    lastOf count down = down := by
  unfold lastOf
  rw [Nat.sub_eq_zero_of_le h, List.drop_zero]

/-- `lastOf` cuts the first element off a list that is too long. -/
theorem lastOf_cons {count : Nat} {x : α} {down : List α} (h : count ≤ down.length) :
    lastOf count (x :: down) = lastOf count down := by
  unfold lastOf
  rw [List.length_cons, Nat.succ_sub h, List.drop_succ_cons]

/-- An element that is not smaller than the first one of a descending list goes before it by
`insertDown`. -/
theorem insertDown_of_head {x : α} {down : List α}
    (h : ∀ y ∈ down.head?, (cmp x y).isLT = false) : insertDown cmp x down = x :: down := by
  cases down with
  | nil => rfl
  | cons y down =>
      simp only [insertDown]
      rw [if_neg (by simp [h y rfl])]

/-- What `lastOf` cuts off a descending list does not matter to the last elements after an
`insertDown`. A new element either goes in front of those kept, or it pushes the first of them
out. -/
theorem lastOf_insertDown (h : TotalOn cmp p) (count : Nat) {x : α} {down : List α} (hx : p x)
    (hdown : ∀ y ∈ down, p y) (hsorted : down.Pairwise fun a b => (cmp b a).isLE = true) :
    lastOf count (insertDown cmp x (lastOf count down)) =
      lastOf count (insertDown cmp x down) := by
  induction down with
  | nil => rw [lastOf_of_length_le (show ([] : List α).length ≤ count from Nat.zero_le _)]
  | cons y down ih =>
      by_cases hshort : (y :: down).length ≤ count
      · rw [lastOf_of_length_le hshort]
      · have hlong : count ≤ down.length := by
          rw [List.length_cons] at hshort
          omega
        obtain ⟨hfirst, hrest⟩ := List.pairwise_cons.mp hsorted
        rw [lastOf_cons hlong, ih (fun z hz => hdown z (List.mem_cons_of_mem _ hz)) hrest]
        have hlength : (insertDown cmp x down).length = down.length + 1 :=
          (insertDown_perm cmp x down).length_eq
        cases hlt : (cmp x y).isLT with
        | true =>
            rw [insertDown, if_pos hlt, lastOf_cons (by omega)]
        | false =>
            -- the element goes before all of them
            have hhead : ∀ z ∈ down.head?, (cmp x z).isLT = false := by
              intro z hz
              have hz := List.mem_of_mem_head? hz
              have hp := hdown z (List.mem_cons_of_mem _ hz)
              have hy := hdown y List.mem_cons_self
              have hzy := hfirst z hz
              have hyx : (cmp y x).isLE = true := by
                rw [h.swap hx hy]
                cases hcmp : cmp x y <;> simp_all
              have hzx := h.isLE_trans hp hy hx hzy hyx
              rw [h.swap hx hp] at hzx
              cases hcmp : cmp x z <;> simp_all
            rw [insertDown, if_neg (by simp [hlt]), insertDown_of_head hhead,
              lastOf_cons hlong, lastOf_cons (by rw [List.length_cons]; omega), lastOf_cons hlong]

/-- What `lastOf` cuts off a descending list does not matter to the last elements after any number
of insertions. -/
theorem lastOf_foldl_insertDown (h : TotalOn cmp p) (count : Nat) {xs down : List α}
    (hxs : ∀ x ∈ xs, p x) (hdown : ∀ y ∈ down, p y)
    (hsorted : down.Pairwise fun a b => (cmp b a).isLE = true) :
    lastOf count (xs.foldl (fun down x => insertDown cmp x down) (lastOf count down)) =
      lastOf count (xs.foldl (fun down x => insertDown cmp x down) down) := by
  induction xs generalizing down with
  | nil =>
      show lastOf count (lastOf count down) = lastOf count down
      refine lastOf_of_length_le ?_
      rw [lastOf, List.length_drop]
      omega
  | cons x xs ih =>
      have hx := hxs x List.mem_cons_self
      have hxs : ∀ x ∈ xs, p x := fun x hx => hxs x (List.mem_cons_of_mem _ hx)
      have hinsert (ys : List α) (hys : ∀ y ∈ ys, p y) : ∀ y ∈ insertDown cmp x ys, p y := by
        intro y hy
        rcases List.mem_cons.mp ((insertDown_perm cmp x ys).mem_iff.mp hy) with rfl | hy
        · exact hx
        · exact hys y hy
      have hkept : (lastOf count down).Sublist down := List.drop_sublist _ _
      have hkeptDown : ∀ y ∈ lastOf count down, p y := fun y hy => hdown y (hkept.subset hy)
      -- cut and uncut list meet in the cut of the list with the element inserted
      rw [List.foldl_cons, List.foldl_cons,
        ← ih hxs (hinsert _ hkeptDown) (insertDown_descending h hx hkeptDown (hsorted.sublist hkept)),
        lastOf_insertDown h count hx hdown hsorted,
        ih hxs (hinsert _ hdown) (insertDown_descending h hx hdown hsorted)]

/-- Elements that come in ascending order (`hsorted`) each go to the front of the descending list,
so the list is reversed and nothing is moved. -/
theorem foldl_insertDown_ascending (h : TotalOn cmp p) {xs down : List α}
    (hp : ∀ x ∈ down.reverse ++ xs, p x) (hsorted : Ascending cmp (down.reverse ++ xs)) :
    xs.foldl (fun down x => insertDown cmp x down) down = xs.reverse ++ down := by
  induction xs generalizing down with
  | nil => rfl
  | cons x xs ih =>
      have hhead : ∀ y ∈ down.head?, (cmp x y).isLT = false := by
        intro y hy
        have hy : y ∈ down.reverse := List.mem_reverse.mpr (List.mem_of_mem_head? hy)
        have hyx := (List.pairwise_append.mp hsorted).2.2 y hy x List.mem_cons_self
        rw [h.swap (hp x (by simp)) (hp y (List.mem_append_left _ hy))] at hyx
        cases hcmp : cmp x y <;> simp_all
      rw [List.foldl_cons, insertDown_of_head hhead, ih]
      · simp
      · simpa using hp
      · simpa using hsorted

/-- `stableSortBy` leaves a list that is in order as it is. So a plan whose source is ordered can
leave the sort out. -/
theorem stableSortBy_of_ascending (h : TotalOn cmp p) (lead : Nat) {xs : List α}
    (hxs : ∀ x ∈ xs, p x) (hsorted : Ascending cmp xs) : stableSortBy lead cmp xs = xs := by
  have hfold : xs.foldl (fun down x => insertDown cmp x down) [] = xs.reverse ++ [] :=
    foldl_insertDown_ascending h hxs hsorted
  rw [stableSortBy_eq_insertionSort h lead hxs, insertionSort, insertAll, List.reverse_nil, hfold,
    List.append_nil, List.reverse_reverse]

/-- The first `count` elements of `insertionSort` are the last ones of the descending list that it
builds. -/
theorem take_insertionSort (count : Nat) (xs : List α) :
    (insertionSort cmp xs).take count =
      (lastOf count (xs.foldl (fun down x => insertDown cmp x down) [])).reverse := by
  unfold insertionSort insertAll
  rw [List.take_reverse]
  rfl

/-- Sorting, cutting back to `count` elements, adding more and sorting again gives the same first
`count` elements as sorting once. So a page can drop what it will not show as it goes. -/
theorem take_stableSortBy (h : TotalOn cmp p) (lead count : Nat) {xs ys : List α}
    (hxs : ∀ x ∈ xs, p x) (hys : ∀ y ∈ ys, p y) :
    (stableSortBy lead cmp ((stableSortBy lead cmp xs).take count ++ ys)).take count =
      (stableSortBy lead cmp (xs ++ ys)).take count := by
  have hsorted : ∀ x ∈ insertionSort cmp xs, p x := fun x hx =>
    hxs x ((insertionSort_perm cmp xs).mem_iff.mp hx)
  have hkept : ∀ x ∈ (insertionSort cmp xs).take count, p x := fun x hx =>
    hsorted x (List.mem_of_mem_take hx)
  have hall (zs : List α) (hzs : ∀ z ∈ zs, p z) : ∀ z ∈ zs ++ ys, p z := fun z hz =>
    (List.mem_append.mp hz).elim (hzs z) (hys z)
  have hascending := insertionSort_ascending h hxs
  let down := xs.foldl (fun down x => insertDown cmp x down) []
  have hdown : ∀ y ∈ down, p y := fun y hy => hsorted y (List.mem_reverse.mpr hy)
  -- sorting what is kept once more changes nothing
  have hagain : ((insertionSort cmp xs).take count).foldl (fun down x => insertDown cmp x down) [] =
      lastOf count down := by
    have hfirst : Ascending cmp ((insertionSort cmp xs).take count) :=
      hascending.sublist (List.take_sublist _ _)
    rw [foldl_insertDown_ascending h hkept hfirst, take_insertionSort, List.reverse_reverse,
      List.append_nil]
  rw [stableSortBy_eq_insertionSort h lead hxs, stableSortBy_eq_insertionSort h lead (hall _ hkept),
    stableSortBy_eq_insertionSort h lead (hall _ hxs), take_insertionSort count (_ ++ _),
    List.foldl_append, hagain, take_insertionSort count (_ ++ _), List.foldl_append,
    lastOf_foldl_insertDown h count hys hdown (List.pairwise_reverse.mp hascending)]

/-! ## Sorting with repeats dropped

Keys and choices are sorted and then rid of repeats, where elements are repeats if they compare
equal. In a total order no two such elements stay, whether equal ones are the same or not. -/

/-- The loop of `dropRepeats` leaves some of the elements, in their order. -/
theorem dropRepeats_go_sublist (cmp : α → α → Ordering) (kept : α) (xs : List α) :
    (dropRepeats.go cmp kept xs).Sublist xs := by
  induction xs generalizing kept with
  | nil => exact .refl _
  | cons x xs ih =>
      simp only [dropRepeats.go]
      split
      · exact (ih kept).cons x
      · exact (ih x).cons_cons x

/-- `dropRepeats` leaves some of the elements, in their order. -/
theorem dropRepeats_sublist (cmp : α → α → Ordering) (xs : List α) :
    (dropRepeats cmp xs).Sublist xs := by
  cases xs with
  | nil => exact .refl _
  | cons x xs => exact (dropRepeats_go_sublist cmp x xs).cons_cons x

/-- An element that is dropped equals the one last kept before it. `hrefl` is needed for the
elements that are kept, which equal themselves. -/
theorem exists_mem_dropRepeats_go (hrefl : ∀ x, cmp x x = .eq) {kept x : α} {xs : List α}
    (hx : x ∈ xs) : ∃ y ∈ kept :: dropRepeats.go cmp kept xs, cmp y x = .eq := by
  induction xs generalizing kept with
  | nil => simp at hx
  | cons z zs ih =>
      simp only [dropRepeats.go]
      rcases List.mem_cons.mp hx with rfl | hx
      · split
        next heq => exact ⟨kept, List.mem_cons_self .., eq_of_beq heq⟩
        next => exact ⟨x, by simp, hrefl x⟩
      · split
        next => exact ih hx
        next =>
          obtain ⟨y, hy, heq⟩ := @ih z hx
          exact ⟨y, List.mem_cons_of_mem kept hy, heq⟩

/-- `dropRepeats` keeps an equal one of every element. -/
theorem exists_mem_dropRepeats (hrefl : ∀ x, cmp x x = .eq) {x : α} {xs : List α}
    (hx : x ∈ xs) : ∃ y ∈ dropRepeats cmp xs, cmp y x = .eq := by
  match xs with
  | z :: zs =>
      rcases List.mem_cons.mp hx with rfl | hx
      · exact ⟨x, List.mem_cons_self .., hrefl x⟩
      · exact exists_mem_dropRepeats_go hrefl hx

/-- Without repeats an ascending list is `StrictlyAscending`: the elements between two kept ones
equal the first of these. -/
theorem dropRepeats_go_strict (h : TotalOn cmp p) {kept : α} {xs : List α} (hkept : p kept)
    (hxs : ∀ x ∈ xs, p x) (hsorted : Ascending cmp (kept :: xs)) :
    StrictlyAscending cmp (kept :: dropRepeats.go cmp kept xs) := by
  induction xs generalizing kept with
  | nil => exact List.pairwise_singleton _ _
  | cons x xs ih =>
      have hx := hxs x (List.mem_cons_self ..)
      have htail := fun y hy => hxs y (List.mem_cons_of_mem x hy)
      obtain ⟨hfirst, hrest⟩ := List.pairwise_cons.mp hsorted
      simp only [dropRepeats.go]
      split
      next =>
        refine ih hkept htail (List.pairwise_cons.mpr ⟨?_, (List.pairwise_cons.mp hrest).2⟩)
        exact fun y hy => hfirst y (List.mem_cons_of_mem x hy)
      -- an element that differs from the one kept comes strictly after it
      next hne =>
        have hlt : cmp kept x = .lt := by
          have hle := hfirst x (List.mem_cons_self ..)
          cases hcmp : cmp kept x <;> simp_all
        refine List.pairwise_cons.mpr ⟨?_, ih hx htail hrest⟩
        intro y hy
        rcases List.mem_cons.mp hy with rfl | hy
        · exact hlt
        · have hmem := (dropRepeats_go_sublist cmp x xs).subset hy
          exact h.lt_of_lt_of_isLE hkept hx (htail y hmem) hlt
            ((List.pairwise_cons.mp hrest).1 y hmem)

/-- In a total order the elements sorted with repeats dropped are `StrictlyAscending`. -/
theorem dropRepeats_stableSortBy_strict (h : TotalOn cmp p) (lead : Nat) {xs : List α}
    (hxs : ∀ x ∈ xs, p x) :
    StrictlyAscending cmp (dropRepeats cmp (stableSortBy lead cmp xs)) := by
  have hsorted := stableSortBy_ascending h lead hxs
  have hmem : ∀ x ∈ stableSortBy lead cmp xs, p x := fun x hx =>
    hxs x ((stableSortBy_perm lead cmp xs).mem_iff.mp hx)
  cases hlist : stableSortBy lead cmp xs with
  | nil => exact List.Pairwise.nil
  | cons y ys =>
      rw [hlist] at hsorted hmem
      exact dropRepeats_go_strict h (hmem y (List.mem_cons_self ..))
        (fun z hz => hmem z (List.mem_cons_of_mem y hz)) hsorted

/-- In a total order `sortDistinct` gives strictly ascending elements. -/
theorem sortDistinct_strict (h : TotalOn cmp p) {xs : List α} (hxs : ∀ x ∈ xs, p x) :
    StrictlyAscending cmp (sortDistinct cmp xs) :=
  dropRepeats_stableSortBy_strict h 4 hxs

/-- In a total order `sortChoices` gives strictly ascending choices, so a lookup reads no key of an
IN list twice. -/
theorem sortChoices_strict (h : TotalOn cmp p) {xs : List α} (hxs : ∀ x ∈ xs, p x) :
    StrictlyAscending cmp (sortChoices cmp xs) :=
  dropRepeats_stableSortBy_strict h 8 hxs

/-- What `sortDistinct` keeps is among the elements. -/
theorem mem_of_mem_sortDistinct {x : α} {xs : List α} (hx : x ∈ sortDistinct cmp xs) :
    x ∈ xs :=
  (stableSort_perm cmp xs).mem_iff.mp ((dropRepeats_sublist cmp _).subset hx)

/-- What `sortChoices` keeps of the choices of a lookup is among the choices. -/
theorem mem_of_mem_sortChoices {x : α} {xs : List α} (hx : x ∈ sortChoices cmp xs) :
    x ∈ xs :=
  (stableSortBy_perm 8 cmp xs).mem_iff.mp ((dropRepeats_sublist cmp _).subset hx)

/-- Of every element an equal one is kept by `sortDistinct`, in any order: dropping repeats needs no
total order for that. -/
theorem exists_mem_sortDistinct (hrefl : ∀ x, cmp x x = .eq) {x : α} {xs : List α}
    (hx : x ∈ xs) : ∃ y ∈ sortDistinct cmp xs, cmp y x = .eq :=
  exists_mem_dropRepeats hrefl ((stableSort_perm cmp xs).mem_iff.mpr hx)

/-- `sortChoices` keeps an equal one of every choice of a lookup. -/
theorem exists_mem_sortChoices (hrefl : ∀ x, cmp x x = .eq) {x : α} {xs : List α}
    (hx : x ∈ xs) : ∃ y ∈ sortChoices cmp xs, cmp y x = .eq :=
  exists_mem_dropRepeats hrefl ((stableSortBy_perm 8 cmp xs).mem_iff.mpr hx)

/-- Where only the same elements compare equal (`heq`), `sortDistinct` keeps every element. -/
theorem mem_sortDistinct (hrefl : ∀ x, cmp x x = .eq) {xs : List α}
    (heq : ∀ x ∈ xs, ∀ y ∈ xs, cmp x y = .eq → x = y) {x : α} :
    x ∈ sortDistinct cmp xs ↔ x ∈ xs := by
  refine ⟨mem_of_mem_sortDistinct, fun hx => ?_⟩
  obtain ⟨y, hy, hcmp⟩ := exists_mem_sortDistinct hrefl hx
  exact heq y (mem_of_mem_sortDistinct hy) x hx hcmp ▸ hy

end RecordQuery
