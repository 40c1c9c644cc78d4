import Mathlib.Data.List.Basic
import RecordQuery.LeveledList

/-!
# `RecordQuery.Proofs.Levels`: the levels make no difference to a search

`LeveledList.search` goes down the levels of a list as a search of a B-tree goes down its nodes. At
each level it passes the elements of lower levels and those for which the probe says `gt`, and goes
on in the run before the element at which it stops. So it does not look at all elements, and which
ones it looks at depends on the levels.

`Separates probe xs` is the condition under which the levels make no difference: the probe says `gt`
up to some place, `eq` once at most, and `lt` from there on. It holds of every probe for a key when
the order is total on the keys of the list. `walkTo` is the walk from the front that the search is
compared with. Without `Separates` the two may differ. That is the case of keys beyond `2 ^ 53`, in
which the model keeps the levels as they are in the program.

The theorems:

* `LeveledList.search_eq`: a search inside a run comes to the place of the walk, whatever the
  levels.
* `LeveledList.locate_eq`: so does a search of the whole list.
* `LeveledList.locate_found`, `LeveledList.locate_vacant`: how the place parts the list.
* `LeveledList.onwards_eq`: the elements from the place on are those that the probe does not pass.
  Range lookups read these.
-/

set_option autoImplicit false

namespace RecordQuery

universe u

variable {α : Type u}

/-- Behind an element that the probe does not pass there are only elements for which it says `lt`.
So it says `gt` up to some place, `eq` at most once, and `lt` from there on. -/
def Separates (probe : α → Ordering) (xs : List α) : Prop :=
  xs.Pairwise fun x y => probe x ≠ .gt → probe y = .lt

/-- Where a walk from the front stops: at the first element for which the probe does not say `gt`.
`start` is the index of the first element. -/
def walkTo (probe : α → Ordering) (start : Nat) : List α → Place
  | [] => .vacant start
  | x :: xs =>
      match probe x with
      | .gt => walkTo probe (start + 1) xs
      | .eq => .found start
      | .lt => .vacant start

/-- Elements that `probe` passes (`.gt`) only move the place of `walkTo`. -/
theorem walkTo_append_of_gt {probe : α → Ordering} {start : Nat} {xs ys : List α}
    (h : ∀ x ∈ xs, probe x = .gt) :
    walkTo probe start (xs ++ ys) = walkTo probe (start + xs.length) ys := by
  induction xs generalizing start with
  | nil => rfl
  | cons x xs ih =>
      rw [List.cons_append, walkTo, h x (List.mem_cons_self ..)]
      dsimp only
      rw [ih fun y hy => h y (List.mem_cons_of_mem x hy), List.length_cons]
      congr 1
      omega

/-- `walkTo` does not reach elements behind one that comes later (`.lt`). -/
theorem walkTo_append_of_lt {probe : α → Ordering} {start : Nat} {xs ys : List α}
    (h : ∀ y ∈ ys.head?, probe y = .lt) :
    walkTo probe start (xs ++ ys) = walkTo probe start xs := by
  induction xs generalizing start with
  | nil =>
      cases ys with
      | nil => rfl
      | cons y ys => simp [walkTo, h y rfl]
  | cons x xs ih =>
      rw [List.cons_append, walkTo, walkTo, ih]

/-- An element before one that does not come later (`hne`) is passed. This is how the search of a
level knows of the runs that it never looks into. -/
theorem Separates.gt_of_ne_lt {probe : α → Ordering} {xs ys : List α}
    (h : Separates probe (xs ++ ys)) {x y : α} (hx : x ∈ xs) (hy : y ∈ ys)
    (hne : probe y ≠ .lt) : probe x = .gt := by
  by_contra hgt
  exact hne ((List.pairwise_append.mp h).2.2 x hx y hy hgt)

/-- How the place of a walk that finds the element parts the list: the probe says `gt` before it. -/
theorem walkTo_found {probe : α → Ordering} {start i : Nat} {xs : List α}
    (h : walkTo probe start xs = .found i) :
    ∃ before x behind, xs = before ++ x :: behind ∧ i = start + before.length ∧
      probe x = .eq ∧ ∀ y ∈ before, probe y = .gt := by
  induction xs generalizing start with
  | nil => simp [walkTo] at h
  | cons x xs ih =>
      rw [walkTo] at h
      -- the walk stops at the first element that does not come before the one looked for
      cases hprobe : probe x with
      | lt => simp [hprobe] at h
      | eq =>
          rw [hprobe] at h
          injection h with h
          exact ⟨[], x, xs, rfl, by simp [h], hprobe, by simp⟩
      | gt =>
          rw [hprobe] at h
          obtain ⟨before, y, behind, rfl, hi, heq, hgt⟩ := ih h
          refine ⟨x :: before, y, behind, rfl, by rw [hi, List.length_cons]; omega, heq, ?_⟩
          simpa [hprobe] using hgt

/-- How the place of a walk that finds no element parts the list: the probe says `gt` before it, and
`lt` of the next element. -/
theorem walkTo_vacant {probe : α → Ordering} {start i : Nat} {xs : List α}
    (h : walkTo probe start xs = .vacant i) :
    ∃ before behind, xs = before ++ behind ∧ i = start + before.length ∧
      (∀ y ∈ before, probe y = .gt) ∧ ∀ y ∈ behind.head?, probe y = .lt := by
  induction xs generalizing start with
  | nil =>
      injection h with h
      exact ⟨[], [], rfl, by simp [h], by simp, by simp⟩
  | cons x xs ih =>
      rw [walkTo] at h
      cases hprobe : probe x with
      | lt =>
          rw [hprobe] at h
          injection h with h
          exact ⟨[], x :: xs, rfl, by simp [h], by simp, by simp [hprobe]⟩
      | eq => simp [hprobe] at h
      | gt =>
          rw [hprobe] at h
          obtain ⟨before, behind, rfl, hi, hgt, hlt⟩ := ih h
          refine ⟨x :: before, behind, rfl, by rw [hi, List.length_cons]; omega, ?_, hlt⟩
          simpa [hprobe] using hgt

namespace LeveledList

/-- `label` only adds the levels to the elements. -/
theorem label_map_snd (levels : List Nat) (xs : List α) :
    (label levels xs).map (·.2) = xs := by
  induction xs generalizing levels with
  | nil => cases levels <;> rfl
  | cons x xs ih => cases levels <;> simp [label, ih]

/-- The elements that a search passes at a level: those of levels below `level`, which belong to
children of the node, and those that come before the element looked for. -/
abbrev passes (probe : α → Ordering) (level : Nat) (e : Nat × α) : Bool :=
  e.1 < level || (probe e.2).isGT

/-- The element behind those that a level `passes` is the first one that it does not pass. -/
theorem getElem?_passed (probe : α → Ordering) (level : Nat) (run : List (Nat × α)) :
    run[(run.takeWhile (passes probe level)).length]? =
      (run.dropWhile (passes probe level)).head? := by
  have hparts := List.takeWhile_append_dropWhile (p := passes probe level) (l := run)
  generalize run.takeWhile (passes probe level) = passed at hparts ⊢
  generalize run.dropWhile (passes probe level) = rest at hparts ⊢
  rw [← hparts, List.getElem?_append_right (Nat.le_refl _), Nat.sub_self,
    List.head?_eq_getElem?]

/-- Where the search of a level finds the element, a walk stops as well. The elements of lower
levels before it have not been looked at; `Separates.gt_of_ne_lt` says that the walk passes them. -/
theorem walkTo_of_found {probe : α → Ordering} {level start : Nat} {run : List (Nat × α)}
    (h : Separates probe (run.map (·.2)))
    (hfound : (run.dropWhile (passes probe level)).head?.any (fun e => probe e.2 == .eq) = true) :
    walkTo probe start (run.map (·.2)) =
      .found (start + (run.takeWhile (passes probe level)).length) := by
  have hparts := List.takeWhile_append_dropWhile (p := passes probe level) (l := run)
  generalize run.takeWhile (passes probe level) = passed at hparts ⊢
  generalize run.dropWhile (passes probe level) = rest at hparts hfound
  match rest with
  | [] => simp at hfound
  | e :: rest =>
      have heq : probe e.2 = .eq := by simpa using hfound
      rw [← hparts, List.map_append] at h ⊢
      have hgt : ∀ x ∈ passed.map (·.2), probe x = .gt := fun x hx =>
        h.gt_of_ne_lt hx (List.mem_map_of_mem (List.mem_cons_self ..)) (by simp [heq])
      rw [walkTo_append_of_gt hgt, List.length_map, List.map_cons, walkTo, heq]

/-- Where the search of a level stops at an element that comes later, or at the end (`hfound`),
`walkTo` stops among the elements passed or right behind them. So the rest of the list can be left
out. -/
theorem walkTo_of_not_found {probe : α → Ordering} {level start : Nat} {run : List (Nat × α)}
    (hfound : ¬ (run.dropWhile (passes probe level)).head?.any (fun e => probe e.2 == .eq) = true) :
    walkTo probe start (run.map (·.2)) =
      walkTo probe start ((run.takeWhile (passes probe level)).map (·.2)) := by
  have hstop := List.head?_dropWhile_not (passes probe level) run
  conv_lhs =>
    rw [← List.takeWhile_append_dropWhile (p := passes probe level) (l := run), List.map_append]
  refine walkTo_append_of_lt fun y hy => ?_
  match hrest : run.dropWhile (passes probe level) with
  | [] => simp [hrest] at hy
  | e :: rest =>
      have hy' : e.2 = y := by simpa [hrest] using hy
      subst hy'
      rw [hrest] at hstop hfound
      cases hprobe : probe e.2 <;> simp_all [passes]

/-- What the search of a level passes before the child that it goes on in comes before the element
looked for. `hlast`: the child begins right behind an element of the level itself, for which the
probe has said `gt`. -/
theorem gt_before_child {probe : α → Ordering} {lower : Nat} {before child : List (Nat × α)}
    (hpassed : ∀ e ∈ before, passes probe (lower + 1) e = true)
    (hlast : ∀ e ∈ before.getLast?, ¬ e.1 ≤ lower)
    (h : Separates probe ((before ++ child).map (·.2))) :
    ∀ x ∈ before.map (·.2), probe x = .gt := by
  rcases List.eq_nil_or_concat before with rfl | ⟨front, e, rfl⟩
  · simp
  · rw [List.concat_eq_append] at hpassed hlast h ⊢
    have he : probe e.2 = .gt := by
      have hlevel := hlast e (by simp)
      have hpass := hpassed e (by simp)
      simp only [passes, Bool.or_eq_true, decide_eq_true_eq] at hpass
      rcases hpass with hlt | hgt
      · omega
      · exact Ordering.isGT_iff_eq_gt.mp hgt
    intro x hx
    rw [List.map_append, List.mem_append] at hx
    rcases hx with hx | hx
    · -- an element before the last one is passed because the last one is
      rw [List.append_assoc, List.map_append] at h
      refine h.gt_of_ne_lt hx (y := e.2) ?_ (by simp [he])
      simp
    · rw [show x = e.2 by simpa using hx]
      exact he

/-- `search` inside a run comes to where `walkTo` along the run stops, whatever the levels of its
elements. The induction is on the level. The elements passed are parted into those up to the last
one of the level and the child behind it. -/
theorem search_eq (probe : α → Ordering) (level start : Nat) (run : List (Nat × α))
    (h : Separates probe (run.map (·.2))) :
    search probe level start run = walkTo probe start (run.map (·.2)) := by
  induction level generalizing start run with
  | zero =>
      rw [search]
      simp only [getElem?_passed]
      split
      next hfound => exact (walkTo_of_found h hfound).symm
      next hfound =>
        rw [walkTo_of_not_found hfound]
        have hgt : ∀ x ∈ (run.takeWhile (passes probe 0)).map (·.2), probe x = .gt := by
          intro x hx
          obtain ⟨e, he, rfl⟩ := List.mem_map.mp hx
          have hpass := List.all_eq_true.mp List.all_takeWhile e he
          simpa [passes, Ordering.isGT_iff_eq_gt] using hpass
        have hwalk := @walkTo_append_of_gt α probe start _ [] hgt
        rw [List.append_nil, List.length_map] at hwalk
        exact hwalk.symm
  | succ lower ih =>
      rw [search]
      simp only [getElem?_passed]
      split
      next hfound => exact (walkTo_of_found h hfound).symm
      next hfound =>
        rw [walkTo_of_not_found hfound]
        have hsep : Separates probe ((run.takeWhile (passes probe (lower + 1))).map (·.2)) :=
          h.sublist ((List.takeWhile_sublist _).map _)
        have hpassed : ∀ e ∈ run.takeWhile (passes probe (lower + 1)),
            passes probe (lower + 1) e = true := List.all_eq_true.mp List.all_takeWhile
        generalize run.takeWhile (passes probe (lower + 1)) = passed at hsep hpassed ⊢
        -- the child is the end of what was passed, back to the last element of a higher level
        have hparts := List.takeWhile_append_dropWhile (p := fun e : Nat × α => e.1 ≤ lower)
          (l := passed.reverse)
        have hlast := List.head?_dropWhile_not (fun e : Nat × α => e.1 ≤ lower) passed.reverse
        generalize passed.reverse.takeWhile (fun e : Nat × α => e.1 ≤ lower) = child
          at hparts ⊢
        generalize passed.reverse.dropWhile (fun e : Nat × α => e.1 ≤ lower) = before
          at hparts hlast
        have hsplit : passed = before.reverse ++ child.reverse := by
          rw [← List.reverse_append, hparts, List.reverse_reverse]
        subst hsplit
        have hgt := gt_before_child
          (fun e he => hpassed e (List.mem_append_left _ he))
          (by rw [List.getLast?_reverse]; cases before <;> simp_all) hsep
        rw [ih _ _ (hsep.sublist ((List.sublist_append_right _ _).map _)), List.map_append,
          walkTo_append_of_gt hgt, List.length_map, List.length_append]
        congr 1
        omega

/-- `locate` comes to where a walk along the list stops: it searches the whole list from its highest
level. -/
theorem locate_eq {list : LeveledList α} {probe : α → Ordering}
    (h : Separates probe list.elements) : list.locate probe = walkTo probe 0 list.elements := by
  have hlabel := label_map_snd list.levels list.elements
  rw [locate, search_eq, hlabel]
  rwa [hlabel]

/-- Where `locate` finds the element: those before it come earlier, and those behind it come
later. -/
theorem locate_found {list : LeveledList α} {probe : α → Ordering} {i : Nat}
    (h : Separates probe list.elements) (hlocate : list.locate probe = .found i) :
    ∃ before x behind, list.elements = before ++ x :: behind ∧ i = before.length ∧
      probe x = .eq ∧ (∀ y ∈ before, probe y = .gt) ∧ ∀ y ∈ behind, probe y = .lt := by
  rw [locate_eq h] at hlocate
  obtain ⟨before, x, behind, hsplit, hi, heq, hgt⟩ := walkTo_found hlocate
  refine ⟨before, x, behind, hsplit, by rw [hi, Nat.zero_add], heq, hgt, ?_⟩
  rw [hsplit] at h
  exact fun y hy =>
    (List.pairwise_cons.mp (List.pairwise_append.mp h).2.1).1 y hy (by simp [heq])

/-- Where `locate` finds no element: those before the place come earlier, and those behind it come
later. -/
theorem locate_vacant {list : LeveledList α} {probe : α → Ordering} {i : Nat}
    (h : Separates probe list.elements) (hlocate : list.locate probe = .vacant i) :
    ∃ before behind, list.elements = before ++ behind ∧ i = before.length ∧
      (∀ y ∈ before, probe y = .gt) ∧ ∀ y ∈ behind, probe y = .lt := by
  rw [locate_eq h] at hlocate
  obtain ⟨before, behind, hsplit, hi, hgt, hlt⟩ := walkTo_vacant hlocate
  refine ⟨before, behind, hsplit, by rw [hi, Nat.zero_add], hgt, ?_⟩
  rw [hsplit] at h
  match behind with
  | [] => simp
  | x :: behind =>
      have hx := hlt x rfl
      have hbehind := (List.pairwise_cons.mp (List.pairwise_append.mp h).2.1).1
      intro y hy
      rcases List.mem_cons.mp hy with rfl | hy
      · exact hx
      · exact hbehind y hy (by simp [hx])

/-- The elements that `onwards` gives are all those that `probe` does not pass, so a range lookup
from there misses none. -/
theorem onwards_eq {list : LeveledList α} {probe : α → Ordering}
    (h : Separates probe list.elements) :
    ∃ before, list.elements = before ++ list.onwards probe ∧
      (∀ y ∈ before, probe y = .gt) ∧ ∀ y ∈ list.onwards probe, probe y ≠ .gt := by
  unfold onwards
  -- the place is that of the element itself, or of the first one behind where it would be
  cases hlocate : list.locate probe with
  | found i =>
      obtain ⟨before, x, behind, hsplit, hi, heq, hgt, hlt⟩ := locate_found h hlocate
      refine ⟨before, ?_⟩
      rw [hsplit, Place.index, hi, List.drop_left]
      refine ⟨rfl, hgt, ?_⟩
      intro y hy
      rcases List.mem_cons.mp hy with rfl | hy
      · simp [heq]
      · simp [hlt y hy]
  | vacant i =>
      obtain ⟨before, behind, hsplit, hi, hgt, hlt⟩ := locate_vacant h hlocate
      refine ⟨before, ?_⟩
      rw [hsplit, Place.index, hi, List.drop_left]
      exact ⟨rfl, hgt, fun y hy => by simp [hlt y hy]⟩

end LeveledList

end RecordQuery
