import Mathlib.Order.Compare
import RecordQuery.Rid

/-!
# `RecordQuery.Proofs.Order`: comparisons that are total orders

`Value.compare`, and with it the comparison of keys and of ORDER BY values, is a total order on some
values and not on others (`RecordQuery.Proofs.ValueOrder`). So no lemma about sorting or searching
takes an order for granted. It takes a hypothesis `TotalOn cmp p`: `cmp` is a total order on the
elements with the property `p`. Several elements may compare equal, as records do that have the same
ORDER BY values.

`TotalOn` asks for two laws only, `swap` and `isLE_trans`. The theorems derive what the other
modules use of an order:

* `TotalOn.congr_left`: equal elements compare alike to every other one.
* `TotalOn.comap`, `TotalOn.reversed`: the order by what a function gives, and the order turned
  around, as ORDER BY and DESC have it.
* `TotalOn.isLE_then`: comparing pairs, first parts first, is transitive. It is the step of every
  lexicographic order: lists, maps, keys, and the items of ORDER BY.
* `Rid.totalOn`, `Rid.compare_eq_iff`: record identities are totally ordered, and those that compare
  equal are the same.
-/

set_option autoImplicit false

namespace RecordQuery

universe u v

/-- A comparison that stays the same when it is turned around says `.eq`. This is how reflexivity
follows from `TotalOn.swap`. -/
theorem eq_of_eq_swap {o : Ordering} (h : o = o.swap) : o = .eq := by
  cases o <;> simp_all

/-- `cmp` is a total order on the elements that have the property `p`. Several elements may compare
equal. Nothing is said of elements without the property: on those the comparison may contradict
itself. -/
structure TotalOn {α : Type u} (cmp : α → α → Ordering) (p : α → Prop) : Prop where
  /-- Exchanging the elements turns the order around. -/
  swap : ∀ {a b : α}, p a → p b → cmp b a = (cmp a b).swap
  /-- What comes first comes before what comes last. -/
  isLE_trans : ∀ {a b c : α}, p a → p b → p c →
    (cmp a b).isLE = true → (cmp b c).isLE = true → (cmp a c).isLE = true

namespace TotalOn

variable {α : Type u} {β : Type v} {cmp : α → α → Ordering} {p q : α → Prop} {a b c : α}

/-- Every comparison is `TotalOn` no elements. It is the case of a sort of which only the elements
matter, and not their order. -/
theorem none : TotalOn cmp fun _ => False := ⟨fun ha => ha.elim, fun ha => ha.elim⟩

/-- An element compares equal to itself: `TotalOn.swap` exchanges it with itself. -/
theorem refl (h : TotalOn cmp p) (ha : p a) : cmp a a = .eq :=
  eq_of_eq_swap (h.swap ha ha)

/-- An element that does not come after another one (`.gt`) comes before it or with it. -/
theorem isLE_of_ne_gt (h : cmp a b ≠ .gt) : (cmp a b).isLE = true := by
  cases hcmp : cmp a b <;> simp_all

/-- `.gt` the one way is `.lt` the other way. -/
theorem gt_iff_lt (h : TotalOn cmp p) (ha : p a) (hb : p b) :
    cmp a b = .gt ↔ cmp b a = .lt := by
  rw [h.swap ha hb]
  cases cmp a b <;> simp

/-- Elements neither of which comes after the other one compare `.eq`. -/
theorem eq_of_isLE (h : TotalOn cmp p) (ha : p a) (hb : p b) (hab : (cmp a b).isLE = true)
    (hba : (cmp b a).isLE = true) : cmp a b = .eq := by
  rw [h.swap ha hb] at hba
  cases hcmp : cmp a b <;> simp_all

/-- Where an element comes before another one or with it (`hab`), the other one is not before it. -/
theorem isLT_eq_false (h : TotalOn cmp p) (ha : p a) (hb : p b) (hab : (cmp a b).isLE = true) :
    (cmp b a).isLT = false := by
  rw [h.swap ha hb]
  cases hcmp : cmp a b <;> simp_all

/-- Strictly before, then before or equal: strictly before. If `a` and `c` compared equal, `c` would
come before `b` by `isLE_trans`. -/
theorem lt_of_lt_of_isLE (h : TotalOn cmp p) (ha : p a) (hb : p b) (hc : p c)
    (hab : cmp a b = .lt) (hbc : (cmp b c).isLE = true) : cmp a c = .lt := by
  have hac : (cmp a c).isLE = true := h.isLE_trans ha hb hc (by rw [hab]; rfl) hbc
  cases hcmp : cmp a c with
  | lt => rfl
  | gt => simp [hcmp] at hac
  | eq =>
      -- otherwise the first element would come after the second one by way of the third
      have hca : (cmp c a).isLE = true := by rw [h.swap ha hc, hcmp]; rfl
      have hba := h.isLE_trans hb hc ha hbc hca
      rw [h.swap ha hb, hab] at hba
      simp at hba

/-- Before or equal, then strictly before: strictly before. -/
theorem lt_of_isLE_of_lt (h : TotalOn cmp p) (ha : p a) (hb : p b) (hc : p c)
    (hab : (cmp a b).isLE = true) (hbc : cmp b c = .lt) : cmp a c = .lt := by
  have hac : (cmp a c).isLE = true := h.isLE_trans ha hb hc hab (by rw [hbc]; rfl)
  cases hcmp : cmp a c with
  | lt => rfl
  | gt => simp [hcmp] at hac
  | eq =>
      have hca : (cmp c a).isLE = true := by rw [h.swap ha hc, hcmp]; rfl
      have hcb := h.isLE_trans hc ha hb hca hab
      rw [h.swap hb hc, hbc] at hcb
      simp at hcb

/-- `.lt` is transitive. -/
theorem lt_trans (h : TotalOn cmp p) (ha : p a) (hb : p b) (hc : p c)
    (hab : cmp a b = .lt) (hbc : cmp b c = .lt) : cmp a c = .lt :=
  h.lt_of_lt_of_isLE ha hb hc hab (by rw [hbc]; rfl)

/-- Equal elements compare alike to every other one. `isLE_trans` is used in both directions, as
`cmp a b = .eq` says that each of the two comes before the other one or with it. -/
theorem congr_left (h : TotalOn cmp p) (ha : p a) (hb : p b) (hc : p c)
    (hab : cmp a b = .eq) : cmp a c = cmp b c := by
  have hle : (cmp a b).isLE = true := by rw [hab]; rfl
  have hge : (cmp b a).isLE = true := by rw [h.swap ha hb, hab]; rfl
  cases hbc : cmp b c with
  | lt => exact h.lt_of_isLE_of_lt ha hb hc hle hbc
  | gt =>
      rw [h.gt_iff_lt hb hc] at hbc
      exact (h.gt_iff_lt ha hc).mpr (h.lt_of_lt_of_isLE hc hb ha hbc hge)
  | eq =>
      have hac := h.isLE_trans ha hb hc hle (by rw [hbc]; rfl)
      have hca := h.isLE_trans hc hb ha (by rw [h.swap hb hc, hbc]; rfl) hge
      rw [h.swap ha hc] at hca
      cases hcmp : cmp a c <;> simp_all

/-- A total order on the elements with `p` is one on the elements with `q`, if these are among
those. -/
theorem mono (h : TotalOn cmp p) (hq : ∀ {a}, q a → p a) : TotalOn cmp q where
  swap ha hb := h.swap (hq ha) (hq hb)
  isLE_trans ha hb hc := h.isLE_trans (hq ha) (hq hb) (hq hc)

/-- Elements are totally ordered by what `f` gives for them. Different elements may then compare
equal. -/
theorem comap (h : TotalOn cmp p) (f : β → α) :
    TotalOn (fun a b => cmp (f a) (f b)) (fun a => p (f a)) where
  swap ha hb := h.swap ha hb
  isLE_trans ha hb hc := h.isLE_trans ha hb hc

/-- A total order turned around by `Ordering.swap` is one, as DESC turns the order of an ORDER BY
item around. -/
theorem reversed (h : TotalOn cmp p) : TotalOn (fun a b => (cmp a b).swap) p where
  swap ha hb := by rw [h.swap ha hb]
  isLE_trans ha hb hc hab hbc := by
    rw [← h.swap ha hb] at hab
    rw [← h.swap hb hc] at hbc
    rw [← h.swap ha hc]
    exact h.isLE_trans hc hb ha hbc hab

/-- A type whose `Ord` instance is transitive is totally ordered, with no condition on the elements.
Integers, texts and truth values are ordered so. -/
theorem ofOrd [Ord α] [Std.TransOrd α] : TotalOn (Ord.compare : α → α → Ordering) fun _ => True where
  swap _ _ := Std.OrientedOrd.eq_swap
  isLE_trans _ _ _ hab hbc := Std.TransOrd.isLE_trans hab hbc

end TotalOn

/-- The second comparison decides where the first one does not: `o.then o'` is `o'` when `o` is
`.eq`, and `o` otherwise. -/
theorem isLE_then_iff {o o' : Ordering} :
    (o.then o').isLE = true ↔ o = .lt ∨ (o = .eq ∧ o'.isLE = true) := by
  cases o <;> simp [Ordering.then]

/-- Where two comparisons decide for the first element by `Ordering.then`, the first one does not
decide against it. -/
theorem isLE_of_isLE_then {o o' : Ordering} (h : (o.then o').isLE = true) : o.isLE = true := by
  cases o <;> simp_all [Ordering.then]

/-- One step of a lexicographic order is transitive. `cmp` compares the first parts, and `ab`, `bc`
and `ac` are what the rest of the elements compare to, of which `hrest` says that they are in order
along the chain. If the first parts of `a`, `b` and `c` are all equal, the rest decides. Otherwise
one of the two steps is strict, and so is the whole. -/
theorem TotalOn.isLE_then {α : Type u} {cmp : α → α → Ordering} {p : α → Prop}
    (h : TotalOn cmp p) {a b c : α} (ha : p a) (hb : p b) (hc : p c) {ab bc ac : Ordering}
    (hrest : ab.isLE = true → bc.isLE = true → ac.isLE = true)
    (hab : ((cmp a b).then ab).isLE = true) (hbc : ((cmp b c).then bc).isLE = true) :
    ((cmp a c).then ac).isLE = true := by
  rw [isLE_then_iff] at hab hbc ⊢
  rcases hab with hab | ⟨hab, hab'⟩ <;> rcases hbc with hbc | ⟨hbc, hbc'⟩
  · exact .inl (h.lt_trans ha hb hc hab hbc)
  · exact .inl (h.lt_of_lt_of_isLE ha hb hc hab (by rw [hbc]; rfl))
  · exact .inl (h.lt_of_isLE_of_lt ha hb hc (by rw [hab]; rfl) hbc)
  · exact .inr ⟨(h.congr_left ha hb hc hab).trans hbc, hrest hab' hbc'⟩

/-- `Ordering.swap` of a decision by two comparisons turns both around. -/
theorem swap_then (o o' : Ordering) : (o.then o').swap = o.swap.then o'.swap := by
  cases o <;> rfl

namespace Rid

/-- Record identities are totally ordered, by `cluster` and then by `position`. -/
theorem totalOn : TotalOn Rid.compare fun _ => True where
  swap {a b} _ _ := by
    simp only [Rid.compare, swap_then, ← Std.OrientedOrd.eq_swap]
  isLE_trans {a b c} _ _ _ hab hbc := by
    simp only [Rid.compare, isLE_then_iff, Nat.compare_eq_eq, Nat.compare_eq_lt,
      Nat.isLE_compare] at hab hbc ⊢
    omega

/-- Identities that compare `.eq` are the same, as cluster and position are. -/
theorem compare_eq_iff {a b : Rid} : a.compare b = .eq ↔ a = b := by
  cases a
  cases b
  simp [Rid.compare, Ordering.then_eq_eq]

end Rid

end RecordQuery
