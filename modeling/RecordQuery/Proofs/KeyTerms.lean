import RecordQuery.Plan.IndexTarget
import RecordQuery.Proofs.Lookups

/-!
# `RecordQuery.Proofs.KeyTerms`: the lookup for conditions on a key

Of all that a condition says about the key of an index target only one part becomes the lookup: the
first equality, the first list of choices, or the bounds. A key that satisfies all of it satisfies
this part, and so the lookup selects it. What the other parts say is checked on the keys that are
found, by the `KeyFilter`.

`KeyTerms.Gathered` is the invariant of collecting the terms: the bounds that the lookup is made
from, `lower` and `upper`, are among the bounds that the filter checks. `KeyTerms.Constrained` says
that there is some term, as a condition has at least one conjunct. The keys may be of any kind, and
so may the literals: no order is assumed.

The theorems:

* `KeyTerms.ofCondition_ok`: the tightest bounds are among the bounds, and some constraint is there.
* `KeyTerms.selects_of_accepts`: the lookup selects every key that the terms accept, as long as its
  literals name no more components than the key has.
-/

set_option autoImplicit false

namespace RecordQuery

/-! ## Keys that satisfy constraints

A `KeyFilter` has equalities, choices and bounds. A key satisfies it if it satisfies each of them,
on as many components as they name. -/

namespace Key

/-- `Key.compare` of keys of one component is `compare` of the components. -/
theorem compare_singleton (v w : Value) : Key.compare [v] [w] = v.compare w := by
  show (v.compare w).then .eq = _
  cases v.compare w <;> rfl

/-- What `test` asks of the order of two keys of one component it asks of their components. -/
theorem any_compareLeading?_singleton {v w : Value} {test : Ordering → Bool}
    (h : (Key.compareLeading? [v] [w]).any test = true) : test (v.compare w) = true := by
  unfold compareLeading? at h
  dsimp only at h
  split at h
  · cases h
  · have htest : test (compare [v] [w]) = true := h
    rwa [compare_singleton] at htest

/-- A key `startsWith` components that equal its leading ones. -/
theorem startsWith_of_compare_take {key leading : Key}
    (h : Key.compare (key.take leading.length) leading = .eq) : key.startsWith leading = true := by
  induction leading generalizing key with
  | nil => cases key <;> rfl
  | cons w ws ih =>
      cases key with
      | nil => cases h
      | cons v vs =>
          obtain ⟨hfirst, hrest⟩ := Ordering.then_eq_eq.mp h
          exact (Bool.and_eq_true _ _).mpr ⟨Value.beq_iff.mpr hfirst, ih hrest⟩

/-- To be `isWithin` one bound is to be on its side and not all null. -/
theorem isWithin_unbounded_iff {key : Key} {bound : Bound Key} :
    (key.isWithin bound .unbounded = true ↔ key.isAbove bound = true ∧ key.isNull = false) ∧
      (key.isWithin .unbounded bound = true ↔ key.isNull = false ∧ key.isBelow bound = true) := by
  simp [isWithin, isAbove, isBelow]

end Key

namespace KeyFilter

/-- A key that agrees with no more components than it has starts with them. A shorter key `agrees`
already if its own components are the first of them, hence `hshort`. -/
theorem startsWith_of_agrees {key leading : Key} (hshort : leading.length ≤ key.length)
    (h : agrees key leading = true) : key.startsWith leading = true := by
  have hsome : key.compareLeading? leading = some .eq := eq_of_beq h
  unfold Key.compareLeading? at hsome
  dsimp only at hsome
  rw [Nat.min_eq_right hshort, List.take_length] at hsome
  exact Key.startsWith_of_compare_take (Option.some.inj (Option.ite_none_left_eq_some.mp hsome).2)

/-- `accepts` takes a key that agrees with every equality and with one of every list of choices, and
is within every bound. -/
theorem accepts_iff {filter : KeyFilter} {key : Key} :
    filter.accepts key = true ↔
      (∀ leading ∈ filter.exact, agrees key leading = true) ∧
      (∀ choices ∈ filter.anyOf, ∃ leading ∈ choices, agrees key leading = true) ∧
      (∀ bound ∈ filter.lower, key.isAbove bound = true ∧ key.isNull = false) ∧
      ∀ bound ∈ filter.upper, key.isNull = false ∧ key.isBelow bound = true := by
  unfold accepts
  simp only [Bool.and_eq_true, List.all_eq_true, List.any_eq_true, Key.isWithin_unbounded_iff.1,
    Key.isWithin_unbounded_iff.2, and_assoc]

end KeyFilter

/-! ## What the terms hold

The terms keep the constraints, and beside them the tightest bound on either side. `Gathered` says
that these are among the bounds, so a lookup made from them excludes no key that satisfies all. -/

/-- `conjuncts` is never empty: a condition that is no AND is its own. -/
theorem Condition.conjuncts_ne_nil : ∀ condition : Condition, condition.conjuncts ≠ []
  | and left right => by
      rw [conjuncts]
      exact List.append_ne_nil_of_left_ne_nil left.conjuncts_ne_nil _
  | or _ _ | not _ | compare _ => by simp [conjuncts]

/-- `tighterLower` of two bounds is one of them. -/
theorem tighterLower_cases (current candidate : Bound Value) :
    tighterLower current candidate = current ∨ tighterLower current candidate = candidate := by
  unfold tighterLower
  repeat' split
  all_goals simp

/-- `tighterUpper` of two bounds is one of them. -/
theorem tighterUpper_cases (current candidate : Bound Value) :
    tighterUpper current candidate = current ∨ tighterUpper current candidate = candidate := by
  unfold tighterUpper
  repeat' split
  all_goals simp

namespace KeyTerms

/-- The tightest bounds are among the constraints. They are kept as values and the constraints as
components, hence `map`. -/
structure Gathered (composite : Bool) (terms : KeyTerms) : Prop where
  /-- The tightest lower bound is one of the lower bounds, if there is any. -/
  lower : terms.lower = .unbounded ∨ terms.lower.map (components composite) ∈ terms.keys.lower
  /-- The tightest upper bound is one of the upper bounds, if there is any. -/
  upper : terms.upper = .unbounded ∨ terms.upper.map (components composite) ∈ terms.keys.upper

/-- There is some constraint among the `keys` of the terms. -/
def Constrained (terms : KeyTerms) : Prop :=
  terms.keys.exact ≠ [] ∨ terms.keys.anyOf ≠ [] ∨ terms.keys.lower ≠ [] ∨ terms.keys.upper ≠ []

/-- Nothing is gathered at first, so both bounds are `unbounded`. -/
theorem gathered_empty (composite : Bool) : empty.Gathered composite := ⟨.inl rfl, .inl rfl⟩

section

variable {composite : Bool} {terms : KeyTerms} (h : terms.Gathered composite)

include h

/-- `addLower` keeps the tightest lower bound among them. -/
theorem Gathered.addLower (bound : Bound Value) :
    (terms.addLower composite bound).Gathered composite where
  lower := by
    show tighterLower terms.lower bound = .unbounded ∨ (tighterLower terms.lower bound).map _ ∈
      terms.keys.lower ++ [bound.map (components composite)]
    rw [List.mem_append, List.mem_singleton]
    rcases tighterLower_cases terms.lower bound with heq | heq
    · rw [heq]
      exact h.lower.imp_right .inl
    · rw [heq]
      exact .inr (.inr rfl)
  upper := h.upper

/-- `addUpper` keeps the tightest upper bound among them. -/
theorem Gathered.addUpper (bound : Bound Value) :
    (terms.addUpper composite bound).Gathered composite where
  lower := h.lower
  upper := by
    show tighterUpper terms.upper bound = .unbounded ∨ (tighterUpper terms.upper bound).map _ ∈
      terms.keys.upper ++ [bound.map (components composite)]
    rw [List.mem_append, List.mem_singleton]
    rcases tighterUpper_cases terms.upper bound with heq | heq
    · rw [heq]
      exact h.upper.imp_right .inl
    · rw [heq]
      exact .inr (.inr rfl)

end

/-- One more conjunct adds an equality, a list of choices, a bound, or two bounds. The cases are
those of `KeyTerms.add` that do not fail. -/
theorem add_ok {index : Index} {terms after : KeyTerms} {conjunct : Condition}
    (hok : terms.add index conjunct = .ok after) :
    (∃ leading, after = terms.addExact leading) ∨ (∃ choices, after = terms.addChoices choices) ∨
    (∃ bound, after = terms.addLower index.definition.isComposite bound) ∨
    (∃ bound, after = terms.addUpper index.definition.isComposite bound) ∨
    ∃ low high, after = (terms.addLower index.definition.isComposite low).addUpper
      index.definition.isComposite high := by
  unfold add at hok
  dsimp only at hok
  -- one case for each operator that a condition on a key may use, of which BETWEEN has two bounds
  split at hok
  · cases hok
  next operator value _ =>
    split at hok
    · exact .inl ⟨_, (Except.ok.inj hok).symm⟩
    · exact .inr (.inl ⟨_, (Except.ok.inj hok).symm⟩)
    · exact .inr (.inr (.inl ⟨_, (Except.ok.inj hok).symm⟩))
    · exact .inr (.inr (.inl ⟨_, (Except.ok.inj hok).symm⟩))
    · exact .inr (.inr (.inr (.inl ⟨_, (Except.ok.inj hok).symm⟩)))
    · exact .inr (.inr (.inr (.inl ⟨_, (Except.ok.inj hok).symm⟩)))
    · split at hok
      · cases hok
      · exact .inr (.inr (.inr (.inr ⟨_, _, (Except.ok.inj hok).symm⟩)))
    · cases hok

/-- One more conjunct keeps the tightest bounds among the bounds, and is a constraint: the five
cases are those of `add_ok`. -/
theorem Gathered.add {index : Index} {terms after : KeyTerms} {conjunct : Condition}
    (h : terms.Gathered index.definition.isComposite) (hok : terms.add index conjunct = .ok after) :
    after.Gathered index.definition.isComposite ∧ after.Constrained := by
  rcases add_ok hok with ⟨leading, rfl⟩ | ⟨choices, rfl⟩ | ⟨bound, rfl⟩ | ⟨bound, rfl⟩ |
    ⟨low, high, rfl⟩
  · exact ⟨⟨h.lower, h.upper⟩, .inl (by simp [addExact])⟩
  · exact ⟨⟨h.lower, h.upper⟩, .inr (.inl (by simp [addChoices]))⟩
  · exact ⟨h.addLower bound, .inr (.inr (.inl (by simp [KeyTerms.addLower])))⟩
  · exact ⟨h.addUpper bound, .inr (.inr (.inr (by simp [KeyTerms.addUpper])))⟩
  · exact ⟨(h.addLower low).addUpper high, .inr (.inr (.inr (by simp [KeyTerms.addUpper])))⟩

/-- The terms that `ofCondition` gathers have their tightest bounds among the bounds, and some
constraint. The induction is on the conjuncts. -/
theorem ofCondition_ok {index : Index} {condition : Condition} {terms : KeyTerms}
    (hok : ofCondition index condition = .ok terms) :
    terms.Gathered index.definition.isComposite ∧ terms.Constrained := by
  unfold ofCondition at hok
  cases hconjuncts : condition.conjuncts with
  | nil => exact absurd hconjuncts condition.conjuncts_ne_nil
  | cons first rest =>
      rw [hconjuncts, List.foldlM_cons] at hok
      obtain ⟨next, hfirst, hrest⟩ := Steps.bind_eq_ok.mp hok
      exact Steps.foldlM_keeps
        (P := fun terms : KeyTerms =>
          terms.Gathered index.definition.isComposite ∧ terms.Constrained)
        (fun _ _ _ _ hterms hadd => hterms.1.add hadd) ((gathered_empty _).add hfirst) hrest

/-! ## The lookup

The lookup may name more keys than the constraints accept, and the entries are checked against the
constraints afterwards. That it names no fewer is `selects_of_accepts`. -/

variable {terms : KeyTerms} {key : Key}

/-- A key that the terms accept is not all null, if no equality (`hexact`) and no choice
(`hchoices`) is asked of it: it is within some bound, and a null key is within none. -/
theorem Constrained.isNull_eq_false (h : terms.Constrained) (hexact : terms.keys.exact = [])
    (hchoices : terms.keys.anyOf = []) (haccepts : terms.keys.accepts key = true) :
    key.isNull = false := by
  obtain ⟨-, -, hlower, hupper⟩ := KeyFilter.accepts_iff.mp haccepts
  rcases h with hnot | hnot | hnot | hnot
  · exact absurd hexact hnot
  · exact absurd hchoices hnot
  · exact (hlower _ (List.head_mem hnot)).2
  · exact (hupper _ (List.head_mem hnot)).1

/-- A key that the terms accept `isWithin` the first of its bounds. -/
theorem isWithin_head (haccepts : terms.keys.accepts key = true) (hnull : key.isNull = false) :
    key.isWithin (terms.keys.lower.head?.getD .unbounded)
      (terms.keys.upper.head?.getD .unbounded) = true := by
  obtain ⟨-, -, hlower, hupper⟩ := KeyFilter.accepts_iff.mp haccepts
  refine (Bool.and_eq_true _ _).mpr ⟨?_, ?_⟩
  · cases hbounds : terms.keys.lower with
    | nil => simp [Key.isAbove, hnull]
    | cons bound _ => exact (hlower bound (hbounds ▸ List.mem_cons_self)).1
  · cases hbounds : terms.keys.upper with
    | nil => simp [Key.isBelow, hnull]
    | cons bound _ => exact (hupper bound (hbounds ▸ List.mem_cons_self)).2

/-- The only component of a key that the terms accept is within the tightest bounds, `lower` and
`upper`. -/
theorem Gathered.isWithin_tightest {v : Value} (h : terms.Gathered false)
    (haccepts : terms.keys.accepts [v] = true) (hnull : v.isNull = false) :
    v.isWithin terms.lower terms.upper = true := by
  obtain ⟨-, -, hlower, hupper⟩ := KeyFilter.accepts_iff.mp haccepts
  -- the key of an index of one field is compared with the literal as a whole
  have hcomponents (limit : Value) : components false limit = [limit] := by cases limit <;> rfl
  have habove (bound : Bound Value)
      (hbound : bound = .unbounded ∨ bound.map (components false) ∈ terms.keys.lower) :
      v.isWithin bound .unbounded = true := by
    rcases hbound with rfl | hmem
    · simp [Value.isWithin, hnull]
    · have hkey := (hlower _ hmem).1
      cases bound <;> simp only [Bound.map, hcomponents, Key.isAbove] at hkey
      case unbounded => simp [Value.isWithin, hnull]
      case included | excluded =>
        simp [Value.isWithin, hnull, Key.any_compareLeading?_singleton hkey]
  have hbelow (bound : Bound Value)
      (hbound : bound = .unbounded ∨ bound.map (components false) ∈ terms.keys.upper) :
      v.isWithin .unbounded bound = true := by
    rcases hbound with rfl | hmem
    · simp [Value.isWithin, hnull]
    · have hkey := (hupper _ hmem).2
      cases bound <;> simp only [Bound.map, hcomponents, Key.isBelow] at hkey
      case unbounded => simp [Value.isWithin, hnull]
      case included | excluded =>
        simp [Value.isWithin, hnull, Key.any_compareLeading?_singleton hkey]
  have hlow := habove _ h.lower
  have hhigh := hbelow _ h.upper
  unfold Value.isWithin at hlow hhigh ⊢
  simp_all

/-- The lookup selects every key that the terms accept, as long as the literals that it is made from
name no more components than the key has, `hshort`. The keys of a single-field index have one
component, `hsingle`. -/
theorem selects_of_accepts {composite : Bool} (hgathered : terms.Gathered composite)
    (hconstrained : terms.Constrained) (hsingle : composite = false → key.length = 1)
    (hshort : ∀ leading ∈ (terms.lookup composite).runs, leading.length ≤ key.length)
    (haccepts : terms.keys.accepts key = true) : (terms.lookup composite).Selects key := by
  obtain ⟨hexact, hanyOf, -, -⟩ := KeyFilter.accepts_iff.mp haccepts
  unfold lookup at hshort ⊢
  -- the lookup is made from an equality, or else from choices, or else from the bounds
  cases hequal : terms.keys.exact with
  | cons leading _ =>
      rw [hequal] at hshort
      exact KeyFilter.startsWith_of_agrees (hshort leading (List.mem_singleton.mpr rfl))
        (hexact leading (hequal ▸ List.mem_cons_self))
  | nil =>
      cases hchoices : terms.keys.anyOf with
      | cons choices _ =>
          rw [hequal, hchoices] at hshort
          obtain ⟨leading, hleading, hagrees⟩ := hanyOf choices (hchoices ▸ List.mem_cons_self)
          exact ⟨leading, hleading,
            KeyFilter.startsWith_of_agrees (hshort leading hleading) hagrees⟩
      | nil =>
          have hnull := hconstrained.isNull_eq_false hequal hchoices haccepts
          cases composite with
          | true => exact isWithin_head haccepts hnull
          | false =>
              obtain ⟨v, rfl⟩ := List.length_eq_one_iff.mp (hsingle rfl)
              have hone : v.isNull = false := by simpa [Key.isNull] using hnull
              exact ⟨rfl, v, rfl, hgathered.isWithin_tightest haccepts hone⟩

end KeyTerms

end RecordQuery
