import RecordQuery.Plan.Lookup
import RecordQuery.Proofs.Conditions
import RecordQuery.Proofs.Sorting

/-!
# `RecordQuery.Proofs.Searches`: searches find what conditions hold for

A `Search` is what a condition asks of an index: a list of bound fields with their values, and a
last field with an operator and a value. It stands for a necessary condition. Where the comparison
that it comes from is true, the record has key components that the search looks for
(`Search.Suits`). It need not be a sufficient one, and a plan evaluates the condition again on what
a lookup finds.

An index keeps lists and maps in parts (`StoredIndex.components`), so the step from a comparison to
a search is the step from a value to one of its components. `exists_component` makes it, for
constants that an operator `Seeks`: single values, and for IN, CONTAINS and BETWEEN lists of them.
Other constants are where the program loses rows. A list as an item of IN is one of them, because an
index never has the list itself as a component. So `Seeks` is a hypothesis wherever completeness of
a plan is stated.

`Search.merge` makes one search of two, and the comparisons of a conjunction may end up in one
lookup. Whatever a search keeps when it takes in another one is kept by merging
(`Search.merge_induction`). With it a statement about single comparisons carries over to all
searches of a condition (`branchSearches_holds`, `searchBranches_holds`). There a disjunction has
one alternative for each of its sides, and a condition that is true has an alternative that is.

The theorems:

* `exists_component`: a value that a comparison holds for has a component that its search finds.
* `Search.merge_induction`: what searches keep when one takes in the other, merged searches have.
* `Search.Fits.merge`: merged searches fit what both of them fit.
* `Comparison.sought_of_search?`: what the search of a comparison comes from.
* `searchBranches_holds`: what holds of the searches of single comparisons holds of all searches of
  some alternative.
-/

set_option autoImplicit false

namespace RecordQuery

/-! ## Values that a comparison looks for

A comparison is made with a value, and a search looks for components of keys. The two are compared
operator by operator: what the operator holds for has a component that the search finds, if the
operator `Seeks` the constant and sees the parts of the value that the index stores. -/

namespace Value

/-- Whether the value is a single one: no floating-point number, no list, and no map. Such a value
`isExact`, and is kept in an index as it is. -/
def isScalar : Value → Bool
  | null | bool _ | int _ | string _ | link _ => true
  | _ => false

/-- Whether the value is a list of single values, each of them `isScalar`. -/
def isScalarList : Value → Bool
  | list items => items.all isScalar
  | _ => false

/-- A single value `isExact`, as it is no floating-point number. -/
theorem isExact_of_isScalar {v : Value} (h : v.isScalar = true) : v.isExact = true := by
  cases v <;> first | rfl | cases h

/-- What equals a single value is no list and no map, as lists and maps have the highest values of
`rank`. -/
theorem rank_lt_of_beq {v k : Value} (hk : k.isScalar = true) (h : (v == k) = true) :
    v.rank < 5 := by
  have hrank : v.rank = k.rank := rank_eq_of_compare_eq (eq_of_beq h)
  rw [hrank]
  cases k <;> first | (simp [rank]; done) | cases hk

/-- A value that is no list and no map is the only one of its `components`. -/
theorem components_of_rank {v : Value} (hv : v.rank < 5) (part : MapPart) :
    StoredIndex.components part v = [v] := by
  cases v with
  | list items => simp [rank] at hv
  | map entries => simp [rank] at hv
  | _ => rfl

/-- What `ordered?` compares with another value is not null, as null is not comparable. -/
theorem of_ordered? {v k : Value} {o : Ordering} (h : Operator.ordered? v k = some o) :
    v.isNull = false ∧ v.compare k = o := by
  unfold Operator.ordered? at h
  split at h
  next hcomparable =>
    refine ⟨?_, Option.some.inj h⟩
    cases v <;> first | rfl | simp [Operator.comparable] at hcomparable
  · cases h

/-- What `ordered?` compares with a single value is no list and no map. -/
theorem rank_of_ordered? {v k : Value} {o : Ordering} (hk : k.isScalar = true)
    (h : Operator.ordered? v k = some o) : v.rank < 5 := by
  unfold Operator.ordered? at h
  split at h
  next hcomparable =>
    cases k <;> try cases hk
    all_goals cases v <;> simp_all [Operator.comparable, rank]
  · cases h

end Value

/-- A key component is what the last comparison of a search looks for. Operators for which an index
is never read, such as `like` and `notEquals`, look for nothing. -/
def Operator.Meets (op : Operator) (value component : Value) : Prop :=
  match op with
  | .equals | .contains | .containsKey | .containsValue => (component == value) = true
  | .oneOf => ∃ items, value = .list items ∧ ∃ item ∈ items, (component == item) = true
  | .less => component.isWithin .unbounded (.excluded value) = true
  | .lessOrEquals => component.isWithin .unbounded (.included value) = true
  | .greater => component.isWithin (.excluded value) .unbounded = true
  | .greaterOrEquals => component.isWithin (.included value) .unbounded = true
  | .between lowerInclusive upperInclusive => ∃ lower upper, value = .list [lower, upper] ∧
      component.isWithin (.ofValue lower lowerInclusive) (.ofValue upper upperInclusive) = true
  | _ => False

/-- A constant that a comparison may look for: a single value (`isScalar`), or for IN, CONTAINS and
BETWEEN a list of them. For other constants a lookup may miss records on which the comparison is
true. -/
def Operator.Seeks (op : Operator) (constant : Value) : Prop :=
  constant.isScalar = true ∨
    (constant.isScalarList = true ∧
      (op = .oneOf ∨ op = .contains ∨ ∃ lower upper, op = .between lower upper))

/-- The operator and constant that a comparison with a field on its left searches for. `isNull`
searches for null by an equality, whatever stands on its right. -/
def soughtTerm? (op : Operator) (constant : Option Value) : Option (Operator × Value) :=
  match op with
  | .isNull => searchTerm? .equals .null
  | op => constant.bind (searchTerm? op)

section

variable {part : MapPart} {v k : Value}

/-- A value other than null is within bounds that it is in order with. `isWithin` asks for
comparable values, and this is where null is excluded. -/
theorem isWithin_of_compare (hnull : v.isNull = false) {lower upper : Bound Value}
    (hlower : match lower with
      | .unbounded => True
      | .included bound => (v.compare bound).isGE = true
      | .excluded bound => (v.compare bound).isGT = true)
    (hupper : match upper with
      | .unbounded => True
      | .included bound => (v.compare bound).isLE = true
      | .excluded bound => (v.compare bound).isLT = true) :
    v.isWithin lower upper = true := by
  unfold Value.isWithin
  cases lower <;> cases upper <;> simp_all

/-- What `soughtTerm?` gives is the operator and the constant themselves, except by IN, which takes
a single value for a list of one item, and by IS NULL. -/
theorem sought_eq {op sought : Operator} {value : Value} (hin : op ≠ .oneOf) (hnull : op ≠ .isNull)
    (h : soughtTerm? op (some k) = some (sought, value)) : sought = op ∧ value = k := by
  have hterm : searchTerm? op k = some (sought, value) := by
    cases op <;> first | exact h | exact absurd rfl hnull
  unfold searchTerm? at hterm
  split at hterm <;> try split at hterm
  all_goals
    first
      | exact absurd rfl hin
      | cases hterm
  all_goals exact ⟨rfl, rfl⟩

/-- What an order operator holds for, with `test` its test, is not null, and a component of its
own. -/
theorem of_ordered_any (hk : k.isScalar = true) {test : Ordering → Bool}
    (h : (Operator.ordered? v k).any test = true) :
    v.rank < 5 ∧ v.isNull = false ∧ test (v.compare k) = true := by
  obtain ⟨o, ho, htest⟩ := (Option.any_eq_true _ _).mp h
  obtain ⟨hnull, rfl⟩ := Value.of_ordered? ho
  exact ⟨Value.rank_of_ordered? hk ho, hnull, htest⟩

/-- What an order operator holds for is within the bounds that are read for it, `lower` and
`upper`. -/
theorem isWithin_of_ordered? {lower upper : Bound Value} {test : Ordering → Bool}
    (h : (Operator.ordered? v k).any test = true)
    (hbound : v.isNull = false → test (v.compare k) = true → v.isWithin lower upper = true) :
    v.isWithin lower upper = true := by
  obtain ⟨o, ho, htest⟩ := (Option.any_eq_true _ _).mp h
  obtain ⟨hnull, rfl⟩ := Value.of_ordered? ho
  exact hbound hnull htest

end

namespace Operator

/-- Whether the operator looks into a list or a map on its left: CONTAINS, CONTAINSKEY and
CONTAINSVALUE do. -/
def looksInside : Operator → Bool
  | contains | containsKey | containsValue => true
  | _ => false

/-- Whether the operator sees the value as an index does, which keeps lists and maps in parts.
`contains` looks into a list and the other two into a map, or the value is neither. An equality with
a whole list does not see parts. -/
def seesParts (op : Operator) : Value → Bool
  | .list _ => op == .contains
  | .map _ => op == .containsKey || op == .containsValue
  | _ => true

/-- Values that are no lists and no maps are seen as they are, so `seesParts` holds for any
operator. -/
theorem seesParts_of_rank {op : Operator} {v : Value} (hv : v.rank < 5) : op.seesParts v = true := by
  cases v with
  | list items => simp [Value.rank] at hv
  | map entries => simp [Value.rank] at hv
  | _ => rfl

/-- What BETWEEN holds for is `ordered?` with both bounds of its list. -/
theorem bounds_of_between {lowerInclusive upperInclusive : Bool} {v k : Value}
    (h : apply (.between lowerInclusive upperInclusive) v k = .ok true) :
    ∃ lower upper, k = .list [lower, upper] ∧
      (ordered? v lower).any (fun o => if lowerInclusive then o.isGE else o.isGT) = true ∧
      (ordered? v upper).any (fun o => if upperInclusive then o.isLE else o.isLT) = true := by
  simp only [apply] at h
  split at h
  · cases h
  next lower upper hbounds =>
    unfold betweenBounds at hbounds
    split at hbounds
    · cases hbounds
      exact ⟨lower, upper, rfl, (Bool.and_eq_true _ _).mp (Except.ok.inj h)⟩
    · cases hbounds

end Operator

section

variable {part : MapPart} {v k : Value}

/-- An operator that looks into no value holds for what its search looks for. `hreuse`: the
comparison may be answered by an index. -/
theorem meets_of_apply {op sought : Operator} {value : Value} (hop : op.looksInside = false)
    (hreuse : op.reuse = .lookup) (h : op.apply v k = .ok true)
    (hterm : soughtTerm? op (some k) = some (sought, value)) : sought.Meets value v := by
  cases op with
  | contains | containsKey | containsValue => cases hop
  | notEquals | like | isNotNull => cases hreuse
  | equals =>
      obtain ⟨rfl, rfl⟩ := sought_eq (by simp) (by simp) hterm
      exact Except.ok.inj h
  | less | lessOrEquals =>
      obtain ⟨rfl, rfl⟩ := sought_eq (by simp) (by simp) hterm
      exact isWithin_of_ordered? (Except.ok.inj h)
        fun hnull hholds => isWithin_of_compare hnull trivial hholds
  | greater | greaterOrEquals =>
      obtain ⟨rfl, rfl⟩ := sought_eq (by simp) (by simp) hterm
      exact isWithin_of_ordered? (Except.ok.inj h)
        fun hnull hholds => isWithin_of_compare hnull hholds trivial
  | between lowerInclusive upperInclusive =>
      obtain ⟨rfl, rfl⟩ := sought_eq (by simp) (by simp) hterm
      obtain ⟨lower, upper, rfl, habove, hbelow⟩ := Operator.bounds_of_between h
      obtain ⟨o, ho, hlower⟩ := (Option.any_eq_true _ _).mp habove
      obtain ⟨o', ho', hupper⟩ := (Option.any_eq_true _ _).mp hbelow
      obtain ⟨hnull, rfl⟩ := Value.of_ordered? ho
      obtain ⟨-, rfl⟩ := Value.of_ordered? ho'
      refine ⟨lower, upper, rfl, isWithin_of_compare hnull ?_ ?_⟩
      · cases lowerInclusive <;> simpa [Bound.ofValue] using hlower
      · cases upperInclusive <;> simpa [Bound.ofValue] using hupper
  | oneOf =>
      have hflip (item : Value) : (item == v) = (v == item) := Operator.beq_comm item v
      cases k with
      | list items =>
          cases hterm
          obtain ⟨item, hitem, heq⟩ := List.any_eq_true.mp (Except.ok.inj h)
          exact ⟨items, rfl, item, hitem, hflip item ▸ heq⟩
      | _ =>
          cases hterm
          exact ⟨_, rfl, _, List.mem_singleton.mpr rfl, hflip _ ▸ Except.ok.inj h⟩
  | isNull =>
      cases hterm
      have hnull : v.isNull = true := Except.ok.inj h
      cases v with
      | null => rfl
      | _ => cases hnull

/-- What CONTAINS finds is an item of a list, or the value itself. Both are among its
`components`. -/
theorem exists_component_of_contains (h : Operator.Admits .contains v k)
    (hsees : Operator.seesParts .contains v = true) :
    ∃ component ∈ StoredIndex.components part v, (component == k) = true := by
  cases v with
  | list items =>
      obtain ⟨item, hitem, heq⟩ : ∃ item ∈ items, (item == k) = true := by
        simpa [Operator.Admits, Operator.apply] using h
      cases items with
      | nil => cases hitem
      | cons first rest => exact ⟨item, hitem, heq⟩
  | map entries => cases hsees
  | _ =>
      have heq := h.resolve_left (by simp [Operator.apply])
      exact ⟨_, List.mem_singleton.mpr rfl, heq.2.2⟩

/-- What CONTAINSKEY finds is a key of a map, and the map offers its keys under `.keys`. -/
theorem exists_component_of_containsKey (h : Operator.apply .containsKey v k = .ok true) :
    (∃ entries, v = .map entries) ∧
      ∃ component ∈ StoredIndex.components .keys v, (component == k) = true := by
  simp only [Operator.apply] at h
  split at h
  next entries name =>
    obtain ⟨entry, hentry, hname⟩ := List.any_eq_true.mp (Except.ok.inj h)
    refine ⟨⟨entries, rfl⟩, .string entry.1, ?_, ?_⟩
    · cases entries with
      | nil => cases hentry
      | cons first rest => exact List.mem_map.mpr ⟨entry, hentry, rfl⟩
    · rw [eq_of_beq hname]
      exact Value.beq_self _
  · cases h

/-- What CONTAINSVALUE finds is a value of a map, and the map offers its values under `.values`. -/
theorem exists_component_of_containsValue (h : Operator.apply .containsValue v k = .ok true) :
    (∃ entries, v = .map entries) ∧
      ∃ component ∈ StoredIndex.components .values v, (component == k) = true := by
  simp only [Operator.apply] at h
  split at h
  next entries =>
    obtain ⟨entry, hentry, heq⟩ := List.any_eq_true.mp (Except.ok.inj h)
    refine ⟨⟨entries, rfl⟩, entry.2, ?_, heq⟩
    cases entries with
    | nil => cases hentry
    | cons first rest => exact List.mem_map.mpr ⟨entry, hentry, rfl⟩
  · cases h

/-- A value that an operator holds for has a component that its search finds, if the operator sees
the value in the parts that an index keeps. `hpart`: an index of map keys is read for CONTAINSKEY,
and one of map values for CONTAINSVALUE. -/
theorem exists_component_of_seesParts {op sought : Operator} {value : Value} (h : op.Admits v k)
    (hterm : soughtTerm? op (some k) = some (sought, value)) (hreuse : op.reuse = .lookup)
    (hsees : op.seesParts v = true)
    (hpart : (∃ entries, v = .map entries) →
      (op = .containsKey → part = .keys) ∧ (op = .containsValue → part = .values)) :
    ∃ component ∈ StoredIndex.components part v, sought.Meets value component := by
  cases op with
  | contains =>
      obtain ⟨rfl, rfl⟩ := sought_eq (by simp) (by simp) hterm
      exact exists_component_of_contains h hsees
  | containsKey =>
      obtain ⟨rfl, rfl⟩ := sought_eq (by simp) (by simp) hterm
      obtain ⟨hmap, hfound⟩ := exists_component_of_containsKey (h.resolve_right (by simp))
      rw [(hpart hmap).1 rfl]
      exact hfound
  | containsValue =>
      obtain ⟨rfl, rfl⟩ := sought_eq (by simp) (by simp) hterm
      obtain ⟨hmap, hfound⟩ := exists_component_of_containsValue (h.resolve_right (by simp))
      rw [(hpart hmap).2 rfl]
      exact hfound
  | _ =>
      -- a value that is neither a list nor a map is its own only component
      have hmeets := meets_of_apply rfl hreuse (h.resolve_right (by simp)) hterm
      refine ⟨v, ?_, hmeets⟩
      cases v <;> first | exact List.mem_singleton.mpr rfl | cases hsees

/-- A constant that the operator `Seeks` is looked for in values that are seen in parts: a single
constant equals no list and no map. -/
theorem Operator.Admits.seesParts {op : Operator} (h : op.Admits v k) (hk : op.Seeks k)
    (hreuse : op.reuse = .lookup) : op.seesParts v = true := by
  have hlists : k.isScalar = true ∨ k.isScalarList = true := hk.imp_right And.left
  cases op with
  | notEquals | like | isNotNull => cases hreuse
  | equals =>
      have hscalar : k.isScalar = true := by simpa [Operator.Seeks] using hk
      exact seesParts_of_rank (Value.rank_lt_of_beq hscalar (Except.ok.inj (h.resolve_right (by simp))))
  | less | lessOrEquals | greater | greaterOrEquals =>
      have hscalar : k.isScalar = true := by simpa [Operator.Seeks] using hk
      exact seesParts_of_rank
        (of_ordered_any hscalar (Except.ok.inj (h.resolve_right (by simp)))).1
  | between lowerInclusive upperInclusive =>
      obtain ⟨lower, upper, rfl, habove, -⟩ := Operator.bounds_of_between (h.resolve_right (by simp))
      have hscalars : lower.isScalar = true ∧ upper.isScalar = true := by
        simpa [Value.isScalar, Value.isScalarList] using hlists
      exact seesParts_of_rank (of_ordered_any hscalars.1 habove).1
  | oneOf =>
      have hholds := h.resolve_right (by simp)
      obtain ⟨item, hscalar, heq⟩ : ∃ item : Value, item.isScalar = true ∧ (item == v) = true := by
        cases k with
        | list items =>
            have hall : ∀ x ∈ items, x.isScalar = true := by
              simpa [Value.isScalar, Value.isScalarList] using hlists
            obtain ⟨item, hitem, heq⟩ := List.any_eq_true.mp (Except.ok.inj hholds)
            exact ⟨item, hall item hitem, heq⟩
        | _ => exact ⟨_, by simpa [Value.isScalarList] using hlists, Except.ok.inj hholds⟩
      rw [Operator.beq_comm] at heq
      exact seesParts_of_rank (Value.rank_lt_of_beq hscalar heq)
  | contains =>
      cases v with
      | map entries =>
          -- a map equals no single value and no list
          have heq := (h.resolve_left (by simp [Operator.apply])).2.2
          have hrank := Value.rank_eq_of_compare_eq (eq_of_beq heq)
          cases k <;> first | (simp [Value.rank] at hrank; done) | simp_all [Value.isScalar, Value.isScalarList]
      | _ => rfl
  | containsKey | containsValue =>
      have hholds := h.resolve_right (by simp)
      cases v with
      | list items => cases hholds
      | _ => rfl
  | isNull =>
      have hnull : v.isNull = true := Except.ok.inj (h.resolve_right (by simp))
      cases v with
      | null => rfl
      | _ => cases hnull

/-- A value that an operator holds for has a component that its search finds, if the operator
`Seeks` the constant. -/
theorem exists_component {op sought : Operator} {value : Value} (h : op.Admits v k)
    (hterm : soughtTerm? op (some k) = some (sought, value)) (hk : op.Seeks k)
    (hreuse : op.reuse = .lookup)
    (hpart : (∃ entries, v = .map entries) →
      (op = .containsKey → part = .keys) ∧ (op = .containsValue → part = .values)) :
    ∃ component ∈ StoredIndex.components part v, sought.Meets value component :=
  exists_component_of_seesParts h hterm hreuse (h.seesParts hk hreuse) hpart

/-- What `soughtTerm?` gives has the operator of the comparison, but for IS NULL. -/
theorem operator_of_soughtTerm? {op sought : Operator} {value : Value}
    (h : soughtTerm? op (some k) = some (sought, value)) :
    sought = op ∨ (op = .isNull ∧ sought = .equals) := by
  by_cases hin : op = .oneOf
  · subst hin
    cases k <;> exact .inl (Prod.mk.inj (Option.some.inj h)).1.symm
  · by_cases hnull : op = .isNull
    · subst hnull
      exact .inr ⟨rfl, (Prod.mk.inj (Option.some.inj h)).1.symm⟩
    · exact .inl (sought_eq hin hnull h).1

/-- An index that `storesPartFor` the operator of a search stores the part of maps that the
comparison looks at. -/
theorem mapPart_of_storesPartFor {definition : IndexDefinition} {op sought : Operator}
    {value : Value} (hterm : soughtTerm? op (some k) = some (sought, value))
    (hstores : definition.storesPartFor sought = true) :
    (op = .containsKey → definition.mapPart = .keys) ∧
      (op = .containsValue → definition.mapPart = .values) := by
  constructor
  · rintro rfl
    obtain rfl := (operator_of_soughtTerm? hterm).resolve_right (by simp)
    exact eq_of_beq hstores
  · rintro rfl
    obtain rfl := (operator_of_soughtTerm? hterm).resolve_right (by simp)
    exact eq_of_beq hstores

/-- The operator that `soughtTerm?` gives sees the same values in parts. -/
theorem seesParts_of_soughtTerm? {op sought : Operator} {value : Value}
    (hterm : soughtTerm? op (some k) = some (sought, value)) :
    sought.seesParts v = op.seesParts v := by
  rcases operator_of_soughtTerm? hterm with rfl | ⟨rfl, rfl⟩
  · rfl
  · cases v <;> rfl

end

/-! ## Merging searches

Two searches of a conjunction may become one, which looks in one index for both. `merge_induction`
is the principle for what a merged search inherits; `Suits` and `Fits` are shown with it. -/

namespace Search

/-- The record has a key component for every comparison of the search. The fields are those of the
record at hand. For a field at the end of a chain `record` is the one that the chain leads to. -/
structure Suits (part : MapPart) (record : Record) (search : Search) : Prop where
  /-- Every bound field has a component that equals its value. -/
  bound : ∀ p ∈ search.bound,
    ∃ component ∈ StoredIndex.components part (record.get p.1), (component == p.2) = true
  /-- The last field has a component that the last comparison looks for. -/
  last : ∃ component ∈ StoredIndex.components part (record.get search.lastField.last),
    search.lastOperator.Meets search.lastValue component

/-- The record `Suits` the search, and the search looks for exact values, which compare as the keys
of an index do. -/
structure Fits (part : MapPart) (record : Record) (search : Search) : Prop
    extends search.Suits part record where
  /-- The values of the bound fields are exact. -/
  exactBound : ∀ p ∈ search.bound, p.2.isExact = true
  /-- The value of the last field is exact. -/
  exactLast : search.lastValue.isExact = true

/-- After `bind` a field is bound as before, or is the new one. -/
theorem mem_bind {bound : List (String × Value)} {field : String} {value : Value}
    {p : String × Value} (h : p ∈ bind bound field value) : p ∈ bound ∨ p = (field, value) := by
  induction bound with
  | nil => exact .inr (List.mem_singleton.mp h)
  | cons q bound ih =>
      unfold bind at h
      split at h
      next hname =>
        rcases List.mem_cons.mp h with rfl | h
        · exact .inr (by rw [eq_of_beq hname])
        · exact .inl (List.mem_cons_of_mem _ h)
      · rcases List.mem_cons.mp h with rfl | h
        · exact .inl (List.mem_cons_self ..)
        · exact (ih h).imp_left (List.mem_cons_of_mem _)

/-- What is bound after `bind` was applied to some more `pairs` is one of them, or was bound
before. -/
theorem mem_foldl_bind {pairs bound : List (String × Value)} {p : String × Value}
    (h : p ∈ pairs.foldl (fun bound (field, value) => bind bound field value) bound) :
    p ∈ bound ∨ p ∈ pairs := by
  induction pairs generalizing bound with
  | nil => exact .inl h
  | cons q pairs ih =>
      rcases ih h with h | h
      · exact (mem_bind h).imp_right fun (heq : p = q) => heq ▸ List.mem_cons_self ..
      · exact .inr (List.mem_cons_of_mem _ h)

/-- For an equality `Meets` is `==` with its value. -/
theorem meets_iff_beq {op : Operator} (hop : op.isEqualityClass = true) {value component : Value} :
    op.Meets value component ↔ (component == value) = true := by
  cases op <;> first | exact Iff.rfl | cases hop

/-- In a chain that is not `isLong` the first field is the last one. -/
theorem last_of_not_isLong {chain : FieldChain} (h : chain.isLong = false) :
    chain.last = chain.first := by
  have hhops : chain.hops = [] := by simpa [FieldChain.isLong] using h
  simp [FieldChain.last, hhops]

/-- The names that are bound after one more `bind`. -/
theorem mem_names_bind {bound : List (String × Value)} {field name : String} {value : Value} :
    name ∈ (bind bound field value).map (·.1) ↔ name ∈ bound.map (·.1) ∨ name = field := by
  induction bound with
  | nil => simp [bind]
  | cons q bound ih =>
      unfold bind
      split
      next hname =>
        have hfield : q.1 = field := eq_of_beq hname
        simp [hfield, or_comm]
      next => rw [List.map_cons, List.mem_cons, ih, List.map_cons, List.mem_cons, or_assoc]

/-- The names that are bound after `bind` was applied to some more `pairs`. -/
theorem mem_names_foldl_bind {pairs bound : List (String × Value)} {name : String} :
    name ∈ (pairs.foldl (fun bound (field, value) => bind bound field value) bound).map (·.1) ↔
      name ∈ bound.map (·.1) ∨ name ∈ pairs.map (·.1) := by
  induction pairs generalizing bound with
  | nil => simp
  | cons q pairs ih =>
      rw [List.foldl_cons, ih, mem_names_bind, List.map_cons, List.mem_cons, or_assoc]

/-- What is bound after `main` has taken in `anchor`: what either has bound, and the last field of
`anchor`, which ends in an equality. -/
theorem mem_absorb {main anchor : Search} {p : String × Value}
    (h : p ∈ (main.absorb anchor).bound) : p ∈ anchor.bound ∨ p ∈ main.bound ∨
      p = (anchor.lastField.first, anchor.lastValue) := by
  rcases mem_bind h with h | h
  · rcases mem_foldl_bind h with h | h
    · cases h
    · exact (List.mem_append.mp h).imp_right .inl
  · exact .inr (.inr h)

section

variable {part : MapPart} {record : Record} {a b : Search}

/-- Of two searches that `isMergeable` allows to become one, one takes in the other. The one taken
in ends in an equality of a field of its own, so it can be bound in front. -/
theorem merge_cases (hmergeable : a.isMergeable b = true) :
    (a.merge b = a.absorb b ∧ b.lastOperator.isEqualityClass = true ∧
      b.lastField.isLong = false) ∨
    (a.merge b = b.absorb a ∧ a.lastOperator.isEqualityClass = true ∧
      a.lastField.isLong = false) := by
  simp only [isMergeable, Bool.and_eq_true, Bool.not_eq_true', Bool.or_eq_true] at hmergeable
  obtain ⟨⟨⟨hshort, hshort'⟩, -⟩, hequality⟩ := hmergeable
  unfold Search.merge
  split
  next hequals => exact .inl ⟨rfl, by rw [eq_of_beq hequals]; rfl, hshort'⟩
  next =>
    split
    next hequals => exact .inr ⟨rfl, by rw [eq_of_beq hequals]; rfl, hshort⟩
    next =>
      split
      next hop => exact .inl ⟨rfl, hop, hshort'⟩
      next hop => exact .inr ⟨rfl, hequality.resolve_right hop, hshort⟩

/-- What one search keeps when it takes in another one holds of merged searches where it holds of
both. The two cases of `merge_cases` differ only in which of them takes in the other. -/
theorem merge_induction {P : Search → Prop} (hmergeable : a.isMergeable b = true)
    (habsorb : ∀ main anchor : Search, P main → P anchor →
      anchor.lastOperator.isEqualityClass = true → anchor.lastField.isLong = false →
      P (main.absorb anchor))
    (ha : P a) (hb : P b) : P (a.merge b) := by
  rcases merge_cases hmergeable with ⟨heq, hop, hshort⟩ | ⟨heq, hop, hshort⟩
  · rw [heq]
    exact habsorb a b ha hb hop hshort
  · rw [heq]
    exact habsorb b a hb ha hop hshort

/-- A search that takes in another one suits what both suit. The last field of `anchor` becomes a
bound one, and its equality is what a bound field asks for. -/
theorem Suits.absorb {main anchor : Search} (hmain : main.Suits part record)
    (hanchor : anchor.Suits part record) (hop : anchor.lastOperator.isEqualityClass = true)
    (hshort : anchor.lastField.isLong = false) : (main.absorb anchor).Suits part record where
  bound p hp := by
    rcases mem_absorb hp with hp | hp | rfl
    · exact hanchor.bound p hp
    · exact hmain.bound p hp
    · obtain ⟨component, hcomponent, hmeets⟩ := hanchor.last
      rw [last_of_not_isLong hshort] at hcomponent
      exact ⟨component, hcomponent, (meets_iff_beq hop).mp hmeets⟩
  last := hmain.last

/-- A search `main` that takes in another one, `anchor`, which ends in an equality, fits what both
fit. -/
theorem Fits.absorb {main anchor : Search} (hmain : main.Fits part record)
    (hanchor : anchor.Fits part record) (hop : anchor.lastOperator.isEqualityClass = true)
    (hshort : anchor.lastField.isLong = false) : (main.absorb anchor).Fits part record where
  toSuits := hmain.toSuits.absorb hanchor.toSuits hop hshort
  exactBound p hp := by
    rcases mem_absorb hp with hp | hp | rfl
    · exact hanchor.exactBound p hp
    · exact hmain.exactBound p hp
    · exact hanchor.exactLast
  exactLast := hmain.exactLast

/-- What two searches fit, `merge` of them fits. -/
theorem Fits.merge (hmergeable : a.isMergeable b = true) (ha : a.Fits part record)
    (hb : b.Fits part record) : (a.merge b).Fits part record :=
  merge_induction hmergeable (fun _ _ hmain hanchor => hmain.absorb hanchor) ha hb

/-- `merge` of two searches ends in a field of the record at hand where both of them do. -/
theorem isLong_merge (hmergeable : a.isMergeable b = true) (ha : a.lastField.isLong = false)
    (hb : b.lastField.isLong = false) : (a.merge b).lastField.isLong = false :=
  merge_induction (P := fun search => search.lastField.isLong = false) hmergeable
    (fun _ _ hmain _ _ _ => hmain) ha hb

end

end Search

/-! ## Searches of comparisons

A comparison is planned with its constants as they are at planning time, and evaluated with them as
they are on the record. `AgreesOn` says that these are the same values. -/

/-- What `soughtTerm?` searches for is exact where the constant is. -/
theorem isExact_of_soughtTerm? {op sought : Operator} {k value : Value} (hk : k.isExact = true)
    (h : soughtTerm? op (some k) = some (sought, value)) : value.isExact = true := by
  have hsingle : (Value.list [k]).isExact = true := by simp [Value.isExact, Value.areExact, hk]
  unfold soughtTerm? at h
  split at h
  · cases h
    rfl
  · rw [Option.bind_some] at h
    unfold searchTerm? at h
    split at h <;> try split at h
    all_goals first | (cases h; exact hk) | (cases h; exact hsingle) | cases h

/-- What the comparison takes for constants (`Operand.keyConstant?`) has that value when the
comparison is evaluated on the record. A variable of the context that a LET binding hides is the
case in which it has not. -/
def Comparison.AgreesOn (vars : Fields) (scope : Scope) (record : Record) (c : Comparison) : Prop :=
  ∀ operand, operand = c.left ∨ operand = c.right → ∀ k, operand.keyConstant? vars = some k →
    operand.resolve scope record = k

/-- All comparisons of the condition agree with their constants (`Comparison.AgreesOn`) when the
condition is evaluated on the record. -/
def Condition.AgreesOn (vars : Fields) (scope : Scope) (record : Record) (condition : Condition) :
    Prop :=
  ∀ c ∈ condition.comparisons, c.AgreesOn vars scope record

/-- Where the variables that the comparison names keep the values of the context in `scope`, it
agrees with its constants. -/
theorem Comparison.agreesOn_of_lookup {c : Comparison} {vars : Fields} {scope : Scope}
    {record : Record}
    (h : ∀ name, .named name = c.left ∨ .named name = c.right → ∀ k, vars.get? name = some k →
      scope.lookup name = k) : c.AgreesOn vars scope record := by
  intro operand hside k hk
  cases operand with
  | field chain => cases hk
  | literal value => exact Option.some.inj hk
  | named name => exact h name hside k hk

/-- Without LET bindings `Scope.lookup` gives the variables of the context. -/
theorem Scope.lookup_of_no_lets {load : Rid → Option Record} {vars : Fields} {name : String}
    {k : Value} (h : vars.get? name = some k) : Scope.lookup ⟨load, vars, []⟩ name = k := by
  simp [Scope.lookup, Fields.get?, h]

/-- The inversion of `Comparison.search?` for a comparison that is true. Its field stands on the
left, on the right there is a constant `k`, or nothing for IS NULL. The operator admits the value of
the field and `k`, and what is searched for is `soughtTerm?` of these. `hagrees` is used for the
constant. -/
theorem Comparison.sought_of_search? {c : Comparison} {vars : Fields} {search : Search}
    {scope : Scope} {record : Record} (hreuse : c.reuse = .lookup)
    (hsearch : c.search? vars = some search) (hagrees : c.AgreesOn vars scope record)
    (htrue : c.evaluate scope record = .ok true) :
    ∃ chain op right k, c.fieldOnLeft? = some ⟨.field chain, op, right⟩ ∧
      (right.keyConstant? vars = some k ∨ (op = .isNull ∧ k = .null)) ∧
      op.Admits (chain.resolve scope.load record) k ∧ op.reuse = .lookup ∧
      soughtTerm? op (some k) = some (search.lastOperator, search.lastValue) ∧
      search = .ofComparison search.lastOperator chain search.lastValue := by
  unfold search? at hsearch
  split at hsearch
  next chain op right hleft =>
    split at hsearch
    · cases hsearch
    obtain ⟨⟨sought, value⟩, hterm, rfl⟩ := Option.map_eq_some_iff.mp hsearch
    have hadmits := admits_of_evaluate hleft htrue
    -- turning a comparison round does not change whether an index can answer it
    have hlookup : op.reuse = .lookup := by
      unfold reuse at hreuse
      rcases (fieldOnLeft?_cases hleft).2 with rfl | ⟨hinverted, hfield, -⟩
      · dsimp only at hreuse
        split at hreuse
        · cases hreuse
        · split at hreuse <;> simp_all
        · cases hreuse
        · cases hreuse
      · have hop : c.operator.reuse = .lookup := by
          rw [← hfield] at hreuse
          split at hreuse <;> first | cases hreuse | (split at hreuse <;> simp_all)
        cases hoperator : c.operator <;> rw [hoperator] at hinverted hop <;> cases hinverted <;>
          first | rfl | cases hop
    cases hconstant : right.keyConstant? vars with
    | some k =>
        refine ⟨chain, op, right, k, hleft, .inl hconstant, ?_, hlookup, ?_, rfl⟩
        · have hside : right = c.left ∨ right = c.right := by
            rcases (fieldOnLeft?_cases hleft).2 with heq | ⟨-, -, hright⟩
            · exact .inr (congrArg Comparison.right heq)
            · exact .inl hright
          rwa [← hagrees right hside k hconstant]
        · rw [hconstant] at hterm
          unfold soughtTerm?
          cases op <;> exact hterm
    | none =>
        -- only IS NULL searches without a constant
        obtain rfl : op = .isNull := by
          rw [hconstant] at hterm
          cases op <;> first | rfl | cases hterm
        refine ⟨chain, .isNull, right, .null, hleft, .inr ⟨rfl, rfl⟩, ?_, hlookup, hterm, rfl⟩
        simpa [Operator.Admits, Operator.apply, Operand.resolve] using hadmits
  · cases hsearch

/-! ## Searches of a condition

A condition is analysed into alternatives, and each of these into searches. The two principles say
what all searches have, wherever they come from, and what those of one alternative have on a record
on which the condition is true. -/

/-- The comparisons that are true wherever the condition is: those of a conjunction, but none under
`or` and `not`. -/
def Condition.required : Condition → List Comparison
  | .and left right => left.required ++ right.required
  | .compare c => [c]
  | _ => []

/-- The `required` comparisons are among the `comparisons` of a condition. -/
theorem Condition.mem_of_required {condition : Condition} {c : Comparison}
    (hc : c ∈ condition.required) : c ∈ condition.comparisons := by
  induction condition with
  | and left right ihl ihr =>
      rcases List.mem_append.mp hc with hc | hc
      · exact List.mem_append_left _ (ihl hc)
      · exact List.mem_append_right _ (ihr hc)
  | or left right | not inner => cases hc
  | compare d => exact hc

/-- The `required` comparisons of a condition are true where it is. -/
theorem Condition.evaluate_required {condition : Condition} {scope : Scope} {record : Record}
    (htrue : condition.evaluate scope record = .ok true) {c : Comparison}
    (hc : c ∈ condition.required) : c.evaluate scope record = .ok true := by
  induction condition with
  | and left right ihl ihr =>
      simp only [evaluate] at htrue
      split at htrue
      · cases htrue
      · cases htrue
      next hleft =>
        rcases List.mem_append.mp hc with hc | hc
        · exact ihl hleft hc
        · exact ihr htrue hc
  | or left right | not inner => cases hc
  | compare d =>
      obtain rfl := List.mem_singleton.mp hc
      exact htrue

namespace Store

section

variable {store : Store} {vars : Fields} {className : String} {scope : Scope} {record : Record}
  {holds : Search → Prop}

/-- What holds of the searches of required comparisons, and is kept by merging, holds of the
searches that `Store.analyze` gives. `covered` are those that an index covers, and `whole` is the
one for the condition as a whole. -/
theorem analyze_forall
    (hmerge : ∀ a b : Search, a.isMergeable b = true → holds a → holds b → holds (a.merge b))
    {condition : Condition}
    (hcompare : ∀ c ∈ condition.required, ∀ search, c.reuse = .lookup →
      c.search? vars = some search → holds search) :
    (∀ search ∈ (store.analyze vars className condition).covered, holds search) ∧
      ∀ search, (store.analyze vars className condition).whole = some search → holds search := by
  induction condition with
  | and left right ihl ihr =>
      obtain ⟨hcovered, hwhole⟩ := ihl fun c hc => hcompare c (List.mem_append_left _ hc)
      obtain ⟨hcovered', hwhole'⟩ := ihr fun c hc => hcompare c (List.mem_append_right _ hc)
      have hboth : ∀ search ∈ (store.analyze vars className left).covered ++
          (store.analyze vars className right).covered, holds search := fun search hsearch =>
        (List.mem_append.mp hsearch).elim (hcovered search) (hcovered' search)
      unfold analyze
      dsimp only
      split
      next a b ha hb =>
        split
        next hmergeable =>
          -- two mergeable searches are replaced by one, which holds by what merging keeps
          have hmerged := hmerge a b hmergeable (hwhole a ha) (hwhole' b hb)
          refine ⟨fun search hsearch => ?_, fun search hsearch => by cases hsearch; exact hmerged⟩
          split at hsearch
          · rcases List.mem_append.mp hsearch with hsearch | hsearch
            · exact hboth search hsearch
            · exact List.mem_singleton.mp hsearch ▸ hmerged
          · exact hboth search hsearch
        · exact ⟨hboth, by simp⟩
      · exact ⟨hboth, by simp⟩
  | or left right => exact ⟨by simp [analyze], by simp [analyze]⟩
  | not inner => exact ⟨by simp [analyze], by simp [analyze]⟩
  | compare c =>
      unfold analyze
      split
      next hreuse =>
        split
        next search hsearch =>
          have hholds := hcompare c (List.mem_singleton.mpr rfl) search (eq_of_beq hreuse) hsearch
          refine ⟨fun other hother => ?_, fun other hother => by cases hother; exact hholds⟩
          split at hother
          · exact List.mem_singleton.mp hother ▸ hholds
          · cases hother
        · exact ⟨by simp, by simp⟩
      · exact ⟨by simp, by simp⟩

/-- What `holds` of the searches of `required` comparisons, and is kept by `merge`, holds of all
searches of an alternative. -/
theorem branchSearches_forall
    (hmerge : ∀ a b : Search, a.isMergeable b = true → holds a → holds b → holds (a.merge b))
    {condition : Condition}
    (hcompare : ∀ c ∈ condition.required, ∀ search, c.reuse = .lookup →
      c.search? vars = some search → holds search) :
    ∀ search ∈ store.branchSearches vars className condition, holds search := by
  obtain ⟨hcovered, hwhole⟩ := @analyze_forall store vars className holds hmerge condition hcompare
  intro search hsearch
  unfold branchSearches at hsearch
  have hsearch := (stableSort_perm _ _).mem_iff.mp hsearch
  split at hsearch
  · exact hwhole search (Option.mem_toList.mp hsearch)
  · exact hcovered search hsearch

/-- What `holds` of the searches of all comparisons, and is kept by `merge`, holds of all searches
of all alternatives. -/
theorem searchBranches_forall
    (hmerge : ∀ a b : Search, a.isMergeable b = true → holds a → holds b → holds (a.merge b))
    {condition : Condition}
    (hcompare : ∀ c ∈ condition.comparisons, ∀ search, c.reuse = .lookup →
      c.search? vars = some search → holds search) :
    ∀ searches ∈ store.searchBranches vars className condition, ∀ search ∈ searches,
      holds search := by
  induction condition with
  | or left right ihl ihr =>
      intro searches hsearches
      rcases List.mem_append.mp hsearches with hsearches | hsearches
      · exact ihl (fun c hc => hcompare c (List.mem_append_left _ hc)) searches hsearches
      · exact ihr (fun c hc => hcompare c (List.mem_append_right _ hc)) searches hsearches
  | and left right | not inner | compare c =>
      intro searches hsearches
      rw [List.mem_singleton.mp hsearches]
      exact branchSearches_forall hmerge fun d hd => hcompare d (Condition.mem_of_required hd)

/-- What `holds` of the searches of comparisons that are true, and is kept by `merge`, holds of all
searches of an alternative that is true: the comparisons it requires are true. -/
theorem branchSearches_holds
    (hmerge : ∀ a b : Search, a.isMergeable b = true → holds a → holds b → holds (a.merge b))
    {condition : Condition}
    (hcompare : ∀ c ∈ condition.comparisons, ∀ search, c.reuse = .lookup →
      c.search? vars = some search → c.evaluate scope record = .ok true → holds search)
    (htrue : condition.evaluate scope record = .ok true) :
    ∀ search ∈ store.branchSearches vars className condition, holds search := by
  refine branchSearches_forall hmerge fun c hc search hreuse hsearch => ?_
  exact hcompare c (Condition.mem_of_required hc) search hreuse hsearch
    (Condition.evaluate_required htrue hc)

/-- What `holds` of the searches of comparisons that are true, and is kept by `merge`, holds of all
searches of some alternative of a condition that is true. The alternative is the side of each OR
that is true. -/
theorem searchBranches_holds
    (hmerge : ∀ a b : Search, a.isMergeable b = true → holds a → holds b → holds (a.merge b))
    {condition : Condition}
    (hcompare : ∀ c ∈ condition.comparisons, ∀ search, c.reuse = .lookup →
      c.search? vars = some search → c.evaluate scope record = .ok true → holds search)
    (htrue : condition.evaluate scope record = .ok true) :
    ∃ searches ∈ store.searchBranches vars className condition, ∀ search ∈ searches,
      holds search := by
  induction condition with
  | or left right ihl ihr =>
      simp only [Condition.evaluate] at htrue
      split at htrue
      · cases htrue
      next hleft =>
        obtain ⟨searches, hsearches, hall⟩ :=
          ihl (fun c hc => hcompare c (List.mem_append_left _ hc)) hleft
        exact ⟨searches, List.mem_append_left _ hsearches, hall⟩
      · obtain ⟨searches, hsearches, hall⟩ :=
          ihr (fun c hc => hcompare c (List.mem_append_right _ hc)) htrue
        exact ⟨searches, List.mem_append_right _ hsearches, hall⟩
  | and left right | not inner | compare c =>
      exact ⟨_, List.mem_singleton.mpr rfl, branchSearches_holds hmerge hcompare htrue⟩

end

end Store

end RecordQuery
