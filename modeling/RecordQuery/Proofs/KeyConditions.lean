import RecordQuery.Proofs.IndexTargets
import RecordQuery.Proofs.RangeFolding

/-!
# `RecordQuery.Proofs.KeyConditions`: a condition on the key of an index target

A query for the entries of an index keeps no filter: what its condition says about the key becomes
constraints on keys, `KeyTerms`. An equality and a choice mean the same on both sides, except that
null equals nothing as a key. An order operator holds only between two values of one comparable
kind, while a bound on keys puts values of all kinds in order.

So the rows that are left are related to the filter in three ways. Every row is left that the filter
holds for, unless its key is null. A row is left that it does not hold for only if the key is not
comparable with some limit, `Condition.keyLimits`. And no row with a null key is left.
`Condition.AsksKey.exists_terms` says this of the constraints of a condition, and
`collect_keyFilter` of the rows of a query.

The index has one field, so that a key has one component and the filter a value to compare.
`Condition.AsksKey` leaves out CONTAINS with the key on its right: it is turned into an IN, whose
meaning for a single value is another one (`FieldSides`). It also asks that the constants of
equalities be sharp, `Value.IsSharp`.

The theorems:

* `Condition.ComparesKey.exists_add`: what one more comparison does to the constraints.
* `Condition.AsksKey.exists_terms`: the constraints of a whole condition accept a key that is
  comparable with all limits exactly if the condition holds for it.
* `Condition.AsksKey.foldRanges`: folding ranges changes neither the records nor the limits.
* `collect_keyFilter`: the rows that a filter on the key leaves, among those delivered without it.
* `rows_of_mixedKeys`: where limits and keys are of different kinds a row is delivered that the
  filter does not hold for.
-/

set_option autoImplicit false

namespace RecordQuery

/-! ## Operators on keys

An operator says something of operands, and a constraint something of keys. The two agree on values
that are comparable with the constants, and `limits` lists the constants for which this has to be
asked. -/

namespace Operator

/-- The operator asks for the keys that equal a constant or one of its items, where no two integers
are rounded to a number in it, or for the keys within bounds. Other operators have no `KeyTerms`. -/
def AsksKey (op : Operator) (constant : Value) : Prop :=
  match op with
  | equals | oneOf => constant.IsSharp
  | less | lessOrEquals | greater | greaterOrEquals => True
  | between _ _ => ∃ low high, constant = .list [low, high]
  | _ => False

/-- The constants that the operator puts a value in order with. An equality has none, as `==` asks
for no order. -/
def limits (op : Operator) (constant : Value) : List Value :=
  match op, constant with
  | less, limit | lessOrEquals, limit | greater, limit | greaterOrEquals, limit => [limit]
  | between _ _, .list bounds => bounds
  | _, _ => []

variable {op : Operator} {v w constant : Value}

/-- Comparable values are in the order of all values: `ordered?` is `Value.compare` with a check in
front. -/
theorem ordered?_of_comparable (h : comparable v w = true) : ordered? v w = some (v.compare w) :=
  if_pos h

/-- What is asked of the order of two values is asked of comparable ones: `ordered?` gives none for
others. -/
theorem comparable_of_any_ordered? {test : Ordering → Bool}
    (h : (ordered? v w).any test = true) : comparable v w = true := by
  unfold ordered? at h
  split at h
  next hcomparable => exact hcomparable
  · cases h

/-- No null is `comparable`, not even with null. -/
theorem isNull_of_comparable (h : comparable v w = true) : v.isNull = false ∧ w.isNull = false := by
  cases v <;> cases w <;> first | exact ⟨rfl, rfl⟩ | cases h

/-- Operands that are turned round twice stand as they stood, so `inverted?` can be read in both
directions. -/
theorem inverted?_symm {inverted : Operator} (h : op.inverted? = some inverted) :
    inverted.inverted? = some op := by
  cases op <;> cases h <;> rfl

/-- An order operator holds only for a value that is `comparable` with its `limits`. So a filter
that is true on a record says that its key is. -/
theorem comparable_of_apply (hasks : op.AsksKey constant)
    (happly : op.apply v constant = .ok true) :
    ∀ limit ∈ op.limits constant, comparable v limit = true := by
  intro limit hlimit
  cases op with
  | less | lessOrEquals | greater | greaterOrEquals =>
      rw [List.mem_singleton.mp hlimit]
      exact comparable_of_any_ordered? (Except.ok.inj happly)
  | between _ _ =>
      obtain ⟨low, high, rfl⟩ := hasks
      obtain ⟨hlow, hhigh⟩ := (Bool.and_eq_true _ _).mp (Except.ok.inj happly)
      have hcases : limit = low ∨ limit = high := by simpa [limits] using hlimit
      rcases hcases with rfl | rfl
      · exact comparable_of_any_ordered? hlow
      · exact comparable_of_any_ordered? hhigh
  | _ => simp [limits] at hlimit

end Operator

/-! ## Keys of one component

The key of an index on one field is a list of one component, and constants are made into such lists
too. Here comparing the lists is brought back to comparing the values. -/

section

variable {v w : Value}

/-- The components that a constant names for an index on one field: it is not taken apart,
`components`. -/
theorem KeyTerms.components_single (w : Value) : components false w = [w] := by
  cases w <;> rfl

/-- The components of keys that are not null are in the order of the keys, `Value.compare`. -/
theorem Key.compareLeading?_singleton (hv : v.isNull = false) (hw : w.isNull = false) :
    Key.compareLeading? [v] [w] = some (v.compare w) := by
  simp [compareLeading?, hv, hw, compare_singleton]

/-- A key of one component that is not null, `hv`, agrees with what it equals. -/
theorem KeyFilter.agrees_singleton (hv : v.isNull = false) :
    agrees [v] [w] = true ↔ (v == w) = true := by
  unfold agrees
  cases hw : w.isNull with
  | false =>
      rw [Key.compareLeading?_singleton hv hw, Value.beq_iff, beq_iff_eq, Option.some.injEq]
  | true =>
      have hnone : Key.compareLeading? [v] [w] = none := by simp [Key.compareLeading?, hw]
      rw [hnone]
      refine iff_of_false (by simp) fun heq => ?_
      rw [Value.isNull_of_beq heq, hw] at hv
      cases hv

/-- A key of one component agrees with no single component if it is null, as `compareLeading?` gives
none. -/
theorem KeyFilter.isNull_of_agrees (h : agrees [v] [w] = true) : v.isNull = false := by
  cases hv : v.isNull with
  | false => rfl
  | true =>
      have hnone : Key.compareLeading? [v] [w] = none := by simp [Key.compareLeading?, hv]
      rw [agrees, hnone] at h
      cases h

/-- Comparable values are in the same order as components of keys and as operands. This is where the
two orders meet, `compareLeading?` and `ordered?`. -/
theorem Key.compareLeading?_of_comparable (hcomparable : Operator.comparable v w = true) :
    Key.compareLeading? [v] [w] = Operator.ordered? v w := by
  obtain ⟨hv, hw⟩ := Operator.isNull_of_comparable hcomparable
  rw [Key.compareLeading?_singleton hv hw, Operator.ordered?_of_comparable hcomparable]

/-- A lower bound on a key holds where the order operator does, if the key is comparable with it
(`hcomparable`). -/
theorem Key.isAbove_ofValue (hcomparable : Operator.comparable v w = true) (inclusive : Bool) :
    Key.isAbove [v] ((Bound.ofValue w inclusive).map (KeyTerms.components false)) =
      (Operator.ordered? v w).any fun o => if inclusive then o.isGE else o.isGT := by
  rw [← Key.compareLeading?_of_comparable hcomparable, ← KeyTerms.components_single w]
  cases inclusive <;> rfl

/-- An upper bound on a key holds where the order operator does, if the key is comparable with it,
`hcomparable`. -/
theorem Key.isBelow_ofValue (hcomparable : Operator.comparable v w = true) (inclusive : Bool) :
    Key.isBelow [v] ((Bound.ofValue w inclusive).map (KeyTerms.components false)) =
      (Operator.ordered? v w).any fun o => if inclusive then o.isLE else o.isLT := by
  rw [← Key.compareLeading?_of_comparable hcomparable, ← KeyTerms.components_single w]
  cases inclusive <;> rfl

end

namespace KeyTerms

/-! ## Constraints on keys

One lemma for each way of adding to a `KeyFilter`. `NamesOne` is kept beside them: whatever is named
has one component, and so a sharp key starts with one of the runs of a lookup at most, up to
equality. -/

section

variable {terms : KeyTerms} {key : Key}

/-- One more equality is one more thing that a key has to agree with. `addExact` may change the
lookup; the constraints only grow. -/
theorem accepts_addExact {leading : Key} :
    (terms.addExact leading).keys.accepts key = true ↔
      terms.keys.accepts key = true ∧ KeyFilter.agrees key leading = true := by
  simp only [KeyFilter.accepts_iff, addExact, List.forall_mem_append, List.forall_mem_singleton]
  tauto

/-- One more list of choices is one more list of which a key has to agree with one,
`KeyFilter.agrees`. -/
theorem accepts_addChoices {choices : List Key} :
    (terms.addChoices choices).keys.accepts key = true ↔
      terms.keys.accepts key = true ∧
        ∃ leading ∈ choices, KeyFilter.agrees key leading = true := by
  simp only [KeyFilter.accepts_iff, addChoices, List.forall_mem_append, List.forall_mem_singleton]
  tauto

/-- One more lower bound is one more bound that a key has to be above. A null key is within no
bound, which `hkey` sets apart. -/
theorem accepts_addLower {composite : Bool} {bound : Bound Value} (hkey : key.isNull = false) :
    (terms.addLower composite bound).keys.accepts key = true ↔
      terms.keys.accepts key = true ∧ key.isAbove (bound.map (components composite)) = true := by
  simp only [KeyFilter.accepts_iff, addLower, List.forall_mem_append, List.forall_mem_singleton,
    hkey]
  tauto

/-- One more upper bound is one more bound that a key has to be below, `Key.isBelow`. -/
theorem accepts_addUpper {composite : Bool} {bound : Bound Value} (hkey : key.isNull = false) :
    (terms.addUpper composite bound).keys.accepts key = true ↔
      terms.keys.accepts key = true ∧ key.isBelow (bound.map (components composite)) = true := by
  simp only [KeyFilter.accepts_iff, addUpper, List.forall_mem_append, List.forall_mem_singleton,
    hkey]
  tauto

/-- The equalities and the choices name one component each, and no two integers are rounded to a
number in it. `KeyTerms.addExact` and the others keep this up while the terms are collected. -/
structure NamesOne (terms : KeyTerms) : Prop where
  /-- The equalities do. -/
  exact : ∀ leading ∈ terms.keys.exact, leading.IsSharp ∧ leading.length = 1
  /-- The choices do. -/
  choices : ∀ choices ∈ terms.keys.anyOf, ∀ leading ∈ choices,
    Key.IsSharp leading ∧ leading.length = 1

/-- At first nothing is named: `KeyTerms.empty` has no constraints. -/
theorem namesOne_empty : empty.NamesOne where
  exact _ h := by cases h
  choices _ h := by cases h

/-- `addExact` of one value names one component, and holds for the keys that equal it, null
excepted. -/
theorem NamesOne.addExact (h : terms.NamesOne) {w : Value} (hw : w.IsSharp) :
    (terms.addExact (components false w)).NamesOne ∧ ∀ v : Value, v.isNull = false →
      ((terms.addExact (components false w)).keys.accepts [v] = true ↔
        terms.keys.accepts [v] = true ∧ (v == w) = true) := by
  rw [components_single]
  refine ⟨⟨?_, h.choices⟩, fun v hv => ?_⟩
  · exact List.forall_mem_append.mpr ⟨h.exact, List.forall_mem_singleton.mpr ⟨⟨hw, trivial⟩, rfl⟩⟩
  · rw [accepts_addExact, KeyFilter.agrees_singleton hv]

/-- `addChoices` of some values names one component each time, and holds for the keys that equal
one. -/
theorem NamesOne.addChoices (h : terms.NamesOne) {items : List Value}
    (hitems : ∀ w ∈ items, w.IsSharp) :
    (terms.addChoices (items.map (components false))).NamesOne ∧ ∀ v : Value, v.isNull = false →
      ((terms.addChoices (items.map (components false))).keys.accepts [v] = true ↔
        terms.keys.accepts [v] = true ∧ items.any (· == v) = true) := by
  rw [funext components_single]
  refine ⟨⟨h.exact, ?_⟩, fun v hv => ?_⟩
  · refine List.forall_mem_append.mpr ⟨h.choices, List.forall_mem_singleton.mpr ?_⟩
    exact List.forall_mem_map.mpr fun w hw => ⟨⟨hitems w hw, trivial⟩, rfl⟩
  · simp only [accepts_addChoices, List.any_eq_true, List.mem_map, exists_exists_and_eq_and,
      KeyFilter.agrees_singleton hv, Operator.beq_comm v]

/-- A lower bound holds for the keys that the order operator holds for, `ordered?`. -/
theorem accepts_lower {v w : Value} (hcomparable : Operator.comparable v w = true)
    (inclusive : Bool) :
    (terms.addLower false (.ofValue w inclusive)).keys.accepts [v] = true ↔
      terms.keys.accepts [v] = true ∧
        ((Operator.ordered? v w).any fun o => if inclusive then o.isGE else o.isGT) = true := by
  have hkey : Key.isNull [v] = false := by
    simp [Key.isNull, (Operator.isNull_of_comparable hcomparable).1]
  rw [accepts_addLower hkey, Key.isAbove_ofValue hcomparable]

/-- An upper bound holds for the keys that the order operator holds for, `ordered?`. -/
theorem accepts_upper {v w : Value} (hcomparable : Operator.comparable v w = true)
    (inclusive : Bool) :
    (terms.addUpper false (.ofValue w inclusive)).keys.accepts [v] = true ↔
      terms.keys.accepts [v] = true ∧
        ((Operator.ordered? v w).any fun o => if inclusive then o.isLE else o.isLT) = true := by
  have hkey : Key.isNull [v] = false := by
    simp [Key.isNull, (Operator.isNull_of_comparable hcomparable).1]
  rw [accepts_addUpper hkey, Key.isBelow_ofValue hcomparable]

/-- The `runs` of components that the lookup names have the same length, at most one. A lookup by
bounds has the empty run. -/
theorem NamesOne.runs (h : terms.NamesOne) :
    ∃ count ≤ 1, ∀ leading ∈ (terms.lookup false).runs,
      Key.IsSharp leading ∧ leading.length = count := by
  unfold lookup
  cases hexact : terms.keys.exact with
  | cons leading rest =>
      refine ⟨1, le_rfl, fun run hrun => h.exact run ?_⟩
      rw [hexact, List.mem_singleton.mp hrun]
      exact List.mem_cons_self
  | nil =>
      cases hchoices : terms.keys.anyOf with
      | cons choices rest =>
          exact ⟨1, le_rfl, h.choices choices (hchoices ▸ List.mem_cons_self)⟩
      | nil =>
          refine ⟨0, Nat.zero_le 1, fun run hrun => ?_⟩
          rw [List.mem_singleton.mp hrun]
          exact ⟨trivial, rfl⟩

/-- A key that `IsSharp`, without a number that two integers are rounded to, starts with one of
these runs at most, up to equality. So no row comes twice. -/
theorem NamesOne.apart (h : terms.NamesOne) {p : Key → Prop} (hkeys : ∀ key, p key → key.IsSharp) :
    (terms.lookup false).Apart p := by
  obtain ⟨count, -, hruns⟩ := h.runs
  intro a ha b hb key hkey hstarts hstarts'
  obtain ⟨hsharp, hlength⟩ := hruns a ha
  obtain ⟨hsharp', hlength'⟩ := hruns b hb
  exact Key.compare_eq_of_startsWith Value.separated_sharp hsharp hsharp' (hkeys key hkey)
    (hlength.trans hlength'.symm) hstarts hstarts'

/-- Constraints accept no null, as long as there is one, `Constrained`. -/
theorem NamesOne.isNull_of_accepts {v : Value} (h : terms.NamesOne)
    (hconstrained : terms.Constrained) (haccepts : terms.keys.accepts [v] = true) :
    v.isNull = false := by
  have hagrees {leading : Key} (hlength : leading.length = 1)
      (hagrees : KeyFilter.agrees [v] leading = true) : v.isNull = false := by
    obtain ⟨w, rfl⟩ := List.length_eq_one_iff.mp hlength
    exact KeyFilter.isNull_of_agrees hagrees
  -- a constraint of any kind rules out null, and there is a constraint
  obtain ⟨hexact, hanyOf, -, -⟩ := KeyFilter.accepts_iff.mp haccepts
  cases hequal : terms.keys.exact with
  | cons leading rest =>
      have hleading : leading ∈ terms.keys.exact := hequal ▸ List.mem_cons_self
      exact hagrees (h.exact leading hleading).2 (hexact leading hleading)
  | nil =>
      cases hchoices : terms.keys.anyOf with
      | cons choices rest =>
          have hmem : choices ∈ terms.keys.anyOf := hchoices ▸ List.mem_cons_self
          obtain ⟨leading, hleading, hagreed⟩ := hanyOf choices hmem
          exact hagrees (h.choices choices hmem leading hleading).2 hagreed
      | nil =>
          have hnull := hconstrained.isNull_eq_false hequal hchoices haccepts
          simpa [Key.isNull] using hnull

end

end KeyTerms

namespace Condition

/-! ## Conditions on a key

A condition on the key is a conjunction of comparisons, and its constraints are made by adding one
after the other. The induction is on the list of its members. -/

/-- The member compares the key with a constant, the key on the left. `plain` leaves out the
CONTAINS that was moved. -/
structure ComparesKey (member : Condition) (op : Operator) (constant : Value) : Prop where
  /-- The operator and the constant, as the plan reads them. -/
  compared : KeyTerms.keyComparison? member = some (op, constant)
  /-- The operator asks for keys. -/
  asks : op.AsksKey constant
  /-- No constant is asked whether it contains the key. -/
  plain : ∀ c, member = .compare c → c.operator ≠ .contains

/-- Every member of the conjunction asks something of the key, by `ComparesKey`. -/
def AsksKey (condition : Condition) : Prop :=
  ∀ member ∈ condition.conjuncts, ∃ op constant, member.ComparesKey op constant

/-- The constants that one comparison puts the key in order with, `Operator.limits`. -/
def limits (member : Condition) : List Value :=
  match KeyTerms.keyComparison? member with
  | some (op, constant) => op.limits constant
  | none => []

/-- The constants that a condition puts the key in order with: the `limits` of all its conjuncts. -/
def keyLimits (condition : Condition) : List Value := condition.conjuncts.flatMap limits

section

variable {member : Condition} {op : Operator} {constant : Value}

/-- A comparison of the key is made between the field of that name, `keyColumn`, and the
constant. -/
theorem keyComparison?_some (h : KeyTerms.keyComparison? member = some (op, constant)) :
    ∃ c, member = .compare c ∧
      c.fieldOnLeft? = some ⟨.field ⟨keyColumn, []⟩, op, .literal constant⟩ := by
  unfold KeyTerms.keyComparison? at h
  split at h
  next c =>
    split at h
    next chain op' value hleft =>
      split at h
      next hkey =>
        cases h
        obtain ⟨first, hops⟩ := chain
        have hkey : hops = [] ∧ first = keyColumn := by simpa [FieldChain.isLong] using hkey
        obtain ⟨rfl, rfl⟩ := hkey
        exact ⟨c, rfl, hleft⟩
      · cases h
    · cases h
  · cases h

/-- `evaluate` of a comparison of the key is its operator between the key and the constant, also if
it was written the other way around. -/
theorem ComparesKey.evaluate (h : member.ComparesKey op constant) (scope : Scope)
    (record : Record) :
    member.evaluate scope record = op.apply (record.get keyColumn) constant := by
  obtain ⟨c, rfl, hleft⟩ := keyComparison?_some h.compared
  rcases (Comparison.fieldOnLeft?_cases hleft).2 with rfl | ⟨hinverted, hright, hconstant⟩
  · rfl
  · have hmeaning : (compare c).evaluate scope record =
        c.operator.apply constant (record.get keyColumn) := by
      rw [Condition.evaluate, Comparison.evaluate, ← hright, ← hconstant]
      rfl
    rw [hmeaning]
    -- the operator that asks for keys is the one written, turned round
    have hasks := h.asks
    have hwritten := Operator.inverted?_symm hinverted
    cases hop : op with
    | equals =>
        rw [hop] at hwritten
        rw [← Option.some.inj hwritten, Operator.apply, Operator.apply, Operator.beq_comm]
    | less | lessOrEquals | greater | greaterOrEquals =>
        exact hop ▸ Operator.apply_of_inverted hinverted (hop ▸ rfl) _ _
    | oneOf =>
        rw [hop] at hwritten
        exact absurd (Option.some.inj hwritten).symm (h.plain c rfl)
    | between _ _ =>
        rw [hop] at hwritten
        cases hwritten
    | _ =>
        rw [hop] at hasks
        cases hasks

/-- What `add` of one more comparison of the key does to the constraints. A key that is comparable
with the limits is accepted afterwards if it was before and the operator holds for it. The cases are
the operators. -/
theorem ComparesKey.exists_add (h : member.ComparesKey op constant) {index : Index}
    (hsingle : index.definition.isComposite = false) {terms : KeyTerms} (hone : terms.NamesOne) :
    ∃ after, terms.add index member = .ok after ∧ after.NamesOne ∧
      ∀ v : Value, v.isNull = false →
        (∀ limit ∈ op.limits constant, Operator.comparable v limit = true) →
        (after.keys.accepts [v] = true ↔
          terms.keys.accepts [v] = true ∧ op.apply v constant = .ok true) := by
  unfold KeyTerms.add
  simp only [h.compared, hsingle]
  have hasks := h.asks
  -- each operator adds its own constraint; a bound says nothing of keys that are not comparable
  -- with it
  cases op with
  | equals =>
      obtain ⟨hafter, haccepts⟩ := hone.addExact hasks
      refine ⟨_, rfl, hafter, fun v hv _ => (haccepts v hv).trans ?_⟩
      rw [Operator.apply, Except.ok.injEq]
  | oneOf =>
      cases constant with
      | list items =>
          obtain ⟨hafter, haccepts⟩ := hone.addChoices (Value.itemsIn_iff.mp hasks)
          refine ⟨_, rfl, hafter, fun v hv _ => (haccepts v hv).trans ?_⟩
          rw [Operator.apply, Except.ok.injEq]
      | _ =>
          obtain ⟨hafter, haccepts⟩ := hone.addChoices (List.forall_mem_singleton.mpr hasks)
          refine ⟨_, rfl, hafter, fun v hv _ => (haccepts v hv).trans ?_⟩
          simp [Operator.apply]
  | greater =>
      refine ⟨_, rfl, ⟨hone.exact, hone.choices⟩, fun v _ hlimits => ?_⟩
      rw [Operator.apply, Except.ok.injEq]
      exact KeyTerms.accepts_lower (hlimits constant List.mem_cons_self) false
  | greaterOrEquals =>
      refine ⟨_, rfl, ⟨hone.exact, hone.choices⟩, fun v _ hlimits => ?_⟩
      rw [Operator.apply, Except.ok.injEq]
      exact KeyTerms.accepts_lower (hlimits constant List.mem_cons_self) true
  | less =>
      refine ⟨_, rfl, ⟨hone.exact, hone.choices⟩, fun v _ hlimits => ?_⟩
      rw [Operator.apply, Except.ok.injEq]
      exact KeyTerms.accepts_upper (hlimits constant List.mem_cons_self) false
  | lessOrEquals =>
      refine ⟨_, rfl, ⟨hone.exact, hone.choices⟩, fun v _ hlimits => ?_⟩
      rw [Operator.apply, Except.ok.injEq]
      exact KeyTerms.accepts_upper (hlimits constant List.mem_cons_self) true
  | between lowerInclusive upperInclusive =>
      obtain ⟨low, high, rfl⟩ := hasks
      refine ⟨_, rfl, ⟨hone.exact, hone.choices⟩, fun v _ hlimits => ?_⟩
      obtain ⟨hlow, hhigh⟩ : Operator.comparable v low = true ∧ Operator.comparable v high = true :=
        ⟨hlimits low (by simp [Operator.limits]), hlimits high (by simp [Operator.limits])⟩
      rw [KeyTerms.accepts_upper hhigh, KeyTerms.accepts_lower hlow, and_assoc, ← Bool.and_eq_true]
      exact and_congr_right fun _ => Except.ok.injEq _ _ ▸ Iff.rfl
  | _ => cases hasks

/-- The limits of a comparison of the key are those of its operator, `Operator.limits`. -/
theorem ComparesKey.limits_eq (h : member.ComparesKey op constant) :
    member.limits = op.limits constant := by
  rw [limits, h.compared]

/-- A comparison of the key holds only where the key is comparable with its limits,
`Operator.comparable`. -/
theorem ComparesKey.comparable_of_evaluate (h : member.ComparesKey op constant) {scope : Scope}
    {record : Record} (hholds : member.evaluate scope record = .ok true) :
    ∀ limit ∈ member.limits, Operator.comparable (record.get keyColumn) limit = true := by
  rw [h.limits_eq]
  rw [h.evaluate] at hholds
  exact Operator.comparable_of_apply h.asks hholds

end

/-- All of some conditions hold together, `evaluateAll`, exactly if each of them does. -/
theorem evaluateAll_eq_true_iff {scope : Scope} {record : Record} {members : List Condition} :
    evaluateAll scope record members = .ok true ↔
      ∀ member ∈ members, member.evaluate scope record = .ok true := by
  refine ⟨fun h member hmember => evaluate_of_evaluateAll h hmember, fun h => ?_⟩
  induction members with
  | nil => rfl
  | cons member members ih =>
      obtain ⟨hmember, hmembers⟩ := List.forall_mem_cons.mp h
      rw [evaluateAll, hmember]
      exact ih hmembers

/-- What some comparisons of the key do to the constraints, one after the other. The induction is on
`members`, with `ComparesKey.exists_add` for each. -/
theorem exists_foldlM {index : Index} (hsingle : index.definition.isComposite = false)
    {members : List Condition}
    (hasks : ∀ member ∈ members, ∃ op constant, member.ComparesKey op constant)
    {start : KeyTerms} (hone : start.NamesOne) :
    ∃ after, members.foldlM (KeyTerms.add index) start = .ok after ∧ after.NamesOne ∧
      ∀ (scope : Scope) (record : Record), (record.get keyColumn).isNull = false →
        (∀ limit ∈ members.flatMap limits,
          Operator.comparable (record.get keyColumn) limit = true) →
        (after.keys.accepts [record.get keyColumn] = true ↔
          start.keys.accepts [record.get keyColumn] = true ∧
            ∀ member ∈ members, member.evaluate scope record = .ok true) := by
  -- each member adds to the constraints that the members before it have left
  induction members generalizing start with
  | nil => exact ⟨start, rfl, hone, fun _ _ _ _ => by simp⟩
  | cons member members ih =>
      obtain ⟨⟨op, constant, hcompares⟩, hmembers⟩ := List.forall_mem_cons.mp hasks
      obtain ⟨next, hadd, hnext, hstep⟩ := hcompares.exists_add hsingle hone
      obtain ⟨after, hrest, hafter, hrun⟩ := ih hmembers hnext
      refine ⟨after, ?_, hafter, fun scope record hkey hlimits => ?_⟩
      · rw [List.foldlM_cons, hadd]
        exact hrest
      · rw [List.flatMap_cons, List.forall_mem_append, hcompares.limits_eq] at hlimits
        rw [hrun scope record hkey hlimits.2, hstep _ hkey hlimits.1, List.forall_mem_cons,
          hcompares.evaluate, and_assoc]

/-- `KeyTerms.ofCondition` makes constraints of a condition that `AsksKey`. They accept a key that
is comparable with all limits exactly if the condition holds for it and it is not null.
Comparability is on the left, since the condition implies it. -/
theorem AsksKey.exists_terms {condition : Condition} (h : condition.AsksKey) {index : Index}
    (hsingle : index.definition.isComposite = false) :
    ∃ terms, KeyTerms.ofCondition index condition = .ok terms ∧ terms.NamesOne ∧
      ∀ (scope : Scope) (record : Record),
        (terms.keys.accepts [record.get keyColumn] = true ∧ ∀ limit ∈ condition.keyLimits,
          Operator.comparable (record.get keyColumn) limit = true) ↔
        condition.evaluate scope record = .ok true ∧ (record.get keyColumn).isNull = false := by
  obtain ⟨terms, hterms, hone, hrun⟩ := exists_foldlM hsingle h KeyTerms.namesOne_empty
  refine ⟨terms, hterms, hone, fun scope record => ?_⟩
  rw [← evaluateAll_conjuncts, evaluateAll_eq_true_iff]
  constructor
  · rintro ⟨haccepts, hlimits⟩
    have hkey := hone.isNull_of_accepts (KeyTerms.ofCondition_ok hterms).2 haccepts
    exact ⟨((hrun scope record hkey hlimits).mp haccepts).2, hkey⟩
  · rintro ⟨hholds, hkey⟩
    -- a comparison that holds was made between comparable values
    have hlimits : ∀ limit ∈ condition.keyLimits,
        Operator.comparable (record.get keyColumn) limit = true := by
      refine List.forall_mem_flatMap.mpr fun member hmember => ?_
      obtain ⟨op, constant, hcompares⟩ := h member hmember
      exact hcompares.comparable_of_evaluate (hholds member hmember)
    exact ⟨(hrun scope record hkey hlimits).mpr ⟨rfl, hholds⟩, hlimits⟩

/-! ## Folded ranges

Folding puts a BETWEEN in the place of two bounds. The key filter is made of the folded condition,
so both have to ask the same of a key. -/

/-- What holds of a BETWEEN exactly if it holds of both bounds, `hpair`, holds of all members
exactly if it does after their bounds are paired. It is used for evaluating to true and for the
limits. -/
theorem forall_pairBounds_iff {Q : Condition → Prop} {members : List Condition}
    (hpair : ∀ c ∈ members, ∀ d ∈ members, ∀ first second, c.rangeBound? = some first →
      d.rangeBound? = some second → second.field = first.field →
      second.operator.isLowerBound ≠ first.operator.isLowerBound →
      (Q (ofBounds first second) ↔ Q c ∧ Q d)) :
    (∀ member ∈ (pairBounds members).1, Q member) ↔ ∀ member ∈ members, Q member := by
  -- the induction follows the pairing: a member stays alone, or is joined with a later one
  induction members using pairBounds_induction with
  | nil => simp [pairBounds]
  | alone c members _ hpairs ih =>
      rw [hpairs, List.forall_mem_cons, List.forall_mem_cons, ih fun d hd e he =>
        hpair d (List.mem_cons_of_mem c hd) e (List.mem_cons_of_mem c he)]
  | pair c before d behind first second hfirst hsecond hfield hopposite hpairs ih =>
      have hothers (e : Condition) (he : e ∈ before ++ behind) :
          e ∈ c :: (before ++ d :: behind) := List.mem_cons_of_mem _
        (((List.sublist_cons_self d behind).append_left before).subset he)
      have hboth := hpair c List.mem_cons_self d
        (List.mem_cons_of_mem _ (List.mem_append_right _ List.mem_cons_self)) first second hfirst
        hsecond hfield hopposite
      rw [hpairs, List.forall_mem_cons, hboth,
        ih fun e he f hf => hpair e (hothers e he) f (hothers f hf)]
      simp only [List.forall_mem_cons, List.forall_mem_append]
      tauto

/-- `foldRanges` of a conjunction of comparisons is `pairBounds` of its members: no member has
ranges of its own. -/
theorem conjuncts_foldRanges {condition : Condition}
    (hcompare : ∀ member ∈ condition.conjuncts, ∃ c, member = .compare c) :
    condition.foldRanges.1.conjuncts = (pairBounds condition.conjuncts).1 := by
  have hfolded : condition.foldConjuncts.1 = condition.conjuncts := by
    induction condition with
    | and left right ihl ihr =>
        rw [conjuncts, List.forall_mem_append] at hcompare
        rw [conjuncts, ← ihl hcompare.1, ← ihr hcompare.2]
        rfl
    | or left right | not inner =>
        obtain ⟨c, hc⟩ := hcompare _ List.mem_cons_self
        cases hc
    | compare c => rfl
  -- only a conjunction has anything to pair; its members are put together again afterwards
  cases condition with
  | and left right =>
      obtain ⟨first, rest, hpairs, heq⟩ := foldRanges_and left right
      have hsettled : ∀ member ∈ first :: rest, member.Settled := by
        intro member hmember
        rw [← hpairs, hfolded] at hmember
        rcases mem_pairBounds hmember with hmember | ⟨_, -, _, -, _, _, -, -, -, -, rfl⟩
        · obtain ⟨c, rfl⟩ := hcompare member hmember
          exact settled_compare c
        · exact settled_compare _
      obtain ⟨hfirst, hrest⟩ := List.forall_mem_cons.mp hsettled
      rw [heq, conjuncts_conjunction hrest, hfirst.conjuncts, ← hfolded, hpairs]
      rfl
  | or left right | not inner =>
      obtain ⟨c, hc⟩ := hcompare _ List.mem_cons_self
      cases hc
  | compare c => exact congrArg Prod.fst (pairBounds_of_unopposed (unopposed_singleton _)).symm

/-- A comparison of the key that is a bound, `rangeBound?`, bounds the key and has this limit
alone. -/
theorem ComparesKey.of_rangeBound {member : Condition} {op : Operator} {constant : Value}
    (h : member.ComparesKey op constant) {bound : RangeBound}
    (hbound : member.rangeBound? = some bound) :
    bound.field = keyColumn ∧ member.limits = [bound.value] := by
  obtain ⟨c, rfl, hleft⟩ := keyComparison?_some h.compared
  obtain ⟨chain, hleft', -, hfield, hop⟩ := rangeBound?_some hbound
  rw [hleft] at hleft'
  cases hleft'
  refine ⟨hfield, ?_⟩
  rw [h.limits_eq]
  cases hoperator : bound.operator with
  | less | lessOrEquals | greater | greaterOrEquals => rfl
  | _ =>
      rw [hoperator] at hop
      cases hop

/-- The BETWEEN of two bounds on the key, `ofBounds`, compares the key, with both limits. -/
theorem comparesKey_ofBounds {first second : RangeBound} (hfirst : first.field = keyColumn)
    (hsecond : second.field = keyColumn) :
    (∃ op constant, (ofBounds first second).ComparesKey op constant) ∧
      ∀ limit, limit ∈ (ofBounds first second).limits ↔
        limit = first.value ∨ limit = second.value := by
  have hparse : FieldChain.parse keyColumn = ⟨keyColumn, []⟩ :=
    FieldChain.parse_of_no_dot (by decide)
  -- whichever of the two is the lower bound comes first
  obtain ⟨low, high, hsides, heq⟩ : ∃ low high : RangeBound,
      (low = first ∧ high = second ∨ low = second ∧ high = first) ∧
        ofBounds first second = .compare ⟨.field (.parse low.field),
          .between (low.operator == .greaterOrEquals) (high.operator == .lessOrEquals),
          .literal (.list [low.value, high.value])⟩ := by
    unfold ofBounds
    cases first.operator.isLowerBound with
    | true => exact ⟨first, second, .inl ⟨rfl, rfl⟩, rfl⟩
    | false => exact ⟨second, first, .inr ⟨rfl, rfl⟩, rfl⟩
  have hlow : low.field = keyColumn := by
    rcases hsides with ⟨rfl, -⟩ | ⟨rfl, -⟩
    · exact hfirst
    · exact hsecond
  rw [heq, hlow, hparse]
  refine ⟨⟨_, _, rfl, ⟨_, _, rfl⟩, fun c hc => ?_⟩, fun limit => ?_⟩
  · cases hc
    exact nofun
  · show limit ∈ [low.value, high.value] ↔ _
    rcases hsides with ⟨rfl, rfl⟩ | ⟨rfl, rfl⟩
    · simp
    · simp [or_comm]

/-- `foldRanges` of a condition that `AsksKey` leaves a condition on the key that holds for the same
records, with the same limits. So the plan may be made of either. -/
theorem AsksKey.foldRanges {condition : Condition} (h : condition.AsksKey) :
    condition.foldRanges.1.AsksKey ∧
      (∀ (scope : Scope) (record : Record),
        condition.foldRanges.1.evaluate scope record = .ok true ↔
          condition.evaluate scope record = .ok true) ∧
      ∀ Q : Value → Prop, (∀ limit ∈ condition.foldRanges.1.keyLimits, Q limit) ↔
        ∀ limit ∈ condition.keyLimits, Q limit := by
  have hconjuncts := conjuncts_foldRanges fun member hmember => by
    obtain ⟨op, constant, hcompares⟩ := h member hmember
    obtain ⟨c, rfl, -⟩ := keyComparison?_some hcompares.compared
    exact ⟨c, rfl⟩
  have hbound {c : Condition} (hc : c ∈ condition.conjuncts) {bound : RangeBound}
      (hbound : c.rangeBound? = some bound) :
      bound.field = keyColumn ∧ c.limits = [bound.value] := by
    obtain ⟨op, constant, hcompares⟩ := h c hc
    exact hcompares.of_rangeBound hbound
  -- each of these holds of a pair exactly if it holds of both of its bounds
  refine ⟨?_, fun scope record => ?_, fun Q => ?_⟩
  · unfold AsksKey
    rw [hconjuncts]
    refine (forall_pairBounds_iff fun c hc d hd first second hfirst hsecond _ _ => ?_).mpr h
    exact iff_of_true (comparesKey_ofBounds (hbound hc hfirst).1 (hbound hd hsecond).1).1
      ⟨h c hc, h d hd⟩
  · rw [← evaluateAll_conjuncts, ← evaluateAll_conjuncts condition, evaluateAll_eq_true_iff,
      evaluateAll_eq_true_iff, hconjuncts]
    refine forall_pairBounds_iff fun c hc d hd first second hfirst hsecond hfield hopposite => ?_
    have hdots : c.BoundDotFree := fun bound h => by
      rw [(hbound hc h).1]
      exact FieldChain.parse_of_no_dot (by decide)
    rw [evaluate_pair hfirst hsecond hfield hopposite hdots, evaluate_of_rangeBound hfirst,
      evaluate_of_rangeBound hsecond]
    simp
  · unfold keyLimits
    rw [hconjuncts, List.forall_mem_flatMap, List.forall_mem_flatMap]
    refine forall_pairBounds_iff fun c hc d hd first second hfirst hsecond _ _ => ?_
    obtain ⟨hfield, hlimits⟩ := hbound hc hfirst
    obtain ⟨hfield', hlimits'⟩ := hbound hd hsecond
    simp [(comparesKey_ofBounds hfield hfield').2, hlimits, hlimits', or_imp, forall_and]

end Condition

/-! ## Filtered rows

The rows that are delivered are compared with the value of the condition on the row itself. They are
the same on keys that are comparable with all `keyLimits`, and on the others the constraints decide.
-/

section

variable {env : Env} {query : SelectQuery} {context : Context} {signals : Signals} {name : String}
  {index : StoredIndex}

/-- The `KeyTerms` that a query makes of its filter on the key accept a key that is comparable with
all `keyLimits` exactly if the filter holds for it and it is not null. The options decide whether
ranges are folded. -/
theorem SelectQuery.exists_keyTerms {condition : Condition} (hasks : condition.AsksKey)
    (hfilter : query.filter = some condition) (options : Options) (index : Index)
    (hsingle : index.definition.isComposite = false) :
    ∃ planned terms, query.plannedFilter options = some planned ∧
      KeyTerms.ofCondition index planned = .ok terms ∧ terms.NamesOne ∧
      ∀ (scope : Scope) (record : Record),
        (terms.keys.accepts [record.get keyColumn] = true ∧ ∀ limit ∈ condition.keyLimits,
          Operator.comparable (record.get keyColumn) limit = true) ↔
        condition.evaluate scope record = .ok true ∧ (record.get keyColumn).isNull = false := by
  unfold SelectQuery.plannedFilter
  rw [hfilter]
  cases options.foldRanges with
  | false =>
      obtain ⟨terms, hterms, hone, hholds⟩ := hasks.exists_terms hsingle
      exact ⟨condition, terms, rfl, hterms, hone, hholds⟩
  | true =>
      obtain ⟨hfolded, hevaluate, hlimits⟩ := hasks.foldRanges
      obtain ⟨terms, hterms, hone, hholds⟩ := hfolded.exists_terms hsingle
      refine ⟨_, terms, rfl, hterms, hone, fun scope record => ?_⟩
      rw [← hlimits, ← hevaluate scope record]
      exact hholds scope record

/-- In a reachable store without floating-point numbers an index on one field is asked for its rows,
with and without equalities, choices and bounds on the key. Those that are left come once each, and
none has a null key. Of the rows whose key is not null every one is left that the filter holds for;
a row whose key is comparable with all limits, `keyLimits`, is left only if the filter holds for
it. -/
theorem collect_keyFilter {condition : Condition}
    (hreach : env.store.Reachable fun fields => Value.entriesExact fields = true)
    (hwhole : query.Whole)
    (hundisturbed : { env with sink := .collecting : Env }.Undisturbed query context signals)
    (hquery : query.ListsEntries name) (hindex : env.store.index? name = some index)
    (hread : index.failing = false) (hfield : index.definition.fields.length = 1)
    (hfilter : query.filter = some condition) (hasks : condition.AsksKey) :
    ∃ all entries : List IndexEntry,
      (collect env { query with filter := none } context signals).1 =
        .ok (all.map (IndexEntry.row false)) ∧
      (collect env query context signals).1 = .ok (entries.map (IndexEntry.row false)) ∧
      all.Nodup ∧ entries.Nodup ∧
      (∀ entry ∈ entries, entry ∈ all ∧ (entry.shownKey false).isNull = false) ∧
      ∀ entry ∈ all, ∀ scope : Scope,
        (entry ∈ entries ∧ ∀ limit ∈ condition.keyLimits,
          Operator.comparable (entry.shownKey false) limit = true) ↔
        condition.evaluate scope (entryRecord false entry) = .ok true ∧
          (entry.shownKey false).isNull = false := by
  have hexact : ∀ r, env.store.Live r → r.isExact = true := fun r hr => hreach.admits_of_live hr
  have hload : ∀ rid r, env.store.load rid = some r → r.isExact = true :=
    fun rid r hr => hexact r (hreach.sound.load_eq_some_iff.mp hr).1
  have hmem : index ∈ env.store.indexes := List.mem_of_find?_eq_some hindex
  have hmirrors := hreach.mirrors (fun _ h => h) index hmem
  have hsingle : index.definition.isComposite = false := by
    simp [IndexDefinition.isComposite, hfield]
  -- without the filter the entries of the walk are shown
  obtain ⟨walked, hwalk, hwalkedOnce, hwalked⟩ := StoredIndex.exists_orderedWalk hmirrors.ordered
    (hreach.listsOnce index hmem) hread query.ascends (!index.definition.ignoreNulls)
  have hkeys (entry : IndexEntry) (hentry : entry ∈ walked) :
      entry.key.isExact = true ∧ entry.key.length = 1 := by
    obtain ⟨hkey, hlength, -⟩ := hmirrors.key_of_holds hexact ((hwalked entry).mp hentry).1
    exact ⟨hkey, hlength.trans hfield⟩
  have hshown (entry : IndexEntry) (hentry : entry ∈ walked) :
      entry.key = [entry.shownKey false] := by
    obtain ⟨v, hv⟩ := List.length_eq_one_iff.mp (hkeys entry hentry).2
    simp [IndexEntry.shownKey, hv]
  obtain ⟨all, hall, hperm, -⟩ := @collect_walked env { query with filter := none } context signals
    name index hload ⟨hwhole.limit, hwhole.skip, hwhole.grouping, hwhole.expand, hwhole.unwind⟩
    ⟨hundisturbed.timeout, hundisturbed.defaultTimeout, hundisturbed.idle⟩
    ⟨hquery.target, hquery.valid, hquery.projections, hquery.orderBy⟩ hindex rfl walked hwalk
    fun entry hentry => ⟨(hkeys entry hentry).1, fun _ => (hkeys entry hentry).2⟩
  -- with it those of them that the constraints accept
  obtain ⟨planned, terms, hplanned, hterms, hone, hholds⟩ := SelectQuery.exists_keyTerms hasks
    hfilter env.options (.stored index) hsingle
  obtain ⟨count, hcount, hruns⟩ := hone.runs
  have hlookup : terms.lookup index.definition.isComposite = terms.lookup false := by rw [hsingle]
  obtain ⟨entries, hentries, hmemEntries, honce, -⟩ := collect_accepted hreach hwhole hundisturbed
    hquery hindex hread (List.ne_nil_of_length_eq_add_one hfield) hplanned hterms
    (fun leading hleading => by
      obtain ⟨hsharp, hlength⟩ := hruns leading (hlookup ▸ hleading)
      exact ⟨hsharp, hlength ▸ hfield ▸ hcount⟩) hwalked
  have hapart : (terms.lookup index.definition.isComposite).Apart (· ∈ entries.map (·.key)) := by
    rw [hlookup]
    refine hone.apart fun key hkey => ?_
    obtain ⟨entry, hentry, rfl⟩ := List.mem_map.mp hkey
    exact .of_isExact (hkeys entry ((hmemEntries entry).mp hentry).1).1
  rw [hsingle] at hall hentries
  refine ⟨all, entries, hall, hentries, hperm.nodup_iff.mpr hwalkedOnce, honce.mpr hapart,
    fun entry hentry => ?_, fun entry hentry scope => ?_⟩
  · obtain ⟨hwalk, haccepts⟩ := (hmemEntries entry).mp hentry
    rw [hshown entry hwalk] at haccepts
    exact ⟨hperm.mem_iff.mpr hwalk,
      hone.isNull_of_accepts (KeyTerms.ofCondition_ok hterms).2 haccepts⟩
  · have hwalk := hperm.mem_iff.mp hentry
    rw [hmemEntries, and_iff_right hwalk, hshown entry hwalk]
    exact hholds scope (entryRecord false entry)

end

/-! ## Keys of different kinds -/

/-- Records with a null, a number and a text in the indexed field `x`. -/
def mixedStore : Store := .ofChanges [
  .createClass "A" none 1 false,
  .createIndex "A.x" .notUnique ⟨"A", ["x"], false, .keys⟩,
  .insert "A" [("x", .int 7)],
  .insert "A" [("x", .string "a")],
  .insert "A" [("x", .null)],
  .insert "A" [("x", .int 3)]]

/-- The index of `mixedStore` on the field `x`. -/
def mixedIndex : StoredIndex := (mixedStore.index? "A.x").get (by decide +kernel)

/-- An executor over `mixedStore`. -/
def mixedEnv : Env := ⟨mixedStore, .default, fun _ => 0, .collecting⟩

/-- The entries of `mixedIndex` that a `filter` leaves. -/
def mixedQuery (filter : Option Condition) : SelectQuery :=
  { SelectQuery.ofTarget (.index "A.x") with filter := filter }

/-- The filter `key > limit`. -/
def keyAbove (limit : Value) : Condition :=
  .compare ⟨.field ⟨keyColumn, []⟩, .greater, .literal limit⟩

/-- The filter `key = value`. -/
def keyEquals (value : Value) : Condition :=
  .compare ⟨.field ⟨keyColumn, []⟩, .equals, .literal value⟩

/-- A lower bound on the key, `keyAbove`, asks for keys. -/
theorem asksKey_keyAbove (limit : Value) : (keyAbove limit).AsksKey := by
  refine List.forall_mem_singleton.mpr ⟨.greater, limit, rfl, trivial, fun c hc => ?_⟩
  cases hc
  exact nofun

/-- An equality of the key with null asks for keys. -/
theorem asksKey_keyEquals_null : (keyEquals .null).AsksKey := by
  refine List.forall_mem_singleton.mpr ⟨.equals, .null, rfl, trivial, fun c hc => ?_⟩
  cases hc
  exact nofun

/-- The filter `key > 5` is false on the text, and its row is delivered; the filter `key = null` is
true on the null, and its row is not delivered. -/
theorem rows_of_mixedKeys :
    mixedStore.Reachable (fun fields => Value.entriesExact fields = true) ∧
    (keyAbove (.int 5)).AsksKey ∧ (keyEquals .null).AsksKey ∧
    (collect mixedEnv (mixedQuery none) .empty []).1.toOption.map entryRids =
      some [⟨1, 2⟩, ⟨1, 3⟩, ⟨1, 0⟩, ⟨1, 1⟩] ∧
    (collect mixedEnv (mixedQuery (some (keyAbove (.int 5)))) .empty []).1.toOption.map
      entryRids = some [⟨1, 0⟩, ⟨1, 1⟩] ∧
    (collect mixedEnv (mixedQuery (some (keyEquals .null))) .empty []).1.toOption.map
      entryRids = some [] ∧
    ∀ scope : Scope,
      (keyAbove (.int 5)).evaluate scope (entryRecord false ⟨[.string "a"], ⟨1, 1⟩⟩) =
        .ok false ∧
      (keyEquals .null).evaluate scope (entryRecord false ⟨[.null], ⟨1, 2⟩⟩) = .ok true := by
  refine ⟨Store.reachable_ofChanges (by decide +kernel), asksKey_keyAbove _,
    asksKey_keyEquals_null, ?_, ?_, ?_, fun scope => ⟨rfl, rfl⟩⟩
  · decide +kernel
  · decide +kernel
  · decide +kernel

/-- Of the numbers in the index, `key > 5` leaves those that it holds for, beside the text. -/
theorem collect_above :
    ∃ all entries : List IndexEntry,
      (collect mixedEnv (mixedQuery none) .empty []).1 = .ok (all.map (IndexEntry.row false)) ∧
      (collect mixedEnv (mixedQuery (some (keyAbove (.int 5)))) .empty []).1 =
        .ok (entries.map (IndexEntry.row false)) ∧
      all.map (·.rid) = [⟨1, 2⟩, ⟨1, 3⟩, ⟨1, 0⟩, ⟨1, 1⟩] ∧
      entries.map (·.rid) = [⟨1, 0⟩, ⟨1, 1⟩] ∧
      ∀ entry ∈ all, ∀ scope : Scope,
        (entry ∈ entries ∧ ∀ limit ∈ (keyAbove (.int 5)).keyLimits,
          Operator.comparable (entry.shownKey false) limit = true) ↔
        (keyAbove (.int 5)).evaluate scope (entryRecord false entry) = .ok true ∧
          (entry.shownKey false).isNull = false := by
  obtain ⟨all, entries, hall, hentries, -, -, -, hfiltered⟩ := @collect_keyFilter mixedEnv
    (mixedQuery (some (keyAbove (.int 5)))) .empty [] "A.x" mixedIndex _
    (Store.reachable_ofChanges (by decide +kernel)) ⟨rfl, rfl, rfl, rfl, rfl⟩
    ⟨rfl, rfl, rfl, rfl, rfl, rfl⟩ ⟨rfl, rfl, rfl, by simp [mixedQuery, SelectQuery.ofTarget]⟩
    (Option.some_get _).symm (by decide +kernel) (by decide +kernel) rfl
    (asksKey_keyAbove _)
  have hall : (collect mixedEnv (mixedQuery none) .empty []).1 =
      .ok (all.map (IndexEntry.row false)) := hall
  refine ⟨all, entries, hall, hentries, ?_, ?_, hfiltered⟩
  · have hrids : (collect mixedEnv (mixedQuery none) .empty []).1.toOption.map entryRids =
        some [⟨1, 2⟩, ⟨1, 3⟩, ⟨1, 0⟩, ⟨1, 1⟩] := by decide +kernel
    rw [hall] at hrids
    exact (entryRids_map false all).symm.trans (Option.some.inj hrids)
  · have hrids : (collect mixedEnv (mixedQuery (some (keyAbove (.int 5)))) .empty
        []).1.toOption.map entryRids = some [⟨1, 0⟩, ⟨1, 1⟩] := by decide +kernel
    rw [hentries] at hrids
    exact (entryRids_map false entries).symm.trans (Option.some.inj hrids)

end RecordQuery
