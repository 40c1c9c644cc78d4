import RecordQuery.Condition.RangeFolding
import RecordQuery.Condition.RidHint
import RecordQuery.Proofs.ValueOrder

/-!
# `RecordQuery.Proofs.Conditions`: conditions before and after planning

Planning rewrites a condition before it looks for indexes. `Comparison.fieldOnLeft?` moves the field
of a comparison to the left and inverts the operator. `Condition.conjuncts` takes a conjunction as
the list of its members, and `Condition.ridRange` reads bounds on `@rid` as a range to scan. The
question of this module is what each of these does to the value of the condition.

The second and the third keep the meaning wherever the condition can be evaluated. The first does
not quite. CONTAINS becomes IN, and IN takes a single value on its right for a list of one item,
which CONTAINS does not do on its left. `Operator.MeetsSingle` is that case, and
`Operator.apply_inverted_iff` says that there is no other one. What planning needs is weaker.
`Operator.Admits` allows for the extra case, and a comparison that is true admits its operands after
the move, so a lookup planned from it misses nothing.

The theorems:

* `Operator.apply_inverted_iff`: which operands an operator and its inverse agree on.
* `evaluateAll_conjuncts`: the members of a conjunction mean together what the conjunction means.
* `ridRange_contains`: the range holds every record on which the condition is true.
* `Comparison.admits_of_evaluate`: a comparison that is true still holds, in the sense of `Admits`,
  after its field has been moved to the left.
-/

set_option autoImplicit false

namespace RecordQuery

/-! ## Operators with their operands exchanged

`inverted?` names an operator for the exchanged operands. One pair does not agree everywhere: a
single value on the right of IN counts as a list of one item, and on the left of CONTAINS it does
not. `MeetsSingle` are the operands where this matters. -/

namespace Operator

/-- `comparable` is symmetric. -/
theorem comparable_comm (a b : Value) : comparable a b = comparable b a := by
  cases a <;> cases b <;> rfl

/-- Exchanging two values turns `ordered?` around. Values that are not comparable have no order
either way. -/
theorem ordered?_swap (a b : Value) : ordered? b a = (ordered? a b).map Ordering.swap := by
  unfold ordered?
  rw [comparable_comm b a, Value.compare_swap a b]
  split <;> rfl

/-- Two values that are equal are equal the other way round. This holds of all values, as
`Value.compare_swap` does. -/
theorem beq_comm (a b : Value) : (a == b) = (b == a) := by
  show (a.compare b == .eq) = (b.compare a == .eq)
  rw [Value.compare_swap a b]
  cases a.compare b <;> rfl

/-- The operator is IN or CONTAINS (`oneOf`, `contains`), and it compares two equal values that are
no lists. Here IN holds and CONTAINS does not. -/
def MeetsSingle (op : Operator) (left right : Value) : Prop :=
  (op = .oneOf ∨ op = .contains) ∧ (left == right) = true ∧ ∀ items, left ≠ .list items

/-- Of two equal values both are lists or none is, as they have one `rank`. -/
theorem exists_list_of_beq {a b : Value} (h : (a == b) = true) {items : List Value}
    (ha : a = .list items) : ∃ others, b = .list others := by
  subst ha
  have hrank := Value.rank_eq_of_compare_eq (Value.beq_iff.mp h)
  cases b with
  | list others => exact ⟨others, rfl⟩
  | _ => cases hrank

/-- Of two equal values it does not matter which one is looked at for being a list. -/
theorem single_comm (a b : Value) : ((b == a) = true ∧ ∀ items, b ≠ .list items) ↔
    ((a == b) = true ∧ ∀ items, a ≠ .list items) := by
  rw [beq_comm b a]
  refine and_congr_right fun hequal => ⟨fun hb items ha => ?_, fun ha items hb => ?_⟩
  · obtain ⟨others, hothers⟩ := exists_list_of_beq hequal ha
    exact hb others hothers
  · rw [beq_comm] at hequal
    obtain ⟨others, hothers⟩ := exists_list_of_beq hequal hb
    exact ha others hothers

/-- An order operator asks `test` of the order of its operands. Its inverse asks `swapped`, which
says of the order turned around what `test` says of the order. -/
theorem any_ordered?_swap {test swapped : Ordering → Bool} (h : ∀ o, swapped o.swap = test o)
    (a b : Value) : (ordered? b a).any swapped = (ordered? a b).any test := by
  rw [ordered?_swap a b, Option.any_map]
  exact congrArg (Option.any · (ordered? a b)) (funext h)

/-- `oneOf` looks for its left side among the items of its right side, and `contains` the other way
round. They differ exactly where there are no items and the two values are equal. -/
theorem contains_iff_oneOf (item whole : Value) :
    apply .contains whole item = apply .oneOf item whole ↔
      ¬((item == whole) = true ∧ ∀ items, item ≠ .list items) := by
  cases whole with
  | list items =>
      refine iff_of_true rfl fun ⟨hequal, hsingle⟩ => ?_
      rw [beq_comm] at hequal
      obtain ⟨others, rfl⟩ := exists_list_of_beq hequal rfl
      exact hsingle others rfl
  | _ =>
      -- a single value has no items, and is no list if it equals one that is none
      simp only [apply, Except.ok.injEq, not_and, not_forall, not_not]
      refine ⟨fun hfalse hequal => ?_, fun hlist => ?_⟩
      · rw [beq_comm, hequal] at hfalse
        cases hfalse
      · rw [eq_comm, beq_comm, Bool.eq_false_iff]
        intro hequal
        obtain ⟨items, hitems⟩ := hlist hequal
        obtain ⟨others, hothers⟩ := exists_list_of_beq hequal hitems
        cases hothers

/-- An operator and the one that `inverted?` names agree on two values, unless these are
`MeetsSingle`: equal, no lists, and the operators IN and CONTAINS. -/
theorem apply_inverted_iff {op inverted : Operator} (h : op.inverted? = some inverted)
    (a b : Value) : inverted.apply b a = op.apply a b ↔ ¬op.MeetsSingle a b := by
  unfold MeetsSingle
  -- an order is turned around with the values; IN and CONTAINS differ on a single value
  cases op with
  | equals =>
      cases h
      exact iff_of_true (congrArg Except.ok (beq_comm b a)) (by simp)
  | notEquals =>
      cases h
      exact iff_of_true (congrArg (Except.ok !·) (beq_comm b a)) (by simp)
  | less | lessOrEquals | greater | greaterOrEquals =>
      cases h
      refine iff_of_true (congrArg Except.ok (any_ordered?_swap (fun o => ?_) a b)) (by simp)
      cases o <;> rfl
  | oneOf =>
      cases h
      rw [contains_iff_oneOf a b]
      simp
  | contains =>
      cases h
      rw [eq_comm, contains_iff_oneOf b a, single_comm a b]
      simp
  | _ => cases h

/-- The operator that `inverted?` names meets the same two values, in the other order. -/
theorem MeetsSingle.inverted {op inverted : Operator} {a b : Value} (h : op.MeetsSingle a b)
    (hinverted : op.inverted? = some inverted) : inverted.MeetsSingle b a := by
  refine ⟨?_, (single_comm a b).mpr h.2⟩
  rcases h.1 with rfl | rfl
  · cases hinverted
    exact .inr rfl
  · cases hinverted
    exact .inl rfl

/-- Between equal values that are no lists `oneOf` holds and `contains` does not, so moving the
field turns one answer into the other. -/
theorem MeetsSingle.apply_eq {op : Operator} {a b : Value} (h : op.MeetsSingle a b) :
    op.apply a b = .ok (op == .oneOf) := by
  obtain ⟨rfl | rfl, hequal, hsingle⟩ := h
  · rw [beq_comm] at hequal
    cases b with
    | list items =>
        obtain ⟨others, rfl⟩ := exists_list_of_beq hequal rfl
        exact absurd rfl (hsingle others)
    | _ => exact congrArg Except.ok hequal
  · cases a with
    | list items => exact absurd rfl (hsingle items)
    | _ => rfl

/-- What an operator finds when it looks for a constant in a value. It is what `apply` says, except
that `contains` also finds the value itself, because it may stand for an IN whose sides were
exchanged. -/
def Admits (op : Operator) (value constant : Value) : Prop :=
  op.apply value constant = .ok true ∨
    (op = .contains ∧ (∀ items, value ≠ .list items) ∧ (value == constant) = true)

/-- If an operator holds, the one that `inverted?` names `Admits` the operands in the other
order. -/
theorem admits_of_inverted {op inverted : Operator} {a b : Value}
    (hinverted : op.inverted? = some inverted) (h : op.apply a b = .ok true) :
    inverted.Admits b a := by
  by_cases hmeets : op.MeetsSingle a b
  · have hholds : (op == .oneOf) = true := Except.ok.inj (hmeets.apply_eq.symm.trans h)
    obtain rfl : op = .oneOf := beq_iff_eq.mp hholds
    cases hinverted
    obtain ⟨hequal, hsingle⟩ := (single_comm a b).mpr hmeets.2
    exact .inr ⟨rfl, hsingle, hequal⟩
  · exact .inl (((apply_inverted_iff hinverted a b).mpr hmeets).trans h)

/-- `apply` has a value for every operator but BETWEEN on any two values. BETWEEN asks for a list of
two bounds. -/
theorem apply_ok {op : Operator} (hop : ∀ lower upper, op ≠ .between lower upper)
    (v k : Value) : ∃ b, op.apply v k = .ok b := by
  cases op with
  | between lower upper => exact absurd rfl (hop lower upper)
  | oneOf | contains | containsKey | containsValue | like =>
      unfold apply
      dsimp only
      split <;> exact ⟨_, rfl⟩
  | _ => exact ⟨_, rfl⟩

end Operator

/-- The inversion of `fieldOnLeft?`: the comparison is as it was, or its sides are exchanged and the
operator is inverted. On the left there is a field in both cases. -/
theorem Comparison.fieldOnLeft?_cases {c d : Comparison} (h : c.fieldOnLeft? = some d) :
    (∃ chain, d.left = .field chain) ∧
      (d = c ∨ (c.operator.inverted? = some d.operator ∧ d.left = c.right ∧ d.right = c.left)) := by
  unfold fieldOnLeft? at h
  -- with two fields there is no constant to look up, and with none nothing to look it up in
  cases hleft : c.left with
  | field chain =>
      cases hright : c.right with
      | field other => simp [hleft, hright] at h
      | _ =>
          rw [hleft, hright] at h
          cases h
          exact ⟨⟨chain, hleft⟩, .inl rfl⟩
  | _ =>
      cases hright : c.right with
      | field chain =>
          rw [hleft, hright] at h
          obtain ⟨op, hop, rfl⟩ := Option.map_eq_some_iff.mp h
          exact ⟨⟨chain, rfl⟩, .inr ⟨hop, rfl, rfl⟩⟩
      | _ => simp [hleft, hright] at h

/-- The field that `fieldOnLeft?` puts on the left is one side of the comparison. -/
theorem Comparison.side_of_fieldOnLeft? {c : Comparison} {chain : FieldChain} {op : Operator}
    {right : Operand} (h : c.fieldOnLeft? = some ⟨.field chain, op, right⟩) :
    c.left = .field chain ∨ c.right = .field chain := by
  rcases (fieldOnLeft?_cases h).2 with heq | ⟨-, hfield, -⟩
  · exact .inl (by rw [← heq])
  · exact .inr hfield.symm

/-- A comparison that is true still holds after its field has been moved to the left, in the sense
of `Operator.Admits`. -/
theorem Comparison.admits_of_evaluate {c d : Comparison} {scope : Scope} {record : Record}
    (hleft : c.fieldOnLeft? = some d) (h : c.evaluate scope record = .ok true) :
    d.operator.Admits (d.left.resolve scope record) (d.right.resolve scope record) := by
  obtain ⟨-, rfl | ⟨hinverted, hfield, hconstant⟩⟩ := fieldOnLeft?_cases hleft
  · exact .inl h
  · rw [hfield, hconstant]
    exact Operator.admits_of_inverted hinverted h

namespace Condition

/-! ## Conjunctions as lists

Folding and analysis treat a conjunction as a list of members. `evaluateAll` is the meaning of such
a list, failures in their order included. -/

section

variable {scope : Scope} {record : Record}

/-- The meaning of a list of conditions that all have to hold. The first one that does not hold, or
that fails, ends it, as `evaluate` of an AND does. -/
def evaluateAll (scope : Scope) (record : Record) : List Condition → Except QueryError Bool
  | [] => .ok true
  | c :: cs =>
      match c.evaluate scope record with
      | .error e => .error e
      | .ok false => .ok false
      | .ok true => evaluateAll scope record cs

/-- One list of conditions after another: `ds` is evaluated only if all of `cs` hold. -/
theorem evaluateAll_append (cs ds : List Condition) :
    evaluateAll scope record (cs ++ ds) =
      match evaluateAll scope record cs with
      | .error e => .error e
      | .ok false => .ok false
      | .ok true => evaluateAll scope record ds := by
  induction cs with
  | nil => rfl
  | cons c cs ih =>
      simp only [List.cons_append, evaluateAll]
      split
      · rfl
      · rfl
      · exact ih

/-- `evaluateAll` of a single condition is its `evaluate`. -/
theorem evaluateAll_singleton (c : Condition) :
    evaluateAll scope record [c] = c.evaluate scope record := by
  unfold evaluateAll
  split
  next h => exact h.symm
  next h => exact h.symm
  next h => exact h.symm

/-- `conjunction` of a list means that all of them hold, from left to right. -/
theorem evaluate_conjunction (first : Condition) (rest : List Condition) :
    (conjunction first rest).evaluate scope record = evaluateAll scope record (first :: rest) := by
  unfold conjunction
  induction rest generalizing first with
  | nil => exact (evaluateAll_singleton first).symm
  | cons c cs ih =>
      rw [List.foldl_cons, ih]
      simp only [evaluateAll, evaluate]
      cases first.evaluate scope record with
      | error e => rfl
      | ok b => cases b <;> rfl

/-- The `conjuncts` of a condition mean together what it means, failures included: AND evaluates
from left to right, however its members are nested. -/
theorem evaluateAll_conjuncts (condition : Condition) :
    evaluateAll scope record condition.conjuncts = condition.evaluate scope record := by
  induction condition with
  | and left right ihl ihr =>
      rw [conjuncts, evaluateAll_append, ihl, ihr]
      cases hleft : left.evaluate scope record with
      | error e => simp only [evaluate, hleft]
      | ok b => cases b <;> simp only [evaluate, hleft]
  | or left right => exact evaluateAll_singleton _
  | not inner => exact evaluateAll_singleton _
  | compare c => exact evaluateAll_singleton _

/-- Where `evaluateAll` holds, each of the conditions does. -/
theorem evaluate_of_evaluateAll {cs : List Condition} (h : evaluateAll scope record cs = .ok true)
    {c : Condition} (hc : c ∈ cs) : c.evaluate scope record = .ok true := by
  induction cs with
  | nil => cases hc
  | cons d ds ih =>
      unfold evaluateAll at h
      split at h
      · cases h
      · cases h
      next hd =>
        rcases List.mem_cons.mp hc with rfl | hc
        · exact hd
        · exact ih h hc

end

/-! ## Comparisons in a condition

Some properties of a condition are properties of its comparisons, wherever they stand. -/

/-- The comparisons of a condition, from left to right, those under `not` among them. -/
def comparisons : Condition → List Comparison
  | and left right | or left right => left.comparisons ++ right.comparisons
  | not inner => inner.comparisons
  | compare c => [c]

/-- A condition has a value where all its `comparisons` have one. -/
theorem exists_evaluate {condition : Condition} {scope : Scope} {record : Record}
    (h : ∀ c ∈ condition.comparisons, ∃ b, c.evaluate scope record = .ok b) :
    ∃ b, condition.evaluate scope record = .ok b := by
  induction condition with
  | and left right ihl ihr =>
      obtain ⟨l, hl⟩ := ihl fun c hc => h c (List.mem_append_left _ hc)
      obtain ⟨r, hr⟩ := ihr fun c hc => h c (List.mem_append_right _ hc)
      rw [evaluate, hl, hr]
      -- the other side may not be evaluated at all, but it has a value too
      cases l <;> exact ⟨_, rfl⟩
  | or left right ihl ihr =>
      obtain ⟨l, hl⟩ := ihl fun c hc => h c (List.mem_append_left _ hc)
      obtain ⟨r, hr⟩ := ihr fun c hc => h c (List.mem_append_right _ hc)
      rw [evaluate, hl, hr]
      cases l <;> exact ⟨_, rfl⟩
  | not inner ih =>
      obtain ⟨b, hb⟩ := ih h
      rw [evaluate, hb]
      exact ⟨_, rfl⟩
  | compare c => exact h c (List.mem_singleton.mpr rfl)

/-- The fields that `Condition.chains` lists are those that some comparison has on one of its
sides. -/
theorem mem_chains_iff {condition : Condition} {chain : FieldChain} :
    chain ∈ condition.chains ↔
      ∃ c ∈ condition.comparisons, c.left = .field chain ∨ c.right = .field chain := by
  have hoperand (operand : Operand) :
      chain ∈ operand.chain?.toList ↔ operand = .field chain := by
    cases operand <;> simp [Operand.chain?, eq_comm]
  induction condition with
  | and left right ihl ihr =>
      simp only [chains, comparisons, List.mem_append, ihl, ihr, or_and_right, exists_or]
  | or left right ihl ihr =>
      simp only [chains, comparisons, List.mem_append, ihl, ihr, or_and_right, exists_or]
  | not inner ih => exact ih
  | compare d => simp [chains, comparisons, hoperand]

/-! ## Bounds on identities

A comparison of the identity narrows the range that is scanned. The range may only lose records on
which the condition is false. -/

section

variable {scope : Scope} {record : Record}

/-- A comparison of `@rid` with a link compares the identity of the record with it, from whichever
side. -/
theorem evaluate_of_ridComparison {c : Condition} {op : Operator} {rid : Rid}
    (h : c.ridComparison? = some (op, rid)) (htrue : c.evaluate scope record = .ok true) :
    op.Admits (.link record.rid) (.link rid) := by
  cases c with
  | compare c =>
      simp only [ridComparison?] at h
      split at h
      next chain operator rid' hleft =>
        split at h
        next hchain =>
          cases h
          have hchain : chain.hops = [] ∧ chain.first = ridAttribute := by
            simpa [FieldChain.isLong] using hchain
          have hadmits := Comparison.admits_of_evaluate hleft htrue
          simpa [Operand.resolve, FieldChain.resolve, hchain, Record.get] using hadmits
        · cases h
      · cases h
  | _ => cases h

/-- Raising the lower bound to `low` keeps the identities that are not below it. -/
theorem contains_raiseLowest {range : RidRange} {rid low : Rid}
    (hrange : range.contains rid = true) (hlow : low.le rid = true) :
    (range.raiseLowest low).contains rid = true := by
  unfold RidRange.contains RidRange.raiseLowest at *
  cases hlowest : range.lowest with
  | none => simp_all
  | some current =>
      simp only [hlowest, Option.all_some, Bool.and_eq_true] at hrange ⊢
      refine ⟨?_, hrange.2⟩
      unfold Rid.max
      split
      · exact hlow
      · exact hrange.1

/-- Lowering the upper bound to `high` keeps the identities that are not above it. -/
theorem contains_lowerHighest {range : RidRange} {rid high : Rid}
    (hrange : range.contains rid = true) (hhigh : rid.le high = true) :
    (range.lowerHighest high).contains rid = true := by
  unfold RidRange.contains RidRange.lowerHighest at *
  cases hhighest : range.highest with
  | none => simp_all
  | some current =>
      simp only [hhighest, Option.all_some, Bool.and_eq_true] at hrange ⊢
      refine ⟨hrange.1, ?_⟩
      unfold Rid.min
      split
      · exact hrange.2
      · exact hhigh

/-- A range stays around a record when `narrow` takes up a comparison that holds for it. A strict
bound narrows to the bound itself, so the range may hold more records than the comparison does. -/
theorem contains_narrow {range : RidRange} {op : Operator} {rid other : Rid}
    (hrange : range.contains rid = true) (h : op.Admits (.link rid) (.link other)) :
    (range.narrow (op, other)).contains rid = true := by
  have hswap : other.compare rid = (rid.compare other).swap :=
    Value.compare_swap (.link rid) (.link other)
  -- links are ordered like the identities in them
  have hvalues : Operator.ordered? (.link rid) (.link other) = some (rid.compare other) := rfl
  cases op with
  | equals =>
      have heq : (Value.link rid == Value.link other) = true := by
        simpa [Operator.Admits, Operator.apply] using h
      have heq : rid.compare other = .eq := eq_of_beq heq
      refine contains_lowerHighest (contains_raiseLowest hrange ?_) ?_
      · simp [Rid.le, hswap, heq]
      · simp [Rid.le, heq]
  | greater | greaterOrEquals =>
      refine contains_raiseLowest hrange ?_
      simp only [Operator.Admits, Operator.apply, hvalues] at h
      simp only [Rid.le, hswap]
      cases hcompare : rid.compare other <;> simp_all
  | less | lessOrEquals =>
      refine contains_lowerHighest hrange ?_
      simp only [Operator.Admits, Operator.apply, hvalues] at h
      simp only [Rid.le]
      cases hcompare : rid.compare other <;> simp_all
  | _ => exact hrange

/-- `ridRange` holds every record on which the condition is true. Only the members of the
conjunction are read, and each of them is true where the condition is. -/
theorem ridRange_contains {condition : Condition}
    (h : condition.evaluate scope record = .ok true) :
    condition.ridRange.contains record.rid = true := by
  rw [← evaluateAll_conjuncts] at h
  have hnarrow {comparisons : List (Operator × Rid)} {range : RidRange}
      (hrange : range.contains record.rid = true)
      (hall : ∀ p ∈ comparisons, p.1.Admits (.link record.rid) (.link p.2)) :
      (comparisons.foldl RidRange.narrow range).contains record.rid = true := by
    induction comparisons generalizing range with
    | nil => exact hrange
    | cons p ps ih =>
        obtain ⟨hp, hps⟩ := List.forall_mem_cons.mp hall
        exact ih (contains_narrow hrange hp) hps
  refine hnarrow rfl fun p hp => ?_
  obtain ⟨c, hc, hp⟩ := List.mem_filterMap.mp hp
  exact evaluate_of_ridComparison hp (evaluate_of_evaluateAll h hc)

end

end Condition

end RecordQuery
