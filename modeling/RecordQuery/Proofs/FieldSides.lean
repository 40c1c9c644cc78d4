import RecordQuery.Proofs.Conditions
import RecordQuery.Proofs.Reachable
import RecordQuery.Run.Execute

/-!
# `RecordQuery.Proofs.FieldSides`: comparisons with their field moved to the left

A comparison whose only field stands on the right is read with its sides exchanged and its operator
turned round, `Comparison.fieldOnLeft?`. This keeps the meaning of the order operators, of equality
and of its negation. IN and CONTAINS are turned into each other, and they look for an item in a list
alike; but IN also takes a single value for its own only item, and CONTAINS does not. So the meaning
is lost where one of them compares equal single values, and nowhere else.

`Comparison.MeetsSingle` is this case, on a given record. A plan for a class evaluates its filter as
it was written on every record that a lookup gives. An index target does not: its `KeyTerms` are
made from the moved comparisons alone, so it delivers an entry that its filter is false on.

The theorems:

* `Comparison.fieldOnLeft?_sides`: what becomes of the operands and of the operator.
* `Comparison.evaluate_moved_iff`: the records on which a comparison keeps its meaning.
* `Comparison.evaluate_moved_item`: an index target gives an entry that its filter is false on.
-/

set_option autoImplicit false

namespace RecordQuery

namespace Comparison

/-- The field stands on the right, and IN or CONTAINS compares it with an equal value, neither of
them a list, `Operator.MeetsSingle`. -/
def MeetsSingle (c : Comparison) (scope : Scope) (record : Record) : Prop :=
  c.left.chain? = none ∧
    c.operator.MeetsSingle (c.left.resolve scope record) (c.right.resolve scope record)

/-- A field that stands on the left already stays there; otherwise the sides are exchanged, and the
operator is turned round by `inverted?`. -/
theorem fieldOnLeft?_sides {c d : Comparison} (h : c.fieldOnLeft? = some d) :
    d = c ∧ c.left.chain? ≠ none ∨
      c.left.chain? = none ∧ c.operator.inverted? = some d.operator ∧ d.left = c.right ∧
        d.right = c.left := by
  obtain ⟨⟨chain, hfield⟩, hsides⟩ := fieldOnLeft?_cases h
  -- two fields are never exchanged, as neither side is a constant
  cases hleft : c.left with
  | field other =>
      left
      refine ⟨?_, nofun⟩
      unfold fieldOnLeft? at h
      rw [hleft] at h
      cases hright : c.right with
      | field _ => rw [hright] at h; cases h
      | _ => rw [hright] at h; exact (Option.some.inj h).symm
  | _ =>
      right
      rcases hsides with rfl | hinverted
      · cases hleft.symm.trans hfield
      · exact ⟨rfl, hleft ▸ hinverted⟩

/-- A comparison keeps its meaning when its field is moved to the left, failures included, unless IN
or CONTAINS compares the field with an equal single value, `MeetsSingle`. Then IN is true and
CONTAINS is false, and moving the field turns the one into the other. -/
theorem evaluate_moved_iff {c d : Comparison} (h : c.fieldOnLeft? = some d) (scope : Scope)
    (record : Record) :
    (d.evaluate scope record = c.evaluate scope record ↔ ¬c.MeetsSingle scope record) ∧
      (c.MeetsSingle scope record →
        c.evaluate scope record = .ok (c.operator == .oneOf) ∧
        d.evaluate scope record = .ok (d.operator == .oneOf)) := by
  rcases fieldOnLeft?_sides h with ⟨rfl, hleft⟩ | ⟨hleft, hinverted, hfield, hconstant⟩
  · exact ⟨iff_of_true rfl fun hmeets => hleft hmeets.1, fun hmeets => absurd hmeets.1 hleft⟩
  · unfold evaluate MeetsSingle
    rw [hfield, hconstant, Operator.apply_inverted_iff hinverted]
    simp only [hleft, true_and]
    exact fun hmeets => ⟨hmeets.apply_eq, (hmeets.inverted hinverted).apply_eq⟩

/-- The comparison `5 IN field`. -/
def numberIn (field : String) : Comparison := ⟨.literal (.int 5), .oneOf, .field ⟨field, []⟩⟩

/-- The comparison `field CONTAINS 5`. -/
def containsNumber (field : String) : Comparison :=
  ⟨.field ⟨field, []⟩, .contains, .literal (.int 5)⟩

/-- A record with a value in the field `x`. -/
def recordOf (value : Value) : Record := ⟨⟨1, 0⟩, "A", [("x", value)]⟩

/-- `5 IN x` and `x CONTAINS 5` agree on a field that is a list. A field that is the number itself is
taken for a list of it by IN only. -/
theorem evaluate_moved_number :
    (numberIn "x").fieldOnLeft? = some (containsNumber "x") ∧
    (containsNumber "x").evaluate ⟨fun _ => none, [], []⟩ (recordOf (.list [.int 5, .int 7])) =
      (numberIn "x").evaluate ⟨fun _ => none, [], []⟩ (recordOf (.list [.int 5, .int 7])) ∧
    (numberIn "x").evaluate ⟨fun _ => none, [], []⟩ (recordOf (.int 5)) = .ok true ∧
    (containsNumber "x").evaluate ⟨fun _ => none, [], []⟩ (recordOf (.int 5)) = .ok false := by
  have hmoved : (numberIn "x").fieldOnLeft? = some (containsNumber "x") := rfl
  refine ⟨hmoved, (evaluate_moved_iff hmoved _ _).1.mpr fun hmeets => ?_,
    (evaluate_moved_iff hmoved _ _).2 ⟨rfl, .inl rfl, rfl, nofun⟩⟩
  cases hmeets.2.2.1

/-! ## An entry that a moved field lets in -/

/-- A record with a number in the indexed field `x`. -/
def numberStore : Store := .ofChanges [
  .createClass "A" none 1 false,
  .createIndex "A.x" .notUnique ⟨"A", ["x"], false, .keys⟩,
  .insert "A" [("x", .int 5)]]

/-- The comparison `5 CONTAINS field`. -/
def numberContains (field : String) : Comparison :=
  ⟨.literal (.int 5), .contains, .field ⟨field, []⟩⟩

/-- The comparison `field IN 5`. -/
def inNumber (field : String) : Comparison := ⟨.field ⟨field, []⟩, .oneOf, .literal (.int 5)⟩

/-- No number contains another one, so `5 CONTAINS x` is false on a record with this number; it is
true once the field is moved to the left, and an index target delivers the entry of the record. -/
theorem evaluate_moved_item :
    (∀ field, (numberContains field).fieldOnLeft? = some (inNumber field)) ∧
    (∀ scope : Scope, (numberContains "x").evaluate scope (recordOf (.int 5)) = .ok false ∧
      (inNumber "x").evaluate scope (recordOf (.int 5)) = .ok true) ∧
    (collect ⟨numberStore, .default, fun _ => 0, .collecting⟩
      { SelectQuery.ofTarget (.index "A.x") with
        filter := some (.compare (numberContains keyColumn)) } .empty []).1.toOption.map
          (·.map fun row => row.get keyColumn == .int 5) = some [true] :=
  ⟨fun _ => rfl, fun _ => ⟨rfl, rfl⟩, by decide +kernel⟩

end Comparison

end RecordQuery
