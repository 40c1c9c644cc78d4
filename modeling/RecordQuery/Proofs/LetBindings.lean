import RecordQuery.Proofs.IndexPlans

/-!
# `RecordQuery.Proofs.LetBindings`: variables of the planner and of the filter

A name means two things. The planner takes a variable of the context for a constant,
`Operand.keyConstant?`, once for the query, and builds lookups from it. The filter sees a LET
binding of the record first, `SelectQuery.scopeOn`, and a variable of the context only where no
binding hides it. A record on which the two differ may qualify and yet not be among those that are
looked up.

`Condition.AgreesOn` says that they do not differ on a record. It holds where no binding hides a
variable of the context, or hides it by its own value. So one direction of the result has no such
hypothesis: what is delivered qualifies, as the filter is evaluated on every record. The other
direction is for records on which the filter agrees.

The theorems:

* `collect_of_lets`: only records that qualify are delivered, and all of those on which the filter
  agrees with the constants of the planner.
* `collect_hidden`: a record that qualifies by a binding that hides a variable is not delivered.
-/

set_option autoImplicit false

namespace RecordQuery

section

variable {env : Env} {query : SelectQuery} {context : Context} {signals : Signals}
  {className : String} {polymorphic : Bool}

/-- A query for the records of a declared class, with LET bindings, delivers live records of the
class on which its filter is true under their bindings, `Qualifies`. It delivers all of those on
which no binding hides a variable of the context that the filter compares with, unless by its own
value. Stored values are single values and lists of them, `hreach`, no index ignores nulls,
`hnulls`, the filter is `Condition.Direct` and fails on no record. This is so whatever the schedule,
`Env.Collects`. -/
theorem collect_of_lets (hreach : env.store.Reachable Fields.AreFlat)
    (hnulls : ∀ index ∈ env.store.indexes, index.definition.ignoreNulls = false)
    (htarget : query.target = .ofClass className polymorphic)
    (hvalid : query.validate = .ok ⟨⟩)
    (hdeclared : env.store.schema.declares className = true)
    (hunhindered : { env with sink := .collecting : Env }.Unhindered query context signals)
    (hdirect : ∀ condition, query.filter = some condition → condition.Direct context.vars)
    (hdecided : query.Decided env context.vars) :
    env.Collects query context signals fun rows =>
      (∀ rid ∈ rowRids rows,
        ∃ r, Qualifies env.store context.vars query className polymorphic r ∧ r.rid = rid) ∧
      ∀ r, Qualifies env.store context.vars query className polymorphic r →
        (∀ condition, query.filter = some condition →
          condition.AgreesOn context.vars (query.scopeOn env.store context.vars r) r) →
        r.rid ∈ rowRids rows := by
  have hmirrors := hreach.mirrors fun fields hfields => hfields.exact
  have hall := hreach.sound.holdsAll_of_mirrors hmirrors
    fun r hr => (hreach.admits_of_live hr).exact
  refine .of_comes fun result run hcomes => ?_
  refine @found_of_comes { env with sink := .collecting } query context signals className polymorphic
    hreach.sound hall htarget hvalid hdeclared hunhindered hdecided.collecting _
    (fun planned hplanned r hqualifies hagrees => ?_) result run hcomes
  -- a lookup is for constants, and finds the record where its bindings agree with them
  exact hreach.sound.looksUp_of_direct hmirrors hnulls hqualifies.live
    (hreach.admits_of_live hqualifies.live)
    (SelectQuery.direct_planned hdirect hdecided.dotFree hplanned)
    (SelectQuery.agreesOn_planned hagrees hplanned) (hqualifies.planned hdecided hplanned) className
    query

end

/-! ## A binding beside a variable -/

/-- Class `A` with an index on the field `x`, and three records. -/
def pairStore : Store := .ofChanges [
  .createClass "A" none 1 false,
  .createIndex "A.x" .notUnique ⟨"A", ["x"], false, .keys⟩,
  .insert "A" [("x", .int 1), ("y", .int 1)],
  .insert "A" [("x", .int 2), ("y", .int 2)],
  .insert "A" [("x", .int 2), ("y", .int 3)]]

/-- An executor over `pairStore`. -/
def pairEnv : Env := ⟨pairStore, .default, fun _ => 0, .collecting⟩

/-- The context with the variable `v = 1`. -/
def oneContext : Context := Context.empty.setVariable "v" (.int 1)

/-- The condition `x = v AND y = w`. -/
def pairCondition : Condition :=
  .and (.compare ⟨.field ⟨"x", []⟩, .equals, .named "v"⟩)
    (.compare ⟨.field ⟨"y", []⟩, .equals, .named "w"⟩)

/-- The records that it is true on, where LET binds `w` to `x`. -/
def pairQuery : SelectQuery :=
  { SelectQuery.ofTarget (.ofClass "A" true) with
    filter := some pairCondition
    lets := [("w", .field ⟨"x", []⟩)] }

/-- Comparisons of a field with a variable are `Direct` where the context `vars` binds the variable
to a single value, if at all. -/
theorem Comparison.direct_named {vars : Fields} {name used : String}
    (h : ∀ k, vars.get? used = some k → k.isScalar = true) :
    Comparison.Direct vars ⟨.field ⟨name, []⟩, .equals, .named used⟩ where
  short chain hside := by rcases hside with hside | hside <;> cases hside; rfl
  constants := by
    rintro operand (rfl | rfl) k hk
    · cases hk
    · exact .inl (h k hk)

/-- The variable of the context and the binding are both read from the filter, and no binding hides
the variable: the record with `x = 1` and `y = x` is delivered. -/
theorem collect_pair :
    pairEnv.store.Reachable Fields.AreFlat ∧ oneContext.vars = [("v", .int 1)] ∧
      (∃ rows, (collect pairEnv pairQuery oneContext []).1 = .ok rows ∧
        (∀ rid ∈ rowRids rows,
          ∃ r, Qualifies pairEnv.store oneContext.vars pairQuery "A" true r ∧ r.rid = rid) ∧
        (∀ r, Qualifies pairEnv.store oneContext.vars pairQuery "A" true r →
          r.rid ∈ rowRids rows) ∧
        rowRids rows = [⟨1, 0⟩]) ∧
      ∀ result run, Executes { pairEnv with sink := .collecting } pairQuery oneContext [] result run →
        ∀ rid, rid ∈ rowRids run.rows ↔ rid = ⟨1, 0⟩ := by
  have hreach : pairEnv.store.Reachable Fields.AreFlat :=
    Store.reachable_ofChanges (by decide +kernel)
  have hcomparisons : ∀ c ∈ pairCondition.comparisons,
      c = ⟨.field ⟨"x", []⟩, .equals, .named "v"⟩ ∨
        c = ⟨.field ⟨"y", []⟩, .equals, .named "w"⟩ := by
    intro c hc
    simpa [pairCondition, Condition.comparisons] using hc
  -- the binding has a name of its own, so that it hides no variable
  have hagrees (r : Record) : pairCondition.AgreesOn oneContext.vars
      (pairQuery.scopeOn pairEnv.store oneContext.vars r) r := by
    intro c hc
    refine Comparison.agreesOn_of_lookup fun name hside k hk => ?_
    rcases hcomparisons c hc with rfl | rfl <;> rcases hside with hside | hside <;> cases hside
    · cases hk
      rfl
    · cases hk
  obtain ⟨⟨rows, hok, hsub, hall⟩, hexecutes⟩ := @collect_of_lets pairEnv pairQuery oneContext [] "A" true hreach
    (by decide +kernel) rfl rfl (by decide +kernel)
    ⟨⟨rfl, rfl, rfl, rfl, rfl⟩, rfl, rfl, ⟨rfl, rfl, rfl, rfl⟩, by decide +kernel⟩
    (by
      rintro condition ⟨⟩ c hc
      rcases hcomparisons c hc with rfl | rfl
      · exact Comparison.direct_named (by rintro k ⟨⟩; rfl)
      · exact Comparison.direct_named (by rintro k ⟨⟩))
    ⟨by
      rintro - condition ⟨⟩ chain hchain -
      obtain ⟨c, hc, hside⟩ := Condition.mem_chains_iff.mp hchain
      rcases hcomparisons c hc with rfl | rfl <;> rcases hside with hside | hside <;>
        cases hside <;> exact FieldChain.parse_of_no_dot (by decide), by
      rintro condition ⟨⟩ r -
      refine Condition.exists_evaluate fun c hc => Operator.apply_ok (fun lower upper => ?_) _ _
      rcases hcomparisons c hc with rfl | rfl <;> simp⟩
  have hagree (r : Record) (condition : Condition) (hfilter : pairQuery.filter = some condition) :
      condition.AgreesOn oneContext.vars (pairQuery.scopeOn pairEnv.store oneContext.vars r) r := by
    cases hfilter
    exact hagrees r
  have hrows : (collect pairEnv pairQuery oneContext []).1.toOption.map rowRids =
      some [⟨1, 0⟩] := by decide +kernel
  rw [hok] at hrows
  have hdelivered : rowRids rows = [⟨1, 0⟩] := Option.some.inj hrows
  refine ⟨hreach, rfl, ⟨rows, hok, hsub, fun r hr => hall r hr (hagree r), hdelivered⟩,
    fun result run hrun rid => ?_⟩
  -- every execution delivers the records that qualify, as the run does
  obtain ⟨-, hsub', hall'⟩ := hexecutes rfl result run hrun
  rw [← List.mem_singleton, ← hdelivered]
  constructor
  · intro hrid
    obtain ⟨r, hr, rfl⟩ := hsub' rid hrid
    exact hall r hr (hagree r)
  · intro hrid
    obtain ⟨r, hr, rfl⟩ := hsub rid hrid
    exact hall' r hr (hagree r)

/-! ## A binding that hides a variable -/

/-- The records with `x = v`, where LET binds `v` to `2`. -/
def hiddenQuery : SelectQuery :=
  { SelectQuery.ofTarget (.ofClass "A" true) with
    filter := some (.compare ⟨.field ⟨"x", []⟩, .equals, .named "v"⟩)
    lets := [("v", .literal (.int 2))] }

/-- The record qualifies, because the filter sees the binding `v = 2`. The lookup is one of the
context's `v = 1`, and nothing is delivered: on this record the filter does not agree with the
constant. -/
theorem collect_hidden :
    pairEnv.store.Reachable Fields.AreFlat ∧
      (∀ index ∈ pairEnv.store.indexes, index.definition.ignoreNulls = false) ∧
      (∀ condition, hiddenQuery.filter = some condition → condition.Direct oneContext.vars) ∧
      hiddenQuery.Decided pairEnv oneContext.vars ∧
      (∃ r, Qualifies pairEnv.store oneContext.vars hiddenQuery "A" true r ∧ r.rid = ⟨1, 1⟩) ∧
      (collect pairEnv hiddenQuery oneContext []).1.toOption.map rowRids = some [] := by
  have hreach : pairEnv.store.Reachable Fields.AreFlat :=
    Store.reachable_ofChanges (by decide +kernel)
  -- the record whose `x` is the value of the binding
  have hload : pairEnv.store.load ⟨1, 1⟩ =
      some ⟨⟨1, 1⟩, "A", [("x", .int 2), ("y", .int 2)]⟩ := by rfl
  refine ⟨hreach, by decide +kernel, ?_, ⟨?_, ?_⟩, ?_, by decide +kernel⟩
  · rintro condition ⟨⟩ c hc
    rw [List.mem_singleton.mp hc]
    exact Comparison.direct_named (by rintro k ⟨⟩; rfl)
  · rintro - condition ⟨⟩ chain hchain -
    obtain ⟨c, hc, hside⟩ := Condition.mem_chains_iff.mp hchain
    rw [List.mem_singleton.mp hc] at hside
    rcases hside with hside | hside <;> cases hside
    exact FieldChain.parse_of_no_dot (by decide)
  · rintro condition ⟨⟩ r -
    exact @Operator.apply_ok .equals (by simp) _ _
  · refine ⟨_, ⟨(hreach.sound.load_eq_some_iff.mp hload).1, .refl _, ?_⟩, rfl⟩
    rintro condition ⟨⟩
    rfl

end RecordQuery
