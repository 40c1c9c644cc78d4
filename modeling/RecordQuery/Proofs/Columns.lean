import RecordQuery.Proofs.Delivery
import RecordQuery.Proofs.StreamOrder

/-!
# `RecordQuery.Proofs.Columns`: columns that can be ordered

The values of a store without floating-point numbers are totally ordered, but a query may bring in
others: constants and variables of its own. Those are the same for all records. So each column of a
query is *steady*: it has one value for all records, or an exact one for each. On the values of a
`Steady` function `Value.compare` is total, as a single value is ordered with itself whatever it is.

`Steady` passes through everything that makes a column: field chains, operands, LET bindings and
projections. `Fields.Steady` is the same for what stands under each name, which has one more case,
that no record has anything there.

The theorems:

* `Fields.Steady.bindings`, `SelectQuery.steady_sortValue`: LET bindings and ORDER BY values are
  steady.
* `Steady.exists_totalOn`: the values of a steady function are totally ordered.
* `PipelineSetup.exists_totalOn`: ORDER BY orders the records of such a store totally.
-/

set_option autoImplicit false

namespace RecordQuery

/-! ## Fields that are assigned -/

/-- A field that is assigned has its value, and the others keep theirs. `Fields.insert` replaces the
field in its place or appends it. -/
theorem Fields.get?_insert (fields : Fields) (name other : String) (value : Value) :
    (Fields.insert fields name value).get? other =
      if name = other then some value else fields.get? other := by
  induction fields with
  | nil => simp [insert, get?]
  | cons entry fields ih =>
      obtain ⟨k, v⟩ := entry
      unfold insert
      -- the field goes before the first larger name, or in the place of its own
      cases hcmp : Ord.compare name k with
      | lt => simp [get?]
      | eq =>
          obtain rfl := Std.compare_eq_iff_eq.mp hcmp
          by_cases heq : name = other <;> simp [get?, heq]
      | gt =>
          have hne : name ≠ k := by
            rintro rfl
            rw [Std.compare_eq_iff_eq.mpr rfl] at hcmp
            cases hcmp
          by_cases hk : k = other
          · have hother : name ≠ other := hk ▸ hne
            simp [get?, hk, hother]
          · simpa [get?, hk] using ih

/-! ## Steady values -/

/-- The value of `f` is the same for all records, or exact for each, as long as the records are
exact. -/
def Steady (f : Record → Value) : Prop :=
  (∃ v, ∀ r : Record, r.isExact = true → f r = v) ∨
    ∀ r : Record, r.isExact = true → (f r).isExact = true

/-- Under each name there is a `Steady` value or none. The first case covers both a value and none
that are the same for all records. -/
def Fields.Steady (f : Record → Fields) : Prop :=
  ∀ name, (∃ v, ∀ r : Record, r.isExact = true → (f r).get? name = v) ∨
    ∀ r : Record, r.isExact = true → ∃ v, (f r).get? name = some v ∧ v.isExact = true

namespace Fields

/-- No field at all is `Fields.Steady`. -/
theorem Steady.nil : Fields.Steady fun _ => [] := fun _ => .inl ⟨none, fun _ _ => rfl⟩

/-- `insert` of one more steady value, under a `name` that may be taken. -/
theorem Steady.insert {f : Record → Fields} {g : Record → Value} (hf : Fields.Steady f)
    (hg : RecordQuery.Steady g) (name : String) :
    Fields.Steady fun r => (f r).insert name (g r) := by
  intro other
  by_cases heq : name = other
  · rcases hg with ⟨v, hv⟩ | hexact
    · exact .inl ⟨some v, fun r hr => by rw [get?_insert, if_pos heq, hv r hr]⟩
    · exact .inr fun r hr => ⟨g r, by rw [get?_insert, if_pos heq], hexact r hr⟩
  · rcases hf other with ⟨v, hv⟩ | hexact
    · exact .inl ⟨v, fun r hr => by rw [get?_insert, if_neg heq, hv r hr]⟩
    · exact .inr fun r hr => by
        rw [get?_insert, if_neg heq]
        exact hexact r hr

/-- The value under a name of steady fields is `Steady`. -/
theorem Steady.get {f : Record → Fields} (hf : Fields.Steady f) (name : String) :
    RecordQuery.Steady fun r => (f r).get name := by
  rcases hf name with ⟨v, hv⟩ | hexact
  · refine .inl ⟨v.getD .null, fun r hr => ?_⟩
    show ((f r).get? name).getD .null = v.getD .null
    rw [hv r hr]
  · refine .inr fun r hr => ?_
    obtain ⟨v, hv, hexact⟩ := hexact r hr
    show (((f r).get? name).getD .null).isExact = true
    rw [hv]
    exact hexact

/-- Fields are steady that are assigned steady values, the same ones for all records: `assign`
decides without the record whether it assigns, and under which name. -/
theorem Steady.ofList {α : Type} {assign : Record → α → Option (String × Value)}
    (hassign : ∀ a, (∀ r, assign r a = none) ∨
      ∃ name f, RecordQuery.Steady f ∧ ∀ r, assign r a = some (name, f r)) (items : List α) :
    Fields.Steady fun r => Fields.ofList (items.filterMap (assign r)) := by
  unfold Fields.ofList
  -- the assignments are made one after the other, to what the ones before them made
  suffices h : ∀ start : Record → Fields, Fields.Steady start → Fields.Steady fun r =>
      (items.filterMap (assign r)).foldl
        (fun fields (binding : String × Value) => fields.insert binding.1 binding.2) (start r)
    from h _ .nil
  induction items with
  | nil => exact fun _ hstart => hstart
  | cons a items ih =>
      intro start hstart
      rcases hassign a with hnone | ⟨name, f, hf, hsome⟩
      · have hskip (r : Record) : (a :: items).filterMap (assign r) = items.filterMap (assign r) :=
          List.filterMap_cons_none (hnone r)
        simpa only [hskip] using ih start hstart
      · have hadd (r : Record) : (a :: items).filterMap (assign r) =
            (name, f r) :: items.filterMap (assign r) := List.filterMap_cons_some (hsome r)
        simpa only [hadd, List.foldl_cons] using ih _ (hstart.insert hf name)

end Fields

section

variable {load : Rid → Option Record} (hload : ∀ rid r, load rid = some r → r.isExact = true)
  {vars : Fields}

include hload

/-- What a field chain reaches by `resolve` is `Steady`. -/
theorem FieldChain.steady (chain : FieldChain) : Steady fun r => chain.resolve load r :=
  .inr fun _ hr => chain.resolve_isExact hload hr

/-- The value of an operand is steady: constants and variables of the context are the same for all
records, fields of the record are exact, and a LET binding is steady by `hlets`. -/
theorem Operand.steady {lets : Record → Fields} (hlets : Fields.Steady lets) (operand : Operand) :
    Steady fun r => operand.resolve ⟨load, vars, lets r⟩ r := by
  cases operand with
  | field chain => exact chain.steady hload
  | literal value => exact .inl ⟨value, fun _ _ => rfl⟩
  | named name =>
      rcases hlets name with ⟨v, hv⟩ | hexact
      · exact .inl ⟨(v.orElse fun _ => vars.get? name).getD .null, fun r hr => by
          simp only [Operand.resolve, Scope.lookup, hv r hr]⟩
      · refine .inr fun r hr => ?_
        obtain ⟨v, hv, hexact⟩ := hexact r hr
        simp only [Operand.resolve, Scope.lookup, hv]
        exact hexact

/-- The LET `bindings` of a record are steady. The induction is on the bindings, as each may refer
to those before it. -/
theorem Fields.Steady.bindings {evaluator : Evaluator} (hstore : evaluator.store.load = load) :
    Fields.Steady evaluator.bindings := by
  unfold Evaluator.bindings Evaluator.scope
  rw [hstore]
  suffices h : ∀ start : Record → Fields, Fields.Steady start → Fields.Steady fun r =>
      evaluator.lets.foldl (fun lets (binding : String × Operand) => lets.insert binding.1
        (binding.2.resolve ⟨load, evaluator.vars, lets⟩ r)) (start r) from h _ .nil
  induction evaluator.lets with
  | nil => exact fun _ hstart => hstart
  | cons binding lets ih =>
      intro start hstart
      exact ih _ (hstart.insert (Operand.steady hload hstart binding.2) binding.1)

/-- The columns of a row are steady. Without projections the row has the fields of its record, which
`hcolumns` excludes here. -/
theorem SelectQuery.steady_project (query : SelectQuery) (hcolumns : query.projections ≠ [])
    {lets : Record → Fields} (hlets : Fields.Steady lets) (name : String) :
    Steady fun r => (query.project ⟨load, vars, lets r⟩ r).get name := by
  have hempty : query.projections.isEmpty = false := by
    rwa [List.isEmpty_eq_false_iff]
  have hfields : Fields.Steady fun r => (query.project ⟨load, vars, lets r⟩ r).fields := by
    simp only [project, hempty]
    refine Fields.Steady.ofList (fun projection => ?_) query.projections
    cases projection with
    | expr operand name => exact .inr ⟨name, _, operand.steady hload hlets, fun _ => rfl⟩
    | aggregate fn field name => exact .inl fun _ => rfl
  have hrid : (∀ r, (query.project ⟨load, vars, lets r⟩ r).rid = none) ∨
      ∀ r, (query.project ⟨load, vars, lets r⟩ r).rid = some r.rid := by
    simp only [project, hempty]
    cases query.target with
    | index name => exact .inl fun _ => rfl
    | ofClass | clusters | records | linked => exact .inr fun _ => rfl
  have hplain := hfields.get name
  unfold Row.get
  rcases hrid with hrid | hrid
  · simpa only [hrid] using hplain
  · simp only [hrid]
    -- `@rid` reads the identity, which is an exact value
    cases name == ridAttribute with
    | true => exact .inr fun _ _ => rfl
    | false => exact hplain

/-- The ORDER BY values of rows, `sortValue`, are steady, of a column by its alias as well as of a
field of the record. -/
theorem SelectQuery.steady_sortValue (query : SelectQuery) {lets : Record → Fields}
    (hlets : Fields.Steady lets) (item : OrderItem) :
    Steady fun r => query.sortValue load r (some (query.project ⟨load, vars, lets r⟩ r)) item := by
  unfold sortValue
  cases hcolumn : !item.field.isLong &&
      query.projections.any fun p => p.outputName == item.field.first with
  | false => exact item.field.steady hload
  | true =>
      refine query.steady_project hload ?_ hlets item.field.first
      rintro hnone
      simp [hnone] at hcolumn

omit hload in
/-- The values of a steady function are totally ordered on a property `place`: being its one value,
or being exact. -/
theorem Steady.exists_totalOn {f : Record → Value} (h : Steady f) :
    ∃ place : Value → Prop, TotalOn Value.compare place ∧
      ∀ r : Record, r.isExact = true → place (f r) := by
  rcases h with ⟨v, hv⟩ | hexact
  · -- a single value is in order with itself, whatever it is
    have hself : v.compare v = .eq := eq_of_eq_swap (Value.compare_swap v v)
    refine ⟨(· = v), ⟨?_, ?_⟩, hv⟩
    · rintro a b rfl rfl
      rw [hself]
      rfl
    · rintro a b c rfl rfl rfl hle -
      exact hle
  · exact ⟨_, Value.totalOn_exact, hexact⟩

omit hload in
/-- The values of steady functions are totally ordered place by place, as `KeyWithin` asks. -/
theorem exists_places {fs : List (Record → Value)} (hfs : ∀ f ∈ fs, Steady f) :
    ∃ places : List (Value → Prop), (∀ place ∈ places, TotalOn Value.compare place) ∧
      ∀ r : Record, r.isExact = true → KeyWithin places (fs.map fun f => f r) := by
  induction fs with
  | nil => exact ⟨[], by simp, fun _ _ => .nil⟩
  | cons f fs ih =>
      obtain ⟨hf, hfs⟩ := List.forall_mem_cons.mp hfs
      obtain ⟨place, htotal, hplace⟩ := hf.exists_totalOn
      obtain ⟨places, htotals, hplaces⟩ := ih hfs
      exact ⟨place :: places, List.forall_mem_cons.mpr ⟨htotal, htotals⟩,
        fun r hr => .cons (hplace r hr) (hplaces r hr)⟩

end

/-- ORDER BY orders exact records totally, whatever columns the query makes of them. The property
`p` of keys is the one of `exists_places`. -/
theorem PipelineSetup.exists_totalOn (setup : PipelineSetup) (env : Env) (evaluator : Evaluator)
    (hstore : evaluator.store = env.store)
    (hload : ∀ rid r, env.store.load rid = some r → r.isExact = true) :
    ∃ p, TotalOn (compareKeys setup.query.orderBy) p ∧ ∀ r : Record, r.isExact = true →
      p (setup.sortKey env evaluator ⟨r, evaluator.bindings r⟩) := by
  have hlets : Fields.Steady evaluator.bindings :=
    Fields.Steady.bindings hload (by rw [hstore])
  let values : List (Record → Value) := setup.query.orderBy.map fun item r =>
    setup.query.sortValue env.store.load r
      (some (setup.query.project ⟨env.store.load, evaluator.vars, evaluator.bindings r⟩ r)) item
  have hsteady : ∀ f ∈ values, Steady f := by
    intro f hf
    obtain ⟨item, -, rfl⟩ := List.mem_map.mp hf
    exact setup.query.steady_sortValue hload hlets item
  -- what an item of ORDER BY asks for is exact on every record, or one and the same value on all
  obtain ⟨places, htotal, hplaces⟩ := exists_places hsteady
  refine ⟨KeyWithin places, compareKeys_totalOn_places _ htotal, fun r hr => ?_⟩
  have hkey := hplaces r hr
  rw [List.map_map] at hkey
  unfold PipelineSetup.sortKey PipelineSetup.row Evaluator.scope SelectQuery.sortKey
  rw [hstore]
  exact hkey

end RecordQuery
