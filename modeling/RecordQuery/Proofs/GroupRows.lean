import RecordQuery.Proofs.Aggregates
import RecordQuery.Proofs.Columns
import RecordQuery.Proofs.Groups

/-!
# `RecordQuery.Proofs.GroupRows`: what the rows of the groups show

Every group makes one row. Without columns it is the first record of the group. Otherwise a plain
column shows its value on the first record, and an aggregate what it amounts to over all records of
the group and no others. Without a grouping field there is one group, also where there is no record.
With one field there is one for each of its values, in the order in which they are first seen.

`Projection.Shows` says what a column is to show, by its aggregate. Smallest and largest values are
stated as `IsFirstOf` an order, and not with the `Accumulator`, so the statement does not repeat the
code; sums and averages are those of the `Accumulator`, and their arithmetic is a matter of its own
(`RunningSums`). `ShowsGroup` puts the columns of a row together.

`Grouping.groupsOf` are the groups of a query with at most one grouping field, by the values of that
field and without group keys. With several fields the keys are joined texts, which may be equal for
different values (`GroupTexts`).

The theorems:

* `Grouping.stateOf_slots`, `Grouping.slotAfter_shows`: the state of each column after a group.
* `Grouping.rowOf_shows`: the row of a group.
* `Grouping.rows_show_groups`: the rows of a query with at most one grouping field.
-/

set_option autoImplicit false

namespace RecordQuery

/-- Where names are given once (`hnames`), `ofList` assigns each of them its value. Of two columns
with one name the later one would win. -/
theorem Fields.get?_ofList {assignments : List (String × Value)}
    (hnames : (assignments.map Prod.fst).Nodup) {name : String} {value : Value}
    (h : (name, value) ∈ assignments) : (ofList assignments).get? name = some value := by
  unfold ofList
  induction assignments using List.reverseRecOn with
  | nil => cases h
  | append_singleton assignments last ih =>
      rw [List.map_append, List.map_singleton, List.nodup_append] at hnames
      rw [List.foldl_append, List.foldl_cons, List.foldl_nil]
      show (insert _ last.1 last.2).get? name = _
      rw [get?_insert]
      rcases List.mem_append.mp h with h | h
      · have hne : last.1 ≠ name :=
          (hnames.2.2 name (List.mem_map_of_mem h) last.1 (List.mem_singleton_self _)).symm
        rw [if_neg hne]
        exact ih hnames.1 h
      · rw [← List.mem_singleton.mp h, if_pos rfl]

/-! ## The columns of a group

The state of a column is a fold over the records of the group. `Projection.Shows` says what the
value should be, one case for each kind of column, and `slotAfter_shows` that it is. -/

namespace Grouping

/-- The values that the field of an aggregate has on the records of a group. A count of the records
has no field, and then there is `none` for each record. -/
def valuesOf (field : Option FieldChain) (group : List Input) : List (Option Value) :=
  group.map fun i => field.map fun chain => chain.resolve i.1.load i.2

end Grouping

/-- What a column shows of a group. A plain column (`expr`) shows its value on the first record,
null where there is none. A count is that of the records, or of those whose field is not null; the
smallest and the largest value are among those that are not null, or null where there is none, and
of equal ones the first is shown (`IsFirstOf`). The other aggregates are those of the values on the
records of the group. -/
def Projection.Shows (group : List Grouping.Input) : Projection → Value → Prop
  | .expr operand _, value =>
      value = (group.head?.map fun i => operand.resolve i.1 i.2).getD .null
  | .aggregate .count none _, value => value = .int (Int64.ofNat group.length)
  | .aggregate .count (some chain) _, value =>
      value = .int (Int64.ofNat
        (Accumulator.present (Grouping.valuesOf (some chain) group)).length)
  | .aggregate .min field _, value =>
      ∃ best, IsFirstOf Value.compare (Accumulator.present (Grouping.valuesOf field group)) best ∧
        value = best.getD .null
  | .aggregate .max field _, value =>
      ∃ best, IsFirstOf (fun a b => (a.compare b).swap)
          (Accumulator.present (Grouping.valuesOf field group)) best ∧
        value = best.getD .null
  | .aggregate fn field _, value =>
      value = (Accumulator.feedAll (Grouping.valuesOf field group)).result fn field.isNone

namespace Projection

/-- The field whose values are compared for the column: only `min` and `max` need an order. -/
def comparedField? : Projection → Option FieldChain
  | .aggregate .min field _ | .aggregate .max field _ => field
  | _ => none

end Projection

namespace Grouping

/-- The state of a column after `feedSlot` of each record of a group. -/
def slotAfter (group : List Input) (projection : Projection) : Slot :=
  group.foldl (fun slot i => feedSlot i.1 i.2 projection slot) (freshSlot projection)

/-- One more record is fed to the column as it is, by `feedSlot`. -/
theorem slotAfter_concat (group : List Input) (i : Input) (projection : Projection) :
    slotAfter (group ++ [i]) projection =
      feedSlot i.1 i.2 projection (slotAfter group projection) := by
  unfold slotAfter
  rw [List.foldl_append, List.foldl_cons, List.foldl_nil]

/-- The state of a group is that of its columns: `feedState` feeds each slot on its own. -/
theorem stateOf_slots (projections : List Projection) (group : List Input) :
    (stateOf projections group).slots = projections.map (slotAfter group) := by
  induction group using List.reverseRecOn with
  | nil => rfl
  | append_singleton group i ih =>
      rw [stateOf_concat]
      show List.zipWith (feedSlot i.1 i.2) projections (stateOf projections group).slots = _
      rw [ih, List.zipWith_map_right, List.zipWith_self]
      exact List.map_congr_left fun projection _ => (slotAfter_concat group i projection).symm

/-- A plain column keeps its value on the first record, as `feedSlot` fills an empty slot only. -/
theorem slotAfter_expr (operand : Operand) (name : String) (group : List Input) :
    slotAfter group (.expr operand name) =
      .expr (group.head?.map fun i => operand.resolve i.1 i.2) := by
  induction group using List.reverseRecOn with
  | nil => rfl
  | append_singleton group i ih =>
      rw [slotAfter_concat, ih]
      cases group <;> rfl

/-- An aggregate is fed the values on all records, null or not. `Accumulator.feedAll` is the
result. -/
theorem slotAfter_aggregate (fn : AggregateFn) (field : Option FieldChain) (name : String)
    (group : List Input) :
    slotAfter group (.aggregate fn field name) =
      .aggregate (Accumulator.feedAll (valuesOf field group)) := by
  induction group using List.reverseRecOn with
  | nil => rfl
  | append_singleton group i ih =>
      rw [slotAfter_concat, ih]
      unfold valuesOf Accumulator.feedAll
      rw [List.map_append, List.foldl_append]
      rfl

/-- Every column shows what it is to show of the group. The values that are compared for it are to
be totally ordered, `hvalues`; for the other columns this asks for nothing. -/
theorem slotAfter_shows {p : Value → Prop} (htotal : TotalOn Value.compare p)
    (projection : Projection) {group : List Input}
    (hvalues : ∀ chain ∈ projection.comparedField?, ∀ i ∈ group, p (chain.resolve i.1.load i.2)) :
    projection.Shows group (columnValue projection (slotAfter group projection)) := by
  cases projection with
  | expr operand name =>
      rw [slotAfter_expr]
      rfl
  | aggregate fn field name =>
      rw [slotAfter_aggregate]
      -- the values other than null come from the records of the group
      have hpresent (hcompared : ∀ chain ∈ field, ∀ i ∈ group, p (chain.resolve i.1.load i.2)) :
          ∀ v ∈ Accumulator.present (valuesOf field group), p v := by
        intro v hv
        obtain ⟨w, hw, hsome⟩ := List.mem_filterMap.mp (List.mem_of_mem_filter hv)
        obtain ⟨i, hi, rfl⟩ := List.mem_map.mp hw
        obtain ⟨chain, hchain, rfl⟩ := Option.map_eq_some_iff.mp hsome
        exact hcompared chain hchain i hi
      cases fn with
      | count =>
          cases field with
          | none =>
              show Value.int (Int64.ofNat (Accumulator.feedAll (valuesOf none group)).rows) = _
              rw [Accumulator.rows_feedAll, valuesOf, List.length_map]
          | some chain =>
              show Value.int
                (Int64.ofNat (Accumulator.feedAll (valuesOf (some chain) group)).nonNull) = _
              rw [Accumulator.nonNull_feedAll]
      | min => exact ⟨_, Accumulator.min_feedAll htotal _ (hpresent hvalues), rfl⟩
      | max => exact ⟨_, Accumulator.max_feedAll htotal _ (hpresent hvalues), rfl⟩
      | sum => rfl
      | avg => rfl

/-! ## The row of a group

A row has a value for each column under its name. Names have to be different for that, since only
one of two columns with one name is shown. -/

/-- What the row of a group shows: its first record where the query has no columns, and what each
column `Shows` otherwise. -/
structure ShowsGroup (projections : List Projection) (group : List Input) (row : Row) : Prop where
  /-- Without columns it is the first record of the group. -/
  whole : projections = [] → ∃ first, group.head? = some first ∧ row = Row.ofRecord first.2
  /-- Every column shows what it is to show of the group. -/
  columns : ∀ projection ∈ projections, projection.Shows group (row.get projection.outputName)

/-- A group keeps its `firstRow` where there are no columns. -/
theorem stateOf_firstRow (projections : List Projection) (group : List Input) :
    (stateOf projections group).firstRow =
      if projections.isEmpty then group.head?.map fun i => Row.ofRecord i.2 else none := by
  induction group using List.reverseRecOn with
  | nil => simp [stateOf, freshState]
  | append_singleton group i ih =>
      rw [stateOf_concat]
      show (if projections.isEmpty then
        some ((stateOf projections group).firstRow.getD (Row.ofRecord i.2))
        else (stateOf projections group).firstRow) = _
      rw [ih]
      cases projections.isEmpty
      · rfl
      · cases group <;> rfl

/-- The row of a group assigns each column the value of its state, by its `outputName`. -/
theorem rowOf_eq {projections : List Projection} (hsome : projections ≠ []) (group : List Input) :
    rowOf projections (stateOf projections group) =
      .computed (Fields.ofList (projections.map fun projection =>
        (projection.outputName, columnValue projection (slotAfter group projection)))) := by
  have hfirst : (stateOf projections group).firstRow = none := by
    rw [stateOf_firstRow, List.isEmpty_eq_false_iff.mpr hsome]
    rfl
  unfold rowOf
  simp only [hfirst, stateOf_slots, List.zipWith_map_right, List.zipWith_self]

/-- A column of the row of a group has the value of the state of that column. No other column may
have its name, `hnames`. -/
theorem rowOf_get {projections : List Projection}
    (hnames : (projections.map (·.outputName)).Nodup) (group : List Input)
    {projection : Projection} (hmem : projection ∈ projections) :
    (rowOf projections (stateOf projections group)).get projection.outputName =
      columnValue projection (slotAfter group projection) := by
  let assign (projection : Projection) : String × Value :=
    (projection.outputName, columnValue projection (slotAfter group projection))
  have honce : ((projections.map assign).map Prod.fst).Nodup := by
    rw [List.map_map]
    exact hnames
  have hassigned : assign projection ∈ projections.map assign := List.mem_map_of_mem hmem
  rw [rowOf_eq (List.ne_nil_of_mem hmem)]
  show ((Fields.ofList (projections.map assign)).get? _).getD .null = _
  rw [Fields.get?_ofList honce hassigned]
  rfl

/-- The row of a group shows its first record, or its columns. A group without columns must have a
record, `hgroup`; a group with columns may be empty, as it is where nothing qualifies. -/
theorem rowOf_shows {p : Value → Prop} (htotal : TotalOn Value.compare p)
    {projections : List Projection} (hnames : (projections.map (·.outputName)).Nodup)
    {group : List Input} (hgroup : projections = [] → group ≠ [])
    (hvalues : ∀ chain ∈ projections.filterMap (·.comparedField?), ∀ i ∈ group,
      p (chain.resolve i.1.load i.2)) :
    ShowsGroup projections group (rowOf projections (stateOf projections group)) := by
  constructor
  · rintro rfl
    obtain ⟨first, rest, rfl⟩ := List.exists_cons_of_ne_nil (hgroup rfl)
    refine ⟨first, rfl, ?_⟩
    unfold rowOf
    rw [stateOf_firstRow]
    rfl
  · intro projection hmem
    rw [rowOf_get hnames group hmem]
    refine slotAfter_shows htotal projection fun chain hchain i hi => ?_
    exact hvalues chain (List.mem_filterMap.mpr ⟨projection, hmem, hchain⟩) i hi

/-! ## The groups of a query

Without a grouping field all records are one group, which is there even without a record. With one
field the groups are those of its values. -/

/-- The records of each group of a query with at most one grouping field. Without one they are all
in one group, even if there are none; otherwise there is one for each value of the field, in the
order in which the values are first seen. Values are compared with `==` here. -/
def groupsOf (query : SelectQuery) (inputs : List Input) : List (List Input) :=
  match query.groupBy with
  | [] => [inputs]
  | chain :: _ =>
      (inputs.map fun i => chain.resolve i.1.load i.2).eraseDups.map fun value =>
        inputs.filter fun i => value == chain.resolve i.1.load i.2

/-- Without a grouping field the `parts` of some records are one group. -/
theorem parts_of_no_field {query : SelectQuery} (hfields : query.groupBy = [])
    {inputs : List Input} (hsome : inputs ≠ []) : parts query inputs = [inputs] := by
  -- without a field all records have one key
  have hkey (i : Input) : keyOf query i.1 i.2 = .all := by
    unfold keyOf
    rw [hfields]
    rfl
  have hmembers : members query inputs .all = inputs := by
    refine List.filter_eq_self.mpr fun i _ => ?_
    rw [hkey]
    rfl
  have hfirst : firstKeys query inputs = [.all] := by
    unfold firstKeys
    simp only [hkey]
    induction inputs using List.reverseRecOn with
    | nil => exact absurd rfl hsome
    | append_singleton inputs i ih =>
        rw [List.map_append, List.map_singleton, eraseDupsBy_concat]
        by_cases hnone : inputs = []
        · subst hnone
          rfl
        · rw [ih hnone (List.filter_eq_self.mpr fun i _ => by rw [hkey]; rfl)]
          rfl
  unfold parts
  rw [hfirst, List.map_singleton, hmembers]

/-- With one grouping field there is a group for each of its values: `GroupKey.same` on single keys
is `==` of the values. -/
theorem parts_of_one_field {query : SelectQuery} {chain : FieldChain}
    (hfields : query.groupBy = [chain]) (inputs : List Input) :
    parts query inputs = groupsOf query inputs := by
  have hkey (i : Input) : keyOf query i.1 i.2 = .single (chain.resolve i.1.load i.2) := by
    unfold keyOf
    rw [hfields]
    rfl
  have hfirst : firstKeys query inputs =
      (inputs.map fun i => chain.resolve i.1.load i.2).eraseDups.map GroupKey.single := by
    have hkeys : (inputs.map fun i => keyOf query i.1 i.2) =
        (inputs.map fun i => chain.resolve i.1.load i.2).map GroupKey.single := by
      rw [List.map_map]
      exact List.map_congr_left fun i _ => hkey i
    unfold firstKeys
    rw [hkeys, eraseDupsBy_map]
    rfl
  unfold parts groupsOf
  rw [hfirst, hfields, List.map_map]
  refine List.map_congr_left fun value _ => ?_
  show members query inputs (.single value) = _
  unfold members
  simp only [hkey]
  rfl

section

variable {p : Value → Prop} (htotal : TotalOn Value.compare p) {query : SelectQuery}
  (hgrouping : query.isGrouping = true) (hfields : query.groupBy.length ≤ 1) {inputs : List Input}

omit htotal in
/-- The records of one of the `groupsOf` the input are records of the input. -/
theorem mem_of_mem_groupsOf {group : List Input} (hgroup : group ∈ groupsOf query inputs)
    {i : Input} (hi : i ∈ group) : i ∈ inputs := by
  unfold groupsOf at hgroup
  split at hgroup
  · rwa [← List.mem_singleton.mp hgroup]
  · obtain ⟨value, -, rfl⟩ := List.mem_map.mp hgroup
    exact List.mem_of_mem_filter hi

omit htotal in
include hgrouping in
/-- A group of a query without columns (`hcolumns`) has a first record, as a query that groups
without columns has a grouping field. -/
theorem ne_nil_of_mem_groupsOf (hcolumns : query.projections = []) {group : List Input}
    (hgroup : group ∈ groupsOf query inputs) : group ≠ [] := by
  unfold groupsOf at hgroup
  split at hgroup
  · next hnone =>
      -- a query without a grouping field groups for the sake of its aggregates
      simp [SelectQuery.isGrouping, SelectQuery.hasAggregates, hnone, hcolumns] at hgrouping
  · obtain ⟨value, hvalue, rfl⟩ := List.mem_map.mp hgroup
    obtain ⟨i, hi, rfl⟩ := List.mem_map.mp (mem_of_mem_eraseDupsBy hvalue)
    exact List.ne_nil_of_mem (List.mem_filter.mpr ⟨hi, Value.beq_self _⟩)

include htotal hgrouping hfields

omit hgrouping hfields in
/-- The rows that `finish` makes for a query with grouping fields are those of its `parts`. -/
theorem finish_of_fields (hsome : query.groupBy ≠ []) (hkeys : KeysIn p query inputs) :
    (gather query inputs).finish query =
      (parts query inputs).map fun group =>
        rowOf query.projections (stateOf query.projections group) := by
  have hnone : query.groupBy.isEmpty = false := List.isEmpty_eq_false_iff.mpr hsome
  unfold finish
  simp only [hnone, Bool.and_false, Bool.false_and, Bool.false_eq_true, if_false,
    groups_gather htotal hkeys, List.map_map]
  rfl

/-- The rows of a query with at most one grouping field are those of its groups. Without a field and
without records `finish` makes the row of an empty group, which is that of `groupsOf`. -/
theorem finish_gather (hkeys : KeysIn p query inputs) :
    (gather query inputs).finish query =
      (groupsOf query inputs).map fun group =>
        rowOf query.projections (stateOf query.projections group) := by
  match hchains : query.groupBy with
  | [] =>
      have hgroups := groups_gather htotal hkeys
      have haggregates : query.hasAggregates = true := by
        simpa [SelectQuery.isGrouping, hchains] using hgrouping
      unfold finish
      -- without records there is no group, and the aggregates have one row all the same
      by_cases hnone : inputs = []
      · subst hnone
        simp only [groupsOf, hchains, haggregates]
        rfl
      · rw [parts_of_no_field hchains hnone] at hgroups
        rw [hgroups]
        simp only [groupsOf, hchains]
        rfl
  | [chain] =>
      rw [finish_of_fields htotal (by simp [hchains]) hkeys, parts_of_one_field hchains]
  | _ :: _ :: _ =>
      rw [hchains] at hfields
      simp at hfields

omit hgrouping in
/-- The `groupsOf` the input have together as many records as the input. -/
theorem sum_length_groupsOf (hkeys : KeysIn p query inputs) :
    ((groupsOf query inputs).map List.length).sum = inputs.length := by
  match hchains : query.groupBy with
  | [] => simp [groupsOf, hchains]
  | [chain] =>
      rw [← parts_of_one_field hchains]
      exact sum_length_parts htotal hkeys
  | _ :: _ :: _ =>
      rw [hchains] at hfields
      simp at hfields

end

/-- The fields whose values are compared: the grouping fields, and the `comparedField?` of each
column. The other fields may have any values. -/
def comparedFields (query : SelectQuery) : List FieldChain :=
  query.groupBy ++ query.projections.filterMap (·.comparedField?)

/-- A query that groups by one field at most has one row for each group, in the order in which the
groups are first seen. It shows the first record of the group, or the columns over exactly its
records, if their names are different, `hnames`; the numbers of records that the rows show add up to
that of all records. The numbers in the values that are compared are to be separated,
`Value.Separated`, as they are without floating-point numbers. -/
theorem rows_show_groups {p : Int64 → Prop} {q : Binary64 → Prop}
    (hseparated : Value.Separated p q) {query : SelectQuery}
    (hgrouping : query.isGrouping = true) (hfields : query.groupBy.length ≤ 1)
    (hnames : (query.projections.map (·.outputName)).Nodup) {inputs : List Input}
    (hvalues : ∀ chain ∈ comparedFields query, ∀ i ∈ inputs,
      (chain.resolve i.1.load i.2).NumbersIn p q) :
    let rows := (gather query inputs).finish query
    List.Forall₂ (ShowsGroup query.projections) (groupsOf query inputs) rows ∧
      ∀ name, .aggregate .count none name ∈ query.projections →
        ∃ counts : List Nat, rows.map (·.get name) = counts.map (fun n => .int (Int64.ofNat n)) ∧
          counts.sum = inputs.length := by
  have htotal := hseparated.totalOn
  have hkeys : KeysIn (·.NumbersIn p q) query inputs := by
    intro i hi
    unfold keyOf
    match hchains : query.groupBy with
    | [] => trivial
    | [chain] => exact hvalues chain (by simp [comparedFields, hchains]) i hi
    | _ :: _ :: _ => trivial
  -- the row of each group shows it, as its state is that of exactly its records
  have hshows : ∀ group ∈ groupsOf query inputs,
      ShowsGroup query.projections group (rowOf query.projections
        (stateOf query.projections group)) := by
    intro group hgroup
    refine rowOf_shows htotal hnames
      (fun hcolumns => ne_nil_of_mem_groupsOf hgrouping hcolumns hgroup) ?_
    intro chain hchain i hi
    exact hvalues chain (List.mem_append_right _ hchain) i (mem_of_mem_groupsOf hgroup hi)
  intro rows
  have hrows : rows = _ := finish_gather htotal hgrouping hfields hkeys
  rw [hrows]
  refine ⟨?_, fun name hcount => ?_⟩
  · exact List.forall₂_map_right_iff.mpr (List.forall₂_same.mpr hshows)
  · refine ⟨(groupsOf query inputs).map List.length, ?_,
      sum_length_groupsOf htotal hfields hkeys⟩
    rw [List.map_map, List.map_map]
    exact List.map_congr_left fun group hgroup => (hshows group hgroup).columns _ hcount

/-- Without a grouping field there is a row also where there is no record. -/
example :
    let query : SelectQuery :=
      { SelectQuery.ofTarget (.ofClass "Person" true) with
        projections := [.ofAggregate .count none none,
          .ofAggregate .max (some ⟨"age", []⟩) none] }
    (empty.finish query).map (fun row => ["count", "max"].map row.get) == [[.int 0, .null]] := by
  decide +kernel

/-- Three people in two cities, one of them without an `age`. -/
def people : List Input :=
  ([[("age", .int 40), ("city", .string "Rome")], [("city", .string "Oslo")],
    [("age", .int 19), ("city", .string "Rome")]] : List Fields).zipIdx.map fun (fields, n) =>
      (⟨fun _ => none, [], []⟩, ⟨⟨1, n⟩, "Person", fields⟩)

/-- How many of `people` there are in each city, and how old they are. -/
def cityQuery : SelectQuery :=
  { SelectQuery.ofTarget (.ofClass "Person" true) with
    groupBy := [⟨"city", []⟩]
    projections := [.ofField ⟨"city", []⟩ none, .ofAggregate .count none none,
      .ofAggregate .count (some ⟨"age", []⟩) (some "ages"),
      .ofAggregate .min (some ⟨"age", []⟩) none, .ofAggregate .max (some ⟨"age", []⟩) none] }

/-- There is one row for each of the two cities of `people`, the one that was seen first in front,
and their counts add up to three. -/
theorem rows_of_people :
    (Value.Separated (fun _ => True) (fun _ => False) ∧ cityQuery.isGrouping = true ∧
      cityQuery.groupBy.length ≤ 1 ∧ (cityQuery.projections.map (·.outputName)).Nodup ∧
      ∀ chain ∈ comparedFields cityQuery, ∀ i ∈ people,
        (chain.resolve i.1.load i.2).NumbersIn (fun _ => True) (fun _ => False)) ∧
      let rows := (gather cityQuery people).finish cityQuery
      List.Forall₂ (ShowsGroup cityQuery.projections) (groupsOf cityQuery people) rows ∧
        (rows.map fun row => (["city", "count", "ages", "min", "max"].map row.get)) ==
          [[.string "Rome", .int 2, .int 2, .int 19, .int 40],
            [.string "Oslo", .int 1, .int 0, .null, .null]] := by
  have hvalues : ∀ chain ∈ comparedFields cityQuery, ∀ i ∈ people,
      (chain.resolve i.1.load i.2).NumbersIn (fun _ => True) (fun _ => False) := by
    intro chain hchain i hi
    refine Value.numbersIn_of_isExact ?_
    revert chain hchain i hi
    decide +kernel
  have hnames : (cityQuery.projections.map (·.outputName)).Nodup := by decide +kernel
  have hgrouping : cityQuery.isGrouping = true := rfl
  have hrows := rows_show_groups Value.separated_exact hgrouping (by decide) hnames hvalues
  exact ⟨⟨Value.separated_exact, rfl, by decide, hnames, hvalues⟩, hrows.1, by decide +kernel⟩

end Grouping

end RecordQuery
