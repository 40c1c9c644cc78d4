import Mathlib.Data.List.Induction
import RecordQuery.Proofs.Answers
import RecordQuery.Proofs.Feeding
import RecordQuery.Proofs.RowOrder

/-!
# `RecordQuery.Proofs.ColumnOrder`: ORDER BY over columns that share names with fields

A name in ORDER BY means the column of that name, where the query has one, and a field of the record
otherwise. The sort of the rows follows this, `SelectQuery.sortValue`. A plan that gets its order
from an index does not: `Index.matchesOrder` looks for an index on fields of these names, whatever
the columns show. The two agree where each column that ORDER BY names shows the field of its own
name.

`SelectQuery.Shadows` says that they may disagree, and `SelectQuery.columnKey` is what ORDER BY
means. The main result has both in it: the rows are in the order of their columns, unless ORDER BY
names a column that `Shadows` a field, and an index serves the fields. `rows_of_shadowedIndex` shows
that this exception is there.

The theorems:

* `SelectQuery.sortValue_of_column`: ORDER BY compares what the last column of a name shows.
* `SelectQuery.columnKey_of_not_shadows`: where no column shadows a field, ORDER BY compares fields.
* `runQuery_columnOrder`: rows are in the order of the columns, or an index gave the order of the
  fields that the columns shadow.
* `rows_of_shadowedIndex`: such an index gives rows out of order.
-/

set_option autoImplicit false

namespace RecordQuery

/-! ## Names of columns

A name in ORDER BY is that of a column, or else that of a field of the record. `columnKey` is what
ORDER BY means, and it is the `orderKey` of the record unless a name is shadowed. -/

namespace SelectQuery

/-- The column that a name stands for: the last one of that name, as `Fields.insert` replaces what
an earlier one has put there. -/
def column? (query : SelectQuery) (name : String) : Option Projection :=
  query.projections.reverse.find? fun p => p.outputName == name

/-- ORDER BY names a column that shows something else than the field of that name. `@rid` reads the
identity of a row, whatever its columns show. -/
def Shadows (query : SelectQuery) : Prop :=
  ∃ item ∈ query.orderBy, item.field.isLong = false ∧ item.field.first ≠ ridAttribute ∧
    ∃ operand name, query.column? item.field.first = some (.expr operand name) ∧
      operand ≠ .field item.field

/-- The row that `project` makes of a record, under its LET bindings. -/
def rowOn (query : SelectQuery) (store : Store) (vars : Fields) (r : Record) : Row :=
  query.project (query.scopeOn store vars r) r

/-- The values of a record for ORDER BY: those in its `rowOn` for names of columns, and those of the
record for other fields. This is what the pipeline sorts by. -/
def columnKey (query : SelectQuery) (store : Store) (vars : Fields) (r : Record) : List Value :=
  query.sortKey store.load r (some (query.rowOn store vars r))

/-- ORDER BY allows the row of the first record to stand before that of the second one. `Precedes`
is the same for the fields of the records. -/
def Allows (query : SelectQuery) (store : Store) (vars : Fields) (r s : Record) : Prop :=
  (compareKeys query.orderBy (query.columnKey store vars r) (query.columnKey store vars s)).isLE =
    true

/-- Where a name stands for a `column?`, there are columns. -/
theorem projections_ne_nil_of_column {query : SelectQuery} {name : String} {p : Projection}
    (h : query.column? name = some p) : query.projections.isEmpty = false := by
  have hmem := List.mem_of_find?_eq_some h
  rw [List.mem_reverse] at hmem
  rw [List.isEmpty_eq_false_iff]
  exact List.ne_nil_of_mem hmem

/-- The row that `project` makes shows the value of the last column of a name. The columns are put
in from the front, so the induction is from the back. -/
theorem get?_project {query : SelectQuery} {name given : String} {operand : Operand}
    (hcolumn : query.column? name = some (.expr operand given)) (scope : Scope) (r : Record) :
    (query.project scope r).fields.get? name = some (operand.resolve scope r) := by
  simp only [project, projections_ne_nil_of_column hcolumn, Bool.false_eq_true, if_false]
  unfold column? at hcolumn
  unfold Fields.ofList
  generalize query.projections = ps at hcolumn ⊢
  -- the columns are assigned one after the other, so the last one of a name is what stays
  induction ps using List.reverseRecOn with
  | nil => cases hcolumn
  | append_singleton ps p ih =>
      rw [List.reverse_concat, List.find?_cons] at hcolumn
      rw [List.filterMap_append, List.foldl_append]
      cases p with
      | expr shown named =>
          show (Fields.insert _ named (shown.resolve scope r)).get? name = _
          rw [Fields.get?_insert]
          simp only [Projection.outputName] at hcolumn
          by_cases hname : named = name
          · simp only [hname, beq_self_eq_true] at hcolumn
            cases hcolumn
            rw [if_pos hname]
          · simp only [beq_false_of_ne hname] at hcolumn
            rw [if_neg hname]
            exact ih hcolumn
      | aggregate fn field named =>
          split at hcolumn
          · cases hcolumn
          · exact ih hcolumn

section

variable {query : SelectQuery} {load : Rid → Option Record} {r : Record} {item : OrderItem}

/-- ORDER BY compares what the last column of a name shows, if the name is a single one, `hshort`,
and not `@rid`, `hrid`. -/
theorem sortValue_of_column {scope : Scope} (hshort : item.field.isLong = false)
    (hrid : item.field.first ≠ ridAttribute) {operand : Operand} {given : String}
    (hcolumn : query.column? item.field.first = some (.expr operand given)) :
    query.sortValue load r (some (query.project scope r)) item = operand.resolve scope r := by
  have hnamed : query.projections.any (fun p => p.outputName == item.field.first) = true := by
    have hname := List.find?_some hcolumn
    exact List.any_eq_true.mpr
      ⟨_, List.mem_reverse.mp (List.mem_of_find?_eq_some hcolumn), hname⟩
  have hget := get?_project hcolumn scope r
  unfold sortValue
  rw [hshort, hnamed]
  show (query.project scope r).get item.field.first = _
  -- the identity is the only attribute that a row shows besides its columns
  have hfields : (query.project scope r).get item.field.first =
      (query.project scope r).fields.get item.field.first := by
    unfold Row.get
    split
    · rw [if_neg (by simpa using hrid)]
    · rfl
  rw [hfields, Fields.get, hget]
  rfl

/-- Where there is no column of the name (`hnone`), ORDER BY compares a field of the record. -/
theorem sortValue_of_no_column (row : Option Row) (hnone : query.column? item.field.first = none) :
    query.sortValue load r row item = item.field.resolve load r := by
  have hnot : query.projections.any (fun p => p.outputName == item.field.first) = false := by
    rw [column?, List.find?_eq_none] at hnone
    rw [List.any_eq_false]
    exact fun p hp => hnone p (List.mem_reverse.mpr hp)
  unfold sortValue
  rw [hnot, Bool.and_false]

/-- A field of another record, and the identity, are read from the record, whatever the columns.
`hrow` says that the row is one of the record. -/
theorem sortValue_of_field {row : Row} (hrow : row.rid = some r.rid)
    (hfield : item.field.isLong = true ∨ item.field.first = ridAttribute) :
    query.sortValue load r (some row) item = item.field.resolve load r := by
  unfold sortValue
  cases hlong : item.field.isLong with
  | true => rfl
  | false =>
      have hrid : item.field.first = ridAttribute := by simpa [hlong] using hfield
      have hhops : item.field.hops = [] := by simpa [FieldChain.isLong] using hlong
      have hget : row.get item.field.first = item.field.resolve load r := by
        simp [Row.get, hrow, FieldChain.resolve, hhops, hrid, Record.get]
      cases query.projections.any fun p => p.outputName == item.field.first with
      | true => exact hget
      | false => rfl

/-- Where no column that ORDER BY names shows something else than the field of its name, `hclear`,
records are compared by their fields. -/
theorem columnKey_of_not_shadows {className : String} {polymorphic : Bool}
    (h : query.Arranges className polymorphic) (hclear : ¬query.Shadows) (store : Store)
    (vars : Fields) (r : Record) :
    query.columnKey store vars r = orderKey query.orderBy store.load r := by
  have hrow : (query.rowOn store vars r).rid = some r.rid := by
    exact rid_project h.target _ _
  unfold columnKey sortKey orderKey
  refine List.map_congr_left fun item hitem => ?_
  by_cases hfield : item.field.isLong = true ∨ item.field.first = ridAttribute
  · exact sortValue_of_field hrow hfield
  obtain ⟨hshort, hrid⟩ := not_or.mp hfield
  have hshort : item.field.isLong = false := Bool.eq_false_iff.mpr hshort
  match hcolumn : query.column? item.field.first with
  | none => exact sortValue_of_no_column _ hcolumn
  | some (.aggregate fn field name) =>
      -- there are no aggregates among the columns
      have hmem := List.mem_reverse.mp (List.mem_of_find?_eq_some hcolumn)
      have hplain : query.hasAggregates = false :=
        (Bool.or_eq_false_iff.mp h.grouping).2
      cases List.any_eq_false.mp hplain _ hmem rfl
  | some (.expr operand name) =>
      have hshows : operand = .field item.field := by
        by_contra hother
        exact hclear ⟨item, hitem, hshort, hrid, operand, name, hcolumn, hother⟩
      rw [rowOn, sortValue_of_column hshort hrid hcolumn, hshows]
      rfl

/-- An ORDER BY on identities alone (`isRidOnlySort`) shadows no field. So a scan in order is in the
order of the rows too. -/
theorem not_shadows_of_isRidOnlySort (h : query.isRidOnlySort = true) : ¬query.Shadows := by
  rintro ⟨item, hitem, -, hrid, -⟩
  unfold isRidOnlySort at h
  split at h
  next only horder =>
    rw [horder, List.mem_singleton] at hitem
    obtain ⟨-, hfirst⟩ := (Bool.and_eq_true _ _).mp h
    exact hrid (hitem ▸ eq_of_beq hfirst)
  · cases h

end

end SelectQuery

/-! ## The order of rows -/

section

variable {env : Env} {query : SelectQuery} {className : String} {polymorphic : Bool}

/-- The rows of a query for columns of the records of a class are in the order of their ORDER BY
values, `Allows`, those of columns where ORDER BY names columns. There is one exception: if ORDER BY
names a column that shows something else than the field of that name, `Shadows`, and an index is
ordered by fields of the names of ORDER BY, `Store.Serves`, then the rows may be in the order of
these fields. -/
theorem runQuery_columnOrder (hreach : env.store.Reachable Fields.AreSingle)
    (hquery : query.Arranges className polymorphic) {context : Context}
    (hchoices : ∀ condition, query.filter = some condition →
      condition.ChoosesExactly context.vars) (signals : Signals) :
    ∃ records : List Record,
      (runQuery env query context signals).2.rows =
        records.map (query.rowOn env.store context.vars) ∧
      (∀ r ∈ records, env.store.Live r) ∧
      (records.Pairwise (query.Allows env.store context.vars) ∨
        query.Shadows ∧ env.store.Serves query.orderBy ∧
          records.Pairwise (Precedes query.orderBy env.store.load)) := by
  rcases hquery.runQuery_arranged hreach hchoices signals with
    hnone | ⟨plan, ordered, chosen, hchosen⟩
  · exact ⟨[], hnone, by simp, .inl .nil⟩
  -- a row depends on the record alone, which determines its LET bindings
  have hrow : ∀ item ∈ chosen, (env.setup query ordered).row
      (.ofPlan env.store context.vars query plan) item =
        query.rowOn env.store context.vars item.record := by
    intro item hitem
    unfold PipelineSetup.row
    rw [hchosen.lets item hitem]
    rfl
  have hkey : ∀ item ∈ chosen, (env.setup query ordered).sortKey env
      (.ofPlan env.store context.vars query plan) item =
        query.columnKey env.store context.vars item.record := by
    intro item hitem
    unfold PipelineSetup.sortKey
    rw [hrow item hitem]
    rfl
  refine ⟨chosen.map (·.record), ?_, ?_, ?_⟩
  · rw [hchosen.rows, List.map_map]
    exact List.map_congr_left hrow
  · intro r hr
    obtain ⟨item, hitem, rfl⟩ := List.mem_map.mp hr
    exact hchosen.live item hitem
  cases ordered with
  | false =>
      left
      rw [List.pairwise_map]
      refine (hchosen.sorts rfl).imp_of_mem fun {a b} ha hb hle => ?_
      rwa [hkey a ha, hkey b hb] at hle
  | true =>
      have hfields := hchosen.streams rfl
      by_cases hshadows : query.Shadows
      · by_cases hnone : chosen = []
        · exact .inl (by simp [hnone])
        · have hserved := (hchosen.served rfl hnone).resolve_left fun hrid =>
            SelectQuery.not_shadows_of_isRidOnlySort hrid hshadows
          exact .inr ⟨hshadows, hserved, hfields⟩
      · left
        refine hfields.imp fun {r s} hle => ?_
        unfold SelectQuery.Allows
        rwa [SelectQuery.columnKey_of_not_shadows hquery hshadows,
          SelectQuery.columnKey_of_not_shadows hquery hshadows]

end

/-! ## Columns beside an index -/

/-- Two records of a class whose field `b` is indexed. -/
def renamedStore : Store := .ofChanges [
  .createClass "A" none 1 false,
  .createIndex "A.b" .notUnique ⟨"A", ["b"], false, .keys⟩,
  .insert "A" [("a", .int 2), ("b", .int 1)],
  .insert "A" [("a", .int 1), ("b", .int 2)]]

/-- An executor over `renamedStore`. -/
def renamedEnv : Env := ⟨renamedStore, .default, fun _ => 0, .collecting⟩

/-- `SELECT a AS name FROM A ORDER BY name`. -/
def renamingQuery (name : String) : SelectQuery :=
  { SelectQuery.ofTarget (.ofClass "A" true) with
    projections := [.expr (.field ⟨"a", []⟩) name]
    orderBy := [⟨⟨name, []⟩, .asc⟩] }

/-- Changes reach `renamedStore`, and only single values are stored there. -/
theorem reachable_renamedStore : renamedStore.Reachable Fields.AreSingle :=
  Store.reachable_ofChanges (by decide +kernel)

/-- `renamingQuery` asks for a column of the records of the class in an order. -/
theorem renamingQuery_arranges (name : String) : (renamingQuery name).Arranges "A" true :=
  ⟨rfl, rfl, rfl, rfl, by simp [renamingQuery]⟩

/-- The column `b` shows the field `a`, and the index on the field `b` gives the order. So the
record with the larger value in its column is delivered first. -/
theorem rows_of_shadowedIndex :
    renamedEnv.store.Reachable Fields.AreSingle ∧ (renamingQuery "b").Arranges "A" true ∧
      (renamingQuery "b").filter = none ∧
      (collect renamedEnv (renamingQuery "b") .empty []).1.toOption.map
        (fun rows => rows.map fun row => (row.rid, row.get "b")) =
          some [(some ⟨1, 0⟩, .int 2), (some ⟨1, 1⟩, .int 1)] ∧
      ∃ first second, renamedEnv.store.load ⟨1, 0⟩ = some first ∧
        renamedEnv.store.load ⟨1, 1⟩ = some second ∧
        ¬(renamingQuery "b").Allows renamedEnv.store [] first second := by
  refine ⟨reachable_renamedStore, renamingQuery_arranges "b", rfl, by rfl, _, _, rfl, rfl, ?_⟩
  unfold SelectQuery.Allows
  decide +kernel

/-- Under `c`, a name that no index has, the column is sorted: the record with the smaller value is
delivered first. -/
theorem rows_of_renamedColumn :
    ∃ records : List Record, renamedEnv.store.Reachable Fields.AreSingle ∧
      (renamingQuery "c").Arranges "A" true ∧ (renamingQuery "c").filter = none ∧
      (runQuery renamedEnv (renamingQuery "c") .empty []).2.rows =
        records.map ((renamingQuery "c").rowOn renamedEnv.store []) ∧
      records.map (·.rid) = [⟨1, 1⟩, ⟨1, 0⟩] ∧
      records.Pairwise ((renamingQuery "c").Allows renamedEnv.store []) := by
  have hrids : (runQuery renamedEnv (renamingQuery "c") .empty []).2.rows.map Row.rid =
      [some ⟨1, 1⟩, some ⟨1, 0⟩] := by decide +kernel
  -- no index has a field of the name of the column
  have hunserved : ¬renamedEnv.store.Serves (renamingQuery "c").orderBy := by
    rintro ⟨index, hindex, direction, horders⟩
    have hfields : ∀ index ∈ renamedEnv.store.indexes, index.definition.fields = ["b"] := by
      decide +kernel
    have hnames := horders.fields
    rw [hfields index hindex] at hnames
    simp [renamingQuery] at hnames
  obtain ⟨records, hrows, -, hordered⟩ := @runQuery_columnOrder renamedEnv _ "A" true
    reachable_renamedStore (renamingQuery_arranges "c") .empty (by rintro condition ⟨⟩) []
  refine ⟨records, reachable_renamedStore, renamingQuery_arranges "c", rfl, hrows, ?_,
    hordered.resolve_right fun hshadowed => hunserved hshadowed.2.1⟩
  rw [hrows, List.map_map] at hrids
  have hsome : (records.map (·.rid)).map some = [⟨1, 1⟩, ⟨1, 0⟩].map some := by
    rw [List.map_map]
    exact hrids
  exact List.map_injective_iff.mpr (fun _ _ heq => Option.some.inj heq) hsome

end RecordQuery
