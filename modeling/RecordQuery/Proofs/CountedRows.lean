import RecordQuery.Proofs.GroupRows
import RecordQuery.Proofs.Paging

/-!
# `RecordQuery.Proofs.CountedRows`: counting records without reading them

A query that only counts the records of a class is answered from the sizes of the clusters:
`Store.plan` gives it the source `PlanSource.count`, and `deliverCount` runs it. Records are neither
read nor gathered into a group, and its one row is neither sorted nor paged like other rows. A scan
that reads every record and takes it through all of these steps delivers the same rows: the clusters
of a class hold its live records, each of them once, and a single row is the same in every order.

`SelectQuery.scanningPlan` is the plan that the query would have without the shortcut. It is run by
`runSerial`, with the same query, context and signals, so `runQuery_counted` compares two runs and
does not say what the right count is; that is `count_recordsIn` and `finish_counts`.

The sink is any sink: a pipeline that groups asks it nothing before its end (`serialLoop_grouping`),
and of one row its answer does not matter (`finish_single`). What has to be assumed is that nothing
ends the scan early, `Env.Undisturbed`, and that no cluster fails, `Store.ScansWhole`, as the count
never looks into one. The number of records is a `Nat` here and a signed integer of 64 bits in the
row, and `Value.ofCount` stops at the largest; hence the bound `hsize`.

The theorems:

* `Store.Sound.count_recordsIn`: the sizes of clusters add up to the records that a scan gives.
* `finish_counts`: the one group of all records shows their number.
* `runSerial_counted`: what a run delivers that scans and gathers the records to be counted.
* `runQuery_counted`: a query that only counts delivers the rows of such a run.
-/

set_option autoImplicit false

namespace RecordQuery

open Steps

/-! ## Queries that only count

What it means that a query may be answered from the sizes of clusters: it has no condition, and one
column that counts records. -/

/-- The query has no clause but SKIP, LIMIT and ORDER BY, and counts the records in one column. This
is the test of `countColumn?` as a structure. -/
structure SelectQuery.OnlyCounts (query : SelectQuery) (column : String) : Prop where
  /-- There is no condition. -/
  filter : query.filter = none
  /-- There is no grouping field. -/
  groupBy : query.groupBy = []
  /-- There is no LET. -/
  lets : query.lets = []
  /-- Nothing is unwound. -/
  unwind : query.unwind = []
  /-- Nothing is expanded. -/
  expand : query.expand = none
  /-- The column. -/
  projections : query.projections = [.aggregate .count none column]

section

variable {query : SelectQuery} {column : String}

/-- A query for which `countColumn?` finds a column has nothing else. -/
theorem SelectQuery.onlyCounts (h : query.countColumn? = some column) :
    query.OnlyCounts column := by
  unfold countColumn? at h
  split at h
  next hfilter hgroupBy hlets hunwind hexpand hprojections =>
    cases h
    exact ⟨hfilter, hgroupBy, hlets, hunwind, hexpand, hprojections⟩
  · cases h

/-- A query that `OnlyCounts` gathers its records into a group, if they are read: an aggregate
without GROUP BY makes one group. -/
theorem SelectQuery.OnlyCounts.isGrouping (h : query.OnlyCounts column) :
    query.isGrouping = true := by
  unfold SelectQuery.isGrouping SelectQuery.hasAggregates
  rw [h.projections, h.groupBy]
  rfl

/-- A valid query has no LIMIT or a positive one, `limitCount?`. -/
theorem SelectQuery.limit_of_valid (h : query.validate = .ok ⟨⟩) :
    query.limitCount?.all (0 < ·) = true := by
  unfold validate at h
  split at h
  · cases h
  next hlimit =>
    have hpositive : query.limit = -1 ∨ 1 ≤ query.limit := by
      simp only [Bool.or_eq_true, beq_iff_eq, decide_eq_true_eq, not_or] at hlimit
      omega
    exact query.limitCount?_paged hpositive query.skip

end

/-! ## The number of records

The sizes of clusters add up to the number of records that a scan gives, and the group of these
records shows that number. -/

/-- `targetClusters` lists the clusters of a class target once each, so no record is counted
twice. -/
theorem Schema.targetClusters_nodup (schema : Schema) (className : String) (polymorphic : Bool) :
    (schema.targetClusters className polymorphic).Nodup :=
  (sortDistinct_strict .ofOrd fun _ _ => trivial).imp fun hlt heq => by
    rw [heq, Nat.compare_eq_eq.mpr rfl] at hlt
    cases hlt

namespace Grouping

/-- The `rowOf` a group that is only counted has the number of its records in the one `column`. -/
theorem rowOf_counted (column : String) (group : List Input) :
    rowOf [.aggregate .count none column] (stateOf [.aggregate .count none column] group) =
      .computed [(column, .int (Int64.ofNat group.length))] := by
  have hvalue : columnValue (.aggregate .count none column)
      (slotAfter group (.aggregate .count none column)) = .int (Int64.ofNat group.length) := by
    rw [slotAfter_aggregate]
    show Value.int (Int64.ofNat (Accumulator.feedAll (valuesOf none group)).rows) = _
    rw [Accumulator.rows_feedAll, valuesOf, List.length_map]
  rw [rowOf_eq (List.cons_ne_nil _ _), List.map_singleton, hvalue]
  rfl

/-- Whatever records there are, they are one group that shows their number. Without a record
`finish` makes the group. -/
theorem finish_counts {query : SelectQuery} {column : String} (h : query.OnlyCounts column)
    (inputs : List Input) :
    (gather query inputs).finish query =
      [.computed [(column, .int (Int64.ofNat inputs.length))]] := by
  have hkeys : KeysIn (fun v => v.isExact = true) query inputs := by
    intro i _
    unfold keyOf
    rw [h.groupBy]
    trivial
  have hfields : query.groupBy.length ≤ 1 := by simp [h.groupBy]
  have hgroups : groupsOf query inputs = [inputs] := by
    unfold groupsOf
    rw [h.groupBy]
  rw [finish_gather Value.totalOn_exact h.isGrouping hfields hkeys, hgroups, h.projections,
    List.map_singleton, rowOf_counted]

end Grouping

/-- `ofCount` gives a count that fits as it is. A larger one would be cut to the largest integer. -/
theorem Value.ofCount_of_lt {n : Nat} (h : n < 2 ^ 63) : Value.ofCount n = .int (Int64.ofNat n) := by
  have hfits : (n : Int) ≤ Int64.maxValue.toInt := by
    show (n : Int) ≤ 2 ^ 63 - 1
    omega
  unfold Value.ofCount
  rw [if_pos hfits]

/-! ## The run of a scan

The same query is followed through a scan: all records are gathered into one group, which makes one
row at the end. Sink, SKIP and LIMIT meet this row as they meet the row of a count. -/

section

variable {env : Env} {setup : PipelineSetup} {evaluator : Evaluator}

/-- While records are gathered into groups, the sink is not asked. So `serialLoop` takes the same
way with every `sink`. -/
theorem serialLoop_grouping (hgroups : setup.query.isGrouping = true) (sink : Sink)
    (rounds : Nat) :
    serialLoop { env with sink } setup evaluator rounds =
      serialLoop env setup evaluator rounds := by
  induction rounds with
  | zero => rfl
  | succ rounds ih =>
      funext state
      unfold serialLoop Pipeline.accept
      rw [ih]
      simp only [hgroups, if_true]
      rfl

/-- While records are gathered into groups, nothing is cut back: there is no sort buffer, and
`keep?` is `none`. -/
theorem keep?_of_grouping (hgroups : setup.query.isGrouping = true) : setup.keep? = none := by
  unfold PipelineSetup.keep?
  split
  · simp [hgroups]
  · rfl

/-- A pipeline that gathers records into groups does not stream them (`streams`). -/
theorem streams_of_grouping (hgroups : setup.query.isGrouping = true) :
    setup.streams = false := by
  simp [PipelineSetup.streams, hgroups]

/-- A loop that nothing ends early gathers all records it draws, `drawItems`, and delivers nothing.
LIMIT does not end it either, as it is applied to the row of the group. -/
theorem serialLoop_gathers (hgroups : setup.query.isGrouping = true)
    (hlimit : setup.query.limitCount?.all (0 < ·) = true) {rounds : Nat} {stream : Stream}
    {items : List WorkItem} {run : Run} (hidle : run.Idle { env with sink := .collecting })
    (hrows : run.rows = [])
    (hdraw : drawItems env.store.load setup.query.orderBy evaluator rounds stream [] = .ok items) :
    ∃ pipeline after,
      (serialLoop env setup evaluator rounds ⟨stream, [], .start⟩).run.run run =
        (.ok pipeline, after) ∧
      pipeline.grouping = setup.gathered evaluator items ∧ after.rows = [] := by
  let collecting : Env := { env with sink := .collecting }
  have hkeep := keep?_of_grouping hgroups
  have hstreams := streams_of_grouping hgroups
  have hstart : Fed collecting setup evaluator (fun _ => False) [] .start run.rows := by
    rw [hrows]
    exact fed_start
  obtain ⟨pipeline, after, taken, others, hloop, -, rfl, hfed, -, hends⟩ :=
    @serialLoop_feeds collecting setup evaluator _ .none hlimit rounds ⟨stream, [], .start⟩ [] items
      run hidle hstart hlimit hdraw (by simp [hkeep])
  have hdelivered : pipeline.delivered = 0 := by
    have hdelivered := hfed.delivered
    rwa [hstreams, if_neg Bool.false_ne_true] at hdelivered
  -- nothing is delivered, so no limit is reached, and nothing is left out
  obtain rfl : others = [] := hends.resolve_right fun hreached => by
    rw [hreached, hdelivered] at hlimit
    cases hlimit
  rw [serialLoop_grouping hgroups] at hloop
  have hafter := hfed.rows
  rw [hstreams, if_neg Bool.false_ne_true] at hafter
  refine ⟨pipeline, after, hloop, ?_, hafter⟩
  rw [List.append_nil]
  exact hfed.grouping hgroups

/-- `deliverAll` hands over a single row, whatever the sink answers: its answer is about the row
after. -/
theorem deliverAll_single (pipeline : Pipeline) {rows : List Row} (hsingle : rows.length ≤ 1)
    (run : Run) :
    ∃ done after, (pipeline.deliverAll env setup rows).run.run run = (.ok done, after) ∧
      after.rows = run.rows ++ rows := by
  match rows with
  | [] => exact ⟨pipeline, run, rfl, (List.append_nil _).symm⟩
  | [row] =>
      obtain ⟨more, hinted, after, hrun, hrows, -⟩ := deliver_run env setup pipeline row run
      refine ⟨{ pipeline with delivered := pipeline.delivered + 1, hinted }, after, ?_, hrows⟩
      unfold Pipeline.deliverAll
      rw [run_bind, hrun]
      cases more <;> rfl
  | _ :: _ :: _ => simp at hsingle

/-- A pipeline with a single row at its end (`hrow`) delivers the page of this row, whatever the
sink answers. -/
theorem finish_single (hstreams : setup.streams = false) (pipeline : Pipeline) {row : Row}
    (hrow : setup.rowsAtEnd env pipeline = [row]) (run : Run) :
    ∃ count after, (pipeline.finish env setup).run.run run = (.ok count, after) ∧
      after.rows = run.rows ++ Pipeline.page setup.query [row] := by
  obtain ⟨begun, hkeeps, hfinish⟩ := @finish_run env setup pipeline run hstreams
  have hsingle : (Pipeline.page setup.query [row]).length ≤ 1 :=
    (page_sublist setup.query [row]).1.length_le
  rw [hrow] at hfinish
  obtain ⟨done, delivered, hdeliver, hdelivered⟩ :=
    @deliverAll_single env setup pipeline _ hsingle begun
  obtain ⟨after, hrun, hlast⟩ := hfinish done delivered hdeliver
  exact ⟨_, after, hrun, by rw [hlast.rows, hdelivered, hkeeps.rows]⟩

end

/-- The plan of a query for a class that reads its records with a scan: no `filter`, and the
`targetClusters` in the direction that the query asks for. -/
def SelectQuery.scanningPlan (query : SelectQuery) (store : Store) (className : String)
    (polymorphic : Bool) : Plan :=
  .reading (.scan (query.classScan store className polymorphic none)) none
    query.scanSatisfiesOrder

section

variable {env : Env} {query : SelectQuery} {className column : String} {polymorphic : Bool}

/-- What has been gathered of the records to be counted makes one row in `rowsAtEnd`. The evaluator
does not matter, as no field is read. -/
theorem rowsAtEnd_counted (hcounts : query.OnlyCounts column) (ordered : Bool)
    (evaluator : Evaluator) {items : List WorkItem} {pipeline : Pipeline}
    (hgathered : pipeline.grouping = (env.setup query ordered).gathered evaluator items) :
    (env.setup query ordered).rowsAtEnd env pipeline =
      [.computed [(column, .int (Int64.ofNat items.length))]] := by
  let inputs : List Grouping.Input :=
    items.map fun item => (evaluator.scope item.lets, item.record)
  have hgather : (env.setup query ordered).gathered evaluator items =
      Grouping.gather query inputs := by
    unfold PipelineSetup.gathered Grouping.gather
    rw [List.foldl_map]
    rfl
  have hfinish : pipeline.grouping.finish query =
      [.computed [(column, .int (Int64.ofNat items.length))]] := by
    rw [hgathered, hgather, Grouping.finish_counts hcounts, List.length_map]
  -- one row is the same in every order
  have hgrouped : (env.setup query ordered).groupedRows pipeline.grouping =
      [.computed [(column, .int (Int64.ofNat items.length))]] :=
    List.perm_singleton.mp (hfinish ▸ groupedRows_perm pipeline.grouping)
  have hunwind : (env.setup query ordered).query.unwind = [] := hcounts.unwind
  unfold PipelineSetup.rowsAtEnd
  rw [hunwind, if_pos (show (env.setup query ordered).query.isGrouping = true from
    hcounts.isGrouping), hgrouped]
  rfl

/-- The scan of a class opens a stream of all records that it is to give, as no cluster fails,
`hwhole`. -/
theorem scanningPlan_opened {store : Store} (hsound : store.Sound)
    (hwhole : store.ScansWhole (store.schema.targetClusters className polymorphic) .all) :
    ∃ ordered, (query.scanningPlan store className polymorphic).opened store query
      (.scan (query.classScan store className polymorphic none)) =
        .ok (.scan ((store.recordsIn (store.schema.targetClusters className polymorphic)
          query.scanDirection .all).map .ok) true, ordered) := by
  have hclusters : ∀ id ∈ store.schema.targetClusters className polymorphic,
      ∃ c ∈ store.clusters, c.id = id :=
    fun _ hid => hsound.cluster_of_targetClusters hid
  obtain ⟨items, hitems⟩ := hsound.exists_scanned hclusters query.scanDirection .all
  have hscan : store.scanClusters (query.classScan store className polymorphic none).clusters
      (query.classScan store className polymorphic none).direction
      (query.classScan store className polymorphic none).range = .ok items := hitems
  unfold Plan.opened Source.opened
  rw [hscan, ← Store.scanned_whole hitems hwhole]
  exact ⟨_, rfl⟩

/-- A run that nothing ends early scans the records of a class, gathers them, and delivers the page
of the row that shows their number. `hidle` is about a collecting sink, the sink of `env` is
free. -/
theorem runSerial_counted (hsound : env.store.Sound) (hcounts : query.OnlyCounts column)
    (hvalid : query.validate = .ok ⟨⟩)
    (hwhole : env.store.ScansWhole (env.store.schema.targetClusters className polymorphic) .all)
    {run : Run} (hidle : run.Idle { env with sink := .collecting }) (hrows : run.rows = []) :
    ∃ delivered after,
      (runSerial env query (query.scanningPlan env.store className polymorphic)
        (.scan (query.classScan env.store className polymorphic none))).run.run run =
          (.ok delivered, after) ∧
      after.rows = Pipeline.page query [.computed [(column, .int (Int64.ofNat
        (env.store.recordsIn (env.store.schema.targetClusters className polymorphic)
          query.scanDirection .all).length))]] := by
  let records := env.store.recordsIn (env.store.schema.targetClusters className polymorphic)
    query.scanDirection .all
  let plan := query.scanningPlan env.store className polymorphic
  let evaluator : Evaluator := .ofPlan env.store run.context.vars query plan
  have hlimit := SelectQuery.limit_of_valid hvalid
  obtain ⟨ordered, hopened⟩ :=
    @scanningPlan_opened query className polymorphic env.store hsound hwhole
  -- nothing is asked of the records, so all of them are drawn and gathered
  have hdraw := @drawItems_unchecked evaluator env.store.load query.orderBy rfl rfl
    (fun records => .scan (records.map .ok) true) [] (fun _ _ => rfl) ⟨_, _, rfl⟩ records
  obtain ⟨opened, hkeeps, hrun⟩ := runSerial_run env query plan
    (.scan (query.classScan env.store className polymorphic none)) run
  rw [hrun, hopened]
  dsimp only
  rw [run_bind]
  obtain ⟨pipeline, gathered, hloop, hgathered, hbefore⟩ :=
    @serialLoop_gathers env (env.setup query ordered) evaluator hcounts.isGrouping hlimit
      (records.length + 1) (.scan (records.map .ok) true) _ opened (hidle.keeps hkeeps)
      (hkeeps.rows.trans hrows) hdraw
  have hsize : (Stream.scan (records.map .ok) true).size = records.length := List.length_map _
  rw [hsize, hloop]
  dsimp only
  -- what is gathered makes one row, which the sink receives unless it is skipped
  have hrow := @rowsAtEnd_counted env query column hcounts ordered evaluator _ pipeline hgathered
  rw [List.length_map] at hrow
  obtain ⟨delivered, after, hfinish, hafter⟩ := @finish_single env (env.setup query ordered)
    (streams_of_grouping hcounts.isGrouping) pipeline _ hrow gathered
  refine ⟨delivered, after, hfinish, ?_⟩
  rw [hafter, hbefore, List.nil_append]
  rfl

/-- A query that only counts the records of a declared class is answered from the sizes of the
clusters: `Store.plan` tries `countColumn?` first. -/
theorem plan_counted (hcolumn : query.countColumn? = some column)
    (htarget : query.target = .ofClass className polymorphic)
    (hdeclared : env.store.schema.declares className = true) (hvalid : query.validate = .ok ⟨⟩)
    (context : Context) :
    ∃ plan, env.plan query context = .ok plan ∧ plan.source =
      .count (env.store.schema.targetClusters className polymorphic) column := by
  let clusters := env.store.schema.targetClusters className polymorphic
  obtain ⟨planned, hplanned, hsource⟩ : ∃ planned,
      env.store.planTarget context.vars (query.plannedFilter env.options) query = .ok planned ∧
        planned.source = .count clusters column := by
    unfold Store.planTarget Store.planClass
    rw [htarget]
    dsimp only
    rw [hdeclared, hcolumn]
    exact ⟨_, rfl, rfl⟩
  -- records that are not read need no workers
  have hserial : env.store.allowsParallel env.options planned query context.inTransaction =
      .ok false := by
    refine allowsParallel_of_source fun scan hscan => ?_
    cases hsource.symm.trans hscan
  obtain ⟨pairs, hplan⟩ := plan_of_planned hvalid hplanned hserial
  exact ⟨_, hplan, hsource⟩

/-- Only queries that only count the records of a class have a plan that counts: it counts the
clusters of the class. This is the converse of `plan_counted`. -/
theorem plan_counts {context : Context} {plan : Plan} (hplan : env.plan query context = .ok plan)
    {clusters : List ClusterId} (hsource : plan.source = .count clusters column) :
    ∃ className polymorphic, query.target = .ofClass className polymorphic ∧
      query.countColumn? = some column ∧
      clusters = env.store.schema.targetClusters className polymorphic := by
  obtain ⟨-, planned, pairs, parallel, hplanned, -, rfl⟩ := plan_ok hplan
  have hcounts : planned.source = .count clusters column := hsource
  -- every other plan reads records
  cases planTarget_ok hplanned with
  | scan _ hreads | records _ hreads | index _ _ _ _ _ hreads => cases hreads.symm.trans hcounts
  | ofClass className polymorphic htarget _ hclass =>
      refine ⟨className, polymorphic, htarget, ?_⟩
      cases hclass with
      | count found hcolumn hcount _ =>
          cases hcount.symm.trans hcounts
          exact ⟨hcolumn, rfl⟩
      | lookups _ _ _ _ hreads | fanOut _ _ _ _ _ _ hreads | walk _ _ _ hreads | scan hreads =>
          cases hreads.source.symm.trans hcounts

/-- A query that only counts the records of a class, `hcolumn`, delivers the rows that a scan
delivers which reads all of its live records, gathers them into a group, and sorts and pages the row
of the group. This `scanned` run is a `runSerial` of the `scanningPlan`, and both runs succeed.
Nothing may end the query early, `hundisturbed`, which leaves the sink free, and none of the scanned
clusters may fail, `hwhole`. The records are to be fewer than an integer can count, `hsize`, as the
records of a store in memory are. -/
theorem runQuery_counted {context : Context} {signals : Signals}
    (hreach : env.store.Reachable fun _ => True)
    (hundisturbed : { env with sink := .collecting : Env }.Undisturbed query context signals)
    (htarget : query.target = .ofClass className polymorphic)
    (hdeclared : env.store.schema.declares className = true) (hvalid : query.validate = .ok ⟨⟩)
    (hcolumn : query.countColumn? = some column)
    (hwhole : env.store.ScansWhole (env.store.schema.targetClusters className polymorphic) .all)
    (hsize : ∀ n, env.store.count (env.store.schema.targetClusters className polymorphic) = .ok n →
      n < 2 ^ 63) :
    let scanned := (runSerial env query (query.scanningPlan env.store className polymorphic)
      (.scan (query.classScan env.store className polymorphic none))).run.run
        (.start context signals)
    (∃ outcome, (runQuery env query context signals).1 = .ok outcome) ∧
      (∃ delivered, scanned.1 = .ok delivered) ∧
      (runQuery env query context signals).2.rows = scanned.2.rows := by
  have hsound := hreach.sound
  have hcounts := SelectQuery.onlyCounts hcolumn
  let clusters := env.store.schema.targetClusters className polymorphic
  let records := env.store.recordsIn clusters query.scanDirection .all
  obtain ⟨delivered, last, hscan, hscanned⟩ := @runSerial_counted env query className column
    polymorphic hsound hcounts hvalid hwhole (.start context signals) hundisturbed.idle rfl
  intro scanned
  have hran : scanned = (.ok delivered, last) := hscan
  -- the sizes of the clusters add up to the records that the scan gives
  have hcount : env.store.count clusters = .ok records.length :=
    hsound.count_recordsIn (fun _ hid => hsound.cluster_of_targetClusters hid)
      (env.store.schema.targetClusters_nodup className polymorphic) query.scanDirection
  have hcolumnRow : Value.ofCount records.length = .int (Int64.ofNat records.length) :=
    Value.ofCount_of_lt (hsize _ hcount)
  obtain ⟨plan, hplan, hsource⟩ :=
    @plan_counted env query className column polymorphic hcolumn htarget hdeclared hvalid context
  rcases runQuery_cases env query context signals with
    ⟨failure, hfailed, -, -⟩ | ⟨planned, begun, hplanned, hbegun, -, -, hrows, hok⟩
  · cases hplan.symm.trans hfailed
  obtain rfl : planned = plan := Except.ok.inj (hplanned.symm.trans hplan)
  obtain ⟨after, hrun, hafter⟩ := deliverCount_run env query clusters column begun
  have hplanRun : runPlan env query planned = deliverCount env query clusters column := by
    unfold runPlan
    rw [hsource]
  rw [hplanRun, hrun] at hok hrows
  rw [hcount] at hok hafter
  refine ⟨hok.mpr ⟨_, rfl⟩, ⟨delivered, congrArg Prod.fst hran⟩, ?_⟩
  rw [hran, hrows, hafter, hbegun, hscanned, page_singleton (SelectQuery.limit_of_valid hvalid),
    ← hcolumnRow]
  simp [Except.toOption, records, clusters]

end

/-! ## A count over a hierarchy -/

/-- Class `Animal` with two clusters and a class below it. Four records are inserted, of both
classes, and one of the lower class is deleted again. -/
def hierarchyStore : Store := .ofChanges [
  .createClass "Animal" none 2 false,
  .createClass "Bird" (some "Animal") 1 false,
  .insert "Animal" [("legs", .int 4)],
  .insert "Animal" [("legs", .int 8)],
  .insert "Bird" [("legs", .int 2)],
  .insert "Bird" [("legs", .int 2)],
  .delete ⟨3, 0⟩]

/-- An executor over `hierarchyStore`, with a sink that wants no second row. -/
def hierarchyEnv : Env := ⟨hierarchyStore, .default, fun _ => 0, ⟨fun _ => false, fun _ => false⟩⟩

/-- The number of animals in `hierarchyStore`, with clauses that a single row has no use for: ORDER
BY, a LIMIT, and workers. -/
def animalsQuery : SelectQuery :=
  { SelectQuery.ofTarget (.ofClass "Animal" true) with
    projections := [.ofAggregate .count none (some "animals")]
    orderBy := [⟨⟨"animals", []⟩, .desc⟩]
    limit := 2
    parallel := true }

/-- The count of the animals and of the birds among them is that of a scan: three. The sink of
`hierarchyEnv` wants no second row, and there is none. -/
theorem runQuery_counted_animals :
    hierarchyEnv.store.Reachable (fun _ => True) ∧
      animalsQuery.countColumn? = some "animals" ∧
      (runQuery hierarchyEnv animalsQuery .empty []).2.rows =
        ((runSerial hierarchyEnv animalsQuery
          (animalsQuery.scanningPlan hierarchyEnv.store "Animal" true)
          (.scan (animalsQuery.classScan hierarchyEnv.store "Animal" true none))).run.run
            (.start .empty [])).2.rows ∧
      (runQuery hierarchyEnv animalsQuery .empty []).2.rows.map (·.get "animals") == [.int 3] := by
  have hreach : hierarchyStore.Reachable fun _ => True :=
    Store.reachable_ofChanges fun change _ => by cases change <;> trivial
  have hcount : hierarchyEnv.store.count
      (hierarchyEnv.store.schema.targetClusters "Animal" true) = .ok 3 := by rfl
  have hwhole : hierarchyEnv.store.failingCluster = none := by rfl
  refine ⟨hreach, rfl, ?_, by decide +kernel⟩
  refine (runQuery_counted hreach ⟨rfl, rfl, rfl, rfl, rfl, rfl⟩ rfl (by decide +kernel) rfl rfl
    (fun _ _ _ hfailing => nomatch hwhole.symm.trans hfailing) fun n hn => ?_).2.2
  obtain rfl : n = 3 := Except.ok.inj (hn.symm.trans hcount)
  decide

end RecordQuery
