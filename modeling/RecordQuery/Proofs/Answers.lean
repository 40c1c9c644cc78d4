import RecordQuery.Proofs.Coverage
import RecordQuery.Proofs.Distinct
import RecordQuery.Proofs.RangeFolding
import RecordQuery.Proofs.Schedules

/-!
# `RecordQuery.Proofs.Answers`: a query delivers the records that its filter holds for

A query for the records of a class has a plan (`exists_plan`), the plan opens (`plan_opens`), and
the run succeeds unless a record fails (`drains_of_comes`). What it delivers are records of the
class on which the filter is true under their LET bindings, and it is all of those that the lookups
of the plan give as they have to.

Two relations say which records are meant. `Answers` is for queries without LET: the record is live,
of the class, and the filter is true on it in the `Store.scope` of the context. `Qualifies` has the
same fields in the `SelectQuery.scopeOn` of the record, where its own LET bindings hide variables of
the context. `qualifies_iff_answers` says that they agree without LET.

The filter has to have a value on every live record, which is `SelectQuery.Decided`. A filter that
fails on some record fails the query, and then whether it fails depends on the plan: a lookup may
never meet that record. `Decided.dotFree` is there because range folding rebuilds its operands from
the names of fields.

The theorems:

* `exists_plan`: a query for the records of a declared class has a plan that reads records.
* `mem_rids_of_transfer`, `mem_rids_of_clusters`: what the two kinds of `Env.Drains` deliver.
* `found_of_comes`: a query delivers qualifying records, and those that its lookups have to give.
  The predicate `found` says which these are; it is the parameter in which the results on index
  plans differ.
* `looked_of_comes`: where it looks its class up, these are all that it delivers.
* `collects_answers`: without LET, they are those of the `Answers`.

The theorems are about all that a query comes to, `Env.Comes`: its run, and where nobody can cancel
it any of its executions. `Env.Collects` puts the two together for the results of other modules, and
`Env.Collects.of_comes` is how these are proved.
-/

set_option autoImplicit false

namespace RecordQuery

/-- The query asks for whole records of a class, all of them, each once and in any order. The
filter, `orderBy` and the hints are free. -/
structure SelectQuery.Plain (query : SelectQuery) (className : String) (polymorphic : Bool) :
    Prop where
  /-- The target is the class, with its subclasses or without. -/
  target : query.target = .ofClass className polymorphic
  /-- There is no LET. -/
  lets : query.lets = []
  /-- There are no columns. -/
  projections : query.projections = []
  /-- There is no GROUP BY. -/
  groupBy : query.groupBy = []
  /-- There is no UNWIND. -/
  unwind : query.unwind = []
  /-- There is no EXPAND. -/
  expand : query.expand = none
  /-- There is no LIMIT. -/
  limit : query.limit = -1
  /-- There is no SKIP. -/
  skip : query.skip = 0

/-- What conditions see in a store, without LET bindings: links are followed with `Store.load`. -/
def Store.scope (store : Store) (vars : Fields) : Scope := ⟨store.load, vars, []⟩

/-- The record is a `Live` one of the class, and the filter of the query is true on it. Neither the
plan nor an index comes in. -/
structure Answers (store : Store) (vars : Fields) (query : SelectQuery) (className : String)
    (polymorphic : Bool) (r : Record) : Prop where
  /-- The record is live. -/
  live : store.Live r
  /-- It is of the class, or of a subclass where those are wanted. -/
  ofClass : if polymorphic then store.schema.Below r.className className
    else r.className = className
  /-- The filter is true on it. -/
  holds : ∀ condition, query.filter = some condition →
    condition.evaluate (store.scope vars) r = .ok true

/-- What the filter of a query sees on a record: the variables of the context, and the record's LET
bindings. -/
def SelectQuery.scopeOn (query : SelectQuery) (store : Store) (vars : Fields) (r : Record) :
    Scope :=
  ⟨store.load, vars, Evaluator.bindings ⟨store, vars, query.lets, none, none⟩ r⟩

/-- The record is a live one of the class, and the filter of the query is true on it under its LET
bindings, `SelectQuery.scopeOn`. -/
structure Qualifies (store : Store) (vars : Fields) (query : SelectQuery) (className : String)
    (polymorphic : Bool) (r : Record) : Prop where
  /-- The record is live. -/
  live : store.Live r
  /-- It is of the class, or of a subclass where those are wanted. -/
  ofClass : if polymorphic then store.schema.Below r.className className
    else r.className = className
  /-- The filter is true on it. -/
  holds : ∀ condition, query.filter = some condition →
    condition.evaluate (query.scopeOn store vars r) r = .ok true

/-- Without LET, every record is seen in the same scope, `Store.scope`. -/
theorem SelectQuery.scopeOn_of_no_lets {query : SelectQuery} (h : query.lets = []) (store : Store)
    (vars : Fields) (r : Record) : query.scopeOn store vars r = store.scope vars := by
  unfold scopeOn
  rw [h]
  rfl

/-- Without LET (`h`), `Qualifies` is `Answers`. -/
theorem qualifies_iff_answers {store : Store} {vars : Fields} {query : SelectQuery}
    {className : String} {polymorphic : Bool} (h : query.lets = []) {r : Record} :
    Qualifies store vars query className polymorphic r ↔
      Answers store vars query className polymorphic r := by
  have hscope := SelectQuery.scopeOn_of_no_lets h store vars r
  exact ⟨fun hr => ⟨hr.live, hr.ofClass, hscope ▸ hr.holds⟩,
    fun hr => ⟨hr.live, hr.ofClass, hscope ▸ hr.holds⟩⟩

section

variable {env : Env} {query : SelectQuery} {context : Context} {signals : Signals}
  {className : String} {polymorphic : Bool}

/-! ## Plans

A query for the records of a declared class always has a plan, as planning fails only for classes
that do not exist, and the clusters that it asks about do. -/

/-- The filter of a class accepts the records of the class. `ClassFilter.accepts` walks up from the
class of the record, and `Schema.Below` is that walk as a relation. -/
theorem Store.Sound.accepts_iff {store : Store} (h : store.Sound) {r : Record} :
    ClassFilter.accepts ⟨className, polymorphic⟩ store.schema r.className = true ↔
      if polymorphic then store.schema.Below r.className className
      else r.className = className := by
  unfold ClassFilter.accepts
  cases polymorphic with
  | false => simp
  | true => simpa using h.forest.isSubclassOf_iff

/-- `count` succeeds on clusters that exist, so a plan that asks how large its clusters are does not
fail. -/
theorem Store.Sound.exists_count {store : Store} (h : store.Sound) {ids : List ClusterId}
    (hids : ∀ id ∈ ids, ∃ c ∈ store.clusters, c.id = id) : ∃ count, store.count ids = .ok count :=
  ⟨_, h.count_eq hids .ascending⟩

/-- `allowsParallel` does not fail on a plan for a class: it may have a worker per cluster or
not. -/
theorem Store.Sound.exists_allowsParallel {store : Store} (h : store.Sound) {vars : Fields}
    {filter : Option Condition} {plan : Plan}
    (hplan : ClassPlan store vars className polymorphic filter query plan) (options : Options)
    (inTransaction : Bool) :
    ∃ parallel, store.allowsParallel options plan query inTransaction = .ok parallel := by
  unfold Store.allowsParallel
  split
  · exact ⟨false, rfl⟩
  · split
    next scan hsource =>
      split
      · exact ⟨false, rfl⟩
      · obtain rfl := hplan.scan_eq hsource
        obtain ⟨count, hcount⟩ := h.exists_count
          fun _ hid => @Store.Sound.cluster_of_targetClusters _ h className polymorphic _ hid
        exact ⟨_, congrArg (Except.map _) hcount⟩
    · exact ⟨false, rfl⟩

/-- A query for the records of a declared class has a plan, and the plan reads records: `hgrouping`
says that it is not the shortcut that counts. -/
theorem exists_plan (hsound : env.store.Sound)
    (htarget : query.target = .ofClass className polymorphic)
    (hvalid : query.validate = .ok ⟨⟩) (hgrouping : query.isGrouping = false)
    (hdeclared : env.store.schema.declares className = true) :
    ∃ plan source, env.plan query context = .ok plan ∧ plan.source = .rows source := by
  have hcolumn := SelectQuery.countColumn?_of_not_isGrouping hgrouping
  -- a class that is declared and no count give a plan for records, whatever the filter is
  have hplanned (filter : Option Condition) :
      ∃ plan, env.store.planTarget context.vars filter query = .ok plan := by
    unfold Store.planTarget Store.planClass
    rw [htarget]
    dsimp only
    rw [hdeclared, if_neg (by simp), hcolumn]
    dsimp only
    split
    · exact ⟨_, rfl⟩
    · split <;> exact ⟨_, rfl⟩
  obtain ⟨plan, hplan⟩ : ∃ plan, env.plan query context = .ok plan := by
    obtain ⟨planned, hplanned⟩ := hplanned (query.plannedFilter env.options)
    have hclass := hplanned
    unfold Store.planTarget at hclass
    rw [htarget] at hclass
    obtain ⟨parallel, hparallel⟩ := hsound.exists_allowsParallel (planClass_ok hclass).2
      env.options context.inTransaction
    obtain ⟨pairs, hplan⟩ := plan_of_planned hvalid hplanned hparallel
    exact ⟨_, hplan⟩
  refine ⟨plan, ?_⟩
  obtain ⟨-, hclass, -⟩ := plan_ofClass htarget hplan
  -- only the plan for a count of the class reads no records
  cases hclass with
  | count column hcount hsource hunchecked => cases hcolumn.symm.trans hcount
  | lookups condition selection hfilter hselect hreads => exact ⟨_, hplan, hreads.source⟩
  | fanOut condition parts sorted hpolymorphic hfilter hfan hreads =>
      exact ⟨_, hplan, hreads.source⟩
  | walk index ascending hindex hreads => exact ⟨_, hplan, hreads.source⟩
  | scan hreads => exact ⟨_, hplan, hreads.source⟩

/-! ## Records that qualify

A plan checks its own condition, folded or not, with its own scope. The lemmas bring this back to
the filter of the query and the LET bindings of the record. -/

/-- The evaluator `accepts` a record when it is of the class asked for and the condition is true on
it under its LET bindings. -/
theorem Evaluator.accepts_iff {evaluator : Evaluator} {r : Record} :
    evaluator.accepts r = true ↔ evaluator.acceptsClass r = true ∧
      ∀ condition, evaluator.filter = some condition →
        condition.evaluate (evaluator.scope (evaluator.bindings r)) r = .ok true := by
  unfold Evaluator.accepts Evaluator.item? Evaluator.qualify Evaluator.evaluate
  dsimp only
  cases hclass : evaluator.acceptsClass r with
  | false => simp
  | true =>
      cases hfilter : evaluator.filter with
      | none => simp
      | some condition =>
          simp only [Bool.not_true, Bool.false_eq_true, if_false, Option.some.injEq, true_and,
            forall_eq']
          cases condition.evaluate (evaluator.scope (evaluator.bindings r)) r with
          | error failure => simp
          | ok keep => cases keep <;> simp

/-- The condition of a plan, `SelectQuery.plannedFilter`, is the filter of the query, folded or not:
it has a value where the filter has one, and the same. -/
theorem evaluate_planned {options : Options} {scope : Scope} {r : Record}
    (hdots : options.foldRanges = true →
      ∀ condition, query.filter = some condition → condition.DotFree)
    (hdecided : ∀ condition, query.filter = some condition →
      ∃ b, condition.evaluate scope r = .ok b)
    {planned : Condition} (hplanned : query.plannedFilter options = some planned) :
    ∃ condition b, query.filter = some condition ∧ condition.evaluate scope r = .ok b ∧
      planned.evaluate scope r = .ok b := by
  unfold SelectQuery.plannedFilter at hplanned
  obtain ⟨condition, hcondition, rfl⟩ := Option.map_eq_some_iff.mp hplanned
  obtain ⟨b, hb⟩ := hdecided condition hcondition
  refine ⟨condition, b, hcondition, hb, ?_⟩
  split
  next hfold => exact Condition.evaluate_foldRanges (hdots hfold condition hcondition) hb
  next => exact hb

/-- The planned condition is true where the filter is, also if it was folded (`foldRanges`). -/
theorem evaluate_planned_iff {options : Options} {scope : Scope} {r : Record}
    (hdots : options.foldRanges = true →
      ∀ condition, query.filter = some condition → condition.DotFree)
    (hdecided : ∀ condition, query.filter = some condition →
      ∃ b, condition.evaluate scope r = .ok b) :
    (∀ planned, query.plannedFilter options = some planned → planned.evaluate scope r = .ok true) ↔
      ∀ condition, query.filter = some condition → condition.evaluate scope r = .ok true := by
  constructor
  · intro h condition hcondition
    -- the planned condition is the filter, or what folding makes of it; both have one value
    have hplanned : query.plannedFilter options = some
        (if options.foldRanges then condition.foldRanges.1 else condition) := by
      rw [SelectQuery.plannedFilter, hcondition]
      rfl
    obtain ⟨condition', b, hcondition', hb, hsame⟩ := evaluate_planned hdots hdecided hplanned
    cases hcondition.symm.trans hcondition'
    rw [hb, ← hsame]
    exact h _ hplanned
  · intro h planned hplanned
    obtain ⟨condition, b, hcondition, hb, hsame⟩ := evaluate_planned hdots hdecided hplanned
    rw [hsame, ← hb]
    exact h condition hcondition

/-! ## What is delivered

A plan may read more records than qualify, and need not check the class of all of them. What it
accepts of live records is shown to be those that qualify, and no range or choice of clusters leaves
one of them out. -/

/-- The filter has a value on every live record under its LET bindings, and it is `DotFree` where
ranges are folded. So no record fails the query, whatever the plan reads. -/
structure SelectQuery.Decided (query : SelectQuery) (env : Env) (vars : Fields) : Prop where
  /-- Fields are named without dots where ranges are folded. -/
  dotFree : env.options.foldRanges = true →
    ∀ condition, query.filter = some condition → condition.DotFree
  /-- The filter has a value on every live record. -/
  evaluates : ∀ condition, query.filter = some condition → ∀ r, env.store.Live r →
    ∃ b, condition.evaluate (query.scopeOn env.store vars r) r = .ok b

/-- The evaluator of a plan for a class takes a live record whose class it accepts exactly when the
filter is true on it. By `SelectQuery.Decided` it fails on none. -/
theorem qualify_of_plan (htarget : query.target = .ofClass className polymorphic)
    (hdecided : query.Decided env context.vars) {plan : Plan}
    (hplan : env.plan query context = .ok plan) {r : Record} (hr : env.store.Live r) :
    (∃ lets, (Evaluator.ofPlan env.store context.vars query plan).qualify r = .ok lets) ∧
      ((Evaluator.ofPlan env.store context.vars query plan).accepts r = true ↔
        (Evaluator.ofPlan env.store context.vars query plan).acceptsClass r = true ∧
          ∀ condition, query.filter = some condition →
            condition.evaluate (query.scopeOn env.store context.vars r) r = .ok true) := by
  have hscope : (Evaluator.ofPlan env.store context.vars query plan).scope
      ((Evaluator.ofPlan env.store context.vars query plan).bindings r) =
      query.scopeOn env.store context.vars r := rfl
  have hfilter : (Evaluator.ofPlan env.store context.vars query plan).filter =
      query.plannedFilter env.options := filter_of_plan htarget hplan
  have hdecides := fun condition hcondition => hdecided.evaluates condition hcondition r hr
  constructor
  · refine Evaluator.qualify_ok fun planned hplanned => ?_
    rw [hfilter] at hplanned
    obtain ⟨-, b, -, -, hb⟩ := evaluate_planned hdecided.dotFree hdecides hplanned
    rw [hscope]
    exact ⟨b, hb⟩
  · -- the plan leaves its condition to the evaluator, which is the planned filter
    rw [Evaluator.accepts_iff, hfilter, hscope, evaluate_planned_iff hdecided.dotFree hdecides]

/-- A plan checks the class of the records that it does not scan. It scans the clusters of the
class, so `hscan` takes the place of the check there. -/
theorem acceptsClass_of_plan (hsound : env.store.Sound) {filter : Option Condition} {plan : Plan}
    (hplan : ClassPlan env.store context.vars className polymorphic filter query plan)
    {source : Source} (hsource : plan.source = .rows source) {r : Record}
    (hr : env.store.Live r)
    (hscan : ∀ scan, source = .scan scan → r.rid.cluster ∈ scan.clusters) :
    (Evaluator.ofPlan env.store context.vars query plan).acceptsClass r = true ↔
      ClassFilter.accepts ⟨className, polymorphic⟩ env.store.schema r.className = true := by
  have hchecked (hfilter : plan.classFilter = some ⟨className, polymorphic⟩) :
      (Evaluator.ofPlan env.store context.vars query plan).acceptsClass r =
        ClassFilter.accepts ⟨className, polymorphic⟩ env.store.schema r.className := by
    unfold Evaluator.acceptsClass Evaluator.ofPlan
    rw [hfilter]
    rfl
  -- every plan but a scan checks the class; a scan reads the clusters of the class instead
  cases hplan with
  | count column hcolumn hcount hunchecked => cases hcount.symm.trans hsource
  | lookups condition selection hfilter hselect hreads => rw [hchecked hreads.classFilter]
  | fanOut condition parts sorted hpolymorphic hfilter hfan hreads =>
      rw [hchecked hreads.classFilter]
  | walk index ascending hindex hreads => rw [hchecked hreads.classFilter]
  | scan hreads =>
      cases hreads.source.symm.trans hsource
      rw [← hsound.mem_targetClusters_iff hr]
      refine iff_of_true ?_ (hscan _ rfl)
      unfold Evaluator.acceptsClass Evaluator.ofPlan
      rw [hreads.classFilter]
      rfl

/-- Among the live records, the plan of a query for a class accepts those that qualify. Those that
it scans have to be in its clusters, `hscan`. -/
theorem accepts_of_plan (hsound : env.store.Sound)
    (htarget : query.target = .ofClass className polymorphic)
    (hdecided : query.Decided env context.vars) {plan : Plan}
    (hplan : env.plan query context = .ok plan) {source : Source}
    (hsource : plan.source = .rows source) {r : Record} (hr : env.store.Live r)
    (hscan : ∀ scan, source = .scan scan → r.rid.cluster ∈ scan.clusters) :
    (Evaluator.ofPlan env.store context.vars query plan).accepts r = true ↔
      Qualifies env.store context.vars query className polymorphic r := by
  obtain ⟨-, hclass, -⟩ := plan_ofClass htarget hplan
  rw [(qualify_of_plan htarget hdecided hplan hr).2,
    acceptsClass_of_plan hsound hclass hsource hr hscan, hsound.accepts_iff]
  exact ⟨fun h => ⟨hr, h.1, h.2⟩, fun h => ⟨h.ofClass, h.holds⟩⟩

/-- The planned condition (`hplanned`) is true on the records that qualify. -/
theorem Qualifies.planned (hdecided : query.Decided env context.vars) {r : Record}
    (h : Qualifies env.store context.vars query className polymorphic r) {planned : Condition}
    (hplanned : query.plannedFilter env.options = some planned) :
    planned.evaluate (query.scopeOn env.store context.vars r) r = .ok true := by
  obtain ⟨condition, b, hcondition, hb, hsame⟩ := evaluate_planned hdecided.dotFree
    (fun condition hcondition => hdecided.evaluates condition hcondition r h.live) hplanned
  cases (h.holds condition hcondition).symm.trans hb
  exact hsame

/-- The range of identities that the plan scans, `ridRangeOf`, has the records that qualify. The
range comes from the filter, so a record outside of it makes the filter false. -/
theorem Qualifies.contains (hdecided : query.Decided env context.vars) {r : Record}
    (h : Qualifies env.store context.vars query className polymorphic r) :
    (ridRangeOf (query.plannedFilter env.options)).contains r.rid = true := by
  unfold ridRangeOf
  cases hplanned : query.plannedFilter env.options with
  | none => rfl
  | some planned => exact Condition.ridRange_contains (h.planned hdecided hplanned)

/-- A plan whose source is a `.scan` gives records of the clusters that it scans. -/
theorem Store.Sound.cluster_of_opened_scan {store : Store} (h : store.Sound) {plan : Plan}
    {scan : ScanPlan} {stream : Stream} {ordered : Bool}
    (hopened : plan.opened store query (.scan scan) = .ok (stream, ordered)) {r : Record}
    (hgives : stream.contents.Gives store.load r) : r.rid.cluster ∈ scan.clusters := by
  rcases Plan.opened_cases hopened with ⟨sorted, hscanned, -⟩ | ⟨failure, -, -, hfailed, -⟩
  · obtain ⟨items, hitems, rfl, -⟩ := Store.opened_scan hscanned
    rcases hgives with hr | hr | ⟨hr, -⟩
    · cases hr
    · exact (h.mem_of_scanned hitems hr).2.1
    · cases hr
  · -- a scan is never unavailable
    unfold Source.opened at hfailed
    obtain ⟨items, -, hitems⟩ := Steps.map_ok hfailed
    cases hitems

/-- The `rowRids` of the rows of accepted records are the identities of these. -/
theorem mem_rowRids_iff {setup : PipelineSetup} {evaluator : Evaluator}
    (htarget : setup.query.target = .ofClass className polymorphic) {out : List Record}
    {chosen : List WorkItem} (hchosen : chosen.Perm (out.filterMap evaluator.item?)) {rid : Rid} :
    rid ∈ rowRids (chosen.map (setup.row evaluator)) ↔
      ∃ r ∈ out, evaluator.accepts r = true ∧ r.rid = rid := by
  have hrids : (out.filterMap evaluator.item?).map (fun item : WorkItem => item.record.rid) =
      (out.filter evaluator.accepts).map (·.rid) := by
    rw [← map_record_filterMap, List.map_map]
    rfl
  rw [rowRids_map htarget, (hchosen.map _).mem_iff, hrids]
  simp [and_assoc]

/-- Scanning a cluster of the target succeeds and gives records only, and each of them can be
evaluated. No cluster fails, as the query is `Env.Unhindered`. -/
theorem exists_items_of_cluster (hsound : env.store.Sound)
    (htarget : query.target = .ofClass className polymorphic)
    (hunhindered : env.Unhindered query context signals)
    (hdecided : query.Decided env context.vars) {plan : Plan}
    (hplan : env.plan query context = .ok plan) {id : ClusterId}
    (hid : id ∈ env.store.schema.targetClusters className polymorphic) :
    ∃ items, env.store.scanCluster id query.scanDirection
        (ridRangeOf (query.plannedFilter env.options)) = .ok items ∧
      (Evaluator.ofPlan env.store context.vars query plan).Reads items := by
  obtain ⟨items, hok⟩ := hsound.exists_scannedCluster (hsound.cluster_of_targetClusters hid)
    query.scanDirection (ridRangeOf (query.plannedFilter env.options))
  refine ⟨items, hok, fun item hitem => ?_⟩
  -- the scan is whole, so no item is a failure
  have hwhole := Store.scannedCluster_whole hok (by simp [hunhindered.scans])
  obtain ⟨r, -, rfl⟩ := List.mem_map.mp (hwhole ▸ hitem)
  obtain ⟨hlive, -⟩ := hsound.mem_of_scannedCluster hok hitem
  obtain ⟨lets, hlets⟩ := (qualify_of_plan htarget hdecided hplan hlive).1
  exact ⟨r, lets, rfl, hlets⟩

/-! ## What a query comes to

`Env.Comes` is what any execution comes to, serial or parallel. From here on nothing depends on the
schedule any more. -/

/-- Whatever a query for the records of a class comes to, it succeeds and drains the source of its
plan. Nobody cancels it, `Env.Unhindered`, and no record fails it, `SelectQuery.Decided`. -/
theorem drains_of_comes (hsound : env.store.Sound)
    (htarget : query.target = .ofClass className polymorphic)
    (hunhindered : env.Unhindered query context signals)
    (hdecided : query.Decided env context.vars) {plan : Plan}
    (hplan : env.plan query context = .ok plan) {source : Source}
    (hsource : plan.source = .rows source) {stream : Stream} {ordered : Bool}
    (hopened : plan.opened env.store query source = .ok (stream, ordered))
    {result : Except Failure Outcome} {run : Run}
    (hcomes : env.Comes query context signals result run) :
    (∃ outcome, result = .ok outcome) ∧
      env.Drains query context.vars plan source stream run.rows := by
  obtain ⟨-, hclass, hscanOnly⟩ := plan_ofClass htarget hplan
  refine hcomes.drains hunhindered hplan (fun hparallel => ?_)
    ⟨fun rid r hr => (hsound.load_eq_some_iff.mp hr).2, hsource, hopened,
      hsound.records_of_plan hunhindered.scans hopened, fun r hr => (qualify_of_plan htarget hdecided
        hplan (hsound.live_of_classPlan hclass hsource hopened hr)).1, ?_⟩
  · obtain ⟨-, -, scan, hscan⟩ := hscanOnly hparallel
    cases hsource.symm.trans hscan
    exact ⟨scan, rfl⟩
  · -- a plan for a class scans the clusters of the class, and none of these scans fails
    rintro scan rfl id hid
    obtain rfl := hclass.scan_eq hsource
    exact exists_items_of_cluster hsound htarget hunhindered hdecided hplan hid

/-- The rows of records that were transferred from a stream are those of the records that it gives
and that qualify. `chosen` are the items in the order in which they were delivered. -/
theorem mem_rids_of_transfer (hsound : env.store.Sound)
    (htarget : query.target = .ofClass className polymorphic)
    (hdecided : query.Decided env context.vars) {plan : Plan}
    (hplan : env.plan query context = .ok plan) {source : Source}
    (hsource : plan.source = .rows source) {stream : Stream} {ordered : Bool}
    (hopened : plan.opened env.store query source = .ok (stream, ordered)) {seen : List Rid}
    {out : List Record}
    (htransfer : Transfer env.store.load stream.contents [] out .empty seen)
    {chosen : List WorkItem}
    (hchosen : chosen.Perm
      (out.filterMap (Evaluator.ofPlan env.store context.vars query plan).item?)) (rid : Rid) :
    rid ∈ rowRids (chosen.map ((env.setup query plan.orderSatisfied).row
        (.ofPlan env.store context.vars query plan))) ↔
      ∃ r, Qualifies env.store context.vars query className polymorphic r ∧
        stream.contents.Gives env.store.load r ∧ r.rid = rid := by
  obtain ⟨-, hclass, -⟩ := plan_ofClass htarget hplan
  have hlive : ∀ r, stream.contents.Gives env.store.load r → env.store.Live r :=
    fun _ hr => hsound.live_of_classPlan hclass hsource hopened hr
  have hscan : ∀ r, stream.contents.Gives env.store.load r → ∀ scan, source = .scan scan →
      r.rid.cluster ∈ scan.clusters := by
    rintro r hgives scan rfl
    exact hsound.cluster_of_opened_scan hopened hgives
  rw [mem_rowRids_iff htarget hchosen]
  constructor
  · rintro ⟨r, hr, haccepted, hrid⟩
    have hgives := htransfer.gives (.inl hr)
    exact ⟨r, (accepts_of_plan hsound htarget hdecided hplan hsource (hlive r hgives)
      (hscan r hgives)).mp haccepted, hgives, hrid⟩
  · rintro ⟨r, hqualifies, hgives, rfl⟩
    refine ⟨r, ?_, (accepts_of_plan hsound htarget hdecided hplan hsource hqualifies.live
      (hscan r hgives)).mpr hqualifies, rfl⟩
    -- the stream has been drained, so what it gives has been drawn
    rcases hgives with hr | hr | ⟨hlooked, hload⟩
    · rw [(Plan.opened_isFresh hopened).2.1] at hr
      cases hr
    · obtain ⟨s, hs, heq⟩ := htransfer.mem_of_scanned hr
      cases heq
      exact hs
    · exact htransfer.mem_of_looked hlooked hload (by simp)

/-- The rows of records in the clusters of a scan are those of the records that qualify. This is the
parallel case of `Env.Drains`, where workers share the clusters out. -/
theorem mem_rids_of_clusters (hsound : env.store.Sound)
    (htarget : query.target = .ofClass className polymorphic)
    (hunhindered : env.Unhindered query context signals)
    (hdecided : query.Decided env context.vars) {plan : Plan}
    (hplan : env.plan query context = .ok plan) {scan : ScanPlan}
    (hsource : plan.source = .rows (.scan scan)) {chosen : List WorkItem}
    (hchosen : chosen.Perm
      ((Evaluator.ofPlan env.store context.vars query plan).qualifyingIn scan)) (rid : Rid) :
    rid ∈ rowRids (chosen.map ((env.setup query plan.orderSatisfied).row
        (.ofPlan env.store context.vars query plan))) ↔
      ∃ r, Qualifies env.store context.vars query className polymorphic r ∧ r.rid = rid := by
  obtain ⟨-, hclass, -⟩ := plan_ofClass htarget hplan
  obtain rfl := hclass.scan_eq hsource
  have hreads := fun id hid =>
    @exists_items_of_cluster env query context signals className polymorphic hsound htarget
      hunhindered hdecided plan hplan id hid
  unfold Evaluator.qualifyingIn Evaluator.qualifying at hchosen
  rw [← List.filterMap_flatMap] at hchosen
  rw [mem_rowRids_iff htarget hchosen]
  simp only [List.mem_flatMap, Store.mem_scannedRecords]
  constructor
  · -- what a scan of a cluster gives is a live record in the cluster
    rintro ⟨r, ⟨id, hid, hr⟩, haccepted, hrid⟩
    obtain ⟨items, hscanned, -⟩ := hreads id hid
    obtain ⟨hlive, hcid, -⟩ := hsound.mem_of_scannedCluster hscanned (r := r) (by
      simpa [Evaluator.ofPlan, SelectQuery.classScan, hscanned, Except.toOption] using hr)
    refine ⟨r, (accepts_of_plan hsound htarget hdecided hplan hsource hlive ?_).mp haccepted, hrid⟩
    rintro - ⟨⟩
    rw [hcid]
    exact hid
  · -- a qualifying record lies in a cluster of its class, and the scan of that cluster meets it
    rintro ⟨r, hqualifies, rfl⟩
    have hcluster : r.rid.cluster ∈ env.store.schema.targetClusters className polymorphic :=
      (hsound.mem_targetClusters_iff hqualifies.live).mpr
        (hsound.accepts_iff.mpr hqualifies.ofClass)
    obtain ⟨items, hscanned, -⟩ := hreads _ hcluster
    have hmem : .ok r ∈ items := by
      rw [Store.scannedCluster_whole hscanned (by simp [hunhindered.scans])]
      exact List.mem_map_of_mem
        (hsound.mem_recordsOf.mpr ⟨hqualifies.live, rfl, hqualifies.contains hdecided⟩)
    refine ⟨r, ⟨r.rid.cluster, hcluster, ?_⟩, (accepts_of_plan hsound htarget hdecided hplan hsource
      hqualifies.live (by rintro - ⟨⟩; exact hcluster)).mpr hqualifies, rfl⟩
    simpa [Evaluator.ofPlan, SelectQuery.classScan, hscanned, Except.toOption] using hmem

/-- A query for the records of a declared class succeeds where its filter has a value on every live
record. It delivers records that qualify, and all of those that the lookups of its plan give if they
have to, `found`. The two halves are apart on purpose: `hlooks` is needed for the second only. -/
theorem found_of_comes (hsound : env.store.Sound) (hall : env.store.HoldsAll)
    (htarget : query.target = .ofClass className polymorphic)
    (hvalid : query.validate = .ok ⟨⟩)
    (hdeclared : env.store.schema.declares className = true)
    (hunhindered : env.Unhindered query context signals)
    (hdecided : query.Decided env context.vars) {found : Record → Prop}
    (hlooks : ∀ planned, query.plannedFilter env.options = some planned → ∀ r,
      Qualifies env.store context.vars query className polymorphic r → found r →
        env.store.LooksUp context.vars className planned query r)
    {result : Except Failure Outcome} {run : Run}
    (hcomes : env.Comes query context signals result run) :
    (∃ outcome, result = .ok outcome) ∧
      (∀ rid ∈ rowRids run.rows,
        ∃ r, Qualifies env.store context.vars query className polymorphic r ∧ r.rid = rid) ∧
      ∀ r, Qualifies env.store context.vars query className polymorphic r → found r →
        r.rid ∈ rowRids run.rows := by
  obtain ⟨plan, source, hplan, hsource⟩ :=
    exists_plan hsound htarget hvalid hunhindered.whole.grouping hdeclared
  obtain ⟨-, hclass, -⟩ := plan_ofClass htarget hplan
  obtain ⟨stream, ordered, hopened⟩ := hsound.exists_opened hclass hsource
  obtain ⟨hok, chosen, hrows, hdrains⟩ :=
    drains_of_comes hsound htarget hunhindered hdecided hplan hsource hopened hcomes
  rw [hrows]
  rcases hdrains with ⟨seen, out, htransfer, hchosen⟩ | ⟨-, scan, rfl, hchosen⟩
  · have hrids := mem_rids_of_transfer hsound htarget hdecided hplan hsource hopened htransfer hchosen
    refine ⟨hok, fun rid hrid => ?_, fun r hqualifies hfound => ?_⟩
    · obtain ⟨r, hqualifies, -, hrid⟩ := (hrids rid).mp hrid
      exact ⟨r, hqualifies, hrid⟩
    · refine (hrids r.rid).mpr ⟨r, hqualifies, ?_, rfl⟩
      -- the plan opens what gives the record: a scan of its cluster, or lookups that have to find it
      exact hsound.gives_of_classPlan hunhindered.scans hall hqualifies.live hdeclared
        (hsound.accepts_iff.mpr hqualifies.ofClass) (hqualifies.contains hdecided)
        (fun planned hplanned => hlooks planned hplanned r hqualifies hfound) hclass hsource hopened
  · -- a scan of all clusters gives every record, found by lookups or not
    have hrids := mem_rids_of_clusters hsound htarget hunhindered hdecided hplan hsource hchosen
    exact ⟨hok, fun rid => (hrids rid).mp,
      fun r hqualifies _ => (hrids r.rid).mpr ⟨r, hqualifies, rfl⟩⟩

/-- A query with lookups for its class delivers the records that qualify among those that the
lookups give. Here the lookups, `hselect`, and the identities that they read, `hread`, are known, so
nothing has to be assumed about what they find. -/
theorem looked_of_comes (hsound : env.store.Sound)
    (htarget : query.target = .ofClass className polymorphic)
    (hvalid : query.validate = .ok ⟨⟩)
    (hdeclared : env.store.schema.declares className = true)
    (hunhindered : env.Unhindered query context signals)
    (hdecided : query.Decided env context.vars) {planned : Condition}
    (hplanned : query.plannedFilter env.options = some planned) {selection : Selection}
    (hselect : env.store.selectLookups? context.vars className planned query = some selection)
    {rids : List Rid} {sorted : Bool}
    (hread : readBranches selection.branches = .ok (rids, sorted))
    {result : Except Failure Outcome} {run : Run}
    (hcomes : env.Comes query context signals result run) (rid : Rid) :
    rid ∈ rowRids run.rows ↔
      rid ∈ rids ∧ ∃ r, Qualifies env.store context.vars query className polymorphic r ∧
        r.rid = rid := by
  obtain ⟨plan, source, hplan, hsource⟩ :=
    exists_plan hsound htarget hvalid hunhindered.whole.grouping hdeclared
  cases hsource.symm.trans (source_of_selection htarget hplan hplanned hselect)
  obtain ⟨-, hclass, -⟩ := plan_ofClass htarget hplan
  obtain ⟨stream, ordered, hopened⟩ := hsound.exists_opened hclass hsource
  obtain ⟨-, chosen, hrows, hdrains⟩ :=
    drains_of_comes hsound htarget hunhindered hdecided hplan hsource hopened hcomes
  -- lookups are no scan, so that the rows come off the stream
  obtain ⟨seen, out, htransfer, hchosen⟩ :=
    hdrains.resolve_right fun ⟨_, _, hscan, _⟩ => by cases hscan
  -- what can be read is not scanned for instead
  obtain rfl : stream = .lookup rids := by
    rcases Plan.opened_cases hopened with ⟨_, hstream, -⟩ | ⟨_, _, _, hunavailable, -⟩
    · obtain ⟨found, _, hfound, rfl, -⟩ := Store.opened_union hstream
      cases hread.symm.trans hfound
      rfl
    · unfold Source.opened at hunavailable
      rw [hread] at hunavailable
      cases hunavailable
  rw [hrows, mem_rids_of_transfer hsound htarget hdecided hplan hsource hopened htransfer hchosen]
  constructor
  · rintro ⟨r, hqualifies, hgives, rfl⟩
    refine ⟨?_, r, hqualifies, rfl⟩
    rcases hgives with hr | hr | ⟨hlooked, -⟩
    · cases hr
    · cases hr
    · exact hlooked
  · rintro ⟨hrid, r, hqualifies, rfl⟩
    exact ⟨r, hqualifies, .inr (.inr ⟨hrid, hsound.load_eq_some_iff.mpr ⟨hqualifies.live, rfl⟩⟩), rfl⟩

/-! ## Queries that collect their rows

`Env.Collects` puts three things together: `collect` delivers good rows, so does every execution
with a collecting sink, and all of them succeed. -/

/-- The query succeeds and delivers rows that are `good`, whatever the schedule: `collect` does, and
so does every execution of the query where the context has no token that others could raise. The
results on what a query delivers are stated with it, so that they cover the plans with parallel
scans in all interleavings. -/
def Env.Collects (env : Env) (query : SelectQuery) (context : Context) (signals : Signals)
    (good : List Row → Prop) : Prop :=
  (∃ rows, (collect env query context signals).1 = .ok rows ∧ good rows) ∧
    (context.token = none → ∀ result run,
      Executes { env with sink := .collecting } query context signals result run →
        (∃ outcome, result = .ok outcome) ∧ good run.rows)

/-- The rows collected are those of what the query comes to, so what holds of `Env.Comes` with a
collecting sink gives `Env.Collects`. -/
theorem Env.Collects.of_comes {good : List Row → Prop}
    (h : ∀ result run, { env with sink := .collecting : Env }.Comes query context signals result run →
      (∃ outcome, result = .ok outcome) ∧ good run.rows) :
    env.Collects query context signals good := by
  refine ⟨?_, fun htoken result run hexecutes => h result run (.inr ⟨htoken, hexecutes⟩)⟩
  obtain ⟨⟨outcome, hok⟩, hgood⟩ := h _ _ (.inl rfl)
  exact ⟨_, congrArg (Except.map _) hok, hgood⟩

/-- A filter that is `Decided` is so whatever the sink. -/
theorem SelectQuery.Decided.collecting {vars : Fields} (h : query.Decided env vars) :
    query.Decided { env with sink := .collecting } vars :=
  ⟨h.dotFree, h.evaluates⟩

/-- A query that is `Plain` passes `validate`. -/
theorem SelectQuery.Plain.validate (h : query.Plain className polymorphic) :
    query.validate = .ok ⟨⟩ := by
  simp [SelectQuery.validate, h.limit, h.skip, h.expand]

/-- Nothing but the filter and the class decides what a query for whole records of a declared class
delivers: it succeeds, and the identities are those of the `Answers`, if the lookups that its plan
could make give those that they have to, `hlooks`. -/
theorem collects_answers (hsound : env.store.Sound)
    (hmirrors : ∀ index ∈ env.store.indexes, index.Mirrors env.store)
    (hexact : ∀ r, env.store.Live r → r.isExact = true)
    (hquery : query.Plain className polymorphic)
    (hdeclared : env.store.schema.declares className = true)
    (hunhindered : { env with sink := .collecting : Env }.Unhindered query context signals)
    (hdecided : query.Decided env context.vars)
    (hlooks : ∀ planned, query.plannedFilter env.options = some planned → ∀ r,
      Answers env.store context.vars query className polymorphic r →
        env.store.LooksUp context.vars className planned query r) :
    env.Collects query context signals fun rows => ∀ rid, rid ∈ rowRids rows ↔
      ∃ r, Answers env.store context.vars query className polymorphic r ∧ r.rid = rid := by
  -- without LET a record qualifies exactly if it is an answer
  have hanswers {r : Record} := @qualifies_iff_answers env.store context.vars query className
    polymorphic hquery.lets r
  refine .of_comes fun result run hcomes => ?_
  obtain ⟨hok, hsub, hall⟩ := @found_of_comes { env with sink := .collecting } query context signals
    className polymorphic hsound (hsound.holdsAll_of_mirrors hmirrors hexact) hquery.target
    hquery.validate hdeclared hunhindered hdecided.collecting (fun _ => True)
    (fun planned hplanned r hr _ => hlooks planned hplanned r (hanswers.mp hr)) result run hcomes
  refine ⟨hok, fun rid => ⟨fun hrid => ?_, ?_⟩⟩
  · obtain ⟨r, hr, hrid⟩ := hsub rid hrid
    exact ⟨r, hanswers.mp hr, hrid⟩
  · rintro ⟨r, hr, rfl⟩
    exact hall r (hanswers.mpr hr) trivial

end

end RecordQuery
