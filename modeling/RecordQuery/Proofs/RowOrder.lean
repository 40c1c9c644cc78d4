import RecordQuery.Proofs.Feeding
import RecordQuery.Proofs.OrderedLookups

/-!
# `RecordQuery.Proofs.RowOrder`: rows come in the order asked for

A plan says whether its source gives the order asked for. Opening it may turn out otherwise: an
index cannot be read, and another candidate or the scan takes its place. The run then sorts. So
whenever a run does not sort, what was opened is a lookup, a walk, a scan or a merge in order.

`Store.OpenedInOrder` has these four as its constructors, and `openedInOrder_of_classPlan` is the
one place where plans and their openings are taken apart. The two results on what is opened, that it
ascends and that an index serves it, are proved by cases on it.

`Arranged` is what a run comes to, for whole records as well as for columns. Its fields `streams`
and `sorts` are the two ways to the order. They differ in what they compare: an index has the fields
of the records, and the sort has the columns of the rows. For whole records these are the same,
which is `runQuery_ordered`. For columns they may not be (`ColumnOrder`).

Rows may have been delivered when a query fails or is cut short, so the results are about the rows
of a run and not about its outcome. Plans with workers do not come in, as they serve no ORDER BY.

The theorems:

* `Store.openedInOrder_of_classPlan`: what a plan for a class opens as ordered.
* `Store.Sound.ascends_of_classPlan`: it gives its records in order.
* `Store.Sound.serves_of_classPlan`: an index on the names of ORDER BY gives that order, unless
  these are `@rid` alone.
* `SelectQuery.Arranges.runQuery_arranged`: the rows of a query for records or columns of a class
  are in the order of what was opened, or sorted.
* `runQuery_ordered`: the rows of a query for whole records of a class are in the order asked for,
  whatever the source and whichever indexes fail, as long as no IN of its filter chooses among
  floating-point numbers.
* `rows_of_closeChoices`: with such an IN an index gives rows out of order.
-/

set_option autoImplicit false

namespace RecordQuery

/-- The query asks for records of the class `className` in an order, whole ones or some columns of
each. LET, LIMIT, SKIP and the filter are free. -/
structure SelectQuery.Arranges (query : SelectQuery) (className : String) (polymorphic : Bool) :
    Prop where
  /-- The target is the class, with its subclasses or without. -/
  target : query.target = .ofClass className polymorphic
  /-- There is no GROUP BY, and no column is an aggregate. -/
  grouping : query.isGrouping = false
  /-- There is no EXPAND. -/
  expand : query.expand = none
  /-- There is no UNWIND. -/
  unwind : query.unwind = []
  /-- There is an ORDER BY. -/
  orderBy : query.orderBy ≠ []

/-- The query asks for whole records of a class in an order: it `Arranges` them and has no
columns. -/
structure SelectQuery.Ranks (query : SelectQuery) (className : String) (polymorphic : Bool) :
    Prop where
  /-- The target is the class, with its subclasses or without. -/
  target : query.target = .ofClass className polymorphic
  /-- There are no columns. -/
  projections : query.projections = []
  /-- There is no GROUP BY. -/
  groupBy : query.groupBy = []
  /-- There is no EXPAND. -/
  expand : query.expand = none
  /-- There is no UNWIND. -/
  unwind : query.unwind = []
  /-- There is an ORDER BY. -/
  orderBy : query.orderBy ≠ []

/-- A query that `Ranks` whole records `Arranges` records, with no columns. -/
theorem SelectQuery.Ranks.arranges {query : SelectQuery} {className : String} {polymorphic : Bool}
    (h : query.Ranks className polymorphic) : query.Arranges className polymorphic where
  target := h.target
  grouping := by
    simp [SelectQuery.isGrouping, SelectQuery.hasAggregates, h.groupBy, h.projections]
  expand := h.expand
  unwind := h.unwind
  orderBy := h.orderBy

namespace Store

section

variable {store : Store} {query : SelectQuery} {vars : Fields}

/-! ## Scans

A scan reads clusters upwards or downwards, and so it is in the order of the identities. -/

/-- A scan in the direction of ORDER BY on identities alone gives its records in order:
`scanDirection` turns it around for DESC. -/
theorem Sound.ascends_of_scan (hsound : store.Sound) (hrid : query.isRidOnlySort = true)
    {ids : List ClusterId} {range : RidRange} {items : List ScanItem}
    (hitems : store.scanClusters ids query.scanDirection range = .ok items) :
    Stream.Ascends query.orderBy store.load (.scan items true) := by
  -- such a query has one item, and its key on a record is the link to that record
  obtain ⟨item, horder, hshort, hfield⟩ : ∃ item, query.orderBy = [item] ∧
      item.field.hops = [] ∧ item.field.first = ridAttribute := by
    unfold SelectQuery.isRidOnlySort at hrid
    split at hrid
    next item horder =>
      refine ⟨item, horder, ?_⟩
      simpa [FieldChain.isLong] using hrid
    · cases hrid
  have hkey (r : Record) : orderKey query.orderBy store.load r = [.link r.rid] := by
    rw [horder]
    simp [orderKey, FieldChain.resolve, hshort, hfield, Record.get]
  refine (hsound.scan_rids hitems).imp fun {r s} hfollows => ?_
  unfold Precedes
  rw [hkey r, hkey s, horder, compareKeys_cons]
  obtain ⟨field, direction⟩ := item
  unfold SelectQuery.scanDirection at hfollows
  rw [hrid, horder] at hfollows
  refine isLE_then_iff.mpr (.inl ?_)
  -- a scan downwards turns the order of the identities around, as does the item
  cases direction with
  | asc => exact hfollows
  | desc =>
      show (Rid.compare r.rid s.rid).swap = .lt
      rw [← Rid.totalOn.swap trivial trivial]
      exact hfollows

/-! ## Lookups and fan-outs

What holds of the parts of a fan-out is shown in one induction over the class tree, for any property
that a merge of ordered parts has too. -/

section

variable {condition : Condition}

/-- What holds of lookups that are opened as sorted, and of what is below the subclasses, holds of
the parts of a fan-out for some subclasses, where they are planned and opened as sorted. This is the
step of `forall_of_fanOut`, over the list of subclasses. -/
theorem forall_of_fansBelow {P : Stream → Prop}
    (hlookups : ∀ sub selection stream,
      store.selectLookups? vars sub condition query = some selection →
      (Source.union selection.branches).opened store true = .ok (.stream stream true) → P stream)
    {below : String → Option FanOut}
    (hbelow : ∀ sub inner streams, below sub = some (inner, true) →
      Source.openedParts store true inner = .ok (.ok (streams, true)) →
      P (.merge streams none true))
    {subs : List String} {fan : FanOut}
    (hfan : FansBelow store vars condition query below subs fan) (hplanned : fan.2 = true)
    {streams : List Stream}
    (hopened : Source.openedParts store true fan.1 = .ok (.ok (streams, true))) :
    ∀ stream ∈ streams, P stream := by
  induction hfan generalizing streams with
  | nil =>
      cases hopened
      simp
  -- a part in front is sorted as planned and as opened, and so are the others behind it
  | @lookups sub subs selection parts sorted hselect _ ih =>
      obtain ⟨stream, first, others, rest, hfirst, hothers, rfl, hsorted⟩ := openedParts_cons hopened
      obtain ⟨rfl, rfl⟩ := (Bool.and_eq_true _ _).mp hsorted.symm
      obtain ⟨-, hplanned⟩ := (Bool.and_eq_true _ _).mp hplanned
      exact List.forall_mem_cons.mpr
        ⟨hlookups sub selection stream hselect hfirst, ih hplanned hothers⟩
  | @nested sub subs inner parts innerSorted sorted hinner _ ih =>
      obtain ⟨stream, first, others, rest, hfirst, hothers, rfl, hsorted⟩ := openedParts_cons hopened
      obtain ⟨rfl, rfl⟩ := (Bool.and_eq_true _ _).mp hsorted.symm
      obtain ⟨rfl, hplanned⟩ := (Bool.and_eq_true _ _).mp hplanned
      obtain ⟨innerStreams, hinnerOpened, rfl⟩ := opened_fanOut hfirst
      exact List.forall_mem_cons.mpr
        ⟨hbelow sub inner innerStreams hinner hinnerOpened, ih hplanned hothers⟩
  | @hollow sub subs parts sorted _ _ _ ih => exact ih hplanned hopened

/-- What holds of lookups that are opened as sorted, and of a merge of what it holds of, holds of
the parts of a fan-out that is planned and opened as sorted. Such a fan-out has no scan among its
parts. The induction is on `steps`, the depth to which subclasses are looked at. -/
theorem forall_of_fanOut {P : Stream → Prop}
    (hlookups : ∀ sub selection stream,
      store.selectLookups? vars sub condition query = some selection →
      (Source.union selection.branches).opened store true = .ok (.stream stream true) → P stream)
    (hmerge : ∀ streams : List Stream, (∀ stream ∈ streams, P stream) →
      P (.merge streams none true))
    {range : RidRange} {steps : Nat} {className : String} {fan : FanOut}
    (hfan : store.fanOutWithin vars condition query range steps className = some fan)
    (hplanned : fan.2 = true) {streams : List Stream}
    (hopened : Source.openedParts store true fan.1 = .ok (.ok (streams, true))) :
    ∀ stream ∈ streams, P stream := by
  induction steps generalizing className fan streams with
  | zero => cases hfan
  | succ steps ih =>
      obtain ⟨parts, sorted, hparts, hcases⟩ := fanOutWithin_succ hfan
      -- with a scan among its parts the fan-out would not be planned as sorted
      rcases hcases with ⟨-, rfl⟩ | ⟨-, rfl⟩
      · obtain ⟨-, hplanned⟩ := (Bool.and_eq_true _ _).mp hplanned
        refine forall_of_fansBelow hlookups ?_ hparts hplanned hopened
        intro sub inner innerStreams hinner hinnerOpened
        exact hmerge innerStreams (ih hinner rfl hinnerOpened)
      · cases hplanned

/-- Lookups that are opened as sorted are one lookup, the one of a candidate that is marked as
`sorted`. The candidates before it may have failed, so it need not be the first one. -/
theorem sorted_of_union {className : String} {selection : Selection}
    (hselect : store.selectLookups? vars className condition query = some selection)
    {merges : Bool} {stream : Stream}
    (hopened : (Source.union selection.branches).opened store merges = .ok (.stream stream true)) :
    ∃ searches ∈ store.searchBranches vars className condition, ∃ onlyBranch,
      ∃ candidate ∈ store.branchFor className query onlyBranch searches, ∃ entries,
        candidate.sorted = true ∧
        candidate.index.lookup candidate.lookup candidate.ascending = .ok entries ∧
        stream = .lookup (entries.map (·.rid)) := by
  obtain ⟨rids, ordered, hread, rfl, hsorted⟩ := opened_union hopened
  obtain ⟨hone, rfl⟩ := (Bool.and_eq_true _ _).mp hsorted.symm
  -- several lookups are never in order, so there is a single branch
  obtain ⟨branch, hbranches⟩ := List.length_eq_one_iff.mp (eq_of_beq hone)
  rw [hbranches] at hread
  obtain ⟨candidate, hcandidate, entries, others, rest, hlookup, hothers, rfl, hsorted⟩ :=
    readBranches_cons hread
  cases hothers
  rw [Bool.and_true] at hsorted
  have hbranch : branch ∈ selection.branches := hbranches ▸ List.mem_singleton.mpr rfl
  rw [(selectLookups?_some hselect).1] at hbranch
  obtain ⟨searches, hsearches, rfl⟩ := List.mem_map.mp hbranch
  rw [List.append_nil]
  exact ⟨searches, hsearches, _, candidate, hcandidate, entries, hsorted.symm, hlookup, rfl⟩

end

/-! ## What is opened in order

The mark that a source is sorted is set in a few places only. `OpenedInOrder` lists them, and each
is shown to give records in order. -/

/-- What the plan of a class target opens as ordered: sorted lookups, a merge of them, a walk, or a
scan in the direction asked for. The constructors keep what planning knew of each, as `ClassPlan`
does. -/
inductive OpenedInOrder (store : Store) (vars : Fields) (className : String)
    (filter : Option Condition) (query : SelectQuery) : Stream → Prop
  /-- Lookups in the class. -/
  | lookups (condition : Condition) (selection : Selection) (stream : Stream)
      (hfilter : filter = some condition)
      (hselect : store.selectLookups? vars className condition query = some selection)
      (hunion : (Source.union selection.branches).opened store true =
        .ok (.stream stream true)) :
      OpenedInOrder store vars className filter query stream
  /-- A merge of what is looked up in the subclasses. -/
  | fanOut (condition : Condition) (parts : List Source) (streams : List Stream)
      (hfilter : filter = some condition)
      (hfan : store.fanOut? vars className condition query (ridRangeOf filter) =
        some (parts, true))
      (hparts : Source.openedParts store true parts = .ok (.ok (streams, true))) :
      OpenedInOrder store vars className filter query (.merge streams none true)
  /-- A walk over an index. -/
  | walk (index : Index) (ascending : Bool) (entries : List IndexEntry)
      (hindex : store.sortIndex? className query = some (index, ascending))
      (hentries : index.orderedWalk ascending (!index.definition.ignoreNulls) = .ok entries) :
      OpenedInOrder store vars className filter query (.lookup (entries.map (·.rid)))
  /-- A scan. -/
  | scan (ids : List ClusterId) (range : RidRange) (items : List ScanItem)
      (hrid : query.isRidOnlySort = true)
      (hitems : store.scanClusters ids query.scanDirection range = .ok items) :
      OpenedInOrder store vars className filter query (.scan items true)

/-- The plan of a class target opens nothing as ordered but what is `OpenedInOrder`. A source that
falls back to its scan is ordered only where the scan is. -/
theorem openedInOrder_of_classPlan {className : String} {polymorphic : Bool}
    {filter : Option Condition} (horder : query.orderBy ≠ []) {plan : Plan}
    (hplan : ClassPlan store vars className polymorphic filter query plan) {source : Source}
    (hsource : plan.source = .rows source) {stream : Stream}
    (hopened : plan.opened store query source = .ok (stream, true)) :
    OpenedInOrder store vars className filter query stream := by
  have hnonempty : query.orderBy.isEmpty = false := by simpa using horder
  -- a scan that is fallen back to does not count as ordered
  rcases Plan.opened_cases hopened with ⟨sorted, hopened, hordered⟩ | ⟨_, _, _, -, -, -, -, hordered⟩
  · obtain ⟨hsatisfied, hsorted⟩ := (Bool.and_eq_true _ _).mp hordered.symm
    rw [hsatisfied, hnonempty] at hopened
    cases hplan with
    | count column hcolumn hcount hunchecked => cases hcount.symm.trans hsource
    | lookups condition selection hfilter hselect hreads =>
        cases hreads.source.symm.trans hsource
        have hfully : selection.fullySorted = true := by
          simpa [hnonempty] using hreads.orderSatisfied.symm.trans hsatisfied
        rw [hreads.fullySorted, hfully, Bool.not_true, Bool.or_false] at hsorted
        exact .lookups condition selection stream hfilter hselect (hsorted ▸ hopened)
    | fanOut condition parts sortedParts hpolymorphic hfilter hfan hreads =>
        cases hreads.source.symm.trans hsource
        have hparts : sortedParts = true := by
          simpa [hnonempty] using hreads.orderSatisfied.symm.trans hsatisfied
        rw [hreads.fullySorted, hparts, hnonempty, Bool.not_false, Bool.and_self, Bool.not_true,
          Bool.or_false] at hsorted
        obtain ⟨streams, hstreams, rfl⟩ := opened_fanOut (hsorted ▸ hopened)
        exact .fanOut condition parts streams hfilter (hparts ▸ hfan) hstreams
    | walk index ascending hindex hreads =>
        cases hreads.source.symm.trans hsource
        obtain ⟨entries, hentries, rfl, -⟩ := opened_walk hopened
        exact .walk index ascending entries hindex hentries
    | scan hreads =>
        cases hreads.source.symm.trans hsource
        obtain ⟨items, hitems, rfl, -⟩ := opened_scan hopened
        have hrid : query.isRidOnlySort = true := by
          simpa [SelectQuery.scanSatisfiesOrder, hnonempty] using
            hreads.orderSatisfied.symm.trans hsatisfied
        exact .scan _ _ items hrid hitems
  · rw [hnonempty] at hordered
    cases hordered

/-- What is opened as ordered gives its records in the order asked for. `hchoices` is needed for the
lookups, `hsingle` for all indexes. -/
theorem Sound.ascends_of_classPlan (hsound : store.Sound)
    (hsingle : ∀ r, store.Live r → Fields.AreSingle r.fields)
    (hmirrors : ∀ index ∈ store.indexes, index.Mirrors store) {className : String}
    {polymorphic : Bool} {filter : Option Condition}
    (hchoices : ∀ condition, filter = some condition → condition.ChoosesExactly vars)
    (horder : query.orderBy ≠ []) {plan : Plan}
    (hplan : ClassPlan store vars className polymorphic filter query plan) {source : Source}
    (hsource : plan.source = .rows source) {stream : Stream}
    (hopened : plan.opened store query source = .ok (stream, true)) :
    Stream.Ascends query.orderBy store.load stream := by
  -- lookups are in order in the class itself and in any subclass alike
  have hlookups (condition : Condition) (hfilter : filter = some condition) (sub : String)
      (selection : Selection) (stream : Stream)
      (hselect : store.selectLookups? vars sub condition query = some selection)
      (hopened : (Source.union selection.branches).opened store true =
        .ok (.stream stream true)) :
      Stream.Ascends query.orderBy store.load stream := by
    obtain ⟨searches, hsearches, _, candidate, hcandidate, entries, hsorted, hlookup, rfl⟩ :=
      sorted_of_union hselect hopened
    exact hsound.ascends_of_candidate hsingle hmirrors
      ((hchoices condition hfilter).searches store sub _ hsearches) hcandidate hsorted hlookup
  cases openedInOrder_of_classPlan horder hplan hsource hopened with
  | lookups condition selection _ hfilter hselect hunion =>
      exact hlookups condition hfilter className selection _ hselect hunion
  | fanOut condition parts streams hfilter hfan hparts =>
      exact Stream.allAscend_iff.mpr (forall_of_fanOut (hlookups condition hfilter)
        (fun _ => Stream.allAscend_iff.mpr) hfan rfl hparts)
  | walk index ascending entries hindex hentries =>
      exact hsound.ascends_of_walk hsingle hmirrors hindex hentries
  | scan ids range items hrid hitems => exact hsound.ascends_of_scan hrid hitems

/-- Some index is ordered by ORDER BY: it starts with fields of these names, in one direction,
`Orders`. -/
def Serves (store : Store) (order : List OrderItem) : Prop :=
  ∃ index ∈ store.indexes, ∃ direction, index.definition.Orders order direction

/-- If what is opened as ordered gives a record at all, an index is ordered by ORDER BY, or it is a
scan for an ORDER BY on identities alone. A merge without inputs gives none, so `hr` is needed. -/
theorem Sound.serves_of_classPlan (hsound : store.Sound) {className : String}
    {polymorphic : Bool} {filter : Option Condition}
    (horder : query.orderBy ≠ []) {plan : Plan}
    (hplan : ClassPlan store vars className polymorphic filter query plan) {source : Source}
    (hsource : plan.source = .rows source) {stream : Stream}
    (hopened : plan.opened store query source = .ok (stream, true)) {r : Record}
    (hr : stream.contents.Gives store.load r) :
    query.isRidOnlySort = true ∨ store.Serves query.orderBy := by
  have hlookups (condition : Condition) (sub : String) (selection : Selection) (stream : Stream)
      (hselect : store.selectLookups? vars sub condition query = some selection)
      (hopened : (Source.union selection.branches).opened store true =
        .ok (.stream stream true)) : store.Serves query.orderBy := by
    obtain ⟨_, -, _, candidate, hcandidate, _, hsorted, -⟩ := sorted_of_union hselect hopened
    obtain ⟨stored, hstored, -, direction, horders, -⟩ :=
      hsound.orders_of_candidate hcandidate hsorted
    exact ⟨stored, hstored, direction, horders⟩
  cases openedInOrder_of_classPlan horder hplan hsource hopened with
  | lookups condition selection _ hfilter hselect hunion =>
      exact .inr (hlookups condition className selection _ hselect hunion)
  | fanOut condition parts streams hfilter hfan hparts =>
      -- a fan-out without parts reads no index, but it gives no record either
      have hserves := forall_of_fanOut
        (P := fun stream => (∃ r, stream.contents.Gives store.load r) → store.Serves query.orderBy)
        (fun sub selection stream hselect hunion _ =>
          hlookups condition sub selection stream hselect hunion)
        (fun streams hstreams hgives => by
          obtain ⟨r, hr⟩ := hgives
          obtain ⟨stream, hstream, hr⟩ := Stream.exists_gives_of_all hr
          exact hstreams stream hstream ⟨r, hr⟩)
        hfan rfl hparts
      obtain ⟨stream, hstream, hr⟩ := Stream.exists_gives_of_all hr
      exact .inr (hserves stream hstream ⟨r, hr⟩)
  | walk index ascending entries hindex hentries =>
      obtain ⟨stored, hstored, -, -, direction, horders, -⟩ := hsound.orders_of_sortIndex hindex
      exact .inr ⟨stored, hstored, direction, horders⟩
  | scan ids range items hrid hitems => exact .inl hrid

end

end Store

/-! ## Runs

If the source is ordered, rows are delivered as they come, and otherwise the pipeline sorts them.
`Arranged` covers both. -/

section

variable {env : Env} {query : SelectQuery} {className : String} {polymorphic : Bool}

/-- For a query that `Ranks` records the row of a record is the whole record. -/
theorem SelectQuery.Ranks.row_eq (h : query.Ranks className polymorphic) (ordered : Bool)
    (evaluator : Evaluator) (item : WorkItem) :
    (env.setup query ordered).row evaluator item = Row.ofRecord item.record := by
  unfold PipelineSetup.row SelectQuery.project
  simp [Env.setup, h.target, h.projections, Row.ofRecord]

/-- A record is sorted by its `orderKey`, the values that ORDER BY names, as its row is the record
itself. -/
theorem SelectQuery.Ranks.sortKey_eq (h : query.Ranks className polymorphic) (ordered : Bool)
    (evaluator : Evaluator) (item : WorkItem) :
    (env.setup query ordered).sortKey env evaluator item =
      orderKey query.orderBy env.store.load item.record := by
  unfold PipelineSetup.sortKey SelectQuery.sortKey orderKey
  refine List.map_congr_left fun order _ => ?_
  simp [Env.setup, SelectQuery.sortValue, h.projections]

/-- The plan of a query for records in an order reads them one after the other: it runs `runSerial`,
as it counts nothing and workers serve no ORDER BY. -/
theorem SelectQuery.Arranges.run_eq (h : query.Arranges className polymorphic) {context : Context}
    {plan : Plan} (hplan : env.plan query context = .ok plan) :
    ∃ source, plan.source = .rows source ∧
      runPlan env query plan = runSerial env query plan source := by
  obtain ⟨-, hclass, hworkers⟩ := plan_ofClass h.target hplan
  have hserial : plan.parallel = false := by
    cases hparallel : plan.parallel with
    | false => rfl
    | true => exact absurd (hworkers hparallel).2.1 h.orderBy
  -- a count is planned for aggregates only, and the other plans of a class read records
  cases hsource : plan.source with
  | rows source =>
      refine ⟨source, rfl, ?_⟩
      unfold runPlan
      rw [hsource, hserial]
  | count clusters name =>
      cases hclass with
      | count column hcolumn _ _ =>
          cases (SelectQuery.countColumn?_of_not_isGrouping h.grouping).symm.trans hcolumn
      | lookups _ _ _ _ hreads => cases hreads.source.symm.trans hsource
      | fanOut _ _ _ _ _ _ hreads => cases hreads.source.symm.trans hsource
      | walk _ _ _ hreads => cases hreads.source.symm.trans hsource
      | scan hreads => cases hreads.source.symm.trans hsource

/-- What a query for records in an order delivers with a plan: rows of live records, in the order of
what was opened or sorted by their ORDER BY values. `ordered` says which of the two, and is decided
when the plan is opened. -/
structure Arranged (env : Env) (query : SelectQuery) (vars : Fields) (plan : Plan)
    (ordered : Bool) (chosen : List WorkItem) (rows : List Row) : Prop where
  /-- The rows are those of the chosen records. -/
  rows : rows = chosen.map ((env.setup query ordered).row (.ofPlan env.store vars query plan))
  /-- These are live. -/
  live : ∀ item ∈ chosen, env.store.Live item.record
  /-- They come with their LET bindings. -/
  lets : ∀ item ∈ chosen,
    item.lets = (Evaluator.ofPlan env.store vars query plan).bindings item.record
  /-- What was opened as ordered is in the order of the fields. -/
  streams : ordered = true →
    (chosen.map (·.record)).Pairwise (Precedes query.orderBy env.store.load)
  /-- An index gives that order, unless ORDER BY is on identities alone. -/
  served : ordered = true → chosen ≠ [] →
    query.isRidOnlySort = true ∨ env.store.Serves query.orderBy
  /-- Everything else is sorted. -/
  sorts : ordered = false → chosen.Pairwise fun a b => (compareKeys query.orderBy
    ((env.setup query ordered).sortKey env (.ofPlan env.store vars query plan) a)
    ((env.setup query ordered).sortKey env (.ofPlan env.store vars query plan) b)).isLE = true

/-- What is delivered from a stream of live records is in the order of the stream, or the pipeline
sorts it. `hdelivers` says which records were drawn and what became of them. -/
theorem SelectQuery.Arranges.arranged (h : query.Arranges className polymorphic) {plan : Plan}
    {vars : Fields} {stream : Stream} {ordered : Bool} {out : List Record} {items : List WorkItem}
    {rows : List Row} (hdelivers : Delivers env query plan vars stream ordered out items rows)
    (hload : ∀ rid r, env.store.load rid = some r → r.rid = rid ∧ r.isExact = true)
    (hconsistent : stream.Consistent) (hexact : Stream.GivesExact env.store.load stream.contents)
    (hlive : ∀ r, stream.contents.Gives env.store.load r → env.store.Live r)
    (hascends : ordered = true → Stream.Ascends query.orderBy env.store.load stream)
    (hserved : ordered = true → ∀ r, stream.contents.Gives env.store.load r →
      query.isRidOnlySort = true ∨ env.store.Serves query.orderBy) :
    ∃ chosen, Arranged env query vars plan ordered chosen rows := by
  obtain ⟨⟨last, seen, hdraws⟩, hitems, hdelivered⟩ := hdelivers
  have hrid : ∀ rid r, env.store.load rid = some r → r.rid = rid := fun rid r hr => (hload rid r hr).1
  have hexactLoad : ∀ rid r, env.store.load rid = some r → r.isExact = true :=
    fun rid r hr => (hload rid r hr).2
  obtain ⟨htransfer, -⟩ := Stream.draw_transfer hrid hconsistent hdraws
  -- accepted records are drawn, and drawn records come from the stream
  have hdrawn : (items.map (·.record)).Sublist out := by
    refine (hitems.map _).trans ?_
    rw [map_record_filterMap]
    exact List.filter_sublist
  have hgiven : ∀ item ∈ items, stream.contents.Gives env.store.load item.record ∧
      item.lets = (Evaluator.ofPlan env.store vars query plan).bindings item.record := by
    intro item hitem
    refine ⟨htransfer.gives (.inl (hdrawn.subset (List.mem_map_of_mem hitem))), ?_⟩
    obtain ⟨record, -, hrecord⟩ := List.mem_filterMap.mp (hitems.subset hitem)
    obtain ⟨rfl, hqualify⟩ := Evaluator.item?_eq_some_iff.mp hrecord
    exact Evaluator.lets_of_qualify hqualify
  have hgrouping : (env.setup query ordered).query.isGrouping = false := h.grouping
  unfold Delivered at hdelivered
  rw [hgrouping] at hdelivered
  obtain ⟨chosen, hchosen, hsub, hstreams, hsorts⟩ := hdelivered
  have hgiven' : ∀ item ∈ chosen, stream.contents.Gives env.store.load item.record ∧
      item.lets = (Evaluator.ofPlan env.store vars query plan).bindings item.record :=
    fun item hitem => hgiven item (hsub.subset hitem)
  refine ⟨chosen, hchosen, fun item hitem => hlive _ (hgiven' item hitem).1,
    fun item hitem => (hgiven' item hitem).2, ?_, ?_, ?_⟩
  · rintro rfl
    have hpairs := Stream.draws_ascending hrid hexactLoad hconsistent hexact (hascends rfl) hdraws
    have hkept : chosen.Sublist items := hstreams (by simp [PipelineSetup.sorts, Env.setup])
    exact hpairs.sublist ((hkept.map _).trans hdrawn)
  · intro hordered hsome
    obtain ⟨item, hitem⟩ := List.exists_mem_of_ne_nil chosen hsome
    exact hserved hordered _ (hgiven' item hitem).1
  · rintro rfl
    obtain ⟨p, htotal, hkeys⟩ := (env.setup query false).exists_totalOn env
      (.ofPlan env.store vars query plan) rfl hexactLoad
    refine hsorts (by simpa [PipelineSetup.sorts, Env.setup] using h.orderBy) p htotal ?_
    intro item hitem
    obtain ⟨hgives, hlets⟩ := hgiven item hitem
    have hitem : item = ⟨item.record,
        (Evaluator.ofPlan env.store vars query plan).bindings item.record⟩ := by
      rw [← hlets]
    rw [hitem]
    exact hkeys item.record (hexact _ hgives)

/-- A query for records of single values in an order delivers nothing, or rows that are `Arranged`:
in the order of what was opened or sorted, whatever the plan reads and whichever indexes fail, as
long as no IN of its filter chooses among floating-point numbers, `hchoices`. -/
theorem SelectQuery.Arranges.runQuery_arranged (h : query.Arranges className polymorphic)
    (hreach : env.store.Reachable Fields.AreSingle) {context : Context}
    (hchoices : ∀ condition, query.filter = some condition →
      condition.ChoosesExactly context.vars) (signals : Signals) :
    (runQuery env query context signals).2.rows = [] ∨
      ∃ plan ordered chosen, Arranged env query context.vars plan ordered chosen
        (runQuery env query context signals).2.rows := by
  have hsound := hreach.sound
  have hsingle : ∀ r, env.store.Live r → Fields.AreSingle r.fields :=
    fun r hr => hreach.admits_of_live hr
  have hexact : env.store.IsExact := hreach.isExact fun fields h => h.flat.exact
  have hmirrors := hreach.mirrors fun fields h => h.flat.exact
  have hplanned : ∀ planned, query.plannedFilter env.options = some planned →
      planned.ChoosesExactly context.vars := by
    intro planned hfilter
    obtain ⟨condition, hcondition, rfl⟩ := Option.map_eq_some_iff.mp hfilter
    split
    · exact (hchoices condition hcondition).folded
    · exact hchoices condition hcondition
  rcases runQuery_cases env query context signals with
    ⟨failure, -, -, hrows⟩ | ⟨plan, begun, hplan, hbegun, hvars, -, hrows, -⟩
  · exact .inl hrows
  obtain ⟨-, hclass, -⟩ := plan_ofClass h.target hplan
  obtain ⟨source, hsource, hrun⟩ := h.run_eq hplan
  rw [hrows, hrun]
  rcases @runSerial_delivers env query plan source begun h.expand h.unwind hbegun with
    hnone | ⟨stream, ordered, out, items, hopened, hdelivers⟩
  · exact .inl hnone
  rw [hvars] at hdelivers
  -- the fallback of the plan is covered too: it is never opened as ordered
  obtain ⟨chosen, hchosen⟩ := h.arranged hdelivers
    (fun rid r hr => ⟨(hsound.load_eq_some_iff.mp hr).2, hexact.load hsound hr⟩)
    (Plan.opened_isFresh hopened).1 (hexact.givesExact_of_plan hsound hplan hsource hopened)
    (fun r hr => hsound.live_of_classPlan hclass hsource hopened hr)
    (fun hordered => hsound.ascends_of_classPlan hsingle hmirrors hplanned h.orderBy hclass hsource
      (hordered ▸ hopened))
    fun hordered r hr => hsound.serves_of_classPlan h.orderBy hclass hsource (hordered ▸ hopened) hr
  exact .inr ⟨plan, ordered, chosen, hchosen⟩

/-- The rows of a query for whole records of a class are in the order asked for, `Precedes`,
whatever the plan reads and whichever indexes fail, as long as no IN of its filter chooses among
floating-point numbers, `hchoices`. The outcome does not matter: a query that fails has delivered
rows in order until then. -/
theorem runQuery_ordered (hreach : env.store.Reachable Fields.AreSingle)
    (hquery : query.Ranks className polymorphic) {context : Context}
    (hchoices : ∀ condition, query.filter = some condition →
      condition.ChoosesExactly context.vars) (signals : Signals) :
    ∃ records : List Record,
      (runQuery env query context signals).2.rows = records.map Row.ofRecord ∧
      (∀ r ∈ records, env.store.Live r) ∧
      records.Pairwise (Precedes query.orderBy env.store.load) := by
  rcases hquery.arranges.runQuery_arranged hreach hchoices signals with
    hnone | ⟨plan, ordered, chosen, hchosen⟩
  · exact ⟨[], hnone, by simp, .nil⟩
  refine ⟨chosen.map (·.record), ?_, ?_, ?_⟩
  · rw [hchosen.rows, List.map_map]
    exact List.map_congr_left fun item _ => hquery.row_eq ordered _ item
  · intro r hr
    obtain ⟨item, hitem, rfl⟩ := List.mem_map.mp hr
    exact hchosen.live item hitem
  · -- rows come in the order of the stream, or in that of the sort keys, which are the keys of the
    -- records
    cases ordered with
    | true => exact hchosen.streams rfl
    | false =>
        rw [List.pairwise_map]
        refine (hchosen.sorts rfl).imp fun {a b} hle => ?_
        rwa [hquery.sortKey_eq, hquery.sortKey_eq] at hle

end

/-! ## Choices that are not ranked -/

/-- Two records of an indexed class whose values a floating-point number cannot tell apart: `2 ^ 53`
and the integer after it. -/
def closeStore : Store := .ofChanges [
  .createClass "A" none 1 false,
  .createIndex "A.x" .notUnique ⟨"A", ["x"], false, .keys⟩,
  .insert "A" [("x", .int 9007199254740992)],
  .insert "A" [("x", .int 9007199254740993)]]

/-- An executor over `closeStore`. -/
def closeEnv : Env := ⟨closeStore, .default, fun _ => 0, .collecting⟩

/-- The records with `x IN choices ORDER BY x`. -/
def closeQuery (choices : List Value) : SelectQuery :=
  { SelectQuery.ofTarget (.ofClass "A" true) with
    filter := some (.compare ⟨.field ⟨"x", []⟩, .oneOf, .literal (.list choices)⟩)
    orderBy := [⟨⟨"x", []⟩, .asc⟩] }

/-- Both values of `closeStore`, the larger one first, and between them the floating-point number
that equals both. -/
def closeChoices : List Value :=
  [.int 9007199254740993, .float ⟨0x4340000000000000⟩, .int 9007199254740992]

/-- Changes reach `closeStore`, and only single values are stored there. -/
theorem reachable_closeStore : closeStore.Reachable Fields.AreSingle :=
  Store.reachable_ofChanges (by decide +kernel)

/-- The choices in `closeChoices` are not ranked: the number between the two integers equals both.
So the index gives the records in the order of the choices, and the one with the larger value is
delivered first. -/
theorem rows_of_closeChoices :
    closeStore.Reachable Fields.AreSingle ∧ (closeQuery closeChoices).Ranks "A" true ∧
      (∀ condition, (closeQuery closeChoices).filter = some condition → ∀ r, ∃ keep,
        condition.evaluate (closeStore.scope []) r = .ok keep) ∧
      (collect closeEnv (closeQuery closeChoices) .empty []).1.toOption.map rowRids =
        some [⟨1, 1⟩, ⟨1, 0⟩] ∧
      ∃ larger smaller, closeStore.load ⟨1, 1⟩ = some larger ∧
        closeStore.load ⟨1, 0⟩ = some smaller ∧
        ¬Precedes (closeQuery closeChoices).orderBy closeStore.load larger smaller := by
  refine ⟨reachable_closeStore, ⟨rfl, rfl, rfl, rfl, rfl, by simp [closeQuery]⟩, ?_,
    by decide +kernel, _, _, rfl, rfl, ?_⟩
  · rintro condition ⟨⟩ r
    exact ⟨_, rfl⟩
  · unfold Precedes
    decide +kernel

/-- Without that number among the choices the record with the smaller value is delivered first, as
`runQuery_ordered` says. -/
theorem rows_of_exactChoices :
    ∃ records : List Record, closeEnv.store.Reachable Fields.AreSingle ∧
      (closeQuery [.int 9007199254740993, .int 9007199254740992]).Ranks "A" true ∧
      (runQuery closeEnv (closeQuery [.int 9007199254740993, .int 9007199254740992]) .empty
        []).2.rows = records.map Row.ofRecord ∧
      records.map (·.rid) = [⟨1, 0⟩, ⟨1, 1⟩] ∧
      records.Pairwise (Precedes [⟨⟨"x", []⟩, .asc⟩] closeEnv.store.load) := by
  have hquery : (closeQuery [.int 9007199254740993, .int 9007199254740992]).Ranks "A" true :=
    ⟨rfl, rfl, rfl, rfl, rfl, by simp [closeQuery]⟩
  have hrids : (runQuery closeEnv (closeQuery [.int 9007199254740993, .int 9007199254740992]) .empty
      []).2.rows.map Row.rid = [some ⟨1, 0⟩, some ⟨1, 1⟩] := by
    decide +kernel
  obtain ⟨records, hrows, -, hpairs⟩ := @runQuery_ordered closeEnv _ "A" true reachable_closeStore
    hquery .empty (by
      rintro condition ⟨⟩ c hc chain right k hleft hconstant
      obtain rfl := List.mem_singleton.mp hc
      cases hleft
      cases hconstant
      rfl) []
  refine ⟨records, reachable_closeStore, hquery, hrows, ?_, hpairs⟩
  rw [hrows, List.map_map] at hrids
  -- a row of a record has its identity, so the rows tell the records
  have hsome : (records.map (·.rid)).map some = [⟨1, 0⟩, ⟨1, 1⟩].map some := by
    rw [List.map_map]
    exact hrids
  exact List.map_injective_iff.mpr (fun _ _ heq => Option.some.inj heq) hsome

end RecordQuery
