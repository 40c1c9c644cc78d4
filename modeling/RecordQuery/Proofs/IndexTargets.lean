import RecordQuery.Proofs.Entries
import RecordQuery.Proofs.KeyTerms
import RecordQuery.Proofs.Paging

/-!
# `RecordQuery.Proofs.IndexTargets`: the entries of an index as rows

A query for the entries of an index makes one lookup of its condition on the key, checks every entry
found against all of it, and shows what is left as rows. The lookup misses no entry that the
condition accepts. It is the lookup that decides how often an entry comes: one of several runs of
components finds an entry once for every run that its key starts with.

The result compares the rows with the walk over the index, `Index.orderedWalk`, filtered by the
constraints `KeyFilter.accepts`: the same entries, and each of them once and in key order exactly if
the runs of the lookup are `IndexQuery.Apart`. So repeated rows are not excluded but described, and
`collect_overlapping` shows some. The rows are in terms of the constraints that were collected,
`KeyTerms`, and not of the filter as it was written; the two differ for keys that are no values of
one type, which is the matter of `KeyConditions`.

An index target has no fallback, so the index is not to fail; `hwalk` says so. The literals of the
lookup must be sharp, `Key.IsSharp`: no two integers are rounded to one floating-point number of
theirs. Floating-point numbers are not stored, `Value.entriesExact`.

The theorems:

* `plan_of_index`: the plan of such a query.
* `collect_accepted`: the rows are those of the entries that the constraints on the key accept.
* `collect_indexTarget`: the rows are those of the accepted entries of the walk over the index, each
  of them once and in key order exactly if no key of them starts with two choices that differ.
* `collect_overlapping`: with a choice that names fewer components an entry comes twice.
-/

set_option autoImplicit false

namespace RecordQuery

open Steps

/-! ## The keys of an index

What an index target finds is described by the walk over the index and a filter of it, whatever way
of reading the plan has chosen. -/

/-- The keys that an index holds are exact and have a component for every field; none of them has a
null where nulls are left out, `ignoreNulls`. -/
theorem StoredIndex.Mirrors.key_of_holds {index : StoredIndex} {store : Store}
    (h : index.Mirrors store) (hexact : ∀ r, store.Live r → r.isExact = true) {key : Key}
    {rid : Rid} (hholds : index.buckets.Holds key rid) :
    key.isExact = true ∧ key.length = index.definition.fields.length ∧
      (index.definition.ignoreNulls = true → key.any Value.isNull = false) := by
  obtain ⟨r, hr, -, -, hkey⟩ := h.holds_iff.mp hholds
  obtain ⟨hof, hnulls⟩ := (StoredIndex.mem_keysFor (hexact r hr)).mp hkey
  obtain ⟨b, hb, rfl, -⟩ := hholds
  exact ⟨h.ordered.exact b hb, hof.length_eq, hnulls⟩

/-- An index that is not `isComposite` has one field, if it has any. -/
theorem IndexDefinition.length_eq_one {definition : IndexDefinition}
    (hfields : definition.fields ≠ []) (hsingle : definition.isComposite = false) :
    definition.fields.length = 1 := by
  have hpositive := List.length_pos_iff.mpr hfields
  have hone : ¬ 1 < definition.fields.length := of_decide_eq_false hsingle
  omega

/-- An index that gives anything is not failing, as every way to read it goes through `read`. -/
theorem StoredIndex.not_failing_of_read {α : Type} {index : StoredIndex} {result found : α}
    (hok : index.read result = .ok found) : index.failing = false := by
  unfold read at hok
  cases hfailing : index.failing with
  | false => rfl
  | true =>
      rw [hfailing] at hok
      cases hok

/-- Filtering commutes with `directed`, which turns entries around for a downward walk. -/
theorem StoredIndex.filter_directed (ascending : Bool) (keeps : IndexEntry → Bool)
    (entries : List IndexEntry) :
    (directed ascending entries).filter keeps = directed ascending (entries.filter keeps) := by
  unfold directed
  split
  · rfl
  · exact List.filter_reverse

/-- The accepted entries of the lookup for some terms are those of the walk over the index. One
direction is `KeyTerms.selects_of_accepts`, and the other one that a lookup gives entries that the
index holds. -/
theorem StoredIndex.mem_kept_iff {index : StoredIndex} {store : Store} (h : index.Mirrors store)
    (hexact : ∀ r, store.Live r → r.isExact = true) (hfields : index.definition.fields ≠ [])
    {terms : KeyTerms} (hgathered : terms.Gathered index.definition.isComposite)
    (hconstrained : terms.Constrained)
    (hsharp : (terms.lookup index.definition.isComposite).IsSharp)
    (hshort : ∀ leading ∈ (terms.lookup index.definition.isComposite).runs,
      leading.length ≤ index.definition.fields.length) {walked : List IndexEntry}
    (hwalked : ∀ entry, entry ∈ walked ↔ index.buckets.Holds entry.key entry.rid ∧
      ((!index.definition.ignoreNulls) = true ∨ entry.key.isNull = false)) {entry : IndexEntry} :
    entry ∈ (index.matching (terms.lookup index.definition.isComposite)).filter
        (fun e => terms.keys.accepts e.key) ↔
      entry ∈ walked ∧ terms.keys.accepts entry.key = true := by
  rw [List.mem_filter, mem_matching h.ordered hsharp, hwalked]
  -- an entry that the index holds and the terms accept is in both, whatever the lookup is made from
  refine and_congr_left fun haccepts => and_congr_right fun hholds => ?_
  obtain ⟨-, hlength, hnulls⟩ := h.key_of_holds hexact hholds
  refine iff_of_true ?_ ?_
  · refine KeyTerms.selects_of_accepts hgathered hconstrained (fun hsingle => ?_) ?_ haccepts
    · exact hlength.trans (IndexDefinition.length_eq_one hfields hsingle)
    · exact fun leading hleading => hlength ▸ hshort leading hleading
  · -- an index that leaves nulls out holds no key that is all null
    cases hignores : index.definition.ignoreNulls with
    | false => exact .inl rfl
    | true =>
        right
        cases hkey : entry.key with
        | nil => exact absurd (List.length_eq_zero_iff.mp (hlength ▸ hkey ▸ rfl)) hfields
        | cons v vs =>
            have hnone := hnulls hignores
            rw [hkey, List.any_cons, Bool.or_eq_false_iff] at hnone
            simp [Key.isNull, hnone.1]

/-! ## The plan

An index target is planned in one way. The condition becomes terms of the key, and nothing of it is
left to be checked on a row. -/

/-- The query asks for the entries of the index `name`, in some order of their keys. The filter is
free, and may fail to be planned. -/
structure SelectQuery.ListsEntries (query : SelectQuery) (name : String) : Prop where
  /-- The target is the index. -/
  target : query.target = .index name
  /-- Its clauses can run. -/
  valid : query.validate = .ok ⟨⟩
  /-- There are no columns. -/
  projections : query.projections = []
  /-- ORDER BY names nothing but the key. -/
  orderBy : ∀ item ∈ query.orderBy, item.field = ⟨keyColumn, []⟩

/-- Whether keys are visited upwards: as the first item of `orderBy` says, and without one
upwards. -/
def SelectQuery.ascends (query : SelectQuery) : Bool :=
  match query.orderBy with
  | item :: _ => item.direction == .asc
  | [] => true

/-- What the filter of a query says about the key of an index, if there is a filter: the
`KeyTerms.ofCondition` of the condition that is planned for. -/
def SelectQuery.keyTerms (query : SelectQuery) (options : Options) (index : Index) :
    Except Failure (Option KeyTerms) :=
  match query.plannedFilter options with
  | some condition => (KeyTerms.ofCondition index condition).map some
  | none => .ok none

/-- The source that serves an index target: the `lookup` for the terms, if there are any, and their
`keys` as constraints. -/
def StoredIndex.targetFor (index : StoredIndex) (terms : Option KeyTerms) (ascending : Bool) :
    Source :=
  .indexTarget (.stored index) (terms.map fun t => t.lookup index.definition.isComposite)
    ((terms.map KeyTerms.keys).getD .empty) ascending

/-- The entries that an index target is opened with: those of its `lookup`, or without one those of
the walk over the index. -/
def StoredIndex.entriesFor (index : StoredIndex) (lookup : Option IndexQuery) (ascending : Bool) :
    Except Failure (List IndexEntry) :=
  match lookup with
  | some lookup => (Index.stored index).lookup lookup ascending
  | none => Index.orderedWalk (.stored index) ascending (!(Index.stored index).definition.ignoreNulls)

section

variable {env : Env} {query : SelectQuery} {context : Context} {signals : Signals} {name : String}
  {index : StoredIndex}

/-- The plan of a query that `ListsEntries` reads `index.targetFor` what its condition says about
the key, and leaves nothing to be checked but the key: it has no filter and no fallback. -/
theorem plan_of_index (hquery : query.ListsEntries name)
    (hindex : env.store.index? name = some index) {terms : Option KeyTerms}
    (hterms : query.keyTerms env.options (.stored index) = .ok terms) :
    ∃ plan, env.plan query context = .ok plan ∧ plan.parallel = false ∧
      plan.Reads (index.targetFor terms query.ascends) none none none
        (query.orderBy.isEmpty || index.isOrdered) (!query.orderBy.isEmpty && index.isOrdered) := by
  -- an index target may be ordered by its key only, and this query is
  have hnone : query.orderBy.find? (fun item =>
      item.field.isLong || item.field.first != keyColumn) = none := by
    refine List.find?_eq_none.mpr fun item hitem => ?_
    rw [hquery.orderBy item hitem]
    decide
  obtain ⟨base, hbase, hreads⟩ : ∃ base,
      env.store.planTarget context.vars (query.plannedFilter env.options) query = .ok base ∧
      base.Reads (index.targetFor terms query.ascends) none none none
        (query.orderBy.isEmpty || index.isOrdered) (!query.orderBy.isEmpty && index.isOrdered) := by
    unfold Store.planTarget Store.planIndexTarget
    rw [hquery.target]
    dsimp only
    rw [hindex]
    dsimp only
    rw [hnone]
    dsimp only
    unfold SelectQuery.keyTerms at hterms
    cases hplanned : query.plannedFilter env.options with
    | none =>
        rw [hplanned] at hterms
        obtain rfl := Except.ok.inj hterms
        exact ⟨_, rfl, rfl, rfl, rfl, rfl, rfl, rfl⟩
    | some condition =>
        simp only [hplanned] at hterms
        dsimp only
        rw [hterms]
        exact ⟨_, rfl, rfl, rfl, rfl, rfl, rfl, rfl⟩
  -- only a scan is given to workers
  have hparallel : env.store.allowsParallel env.options base query context.inTransaction =
      .ok false := by
    refine allowsParallel_of_source fun scan hscan => ?_
    cases hreads.source.symm.trans hscan
  obtain ⟨pairs, hplan⟩ := plan_of_planned hquery.valid hbase hparallel
  exact ⟨_, hplan, rfl, hreads.source, hreads.filter, hreads.classFilter, hreads.fallback,
    hreads.orderSatisfied, hreads.fullySorted⟩

/-! ## The run

There is no condition and no class to check on an entry, so the loop hands over all that the stream
gives. -/

/-- A loop over records that nothing is asked of hands over all of them. Entries are shown as plain
records, so `seen` does not matter. -/
theorem drawItems_plain {load : Rid → Option Record} {order : List OrderItem}
    {evaluator : Evaluator} (hfilter : evaluator.filter = none)
    (hclass : evaluator.classFilter = none) (records : List Record) (seen : List Rid) :
    drawItems load order evaluator (records.length + 1) (.plain records) seen =
      .ok (records.map fun r => ⟨r, evaluator.bindings r⟩) :=
  drawItems_unchecked hfilter hclass (fun _ _ => rfl) ⟨_, _, rfl⟩ records

/-- The rows of accepted records of a query that asks for all of them (`Whole`): one for each,
sorted where that is to be done, and in their order otherwise. -/
theorem allRows_whole (hwhole : query.Whole) (env : Env) (evaluator : Evaluator) (ordered : Bool)
    (items : List WorkItem) :
    ∃ chosen : List WorkItem,
      (env.setup query ordered).allRows env evaluator items =
        chosen.map ((env.setup query ordered).row evaluator) ∧
      chosen.Perm items ∧ ((env.setup query ordered).sorts = false → chosen = items) ∧
      ((env.setup query ordered).sorts = true → ∀ p, TotalOn (compareKeys query.orderBy) p →
        (∀ item ∈ items, p ((env.setup query ordered).sortKey env evaluator item)) →
        chosen.Pairwise fun a b => (compareKeys query.orderBy
          ((env.setup query ordered).sortKey env evaluator a)
          ((env.setup query ordered).sortKey env evaluator b)).isLE = true) := by
  -- without EXPAND what is kept of a record is the row pending for it
  have hpending : items.map ((env.setup query ordered).kept env evaluator) =
      items.map ((env.setup query ordered).pending env evaluator) := by
    refine List.map_congr_left fun item _ => ?_
    have hexpand : (env.setup query ordered).query.expand = none := hwhole.expand
    unfold PipelineSetup.kept
    rw [hexpand]
  obtain ⟨chosen, hrows, hchosen⟩ := @ordered_rows env (env.setup query ordered) evaluator _ items
    hpending
  refine ⟨chosen, ?_, hchosen⟩
  unfold PipelineSetup.allRows
  rw [← hrows]
  have hgrouping : (env.setup query ordered).query.isGrouping = false := hwhole.grouping
  have hunwind : (env.setup query ordered).query.unwind = [] := hwhole.unwind
  rw [hgrouping, hunwind]
  rfl

/-! ## The rows of entries

A row shows the key of its entry as a value. Sorting rows by that value and sorting entries by their
keys come to the same, as `IndexEntry.compare_shownKey` says. -/

/-- The key of an entry as a value: a list for a `composite` index, its only component otherwise. -/
def IndexEntry.shownKey (composite : Bool) (entry : IndexEntry) : Value :=
  if composite then .list entry.key else entry.key.head?.getD .null

/-- The row that shows an entry of an index, its `shownKey` and its identity. -/
def IndexEntry.row (composite : Bool) (entry : IndexEntry) : Row :=
  .computed [(keyColumn, entry.shownKey composite), (ridColumn, .link entry.rid)]

/-- `shownKey` keeps the order of the keys: a list is compared like a key, and a key of one
component like the component. -/
theorem IndexEntry.compare_shownKey {composite : Bool} {a b : IndexEntry}
    (ha : composite = false → a.key.length = 1) (hb : composite = false → b.key.length = 1) :
    (a.shownKey composite).compare (b.shownKey composite) = a.key.compare b.key := by
  cases composite with
  | true => rfl
  | false =>
      obtain ⟨v, hv⟩ := List.length_eq_one_iff.mp (ha rfl)
      obtain ⟨w, hw⟩ := List.length_eq_one_iff.mp (hb rfl)
      rw [hv, hw, Key.compare_singleton]
      simp [shownKey, hv, hw]

/-- The sort key of an entry is read from its `entryRecord`: an entry is sorted by its key, as often
as ORDER BY names it. -/
theorem SelectQuery.ListsEntries.sortKey_eq (hquery : query.ListsEntries name) (ordered : Bool)
    (evaluator : Evaluator) (composite : Bool) (entry : IndexEntry) (lets : Fields) :
    (env.setup query ordered).sortKey env evaluator ⟨entryRecord composite entry, lets⟩ =
      orderKey query.orderBy env.store.load (entryRecord composite entry) := by
  unfold PipelineSetup.sortKey SelectQuery.sortKey orderKey
  refine List.map_congr_left fun order _ => ?_
  simp [Env.setup, SelectQuery.sortValue, hquery.projections]

/-- Entries in the order that `query.orderBy` asks for are in key order, in the direction of its
first item. Further items name the key once more and change nothing. -/
theorem SelectQuery.ListsEntries.isLE_of_orderKeys (hquery : query.ListsEntries name)
    (horder : query.orderBy ≠ []) {composite : Bool} {a b : IndexEntry}
    (ha : composite = false → a.key.length = 1) (hb : composite = false → b.key.length = 1)
    {load : Rid → Option Record}
    (hle : (compareKeys query.orderBy (orderKey query.orderBy load (entryRecord composite a))
      (orderKey query.orderBy load (entryRecord composite b))).isLE = true) :
    (if query.ascends then a.key.compare b.key else b.key.compare a.key).isLE = true := by
  obtain ⟨item, items, heq⟩ := List.exists_cons_of_ne_nil horder
  have hfield : item.field = ⟨keyColumn, []⟩ := hquery.orderBy item (heq ▸ List.mem_cons_self)
  have hvalue (entry : IndexEntry) :
      item.field.resolve load (entryRecord composite entry) = entry.shownKey composite := by
    rw [hfield]
    rfl
  have hascends : query.ascends = (item.direction == .asc) := by
    unfold SelectQuery.ascends
    rw [heq]
  rw [heq] at hle
  -- the first item decides unless it ties, and it compares the keys as they are shown
  have hfirst : (item.compare (a.shownKey composite) (b.shownKey composite)).isLE = true := by
    rw [← hvalue a, ← hvalue b]
    exact isLE_of_isLE_then hle
  unfold OrderItem.compare at hfirst
  cases hdirection : item.direction with
  | asc =>
      rw [hdirection] at hascends hfirst
      rw [if_pos (hascends.trans (by decide)), ← IndexEntry.compare_shownKey ha hb]
      exact hfirst
  | desc =>
      rw [hdirection] at hascends hfirst
      rw [if_neg (by rw [hascends]; decide), ← IndexEntry.compare_shownKey hb ha,
        Value.compare_swap]
      exact hfirst

/-- Entries of a stream are shown in their order, or sorted by ORDER BY: in both cases they are in
key order if the entries `kept` were. -/
theorem SelectQuery.ListsEntries.exists_shown (hquery : query.ListsEntries name)
    (hwhole : query.Whole) (hload : ∀ rid r, env.store.load rid = some r → r.isExact = true)
    (evaluator : Evaluator) (ordered : Bool) (composite : Bool) {kept : List IndexEntry}
    (hkept : ∀ entry ∈ kept, entry.key.isExact = true ∧
      (composite = false → entry.key.length = 1)) :
    ∃ entries : List IndexEntry, entries.Perm kept ∧
      (env.setup query ordered).allRows env evaluator ((kept.map (entryRecord composite)).map
        fun r => ⟨r, evaluator.bindings r⟩) = entries.map (IndexEntry.row composite) ∧
      (StoredIndex.Follows query.ascends kept → StoredIndex.Follows query.ascends entries) := by
  let item (entry : IndexEntry) : WorkItem :=
    ⟨entryRecord composite entry, evaluator.bindings (entryRecord composite entry)⟩
  have hitems : ((kept.map (entryRecord composite)).map fun r : Record =>
      (⟨r, evaluator.bindings r⟩ : WorkItem)) = kept.map item := List.map_map
  have hrow (entries : List IndexEntry) : (entries.map item).map
      ((env.setup query ordered).row evaluator) = entries.map (IndexEntry.row composite) := by
    rw [List.map_map]
    refine List.map_congr_left fun entry _ => ?_
    simp [PipelineSetup.row, SelectQuery.project, Env.setup, hquery.target, hquery.projections,
      item, IndexEntry.row, IndexEntry.shownKey, entryRecord, Row.computed]
  obtain ⟨chosen, hrows, hperm, hstreams, hsorts⟩ :=
    allRows_whole hwhole env evaluator ordered (kept.map item)
  rw [hitems, hrows]
  cases hsorted : (env.setup query ordered).sorts with
  | false =>
      -- no order is asked for, or the index is read in it
      rw [hstreams hsorted]
      exact ⟨kept, .refl _, hrow kept, id⟩
  | true =>
      -- a hash index: the rows are sorted afterwards, by keys that are shown
      obtain ⟨entries, hentries, rfl⟩ := exists_of_perm_map hperm
      refine ⟨entries, hentries, hrow entries, fun _ => ?_⟩
      have horder : query.orderBy ≠ [] := by
        intro hnil
        simp [PipelineSetup.sorts, Env.setup, hnil] at hsorted
      have hkeys : ∀ w ∈ kept.map item, IsSortKey query.orderBy
          ((env.setup query ordered).sortKey env evaluator w) := by
        intro w hw
        obtain ⟨entry, hentry, rfl⟩ := List.mem_map.mp hw
        rw [hquery.sortKey_eq]
        exact orderKey_isSortKey hload _ (entryRecord_isExact (hkept entry hentry).1 composite)
      have hpairs := hsorts hsorted _ (compareKeys_totalOn query.orderBy) hkeys
      rw [List.pairwise_map] at hpairs
      refine hpairs.imp_of_mem fun {a b} ha hb hle => ?_
      rw [hquery.sortKey_eq, hquery.sortKey_eq] at hle
      exact hquery.isLE_of_orderKeys horder (hkept a (hentries.mem_iff.mp ha)).2
        (hkept b (hentries.mem_iff.mp hb)).2 hle

/-! ## The query

The rows of a query are first stated for what the source finds (`collect_entries`), then for
conditions (`collect_kept`) and for walks (`collect_walked`), and at last with the repeats and the
order of what is found. -/

/-- A plan for the entries of an index opens those that are found and that the constraints accept,
shown by `entryRecord`. -/
theorem opened_indexTarget {plan : Plan} {terms : Option KeyTerms}
    {ascending ordered fullySorted : Bool} {found : List IndexEntry}
    (hfound : index.entriesFor (terms.map fun t => t.lookup index.definition.isComposite)
      ascending = .ok found)
    (hreads : plan.Reads (index.targetFor terms ascending) none none none ordered fullySorted) :
    plan.opened env.store query (index.targetFor terms ascending) =
      .ok (.plain ((found.filter fun entry =>
        KeyFilter.accepts ((terms.map KeyTerms.keys).getD .empty) entry.key).map
          (entryRecord index.definition.isComposite)), ordered) := by
  unfold StoredIndex.entriesFor at hfound
  unfold Plan.opened Source.opened StoredIndex.targetFor
  cases terms <;>
  · dsimp only [Option.map] at hfound ⊢
    rw [hfound]
    dsimp only [Except.map]
    rw [Bool.true_or, Bool.and_true, hreads.orderSatisfied]
    rfl

/-- A query that `ListsEntries` and is `Whole` delivers a row for each of the entries that are
`found` and that the constraints accept, in the order in which they are found or sorted. -/
theorem collect_entries (hload : ∀ rid r, env.store.load rid = some r → r.isExact = true)
    (hwhole : query.Whole)
    (hundisturbed : { env with sink := .collecting : Env }.Undisturbed query context signals)
    (hquery : query.ListsEntries name) (hindex : env.store.index? name = some index)
    {terms : Option KeyTerms} (hterms : query.keyTerms env.options (.stored index) = .ok terms)
    {found kept : List IndexEntry}
    (hfound : index.entriesFor (terms.map fun t => t.lookup index.definition.isComposite)
      query.ascends = .ok found)
    (hkept : kept = found.filter fun entry =>
      KeyFilter.accepts ((terms.map KeyTerms.keys).getD .empty) entry.key)
    (hkeys : ∀ entry ∈ kept, entry.key.isExact = true ∧
      (index.definition.isComposite = false → entry.key.length = 1)) :
    ∃ entries : List IndexEntry,
      (collect env query context signals).1 =
        .ok (entries.map (IndexEntry.row index.definition.isComposite)) ∧
      entries.Perm kept ∧
      (StoredIndex.Follows query.ascends kept → StoredIndex.Follows query.ascends entries) := by
  let collecting : Env := { env with sink := .collecting }
  obtain ⟨plan, hplan, hserial, hreads⟩ := @plan_of_index collecting query context name index
    hquery hindex terms hterms
  have hopened := @opened_indexTarget collecting query index plan _ _ _ _ _ hfound hreads
  rw [← hkept] at hopened
  rcases runQuery_cases collecting query context signals with
    ⟨failure, herror, -, -⟩ | ⟨plan', begun, hplan', hbegun, -, hidle, hrows, hok⟩
  · cases hplan.symm.trans herror
  obtain rfl : plan' = plan := Except.ok.inj (hplan'.symm.trans hplan)
  have hrun : runPlan collecting query plan' =
      runSerial collecting query plan' (index.targetFor terms query.ascends) := by
    unfold runPlan
    rw [hreads.source, hserial]
  -- nothing is asked of the records that show the entries, and so all of them are drawn
  let evaluator : Evaluator := .ofPlan collecting.store begun.context.vars query plan'
  have hdraw := @drawItems_plain collecting.store.load query.orderBy evaluator hreads.filter
    hreads.classFilter (kept.map (entryRecord index.definition.isComposite)) []
  have hitems : ∀ item ∈ (kept.map (entryRecord index.definition.isComposite)).map
      (fun r : Record => (⟨r, evaluator.bindings r⟩ : WorkItem)),
      item.record.isExact = true ∧ item.lets = evaluator.bindings item.record := by
    simp only [List.map_map, List.forall_mem_map, Function.comp_apply, and_true]
    exact fun entry hentry => entryRecord_isExact (hkeys entry hentry).1 _
  obtain ⟨count, after, hserialRun, hafter⟩ := runSerial_page
    (hidle hundisturbed.timeout hundisturbed.defaultTimeout hundisturbed.idle) hbegun
    (by rw [hwhole.limit]; rfl) hload hopened hdraw hitems
  obtain ⟨entries, hperm, hshown, hfollows⟩ := @SelectQuery.ListsEntries.exists_shown collecting
    query name hquery hwhole hload evaluator (query.orderBy.isEmpty || index.isOrdered)
    index.definition.isComposite kept hkeys
  rw [(page_sublist query _).2 hwhole.limit hwhole.skip, hshown] at hafter
  rw [hrun, hserialRun] at hrows hok
  obtain ⟨outcome, houtcome⟩ := hok.mpr ⟨count, rfl⟩
  refine ⟨entries, ?_, hperm, hfollows⟩
  show Except.map _ (runQuery collecting query context signals).1 = _
  rw [houtcome, ← hafter, ← hrows]
  rfl

/-- `collect_entries` for a query with a condition: it delivers a row for each of those that the
lookup finds and the constraints accept, in the order in which they are found or sorted. -/
theorem collect_kept (hload : ∀ rid r, env.store.load rid = some r → r.isExact = true)
    (hwhole : query.Whole)
    (hundisturbed : { env with sink := .collecting : Env }.Undisturbed query context signals)
    (hquery : query.ListsEntries name) (hindex : env.store.index? name = some index)
    (hread : index.failing = false) {planned : Condition} {terms : KeyTerms}
    (hplanned : query.plannedFilter env.options = some planned)
    (hterms : KeyTerms.ofCondition (.stored index) planned = .ok terms) {kept : List IndexEntry}
    (hkept : kept = StoredIndex.directed query.ascends
      ((index.matching (terms.lookup index.definition.isComposite)).filter
        fun entry => terms.keys.accepts entry.key))
    (hkeys : ∀ entry ∈ kept, entry.key.isExact = true ∧
      (index.definition.isComposite = false → entry.key.length = 1)) :
    ∃ entries : List IndexEntry,
      (collect env query context signals).1 =
        .ok (entries.map (IndexEntry.row index.definition.isComposite)) ∧
      entries.Perm kept ∧
      (StoredIndex.Follows query.ascends kept → StoredIndex.Follows query.ascends entries) := by
  have hkeyTerms : query.keyTerms env.options (.stored index) = .ok (some terms) := by
    unfold SelectQuery.keyTerms
    rw [hplanned]
    dsimp only
    rw [hterms]
    rfl
  -- the lookup reads the matching entries; the constraints are checked on what it finds
  have hfound : index.entriesFor (some (terms.lookup index.definition.isComposite))
      query.ascends = .ok (StoredIndex.directed query.ascends
        (index.matching (terms.lookup index.definition.isComposite))) := by
    show index.read _ = _
    unfold StoredIndex.read
    rw [hread, if_neg (by simp)]
  refine collect_entries hload hwhole hundisturbed hquery hindex hkeyTerms hfound ?_ hkeys
  rw [hkept, ← StoredIndex.filter_directed]
  rfl

/-- `collect_entries` for a query without a condition: it delivers a row for each entry of the walk
over the index. -/
theorem collect_walked (hload : ∀ rid r, env.store.load rid = some r → r.isExact = true)
    (hwhole : query.Whole)
    (hundisturbed : { env with sink := .collecting : Env }.Undisturbed query context signals)
    (hquery : query.ListsEntries name) (hindex : env.store.index? name = some index)
    (hfilter : query.filter = none) {walked : List IndexEntry}
    (hwalk : Index.orderedWalk (.stored index) query.ascends (!index.definition.ignoreNulls) =
      .ok walked)
    (hkeys : ∀ entry ∈ walked, entry.key.isExact = true ∧
      (index.definition.isComposite = false → entry.key.length = 1)) :
    ∃ entries : List IndexEntry,
      (collect env query context signals).1 =
        .ok (entries.map (IndexEntry.row index.definition.isComposite)) ∧
      entries.Perm walked ∧
      (StoredIndex.Follows query.ascends walked → StoredIndex.Follows query.ascends entries) := by
  have hterms : query.keyTerms env.options (.stored index) = .ok none := by
    unfold SelectQuery.keyTerms SelectQuery.plannedFilter
    rw [hfilter]
    rfl
  exact collect_entries hload hwhole hundisturbed hquery hindex hterms hwalk
    (List.filter_true _).symm hkeys

/-- In a reachable store without floating-point numbers a query for the entries of an index, with a
condition on the key, delivers rows of exactly those entries that the constraints accept. None of
them comes twice exactly if no key of them starts with two choices of the lookup that differ,
`Apart`, and then they come in key order. `walked` is any list with the entries that a walk would
give. -/
theorem collect_accepted {planned : Condition} {terms : KeyTerms}
    (hreach : env.store.Reachable fun fields => Value.entriesExact fields = true)
    (hwhole : query.Whole)
    (hundisturbed : { env with sink := .collecting : Env }.Undisturbed query context signals)
    (hquery : query.ListsEntries name) (hindex : env.store.index? name = some index)
    (hread : index.failing = false) (hfields : index.definition.fields ≠ [])
    (hplanned : query.plannedFilter env.options = some planned)
    (hterms : KeyTerms.ofCondition (.stored index) planned = .ok terms)
    (hliterals : ∀ leading ∈ (terms.lookup index.definition.isComposite).runs,
      leading.IsSharp ∧ leading.length ≤ index.definition.fields.length)
    {walked : List IndexEntry}
    (hwalked : ∀ entry, entry ∈ walked ↔ index.buckets.Holds entry.key entry.rid ∧
      ((!index.definition.ignoreNulls) = true ∨ entry.key.isNull = false)) :
    ∃ entries : List IndexEntry,
      (collect env query context signals).1 =
        .ok (entries.map (IndexEntry.row index.definition.isComposite)) ∧
      (∀ entry, entry ∈ entries ↔ entry ∈ walked ∧ terms.keys.accepts entry.key = true) ∧
      (entries.Nodup ↔
        (terms.lookup index.definition.isComposite).Apart (· ∈ entries.map (·.key))) ∧
      ((terms.lookup index.definition.isComposite).Apart (· ∈ entries.map (·.key)) →
        StoredIndex.Follows query.ascends entries) := by
  have hsound := hreach.sound
  have hexact : ∀ r, env.store.Live r → r.isExact = true := fun r hr => hreach.admits_of_live hr
  have hmem : index ∈ env.store.indexes := List.mem_of_find?_eq_some hindex
  have hmirrors := hreach.mirrors (fun _ h => h) index hmem
  have hlists := hreach.listsOnce index hmem
  obtain ⟨hgathered, hconstrained⟩ := KeyTerms.ofCondition_ok hterms
  have hsharp : (terms.lookup index.definition.isComposite).IsSharp :=
    fun leading hleading => (hliterals leading hleading).1
  -- the lookup may find an entry twice, so that it and the walk have the same members and no more
  let found := (index.matching (terms.lookup index.definition.isComposite)).filter
    fun entry => terms.keys.accepts entry.key
  have hfound (entry : IndexEntry) :
      entry ∈ found ↔ entry ∈ walked ∧ terms.keys.accepts entry.key = true :=
    StoredIndex.mem_kept_iff hmirrors hexact hfields hgathered hconstrained hsharp
      (fun leading hleading => (hliterals leading hleading).2) hwalked
  have hdirected := StoredIndex.directed_perm query.ascends found
  obtain ⟨entries, hcollect, hperm, hfollows⟩ := collect_kept
    (fun rid r hr => hexact r (hsound.load_eq_some_iff.mp hr).1) hwhole hundisturbed hquery hindex
    hread hplanned hterms rfl fun entry hentry => by
      obtain ⟨hholds, -⟩ := (hwalked entry).mp ((hfound entry).mp (hdirected.mem_iff.mp hentry)).1
      obtain ⟨hkey, hlength, -⟩ := hmirrors.key_of_holds hexact hholds
      exact ⟨hkey, fun hsingle => hlength.trans (IndexDefinition.length_eq_one hfields hsingle)⟩
  have hentries : entries.Perm found := hperm.trans hdirected
  have honce := StoredIndex.kept_nodup_iff hmirrors.ordered hlists _ hsharp hentries
  refine ⟨entries, hcollect, fun entry => hentries.mem_iff.trans (hfound entry), honce,
    fun hapart => ?_⟩
  have hfoundOnce : found.Nodup := hentries.nodup_iff.mp (honce.mpr hapart)
  have hfoundApart :=
    (StoredIndex.kept_nodup_iff hmirrors.ordered hlists _ hsharp (.refl found)).mp hfoundOnce
  exact hfollows ((StoredIndex.kept_follows hmirrors.ordered _ fun _ _ =>
    ⟨hsharp, hfoundApart⟩).directed query.ascends)

/-- In a reachable store without floating-point numbers a query for the entries of an index, with a
condition on the key, delivers rows of exactly those entries of the walk over the index, `walked`,
that the constraints accept. None of them comes twice exactly if no key of them starts with two
choices of the lookup that differ, `Apart`; then each of them comes once, in key order and in the
direction of ORDER BY. The literals that the lookup is made from name leading components of the key,
and no two integers are rounded to a number in them, `hliterals`. -/
theorem collect_indexTarget {planned : Condition} {terms : KeyTerms}
    (hreach : env.store.Reachable fun fields => Value.entriesExact fields = true)
    (hwhole : query.Whole)
    (hundisturbed : { env with sink := .collecting : Env }.Undisturbed query context signals)
    (hquery : query.ListsEntries name) (hindex : env.store.index? name = some index)
    (hfields : index.definition.fields ≠ [])
    (hplanned : query.plannedFilter env.options = some planned)
    (hterms : KeyTerms.ofCondition (.stored index) planned = .ok terms)
    (hliterals : ∀ leading ∈ (terms.lookup index.definition.isComposite).runs,
      leading.IsSharp ∧ leading.length ≤ index.definition.fields.length)
    {walked : List IndexEntry}
    (hwalk : Index.orderedWalk (.stored index) query.ascends (!index.definition.ignoreNulls) =
      .ok walked) :
    ∃ entries : List IndexEntry,
      (collect env query context signals).1 =
        .ok (entries.map (IndexEntry.row index.definition.isComposite)) ∧
      (∀ entry, entry ∈ entries ↔ entry ∈ walked ∧ terms.keys.accepts entry.key = true) ∧
      (entries.Nodup ↔
        (terms.lookup index.definition.isComposite).Apart (· ∈ entries.map (·.key))) ∧
      ((terms.lookup index.definition.isComposite).Apart (· ∈ entries.map (·.key)) →
        entries.Perm (walked.filter fun entry => terms.keys.accepts entry.key) ∧
        StoredIndex.Follows query.ascends entries) := by
  have hmem : index ∈ env.store.indexes := List.mem_of_find?_eq_some hindex
  have hmirrors := hreach.mirrors (fun _ h => h) index hmem
  have hlists := hreach.listsOnce index hmem
  -- where the walk is not refused, the lookup is not refused either
  obtain ⟨values, hvalues, -⟩ := Steps.bind_eq_ok.mp hwalk
  have hread : index.failing = false := StoredIndex.not_failing_of_read hvalues
  obtain ⟨walked', hwalk', hwalkedOnce, hwalked⟩ := StoredIndex.exists_orderedWalk hmirrors.ordered
    hlists hread query.ascends (!index.definition.ignoreNulls)
  obtain rfl : walked = walked' := Except.ok.inj (hwalk.symm.trans hwalk')
  obtain ⟨entries, hcollect, hentries, honce, hfollows⟩ := collect_accepted hreach hwhole
    hundisturbed hquery hindex hread hfields hplanned hterms hliterals hwalked
  refine ⟨entries, hcollect, hentries, honce, fun hapart => ⟨?_, hfollows hapart⟩⟩
  refine (List.perm_ext_iff_of_nodup (honce.mpr hapart) (hwalkedOnce.filter _)).mpr ?_
  intro entry
  rw [hentries, List.mem_filter]

end

/-! ## Choices of different length -/

/-- Three records with the index `pointsIndex` on two fields. -/
def pointsStore : Store := .ofChanges [
  .createClass "A" none 1 false,
  .createIndex "A.xy" .notUnique ⟨"A", ["x", "y"], false, .keys⟩,
  .insert "A" [("x", .int 1), ("y", .int 2)],
  .insert "A" [("x", .int 2), ("y", .int 1)],
  .insert "A" [("x", .int 1), ("y", .int 3)]]

/-- The index on the fields `x` and `y`. -/
def pointsIndex : StoredIndex := (pointsStore.index? "A.xy").get (by decide +kernel)

/-- An executor over `pointsStore`. -/
def pointsEnv : Env := ⟨pointsStore, .default, fun _ => 0, .collecting⟩

/-- The entries with `key IN choices`, in descending order of their keys. -/
def pointsQuery (choices : List Value) : SelectQuery :=
  { SelectQuery.ofTarget (.index "A.xy") with
    filter := some (.compare ⟨.field ⟨keyColumn, []⟩, .oneOf, .literal (.list choices)⟩)
    orderBy := [⟨⟨keyColumn, []⟩, .desc⟩] }

/-- What the filter `key IN choices` says about the key. -/
def pointsTerms (choices : List Value) : KeyTerms :=
  KeyTerms.empty.addChoices (choices.map (KeyTerms.components true))

/-- The query with the given `choices` asks for entries, and its filter can be planned. -/
def PointsPlanned (choices : List Value) : Prop :=
  (pointsQuery choices).ListsEntries "A.xy" ∧
    ∃ planned, (pointsQuery choices).plannedFilter pointsEnv.options = some planned ∧
      KeyTerms.ofCondition (.stored pointsIndex) planned = .ok (pointsTerms choices)

/-- Every list of choices is `PointsPlanned`. -/
theorem pointsPlanned (choices : List Value) : PointsPlanned choices := by
  have hcomposite : (Index.stored pointsIndex).definition.isComposite = true := by decide +kernel
  refine ⟨⟨rfl, rfl, rfl, by simp [pointsQuery]⟩, _, rfl, ?_⟩
  show (KeyTerms.add (.stored pointsIndex) .empty _ >>= fun terms => .ok terms) = _
  unfold KeyTerms.add
  rw [hcomposite]
  rfl

/-- The identities of the records behind the rows of entries. -/
def entryRids (rows : List Row) : List Rid :=
  rows.flatMap fun row => (row.fields.get ridColumn).links

/-- The row of an entry names its record, as `entryRids` reads it. -/
theorem entryRids_map (composite : Bool) (entries : List IndexEntry) :
    entryRids (entries.map (IndexEntry.row composite)) = entries.map (·.rid) := by
  unfold entryRids
  rw [List.flatMap_map, List.map_eq_flatMap]
  rfl

/-- The choices `[1, 2]` and `2` have different lengths, and no key starts with both: each accepted
entry comes once, in descending order. -/
theorem collect_points :
    ∃ walked entries : List IndexEntry,
      pointsStore.Reachable (fun fields => Value.entriesExact fields = true) ∧
      pointsStore.index? "A.xy" = some pointsIndex ∧
      PointsPlanned [.list [.int 1, .int 2], .int 2] ∧
      Index.orderedWalk (.stored pointsIndex) false true = .ok walked ∧
      (collect pointsEnv (pointsQuery [.list [.int 1, .int 2], .int 2]) .empty []).1 =
        .ok (entries.map (IndexEntry.row true)) ∧
      entries.map (·.rid) = [⟨1, 1⟩, ⟨1, 0⟩] ∧
      entries.Perm (walked.filter fun entry =>
        (pointsTerms [.list [.int 1, .int 2], .int 2]).keys.accepts entry.key) ∧
      StoredIndex.Follows false entries := by
  have hreach : pointsStore.Reachable fun fields => Value.entriesExact fields = true :=
    Store.reachable_ofChanges (by decide +kernel)
  have hdefinition : pointsIndex.definition = ⟨"A", ["x", "y"], false, .keys⟩ := by decide +kernel
  obtain ⟨hquery, planned, hplanned, hterms⟩ := pointsPlanned [.list [.int 1, .int 2], .int 2]
  obtain ⟨walked, hwalk⟩ : ∃ walked, Index.orderedWalk (.stored pointsIndex) false true =
      .ok walked := ⟨_, rfl⟩
  obtain ⟨entries, hrows, -, honce, hall⟩ := @collect_indexTarget pointsEnv _ .empty [] "A.xy"
    pointsIndex planned _ hreach ⟨rfl, rfl, rfl, rfl, rfl⟩ ⟨rfl, rfl, rfl, rfl, rfl, rfl⟩ hquery
    (Option.some_get _).symm (by simp [hdefinition]) hplanned hterms
    (by
      rw [hdefinition]
      intro leading hleading
      have hchoices : leading ∈ [[.int 1, .int 2], [.int 2]] := hleading
      simp only [List.mem_cons, List.not_mem_nil, or_false] at hchoices
      rcases hchoices with rfl | rfl
      · exact ⟨.of_isExact rfl, Nat.le_refl 2⟩
      · exact ⟨.of_isExact rfl, Nat.le_succ 1⟩) walked (by rw [hdefinition]; exact hwalk)
  rw [hdefinition] at hrows honce hall
  have hrids : entries.map (·.rid) = [⟨1, 1⟩, ⟨1, 0⟩] := by
    have hdelivered : (collect pointsEnv (pointsQuery [.list [.int 1, .int 2], .int 2]) .empty
        []).1.toOption.map entryRids = some [⟨1, 1⟩, ⟨1, 0⟩] := by decide +kernel
    rw [hrows] at hdelivered
    exact (entryRids_map true entries).symm.trans (Option.some.inj hdelivered)
  -- no entry comes twice, as no identity does
  have hnodup : entries.Nodup := by
    refine List.Nodup.of_map (·.rid) ?_
    rw [hrids]
    decide
  exact ⟨walked, entries, hreach, (Option.some_get _).symm, pointsPlanned _, hwalk, hrows, hrids,
    hall (honce.mp hnodup)⟩

/-- The choice `1` names fewer components than `[1, 2]`, and the key `[1, 2]` starts with both: of
the two accepted entries the one with this key comes twice, before and behind the other one. -/
theorem collect_overlapping :
    ∃ walked : List IndexEntry,
      pointsStore.Reachable (fun fields => Value.entriesExact fields = true) ∧
      pointsStore.index? "A.xy" = some pointsIndex ∧
      PointsPlanned [.int 1, .list [.int 1, .int 2]] ∧
      Index.orderedWalk (.stored pointsIndex) false true = .ok walked ∧
      (walked.filter fun entry =>
        (pointsTerms [.int 1, .list [.int 1, .int 2]]).keys.accepts entry.key).map (·.rid) =
          [⟨1, 2⟩, ⟨1, 0⟩] ∧
      (collect pointsEnv (pointsQuery [.int 1, .list [.int 1, .int 2]]) .empty
        []).1.toOption.map entryRids = some [⟨1, 0⟩, ⟨1, 2⟩, ⟨1, 0⟩] := by
  refine ⟨[⟨[.int 2, .int 1], ⟨1, 1⟩⟩, ⟨[.int 1, .int 3], ⟨1, 2⟩⟩, ⟨[.int 1, .int 2], ⟨1, 0⟩⟩],
    Store.reachable_ofChanges (by decide +kernel), (Option.some_get _).symm,
    pointsPlanned _, rfl, ?_, ?_⟩
  · decide +kernel
  · decide +kernel

end RecordQuery
