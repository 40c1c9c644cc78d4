import RecordQuery.Proofs.Plans
import RecordQuery.Proofs.SerialRun

/-!
# `RecordQuery.Proofs.Distinct`: no record is delivered twice

The scans of an opened plan give a record once (`Store.ScansOnce`), and so do its lookups, which
share the list of identities seen. Scans and lookups share nothing. A fan-out scans the clusters of
a superclass and looks up in its subclasses, and an index of the subclass may be one that was
declared for the superclass. Then it holds the superclass's own records too, and these come twice.

`Env.Overlaps` is this situation: the opened plan of the query scans a qualifying record and looks
it up as well. `rids_nodup_iff_not_overlaps` proves that it is the exact condition for an identity
to be delivered twice. The one direction holds for every serial query over a class, however it ends.
The other one needs that nothing hinders the query, since a run that stops early may stop before the
second time.

Parallel runs are left out of the statement (`hserial`). They scan clusters and look nothing up.

The theorems:

* `rids_of_runQuery`: what a serial run delivers comes from the scans and the lookups of its stream.
* `rids_nodup_iff_not_overlaps`: when every identity is delivered once.
* `deliveredRids_inheritedIndex`: a store and a query where one is delivered twice.
-/

set_option autoImplicit false

namespace RecordQuery

/-! ## Identities of rows

Rows are compared by the identities of their records. Rows of groups have none, so groups are left
out of the statements. -/

/-- The identities of rows, rows whose `rid` is `none` left out. -/
def rowRids (rows : List Row) : List Rid := rows.filterMap (·.rid)

/-- The identities that `runQuery` delivers for a query, in order. -/
def deliveredRids (env : Env) (query : SelectQuery) (context : Context) (signals : Signals) :
    List Rid :=
  rowRids (runQuery env query context signals).2.rows

/-- Whether a record qualifies: `evaluator.item?` gives it as a `WorkItem`. -/
def Evaluator.accepts (evaluator : Evaluator) (record : Record) : Bool :=
  (evaluator.item? record).isSome

/-- The records of the items that `evaluator.item?` makes are those that `evaluator.accepts`. -/
theorem map_record_filterMap (evaluator : Evaluator) (records : List Record) :
    (records.filterMap evaluator.item?).map (·.record) = records.filter evaluator.accepts := by
  induction records with
  | nil => rfl
  | cons record records ih =>
      cases hitem : evaluator.item? record with
      | none =>
          rw [List.filterMap_cons_none hitem, ih,
            List.filter_cons_of_neg (by simp [Evaluator.accepts, hitem])]
      | some item =>
          rw [List.filterMap_cons_some hitem, List.map_cons, ih,
            List.filter_cons_of_pos (by simp [Evaluator.accepts, hitem]),
            (Evaluator.item?_eq_some_iff.mp hitem).1]

/-- A record of a class target keeps its identity in the row that `query.project` makes, whatever
the columns are. -/
theorem rid_project {query : SelectQuery} {className : String} {polymorphic : Bool}
    (htarget : query.target = .ofClass className polymorphic) (scope : Scope) (record : Record) :
    (query.project scope record).rid = some record.rid := by
  unfold SelectQuery.project
  rw [htarget]
  dsimp only
  split <;> rfl

/-- The `rowRids` of the rows that `setup.row` makes of some items are the identities of their
records. -/
theorem rowRids_map {setup : PipelineSetup} {evaluator : Evaluator} {className : String}
    {polymorphic : Bool} (htarget : setup.query.target = .ofClass className polymorphic)
    (items : List WorkItem) :
    rowRids (items.map (setup.row evaluator)) = items.map (·.record.rid) := by
  unfold rowRids
  rw [List.filterMap_map, ← List.filterMap_eq_map]
  congr 1
  funext item
  exact rid_project htarget _ _

/-! ## Overlaps

A stream gives a record once for each time that it is scanned, and once for all lookups together. As
no plan for a class scans a record twice, it comes twice exactly if it is both scanned and looked
up. -/

/-- The opened plan of a query both scans and looks up a record that qualifies: the contents of
`stream` have it among `scanned` and its identity among `looked`. -/
structure Overlap (env : Env) (query : SelectQuery) (context : Context) (plan : Plan)
    (source : Source) (stream : Stream) (record : Record) : Prop where
  /-- The query has the plan. -/
  planned : env.plan query context = .ok plan
  /-- The plan reads records. -/
  reads : plan.source = .rows source
  /-- The plan opens the stream. -/
  opened : ∃ ordered, plan.opened env.store query source = .ok (stream, ordered)
  /-- The record is scanned. -/
  scanned : .ok record ∈ stream.contents.scanned
  /-- The record is looked up. -/
  looked : record.rid ∈ stream.contents.looked
  /-- The record qualifies. -/
  accepted : (Evaluator.ofPlan env.store context.vars query plan).accepts record = true

/-- There is an `Overlap`: some qualifying record is both scanned and looked up. -/
def Env.Overlaps (env : Env) (query : SelectQuery) (context : Context) : Prop :=
  ∃ plan source stream record, Overlap env query context plan source stream record

section

variable {store : Store} {c : Contents} {seen : List Rid} {out : List Record}
  {accepted : Record → Bool}

/-- Records drawn from a stream without heads (`hheld`) come from its scans and its lookups,
`fromScan` and `fromLookup`, and some may be held by then. -/
theorem perm_of_drawn {c' : Contents} (hheld : c.held = [])
    (h : Transfer store.load c [] out c' seen) :
    ∃ fromScan fromLookup dropped, Moves store.load c [] out c' seen fromScan fromLookup dropped ∧
      (out ++ c'.held).Perm (fromScan ++ fromLookup) := by
  obtain ⟨fromScan, fromLookup, dropped, hmoves⟩ := h
  have hrecords := hmoves.records
  rw [hheld, List.nil_append] at hrecords
  exact ⟨fromScan, fromLookup, dropped, hmoves, hrecords⟩

/-- No accepted record is drawn twice unless it is both scanned and looked up. `honce` keeps the
scans apart, and `Moves.nodup` the lookups. -/
theorem nodup_of_not_overlap
    (honce : store.ScansOnce c fun _ => True) (hheld : c.held = []) {c' : Contents}
    (h : Transfer store.load c [] out c' seen)
    (hapart : ∀ r, .ok r ∈ c.scanned → r.rid ∈ c.looked → accepted r = false) :
    ((out.filter accepted).map (·.rid)).Nodup := by
  obtain ⟨fromScan, fromLookup, dropped, hmoves, hperm⟩ := perm_of_drawn hheld h
  have hscanned {r : Record} (hr : r ∈ fromScan) : .ok r ∈ c.scanned :=
    hmoves.scanned.mem_iff.mpr (List.mem_append_left _ (List.mem_map.mpr ⟨r, hr, rfl⟩))
  have hscanNodup : (fromScan.map (·.rid)).Nodup := by
    have hrecords := (hmoves.scanned.filterMap Except.toOption).map (fun r : Record => r.rid)
    rw [List.filterMap_append, List.map_append] at hrecords
    have hfirst := (List.nodup_append.mp (hrecords.nodup_iff.mp honce.1)).1
    rwa [← Store.scannedRecords, Store.scannedRecords_map] at hfirst
  -- a record from a scan and a record from a lookup have different identities
  have hall : (((fromScan ++ fromLookup).filter accepted).map (·.rid)).Nodup := by
    rw [List.filter_append, List.map_append, List.nodup_append]
    refine ⟨hscanNodup.sublist (List.filter_sublist.map _),
      hmoves.nodup.sublist (List.filter_sublist.map _), ?_⟩
    intro rid hrid other hother heq
    obtain ⟨r, hr, rfl⟩ := List.mem_map.mp hrid
    obtain ⟨s, hs, rfl⟩ := List.mem_map.mp hother
    obtain ⟨hr, haccepted⟩ := List.mem_filter.mp hr
    obtain ⟨hs, -⟩ := List.mem_filter.mp hs
    have hlooked : s.rid ∈ c.looked := hmoves.looked.mem_iff.mpr
      (List.mem_append_left _ (List.mem_append_left _ (List.mem_map.mpr ⟨s, hs, rfl⟩)))
    rw [hapart r (hscanned hr) (heq ▸ hlooked)] at haccepted
    cases haccepted
  have hdrawn := (hperm.filter accepted).map (·.rid)
  rw [List.filter_append, List.map_append] at hdrawn
  exact (List.nodup_append.mp (hdrawn.nodup_iff.mpr hall)).1

/-- Once nothing is left, an accepted record that is both scanned and looked up has been drawn
twice, as scans never ask the `seen` set that lookups share. -/
theorem not_nodup_of_overlap (hsound : store.Sound)
    (honce : store.ScansOnce c fun _ => True) (hheld : c.held = [])
    (h : Transfer store.load c [] out .empty seen) {r : Record} (hscanned : .ok r ∈ c.scanned)
    (hlooked : r.rid ∈ c.looked) (haccepted : accepted r = true) :
    ¬((out.filter accepted).map (·.rid)).Nodup := by
  obtain ⟨fromScan, fromLookup, dropped, hmoves, hperm⟩ := perm_of_drawn hheld h
  have hlive := (honce.2 r (Store.mem_scannedRecords.mpr hscanned)).1
  have hfromScan : r ∈ fromScan := by
    have hmem := hmoves.scanned.mem_iff.mp hscanned
    simpa [Contents.empty] using hmem
  -- the lookup has found the record, since nothing was seen before it
  have hfromLookup : r ∈ fromLookup := by
    have hnoted := hmoves.noted r.rid (by simpa [Contents.empty] using hmoves.looked.mem_iff.mp hlooked)
    have hload := hsound.load_eq_some_iff.mpr ⟨hlive, rfl⟩
    rcases hmoves.added r.rid hnoted with hseen | hnone | ⟨s, hs, hrid⟩
    · cases hseen
    · rw [hload] at hnone
      cases hnone
    · obtain rfl : s = r := by
        have hsload := hmoves.live s hs
        rw [hrid, hload] at hsload
        exact (Option.some.inj hsload).symm
      exact hs
  intro hnodup
  have hout : out.Perm (fromScan ++ fromLookup) := by simpa [Contents.empty] using hperm
  have hdrawn := (hout.filter accepted).map (fun r : Record => r.rid)
  rw [List.filter_append, List.map_append] at hdrawn
  have hdisjoint := (List.nodup_append.mp (hdrawn.nodup_iff.mp hnodup)).2.2
  exact hdisjoint r.rid (List.mem_map_of_mem (List.mem_filter.mpr ⟨hfromScan, haccepted⟩))
    r.rid (List.mem_map_of_mem (List.mem_filter.mpr ⟨hfromLookup, haccepted⟩)) rfl

end

/-! ## Delivered identities

The identities that a query delivers are those of accepted records drawn from its stream, and the
overlap of the opened plan decides whether one of them comes twice. -/

section

variable {env : Env} {query : SelectQuery} {context : Context} {signals : Signals}
  {className : String} {polymorphic : Bool}

/-- `deliverCount` delivers no identity, as the row of a count has none. -/
theorem deliverCount_rids (clusters : List ClusterId) (name : String) {begun : Run}
    (hbegun : begun.rows = []) :
    rowRids ((deliverCount env query clusters name).run.run begun).2.rows = [] := by
  obtain ⟨after, hrun, hrows⟩ := deliverCount_run env query clusters name begun
  rw [hrun]
  dsimp only
  rw [hrows, hbegun, List.nil_append]
  -- the only row there can be is a computed one
  cases env.store.count clusters with
  | error failure => rfl
  | ok count =>
      show rowRids ((if query.skipCount = 0 then _ else []) ++ []) = []
      split <;> rfl

/-- What a serial query over a class delivers, without GROUP BY, EXPAND and UNWIND, are identities
of qualifying records that were drawn from the stream its plan opens, none of them more often than
it was drawn. The rows taken may be fewer than `out`, as SKIP and LIMIT cut them and a refusing sink
ends the run. -/
theorem rids_of_runQuery (hsound : env.store.Sound)
    (htarget : query.target = .ofClass className polymorphic) (hgroup : query.groupBy = [])
    (hexpand : query.expand = none) (hunwind : query.unwind = [])
    (hserial : ∀ plan, env.plan query context = .ok plan → plan.parallel = false) :
    deliveredRids env query context signals = [] ∨
      ∃ plan source stream ordered out rest seen, env.plan query context = .ok plan ∧
        plan.source = .rows source ∧ plan.opened env.store query source = .ok (stream, ordered) ∧
        Transfer env.store.load stream.contents [] out rest seen ∧
        (deliveredRids env query context signals).Subperm ((out.filter
          (Evaluator.ofPlan env.store context.vars query plan).accepts).map (·.rid)) := by
  unfold deliveredRids
  rcases runQuery_cases env query context signals with
    ⟨failure, -, -, hrows⟩ | ⟨plan, begun, hplan, hbegun, hvars, -, hrows, -⟩
  · exact .inl (by rw [hrows]; rfl)
  rw [hrows]
  unfold runPlan
  cases hsource : plan.source with
  | count clusters name => exact .inl (deliverCount_rids clusters name hbegun)
  | rows source =>
      rw [hserial plan hplan]
      dsimp only
      rcases @runSerial_delivers env query plan source begun hexpand hunwind hbegun with
      hnone | ⟨stream, ordered, out, items, hopened, hdelivers⟩
      · exact .inl (by rw [hnone]; rfl)
      obtain ⟨⟨last, seen, hdraws⟩, hitems, hdelivered⟩ := hdelivers
      rw [hvars] at hitems hdelivered
      have hload : ∀ rid r, env.store.load rid = some r → r.rid = rid := fun rid r hr =>
        (hsound.load_eq_some_iff.mp hr).2
      obtain ⟨htransfer, -⟩ := Stream.draw_transfer hload (Plan.opened_isFresh hopened).1 hdraws
      unfold Delivered at hdelivered
      split at hdelivered
      next hgrouping =>
        -- without GROUP BY there are aggregates, and so there are columns
        have hcolumns : query.projections ≠ [] := by
          rintro hnone
          simp [Env.setup, SelectQuery.isGrouping, SelectQuery.hasAggregates, hgroup, hnone]
            at hgrouping
        refine .inl (List.filterMap_eq_nil_iff.mpr (hdelivered hcolumns))
      · obtain ⟨chosen, hchosen, hsub, -⟩ := hdelivered
        refine .inr ⟨plan, source, stream, ordered, out, _, seen, hplan, hsource, hopened, htransfer, ?_⟩
        rw [hchosen, rowRids_map htarget, ← map_record_filterMap, List.map_map]
        obtain ⟨picked, hperm, hpicked⟩ := hsub.trans hitems.subperm
        exact ⟨_, hperm.map _, hpicked.map _⟩

/-- A serial query over a class, without groups, EXPAND and UNWIND, delivers no identity twice
unless `env.Overlaps query context`: its opened plan both scans and looks up a record that
qualifies. Where nothing hinders the query and no record fails, such a record is delivered twice, so
the condition is exact. -/
theorem rids_nodup_iff_not_overlaps {admits : Fields → Prop}
    (hreach : env.store.Reachable admits)
    (htarget : query.target = .ofClass className polymorphic) (hgroup : query.groupBy = [])
    (hexpand : query.expand = none) (hunwind : query.unwind = [])
    (hserial : ∀ plan, env.plan query context = .ok plan → plan.parallel = false) :
    (¬env.Overlaps query context → (deliveredRids env query context signals).Nodup) ∧
      (env.Unhindered query context signals →
        (∀ plan, env.plan query context = .ok plan → ∀ r, env.store.Live r →
          ∃ lets, (Evaluator.ofPlan env.store context.vars query plan).qualify r = .ok lets) →
        ((deliveredRids env query context signals).Nodup ↔ ¬env.Overlaps query context)) := by
  have hsound := hreach.sound
  have honce {plan : Plan} {source : Source} {stream : Stream} {ordered : Bool}
      (hplan : env.plan query context = .ok plan) (hsource : plan.source = .rows source)
      (hopened : plan.opened env.store query source = .ok (stream, ordered)) :
      env.store.ScansOnce stream.contents fun _ => True :=
    hsound.classPlan_scans (plan_ofClass htarget hplan).2.1 hsource hopened
  -- what is delivered is drawn, and drawn twice only where a scan and a lookup meet
  have hnodup (hapart : ¬env.Overlaps query context) :
      (deliveredRids env query context signals).Nodup := by
    rcases @rids_of_runQuery env query context signals className polymorphic hsound htarget hgroup
      hexpand hunwind hserial with
      hnone | ⟨plan, source, stream, ordered, out, rest, seen, hplan, hsource, hopened, htransfer, hsub⟩
    · rw [hnone]
      exact .nil
    · obtain ⟨picked, hperm, hpicked⟩ := hsub
      refine hperm.nodup_iff.mp (List.Nodup.sublist hpicked ?_)
      refine nodup_of_not_overlap (honce hplan hsource hopened) (Plan.opened_isFresh hopened).2.1
        htransfer fun r hscanned hlooked => ?_
      by_contra haccepted
      exact hapart ⟨plan, source, stream, r, hplan, hsource, ⟨ordered, hopened⟩, hscanned, hlooked,
        by simpa using haccepted⟩
  refine ⟨hnodup, fun hunhindered hqualify => ⟨fun hrids hoverlaps => ?_, hnodup⟩⟩
  obtain ⟨plan, source, stream, r, hplan, hsource, ⟨ordered, hopened⟩, hscanned, hlooked,
    haccepted⟩ := hoverlaps
  have hlive : ∀ s, stream.contents.Gives env.store.load s → env.store.Live s :=
    fun _ hs => hsound.live_of_classPlan (plan_ofClass htarget hplan).2.1 hsource hopened hs
  obtain ⟨seen, out, chosen, -, htransfer, hrows, hchosen⟩ := runQuery_drains hunhindered
    (fun rid s hs => (hsound.load_eq_some_iff.mp hs).2) hplan (hserial plan hplan) hsource hopened
    (hsound.records_of_plan hunhindered.scans hopened) fun s hs => hqualify plan hplan s (hlive s hs)
  refine not_nodup_of_overlap hsound (honce hplan hsource hopened) (Plan.opened_isFresh hopened).2.1
    htransfer hscanned hlooked haccepted ?_
  unfold deliveredRids at hrids
  rw [hrows, rowRids_map htarget] at hrids
  rw [← map_record_filterMap, List.map_map]
  exact (hchosen.map _).nodup_iff.mp hrids

end

/-! ## An index of a superclass -/

/-- Class `A` with a subclass `B`, the indexes `A.x` and `B.y`, and a record of the superclass. The
index on the superclass serves lookups in the subclass as well. -/
def inheritedIndexStore : Store := .ofChanges [
  .createClass "A" none 1 false,
  .createClass "B" (some "A") 1 false,
  .createIndex "A.x" .notUnique ⟨"A", ["x"], false, .keys⟩,
  .createIndex "B.y" .notUnique ⟨"B", ["y"], false, .keys⟩,
  .insert "A" [("x", .int 1)]]

/-- The records of the superclass with `x = 1 OR y = 2`: the subclass has lookups for both, one of
them in the index of the superclass, whose own records are scanned. -/
def inheritedIndexQuery : SelectQuery :=
  { SelectQuery.ofTarget (.ofClass "A" true) with
    filter := some (.or (.compare ⟨.field ⟨"x", []⟩, .equals, .literal (.int 1)⟩)
      (.compare ⟨.field ⟨"y", []⟩, .equals, .literal (.int 2)⟩)) }

/-- The environment over `inheritedIndexStore`, with a sink that takes every row. -/
def inheritedIndexEnv : Env := ⟨inheritedIndexStore, .default, fun _ => 0, .collecting⟩

/-- `inheritedIndexQuery` delivers the record of the superclass twice: once by the scan of its own
cluster, and once by the lookup in the index that the subclass inherits. -/
theorem deliveredRids_inheritedIndex :
    deliveredRids inheritedIndexEnv inheritedIndexQuery .empty [] = [⟨1, 0⟩, ⟨1, 0⟩] := by
  decide +kernel

/-- The record is both scanned and looked up: `Env.Overlaps` holds of a query that is `Unhindered`
in a store that changes reach. -/
theorem overlaps_inheritedIndex :
    inheritedIndexEnv.store.Reachable (fun _ => True) ∧
      inheritedIndexEnv.Unhindered inheritedIndexQuery .empty [] ∧
      inheritedIndexEnv.Overlaps inheritedIndexQuery .empty := by
  have hreach : inheritedIndexEnv.store.Reachable fun _ => True :=
    Store.reachable_ofChanges fun change _ => by cases change <;> trivial
  have hunhindered : inheritedIndexEnv.Unhindered inheritedIndexQuery .empty [] :=
    ⟨⟨rfl, rfl, rfl, rfl, rfl⟩, rfl, rfl, ⟨rfl, rfl, rfl, rfl⟩, by decide +kernel⟩
  have htarget : inheritedIndexQuery.target = .ofClass "A" true := rfl
  have hserial : ∀ plan, inheritedIndexEnv.plan inheritedIndexQuery .empty = .ok plan →
      plan.parallel = false := by
    intro plan hplan
    by_contra hparallel
    cases ((plan_ofClass htarget hplan).2.2 (by simpa using hparallel)).1
  have hqualify : ∀ plan, inheritedIndexEnv.plan inheritedIndexQuery .empty = .ok plan →
      ∀ r, inheritedIndexEnv.store.Live r → ∃ lets, (Evaluator.ofPlan inheritedIndexEnv.store
        Context.empty.vars inheritedIndexQuery plan).qualify r = .ok lets := by
    intro plan hplan r _
    refine Evaluator.qualify_ok fun condition hcondition => ?_
    have hfilter : plan.filter = inheritedIndexQuery.filter :=
      filter_of_plan htarget hplan
    cases hfilter.symm.trans hcondition
    simp only [Condition.evaluate, Comparison.evaluate, Operator.apply]
    split
    next hfails => cases hfails
    all_goals exact ⟨_, rfl⟩
  have h := @rids_nodup_iff_not_overlaps inheritedIndexEnv inheritedIndexQuery .empty [] "A" true _
    hreach htarget rfl rfl rfl hserial
  refine ⟨hreach, hunhindered, ?_⟩
  -- without the overlap the run could not have delivered an identity twice
  by_contra hnot
  have hnodup := (h.2 hunhindered hqualify).mpr hnot
  revert hnodup
  decide +kernel

end RecordQuery
