import RecordQuery.Proofs.Lookups
import RecordQuery.Proofs.Plans

/-!
# `RecordQuery.Proofs.Coverage`: plans give every record that qualifies

A plan for a class reads its clusters, looks up the condition in the class or in its subclasses, or
walks an index. This module takes as given that lookups give the record in question
(`Store.LooksUp`), and shows that then every kind of plan does, whichever indexes fail. What cannot
be looked up is scanned. A fan-out scans the clusters of classes that have no lookups, and a plan
whose source is unavailable opens its fallback.

`Store.LooksUp` is about one record and all classes between its own and the target. Where it holds
is a question of the condition and of the indexes, and is answered in other modules
(`RecordQuery.Proofs.Answers` and others). For a walk over an index something else is needed: the
index has to hold all records of the class (`Store.HoldsAll`), under whichever keys. Both are stated
for indexes that leave no nulls out where it matters. A walk is only planned over such an index.

The theorems:

* `Sound.holdsAll_of_reflects`: indexes that follow the records hold all of them.
* `Sound.gives_of_fanOut`: a fan-out gives the records below its class.
* `Sound.gives_of_classPlan`: a plan for a class gives the records of the class.
* `Sound.exists_opened`: a plan for a class opens a stream, whichever indexes fail.
-/

set_option autoImplicit false

namespace RecordQuery

/-! ## Walks

A walk gives all entries of its index, so it gives every record that is in the index under some key.
-/

namespace StoredIndex

/-- An `orderedWalk` with nulls gives the entries of null keys first when it goes upwards, and last
when it goes downwards. -/
theorem orderedWalk_ok {index : StoredIndex} {ascending : Bool} {entries : List IndexEntry}
    (hok : Index.orderedWalk (.stored index) ascending true = .ok entries) :
    let nulls := Bucket.allEntries (index.buckets.elements.filter fun b => b.key.isNull)
    let values := Bucket.allEntries (index.buckets.elements.filter fun b => !b.key.isNull)
    entries = if ascending then nulls ++ values else values.reverse ++ nulls := by
  obtain ⟨values, hvalues, hok⟩ := Steps.bind_eq_ok.mp hok
  obtain ⟨nulls, hnulls, hok⟩ := Steps.bind_eq_ok.mp hok
  obtain rfl := eq_of_read hvalues
  obtain rfl := eq_of_read hnulls
  cases hok
  cases ascending <;> rfl

/-- An `orderedWalk` with nulls finds every record that the buckets of the index hold, as it gives
all entries in one order or the other. -/
theorem mem_orderedWalk {index : StoredIndex} {ascending : Bool} {entries : List IndexEntry}
    (hok : Index.orderedWalk (.stored index) ascending true = .ok entries) {key : Key} {rid : Rid}
    (hholds : index.buckets.Holds key rid) : rid ∈ entries.map (·.rid) := by
  refine List.mem_map.mpr ⟨⟨key, rid⟩, ?_, rfl⟩
  have hentry : (⟨key, rid⟩ : IndexEntry) ∈
        Bucket.allEntries (index.buckets.elements.filter fun b => b.key.isNull) ∨
      ⟨key, rid⟩ ∈
        Bucket.allEntries (index.buckets.elements.filter fun b => !b.key.isNull) := by
    rw [mem_allEntries, mem_allEntries, listed_filter fun key => key.isNull,
      listed_filter fun key => !key.isNull]
    cases hnull : key.isNull
    · exact .inr ⟨hholds, rfl⟩
    · exact .inl ⟨hholds, rfl⟩
  rw [orderedWalk_ok hok]
  split
  · exact List.mem_append.mpr hentry
  · exact List.mem_append.mpr (hentry.symm.imp_left List.mem_reverse.mpr)

end StoredIndex

/-- The inversion of `sortIndex?`: the index that gives the order asked for is declared for the
class or above it, has the fields of the order in front, and leaves no nulls out. So it holds all
records of the class. -/
theorem Store.sortIndex?_some {store : Store} {className : String} {query : SelectQuery}
    {index : Index} {ascending : Bool}
    (h : store.sortIndex? className query = some (index, ascending)) :
    (∀ item ∈ query.orderBy, item.field.isLong = false ∧ item.field.isAttribute = false) ∧
      (∃ stored ∈ store.indexesCovering className (query.orderBy.map (·.field.first)),
        index = .stored stored) ∧
      index.definition.ignoreNulls = false ∧ index.matchesOrder query.orderBy = true ∧
      ascending = index.visitsUpwards query.orderBy := by
  unfold sortIndex? at h
  split at h
  · cases h
  next hshort =>
    obtain ⟨found, hhead, hfound⟩ := Option.map_eq_some_iff.mp h
    cases hfound
    have hmem := List.mem_of_mem_head? hhead
    -- the usable indexes are sorted, and the first one is taken
    rw [(stableSort_perm _ _).mem_iff] at hmem
    obtain ⟨hcovering, husable⟩ := List.mem_filter.mp hmem
    obtain ⟨stored, hstored, rfl⟩ := List.mem_map.mp hcovering
    obtain ⟨hnulls, hmatches⟩ := (Bool.and_eq_true _ _).mp husable
    refine ⟨fun item hitem => ?_, ⟨stored, hstored, rfl⟩, by simpa using hnulls, hmatches, rfl⟩
    have hitems : ¬∃ item ∈ query.orderBy,
        (item.field.isLong || item.field.isAttribute) = true := by
      rwa [← List.any_eq_true]
    simpa using fun hlong => hitems ⟨item, hitem, hlong⟩

namespace Store

/-- Every index that leaves no nulls out (`ignoreNulls`) holds the live records of its class, each
under some key. -/
def HoldsAll (store : Store) : Prop :=
  ∀ index ∈ store.indexes, index.definition.ignoreNulls = false → ∀ r, store.Live r →
    store.schema.Below r.className index.definition.className →
    ∃ key, index.buckets.Holds key r.rid

/-- Indexes that reflect a store hold all of its records, which is `HoldsAll`: every record
contributes some key, as every value has a component. -/
theorem Sound.holdsAll_of_reflects {p : Key → Prop} {store : Store} (h : store.Sound)
    (hreflects : ∀ index ∈ store.indexes, index.Reflects p store)
    (hkeys : ∀ r, store.Live r → r.KeysIn p) : store.HoldsAll := by
  intro index hindex hnulls r hr hbelow
  obtain ⟨key, hkey⟩ : ∃ key, StoredIndex.KeyOf index.definition r key :=
    exists_forall₂ fun _ _ => List.exists_mem_of_ne_nil _ (StoredIndex.components_ne_nil _ _)
  have hheld : (∃ key, index.buckets.Holds key r.rid ∧ True) ↔
      ∃ key, StoredIndex.KeyOf index.definition r key ∧ True :=
    (hreflects index hindex).exists_holds_iff h hnulls hr (hkeys r hr) hbelow
      fun _ _ _ _ _ => Iff.rfl
  obtain ⟨key, hholds, -⟩ := hheld.mpr ⟨key, hkey, trivial⟩
  exact ⟨key, hholds⟩

/-- Indexes that mirror a store with exact records (`hexact`) hold all of them: then every key is
one that they reflect. -/
theorem Sound.holdsAll_of_mirrors {store : Store} (h : store.Sound)
    (hmirrors : ∀ index ∈ store.indexes, index.Mirrors store)
    (hexact : ∀ r, store.Live r → r.isExact = true) : store.HoldsAll :=
  h.holdsAll_of_reflects (fun index hindex => (hmirrors index hindex).reflects hexact)
    fun r hr _ _ hkey => hkey.itemsIn (Value.entriesIn_of_entriesExact (hexact r hr))

/-! ## Fan-outs

The record is of a class somewhere below the target. The induction is on the depth of the fan-out,
and follows the one branch of the tree that leads to that class. -/

section

variable {store : Store} {vars : Fields} {target : String} {condition : Condition}
  {query : SelectQuery} {range : RidRange} {merges : Bool} {r : Record}

/-- Wherever lookups for the condition are chosen in a class between the target and the class of the
record, what they give includes the record. The hypothesis `readBranches … = .ok` stands for indexes
that can be read. -/
def LooksUp (store : Store) (vars : Fields) (target : String) (condition : Condition)
    (query : SelectQuery) (r : Record) : Prop :=
  ∀ className selection rids sorted, store.schema.Below className target →
    store.schema.Below r.className className →
    store.selectLookups? vars className condition query = some selection →
    readBranches selection.branches = .ok (rids, sorted) → r.rid ∈ rids

/-- Opened lookups give the record: its identity is among those found, and `load` gives the live
record for it. -/
theorem Sound.gives_of_union (h : store.Sound) (hr : store.Live r)
    (hlooks : store.LooksUp vars target condition query r) {className : String}
    (htarget : store.schema.Below className target)
    (hbelow : store.schema.Below r.className className) {selection : Selection}
    (hselect : store.selectLookups? vars className condition query = some selection)
    {stream : Stream} {sorted : Bool}
    (hopened : (Source.union selection.branches).opened store merges =
      .ok (.stream stream sorted)) : stream.contents.Gives store.load r := by
  obtain ⟨rids, ordered, hread, rfl, -⟩ := opened_union hopened
  exact .inr (.inr ⟨hlooks _ _ _ _ htarget hbelow hselect hread, h.load_eq_some_iff.mpr ⟨hr, rfl⟩⟩)

/-- A scan gives the live records of its clusters within its range. `hnone`: no scan fails. -/
theorem Sound.gives_of_scan (h : store.Sound) (hnone : store.failingCluster = none)
    (hr : store.Live r) {scan : ScanPlan} {items : List ScanItem}
    (hitems : store.scanClusters scan.clusters scan.direction scan.range = .ok items)
    (hcluster : r.rid.cluster ∈ scan.clusters) (hrange : scan.range.contains r.rid = true) :
    (Stream.scan items true).contents.Gives store.load r :=
  .inr (.inl (h.scanned_of_live hitems hnone hr hcluster hrange))

/-- A class that `isAbstract` has no live records of its own, so a fan-out need not scan it. -/
theorem Sound.className_ne_of_isAbstract (h : store.Sound) (hr : store.Live r) {className : String}
    (habstract : store.schema.isAbstract className = true) : r.className ≠ className := by
  rintro rfl
  have hcluster := h.cluster_of_live hr
  rw [h.abstractEmpty habstract] at hcluster
  cases hcluster

/-- A fan-out below a class gives the records of the subclasses, where the fan-outs further below
give theirs (`hbelow`). A subclass without a part is abstract and has no subclasses, so no record is
below it. -/
theorem Sound.gives_of_fansBelow (h : store.Sound) (hr : store.Live r)
    (hlooks : store.LooksUp vars target condition query r) {below : String → Option FanOut}
    (hbelow : ∀ sub inner sorted, below sub = some (inner, sorted) →
      store.schema.Below sub target → store.schema.Below r.className sub → ∀ streams opened,
      Source.openedParts store merges inner = .ok (.ok (streams, opened)) →
      (Stream.contentsOfAll streams).Gives store.load r)
    {subs : List String} {fan : FanOut}
    (hfan : FansBelow store vars condition query below subs fan)
    (hsubs : ∀ sub ∈ subs, store.schema.Below sub target) {sub : String} (hsub : sub ∈ subs)
    (hunder : store.schema.Below r.className sub) {streams : List Stream} {opened : Bool}
    (hopened : Source.openedParts store merges fan.1 = .ok (.ok (streams, opened))) :
    (Stream.contentsOfAll streams).Gives store.load r := by
  induction hfan generalizing streams opened with
  | nil => cases hsub
  | @lookups first subs selection parts sorted hselect _ ih =>
      obtain ⟨hfirstBelow, hsubs⟩ := List.forall_mem_cons.mp hsubs
      obtain ⟨stream, _, others, rest, hfirst, hothers, rfl, -⟩ := openedParts_cons hopened
      refine Contents.gives_append.mpr ?_
      -- the record is below this subclass or below one of those behind it
      rcases List.mem_cons.mp hsub with rfl | hsub
      · exact .inl (h.gives_of_union hr hlooks hfirstBelow hunder hselect hfirst)
      · exact .inr (ih hsubs hsub hothers)
  | @nested first subs inner parts innerSorted sorted hinner _ ih =>
      obtain ⟨hfirstBelow, hsubs⟩ := List.forall_mem_cons.mp hsubs
      obtain ⟨stream, opened, others, rest, hfirst, hothers, rfl, -⟩ := openedParts_cons hopened
      refine Contents.gives_append.mpr ?_
      rcases List.mem_cons.mp hsub with rfl | hsub
      · obtain ⟨innerStreams, hinnerOpened, rfl⟩ := opened_fanOut hfirst
        rw [contents_fanOut]
        exact .inl (hbelow sub inner innerSorted hinner hfirstBelow hunder innerStreams opened
          hinnerOpened)
      · exact .inr (ih hsubs hsub hothers)
  | @hollow first subs parts sorted habstract hleaf _ ih =>
      rcases List.mem_cons.mp hsub with rfl | hsub
      · -- an abstract class has no record of its own, and without subclasses none below it
        rcases h.forest.below_cases hunder with heq | ⟨leaf, hmem, -⟩
        · exact absurd heq (h.className_ne_of_isAbstract hr habstract)
        · rw [hleaf] at hmem
          cases hmem
      · exact ih (List.forall_mem_cons.mp hsubs).2 hsub hopened

/-- A fan-out gives the records below its class within its range. The induction is on the steps that
it has left. A record of the class itself is scanned, and one of a subclass is given by
`Sound.gives_of_fansBelow`. -/
theorem Sound.gives_of_fanOut (h : store.Sound) (hnone : store.failingCluster = none)
    (hr : store.Live r) (hlooks : store.LooksUp vars target condition query r)
    (hrange : range.contains r.rid = true) {steps : Nat} {className : String} {fan : FanOut}
    (hfan : store.fanOutWithin vars condition query range steps className = some fan)
    (htarget : store.schema.Below className target)
    (hbelow : store.schema.Below r.className className) {streams : List Stream} {opened : Bool}
    (hopened : Source.openedParts store merges fan.1 = .ok (.ok (streams, opened))) :
    (Stream.contentsOfAll streams).Gives store.load r := by
  induction steps generalizing className fan streams opened with
  | zero => cases hfan
  | succ steps ih =>
      obtain ⟨parts, sorted, hparts, hcases⟩ := fanOutWithin_succ hfan
      have hsubs {others : List Stream} {rest : Bool} (hne : r.className ≠ className)
          (hothers : Source.openedParts store merges parts = .ok (.ok (others, rest))) :
          (Stream.contentsOfAll others).Gives store.load r := by
        obtain ⟨sub, hsub, hunder⟩ := (h.forest.below_cases hbelow).resolve_left hne
        refine h.gives_of_fansBelow hr hlooks (fun _ _ _ hinner hsubBelow hunder _ _ hinnerOpened =>
          ih hinner hsubBelow hunder hinnerOpened) hparts (fun sub hsub => ?_) hsub hunder hothers
        exact (h.forest.below_of_mem_subclasses hsub).trans htarget
      rcases hcases with ⟨habstract, rfl⟩ | ⟨-, rfl⟩
      · exact hsubs (h.className_ne_of_isAbstract hr habstract) hopened
      · obtain ⟨stream, _, others, rest, hfirst, hothers, rfl, -⟩ := openedParts_cons hopened
        obtain ⟨items, hitems, rfl, -⟩ := opened_scan hfirst
        refine Contents.gives_append.mpr ?_
        -- a record is in the clusters of the class itself, or in those of a subclass
        by_cases hown : r.className = className
        · refine .inl (h.gives_of_scan hnone hr hitems ?_ hrange)
          exact (h.mem_targetClusters_iff hr).mpr (by simpa [ClassFilter.accepts] using hown)
        · exact .inr (hsubs hown hothers)

/-- The plan of a class target gives the records of the class that the lookups give (`hlooks`) and
that lie within the range of the condition (`hrange`). It does so from its source and from its
fallback. The cases are those of `ClassPlan`. A count gives no records and is excluded by
`hsource`. -/
theorem Sound.gives_of_classPlan (h : store.Sound) (hnone : store.failingCluster = none)
    (hall : store.HoldsAll) (hr : store.Live r) {className : String} {polymorphic : Bool}
    (hdeclared : store.schema.declares className = true)
    (hclass : ClassFilter.accepts ⟨className, polymorphic⟩ store.schema r.className = true)
    {filter : Option Condition} (hrange : (ridRangeOf filter).contains r.rid = true)
    (hlooks : ∀ condition, filter = some condition →
      store.LooksUp vars className condition query r)
    {plan : Plan} (hplan : ClassPlan store vars className polymorphic filter query plan)
    {source : Source} (hsource : plan.source = .rows source) {stream : Stream} {ordered : Bool}
    (hopened : plan.opened store query source = .ok (stream, ordered)) :
    stream.contents.Gives store.load r := by
  have hcluster : r.rid.cluster ∈ store.schema.targetClusters className polymorphic :=
    (h.mem_targetClusters_iff hr).mpr hclass
  have hbelow : store.schema.Below r.className className := by
    cases polymorphic with
    | false =>
        obtain rfl : r.className = className := by simpa [ClassFilter.accepts] using hclass
        exact .refl _
    | true => exact h.forest.isSubclassOf_iff.mp hclass
  -- the scan of the class, planned or fallen back to, meets every record of it
  have hscan {items : List ScanItem}
      (hitems : store.scanClusters (query.classScan store className polymorphic filter).clusters
        (query.classScan store className polymorphic filter).direction
        (query.classScan store className polymorphic filter).range = .ok items) :
      (Stream.scan items true).contents.Gives store.load r :=
    h.gives_of_scan hnone hr hitems hcluster hrange
  rcases Plan.opened_cases hopened with
    ⟨sorted, hopened, -⟩ | ⟨_, scan, items, -, hfallback, hitems, rfl, -⟩
  · cases hplan with
    | count column hcolumn hcount hunchecked =>
        rw [hcount] at hsource
        cases hsource
    | lookups condition selection hfilter hselect hreads =>
        cases hreads.source.symm.trans hsource
        exact h.gives_of_union hr (hlooks condition hfilter) (.refl _) hbelow hselect hopened
    | fanOut condition parts sortedParts hpolymorphic hfilter hfan hreads =>
        cases hreads.source.symm.trans hsource
        obtain ⟨streams, hparts, rfl⟩ := opened_fanOut hopened
        rw [contents_fanOut]
        exact h.gives_of_fanOut hnone hr (hlooks condition hfilter) hrange hfan (.refl _) hbelow
          hparts
    | walk index ascending hindex hreads =>
        cases hreads.source.symm.trans hsource
        obtain ⟨entries, hwalk, rfl, -⟩ := opened_walk hopened
        obtain ⟨-, ⟨stored, hstored, rfl⟩, hnulls, -, -⟩ := sortIndex?_some hindex
        obtain ⟨hmem, habove, -⟩ := h.mem_indexesCovering hstored
        obtain ⟨key, hholds⟩ := hall stored hmem hnulls r hr (hbelow.trans habove)
        rw [hnulls] at hwalk
        exact .inr (.inr ⟨StoredIndex.mem_orderedWalk hwalk hholds,
          h.load_eq_some_iff.mpr ⟨hr, rfl⟩⟩)
    | scan hreads =>
        cases hreads.source.symm.trans hsource
        obtain ⟨items, hitems, rfl, -⟩ := opened_scan hopened
        exact hscan hitems
  · rw [hplan.fallback_eq hsource hfallback] at hitems
    exact hscan hitems

/-! ## Opening

A plan fails to open only where a cluster is missing or an index fails. Clusters of a sound store
are not missing, and lookups whose indexes fail have a fallback that scans. -/

/-- `openedParts` succeeds when each part can be opened. An index that cannot be read is no failure
of opening; it makes the fan-out `unavailable`. -/
theorem exists_openedParts {parts : List Source}
    (h : ∀ part ∈ parts, ∃ opened, part.opened store merges = .ok opened) :
    ∃ opened, Source.openedParts store merges parts = .ok opened := by
  induction parts with
  | nil => exact ⟨_, rfl⟩
  | cons part parts ih =>
      obtain ⟨first, hfirst⟩ := h part List.mem_cons_self
      obtain ⟨others, hothers⟩ := ih fun part hpart => h part (List.mem_cons_of_mem _ hpart)
      unfold Source.openedParts
      rw [hfirst, hothers]
      cases first with
      | unavailable failure => exact ⟨_, rfl⟩
      | stream stream sorted => cases others <;> exact ⟨_, rfl⟩

/-- A fan-out can be opened when each of its `parts` can. -/
theorem exists_opened_fanOut {parts : List Source}
    (h : ∀ part ∈ parts, ∃ opened, part.opened store merges = .ok opened) :
    ∃ opened, (Source.fanOut parts).opened store merges = .ok opened := by
  obtain ⟨opened, hopened⟩ := exists_openedParts h
  unfold Source.opened
  rw [hopened]
  cases opened <;> exact ⟨_, rfl⟩

/-- A scan of the `targetClusters` of a class can be opened, as these exist. -/
theorem Sound.exists_opened_scan (h : store.Sound) (className : String) (polymorphic : Bool)
    (direction : ScanDirection) :
    ∃ opened, (Source.scan ⟨store.schema.targetClusters className polymorphic, direction,
      range⟩).opened store merges = .ok opened := by
  obtain ⟨items, hitems⟩ := h.exists_scanned
    (fun _ hid => h.cluster_of_targetClusters hid) direction range
  unfold Source.opened
  rw [hitems]
  exact ⟨_, rfl⟩

/-- The parts that `FansBelow` relates to some subclasses can be opened where those further below
can (`hbelow`). -/
theorem exists_opened_of_fansBelow {below : String → Option FanOut}
    (hbelow : ∀ sub inner, below sub = some inner →
      ∀ part ∈ inner.1, ∃ opened, part.opened store merges = .ok opened)
    {subs : List String} {fan : FanOut}
    (hfan : FansBelow store vars condition query below subs fan) :
    ∀ part ∈ fan.1, ∃ opened, part.opened store merges = .ok opened := by
  induction hfan with
  | nil => simp
  | lookups _ _ ih => exact List.forall_mem_cons.mpr ⟨⟨_, rfl⟩, ih⟩
  | nested hinner _ ih =>
      exact List.forall_mem_cons.mpr ⟨exists_opened_fanOut (hbelow _ _ hinner), ih⟩
  | hollow _ _ _ ih => exact ih

/-- The parts of a fan-out can be opened. Each of them is a scan of clusters that exist, lookups, or
a fan-out further below. The induction is on `steps`. -/
theorem Sound.exists_opened_of_fanOut (h : store.Sound) {steps : Nat} {className : String}
    {fan : FanOut}
    (hfan : store.fanOutWithin vars condition query range steps className = some fan) :
    ∀ part ∈ fan.1, ∃ opened, part.opened store merges = .ok opened := by
  induction steps generalizing className fan with
  | zero => cases hfan
  | succ steps ih =>
      obtain ⟨parts, sorted, hparts, hcases⟩ := fanOutWithin_succ hfan
      have hsubs := exists_opened_of_fansBelow (fun _ _ hinner => ih hinner) hparts
      rcases hcases with ⟨-, rfl⟩ | ⟨-, rfl⟩
      · exact hsubs
      · exact List.forall_mem_cons.mpr ⟨h.exists_opened_scan className false .ascending, hsubs⟩

/-- The plan of a class target opens a stream, whichever indexes fail: where its source is
`unavailable`, it has a fallback. -/
theorem Sound.exists_opened (h : store.Sound) {className : String} {polymorphic : Bool}
    {filter : Option Condition} {plan : Plan}
    (hplan : ClassPlan store vars className polymorphic filter query plan) {source : Source}
    (hsource : plan.source = .rows source) :
    ∃ stream ordered, plan.opened store query source = .ok (stream, ordered) := by
  -- only what has a fallback can be unavailable
  have hfallback (merges : Bool) : (∃ opened, source.opened store merges = .ok opened) ∧
      (plan.fallback = none → ∀ failure, source.opened store merges ≠ .ok (.unavailable failure)) := by
    cases hplan with
    | count column hcolumn hcount hunchecked =>
        rw [hcount] at hsource
        cases hsource
    | lookups condition selection hfilter hselect hreads =>
        cases hreads.source.symm.trans hsource
        exact ⟨⟨_, rfl⟩, fun hnone => by cases hnone.symm.trans hreads.fallback⟩
    | fanOut condition parts sortedParts hpolymorphic hfilter hfan hreads =>
        cases hreads.source.symm.trans hsource
        exact ⟨exists_opened_fanOut (h.exists_opened_of_fanOut hfan),
          fun hnone => by cases hnone.symm.trans hreads.fallback⟩
    | walk index ascending hindex hreads =>
        cases hreads.source.symm.trans hsource
        exact ⟨⟨_, rfl⟩, fun hnone => by cases hnone.symm.trans hreads.fallback⟩
    | scan hreads =>
        cases hreads.source.symm.trans hsource
        refine ⟨h.exists_opened_scan className polymorphic _, fun _ failure hopened => ?_⟩
        unfold Source.opened at hopened
        obtain ⟨items, -, hstream⟩ := Steps.map_ok hopened
        cases hstream
  obtain ⟨⟨opened, hopened⟩, hnone⟩ := hfallback (plan.orderSatisfied && !query.orderBy.isEmpty)
  unfold Plan.opened
  rw [hopened]
  cases opened with
  | stream stream sorted => exact ⟨_, _, rfl⟩
  | unavailable failure =>
      cases hscan : plan.fallback with
      | none => exact absurd hopened (hnone hscan failure)
      | some scan =>
          obtain rfl := hplan.fallback_eq hsource hscan
          obtain ⟨items, hitems⟩ := h.exists_scanned
            (fun _ hid => @Sound.cluster_of_targetClusters _ h className polymorphic _ hid)
            query.scanDirection (ridRangeOf filter)
          exact ⟨.scan items true, query.orderBy.isEmpty, congrArg (Except.map _) hitems⟩

end

end Store

end RecordQuery
