import RecordQuery.Plan.Planner
import RecordQuery.Proofs.Mirror
import RecordQuery.Proofs.Opening
import RecordQuery.Proofs.Scans
import RecordQuery.Proofs.Walks

/-!
# `RecordQuery.Proofs.Plans`: the plans of class targets

`Store.plan` tries several ways to serve a class target, one after the other: a count, lookups in
the class, a fan-out over its subclasses, a walk over an index, and at last a scan. `ClassPlan`
lists what may come of it, with one constructor for each way and with all that the later proofs need
to know of the plan (`Plan.Reads`). `plan_ofClass` is the inversion of `Store.plan`: every plan of a
class target is one of these. So no other module opens the planner.

A fan-out is a tree of its own. A class has a scan of its own clusters, and for every subclass
lookups, or the fan-out below it, or nothing if the subclass is abstract and has no subclasses.
`FansBelow` describes this for a list of subclasses, and `fanOutWithin_succ` for a class.

The second half of the module is about the records that a plan scans. `Store.ScansOnce` says that
they are live and that none of them is scanned twice. Of the parts of a fan-out this holds because
two subclasses have no cluster in common. It says nothing of what lookups give besides, and a record
that is scanned may be looked up as well.

The theorems:

* `plan_ofClass`, `planTarget_ok`: every plan of a class target, and of a target, is one of a few.
* `fanOutWithin_succ`: what a fan-out consists of.
* `Sound.fanOut_scans`, `Sound.classPlan_scans`: no record is scanned twice by a fan-out, nor by any
  plan of a class target.
-/

set_option autoImplicit false

namespace RecordQuery

/-! ## The choice of a plan

Each function of the planner has its inversion here. What a later proof needs of a plan is a field
of `Plan.Reads`, or one of the cases of `ClassPlan` and `TargetPlan`. -/

/-- The condition of a query as it is planned: with its range conditions folded where the options
say so. `Condition.foldRanges` does the folding, and `options.foldRanges` asks for it. -/
def SelectQuery.plannedFilter (query : SelectQuery) (options : Options) : Option Condition :=
  query.filter.map fun condition =>
    if options.foldRanges then condition.foldRanges.1 else condition

/-- What a plan reads and how its records are checked. `foldedPairs` and `parallel` are left
open. -/
structure Plan.Reads (plan : Plan) (source : Source) (filter : Option Condition)
    (classFilter : Option ClassFilter) (fallback : Option ScanPlan)
    (orderSatisfied fullySorted : Bool) : Prop where
  /-- The source. -/
  source : plan.source = .rows source
  /-- The condition. -/
  filter : plan.filter = filter
  /-- The class of the records. -/
  classFilter : plan.classFilter = classFilter
  /-- The scan to fall back to. -/
  fallback : plan.fallback = fallback
  /-- Whether the source gives the order asked for. -/
  orderSatisfied : plan.orderSatisfied = orderSatisfied
  /-- Whether that order comes from an index. -/
  fullySorted : plan.fullySorted = fullySorted

/-- The scan that serves a class target: the `targetClusters` of the class, the direction that
`orderBy` asks for, and the `RidRange` that the condition allows. -/
def SelectQuery.classScan (query : SelectQuery) (store : Store) (className : String)
    (polymorphic : Bool) (filter : Option Condition) : ScanPlan :=
  ⟨store.schema.targetClusters className polymorphic, query.scanDirection, ridRangeOf filter⟩

/-- The plans of a class target. All but `count` check the records against `filter`, and all but
`count` and `scan` check their class and fall back to `query.classScan`. The scan needs no class
filter, as its clusters are those of the class. -/
inductive ClassPlan (store : Store) (vars : Fields) (className : String) (polymorphic : Bool)
    (filter : Option Condition) (query : SelectQuery) (plan : Plan) : Prop
  /-- Records are counted without being read. -/
  | count (column : String) (hcolumn : query.countColumn? = some column)
      (hsource : plan.source =
        .count (store.schema.targetClusters className polymorphic) column)
      (hunchecked : plan.filter = none)
  /-- Lookups in the class. -/
  | lookups (condition : Condition) (selection : Selection) (hfilter : filter = some condition)
      (hselect : store.selectLookups? vars className condition query = some selection)
      (hreads : plan.Reads (.union selection.branches) filter (some ⟨className, polymorphic⟩)
        (some (query.classScan store className polymorphic filter))
        (query.orderBy.isEmpty || selection.fullySorted) selection.fullySorted)
  /-- Lookups in the subclasses. -/
  | fanOut (condition : Condition) (parts : List Source) (sorted : Bool)
      (hpolymorphic : polymorphic = true) (hfilter : filter = some condition)
      (hfan : store.fanOut? vars className condition query (ridRangeOf filter) =
        some (parts, sorted))
      (hreads : plan.Reads (.fanOut parts) filter (some ⟨className, polymorphic⟩)
        (some (query.classScan store className polymorphic filter))
        (query.orderBy.isEmpty || sorted) (sorted && !query.orderBy.isEmpty))
  /-- A walk over an index. -/
  | walk (index : Index) (ascending : Bool)
      (hindex : store.sortIndex? className query = some (index, ascending))
      (hreads : plan.Reads (.sortedWalk index ascending) filter (some ⟨className, polymorphic⟩)
        (some (query.classScan store className polymorphic filter)) true true)
  /-- A scan. -/
  | scan (hreads : plan.Reads (.scan (query.classScan store className polymorphic filter)) filter
        none none query.scanSatisfiesOrder false)

/-- If a plan for a class has a fallback, that is `query.classScan`. -/
theorem ClassPlan.fallback_eq {store : Store} {vars : Fields} {className : String}
    {polymorphic : Bool} {filter : Option Condition} {query : SelectQuery} {plan : Plan}
    (hplan : ClassPlan store vars className polymorphic filter query plan) {source : Source}
    (hsource : plan.source = .rows source) {scan : ScanPlan} (hscan : plan.fallback = some scan) :
    scan = query.classScan store className polymorphic filter := by
  cases hplan with
  | count column hcolumn hcount hunchecked =>
      rw [hcount] at hsource
      cases hsource
  | lookups condition selection hfilter hselect hreads =>
      exact Option.some.inj (hscan.symm.trans hreads.fallback)
  | fanOut condition parts sortedParts hpolymorphic hfilter hfan hreads =>
      exact Option.some.inj (hscan.symm.trans hreads.fallback)
  | walk index ascending hindex hreads =>
      exact Option.some.inj (hscan.symm.trans hreads.fallback)
  | scan hreads => cases hreads.fallback.symm.trans hscan

/-- A plan for a class whose source is a scan is `query.classScan`, the scan of the class's
clusters. -/
theorem ClassPlan.scan_eq {store : Store} {vars : Fields} {className : String}
    {polymorphic : Bool} {filter : Option Condition} {query : SelectQuery} {plan : Plan}
    (hplan : ClassPlan store vars className polymorphic filter query plan) {scan : ScanPlan}
    (hsource : plan.source = .rows (.scan scan)) :
    scan = query.classScan store className polymorphic filter := by
  cases hplan with
  | count column hcolumn hcount hunchecked => cases hcount.symm.trans hsource
  | lookups condition selection hfilter hselect hreads => cases hreads.source.symm.trans hsource
  | fanOut condition parts sorted hpolymorphic hfilter hfan hreads =>
      cases hreads.source.symm.trans hsource
  | walk index ascending hindex hreads => cases hreads.source.symm.trans hsource
  | scan hreads =>
      cases hreads.source.symm.trans hsource
      rfl

/-- Plans that differ only in `foldedPairs` and `parallel` serve the same target. -/
theorem ClassPlan.congr {store : Store} {vars : Fields} {className : String}
    {polymorphic : Bool} {filter : Option Condition} {query : SelectQuery} {plan : Plan}
    (h : ClassPlan store vars className polymorphic filter query plan) (pairs : Nat)
    (parallel : Bool) :
    ClassPlan store vars className polymorphic filter query
      { plan with foldedPairs := pairs, parallel } := by
  have hreads {source : Source} {filter : Option Condition} {classFilter : Option ClassFilter}
      {fallback : Option ScanPlan} {orderSatisfied fullySorted : Bool}
      (h : plan.Reads source filter classFilter fallback orderSatisfied fullySorted) :
      Plan.Reads { plan with foldedPairs := pairs, parallel } source filter classFilter fallback
        orderSatisfied fullySorted :=
    ⟨h.source, h.filter, h.classFilter, h.fallback, h.orderSatisfied, h.fullySorted⟩
  cases h with
  | count column hcolumn hsource hunchecked => exact .count column hcolumn hsource hunchecked
  | lookups condition selection hfilter hselect h =>
      exact .lookups condition selection hfilter hselect (hreads h)
  | fanOut condition parts sorted hpolymorphic hfilter hfan h =>
      exact .fanOut condition parts sorted hpolymorphic hfilter hfan (hreads h)
  | walk index ascending hindex h => exact .walk index ascending hindex (hreads h)
  | scan h => exact .scan (hreads h)

/-- What `classLookups?` finds is a `ClassPlan`: its lookups are lookups in the class or, where
there are none, in its subclasses. -/
theorem classLookups_some {store : Store} {vars : Fields} {className : String}
    {polymorphic : Bool} {condition : Condition} {query : SelectQuery} {plan : Plan}
    (h : store.classLookups? vars className polymorphic condition query
      (query.classScan store className polymorphic (some condition)) = some plan) :
    ClassPlan store vars className polymorphic (some condition) query plan := by
  unfold Store.classLookups? at h
  dsimp only at h
  split at h
  next selection hselect =>
    cases h
    exact .lookups condition selection rfl hselect ⟨rfl, rfl, rfl, rfl, rfl, rfl⟩
  · split at h
    next hbelow =>
      obtain ⟨⟨parts, sorted⟩, hfan, hplan⟩ := Option.map_eq_some_iff.mp h
      cases hplan
      exact .fanOut condition parts sorted (by simp_all) rfl hfan ⟨rfl, rfl, rfl, rfl, rfl, rfl⟩
    · cases h

/-- The inversion of `planClass`: the class is declared, and the plan is a count, lookups, a
fan-out, a walk over an index, or a scan. -/
theorem planClass_ok {store : Store} {vars : Fields} {className : String} {polymorphic : Bool}
    {filter : Option Condition} {query : SelectQuery} {plan : Plan}
    (h : store.planClass vars className polymorphic filter query = .ok plan) :
    store.schema.declares className = true ∧
      ClassPlan store vars className polymorphic filter query plan := by
  unfold Store.planClass at h
  split at h
  · cases h
  next hdeclared =>
    refine ⟨by simpa using hdeclared, ?_⟩
    dsimp only at h
    split at h
    -- the choice is made in this order, and a scan is what is left
    next column hcolumn =>
      cases h
      exact .count column hcolumn rfl rfl
    · split at h
      next lookups hlookups =>
        cases h
        obtain ⟨condition, rfl, hlookups⟩ := Option.bind_eq_some_iff.mp hlookups
        exact classLookups_some hlookups
      · split at h
        next index ascending hwalk =>
          cases h
          split at hwalk
          · cases hwalk
          · exact .walk index ascending hwalk ⟨rfl, rfl, rfl, rfl, rfl, rfl⟩
        · cases h
          exact .scan ⟨rfl, rfl, rfl, rfl, rfl, rfl⟩

/-- `allowsParallel` says yes only where workers are asked for, without ORDER BY, and for a scan. -/
theorem allowsParallel_true {store : Store} {options : Options} {plan : Plan}
    {query : SelectQuery} {inTransaction : Bool}
    (h : store.allowsParallel options plan query inTransaction = .ok true) :
    query.parallel = true ∧ query.orderBy = [] ∧ ∃ scan, plan.source = .rows (.scan scan) := by
  unfold Store.allowsParallel at h
  split at h
  · cases h
  next hasked =>
    have hasked : query.parallel = true ∧ query.orderBy = [] := by simp_all
    refine ⟨hasked.1, hasked.2, ?_⟩
    split at h
    next scan hsource => exact ⟨scan, hsource⟩
    · cases h

/-- `Store.plan` checks the query, folds its condition or leaves it, plans the target, and allows a
worker per cluster or not. `pairs` is the number of pairs folded, which nothing depends on. -/
theorem plan_eq (store : Store) (options : Options) (query : SelectQuery) (vars : Fields)
    (inTransaction : Bool) :
    ∃ pairs, store.plan options query vars inTransaction = (do
      query.validate
      let planned ← store.planTarget vars (query.plannedFilter options) query
      let parallel ← store.allowsParallel options planned query inTransaction
      return { planned with foldedPairs := pairs, parallel }) := by
  unfold Store.plan SelectQuery.plannedFilter
  cases query.filter with
  | none => exact ⟨0, rfl⟩
  | some condition =>
      cases options.foldRanges with
      | false => exact ⟨0, rfl⟩
      | true => exact ⟨condition.foldRanges.2, rfl⟩

/-- The inversion of `Store.plan`: the query is valid, and the plan is that of the target, with what
was folded and whether it has workers. -/
theorem plan_ok {store : Store} {options : Options} {query : SelectQuery} {vars : Fields}
    {inTransaction : Bool} {plan : Plan}
    (h : store.plan options query vars inTransaction = .ok plan) :
    query.validate = .ok ⟨⟩ ∧ ∃ planned pairs parallel,
      store.planTarget vars (query.plannedFilter options) query = .ok planned ∧
      store.allowsParallel options planned query inTransaction = .ok parallel ∧
      plan = { planned with foldedPairs := pairs, parallel } := by
  obtain ⟨pairs, heq⟩ := plan_eq store options query vars inTransaction
  rw [heq] at h
  obtain ⟨⟨⟩, hvalid, h⟩ := Steps.bind_eq_ok.mp h
  obtain ⟨planned, hplanned, h⟩ := Steps.bind_eq_ok.mp h
  obtain ⟨parallel, hparallel, h⟩ := Steps.bind_eq_ok.mp h
  exact ⟨hvalid, planned, pairs, parallel, hplanned, hparallel, (Except.ok.inj h).symm⟩

/-- The other direction of `plan_ok`: a valid query whose target has a plan has one. -/
theorem plan_of_planned {store : Store} {options : Options} {query : SelectQuery} {vars : Fields}
    {inTransaction : Bool} {planned : Plan} {parallel : Bool} (hvalid : query.validate = .ok ⟨⟩)
    (hplanned : store.planTarget vars (query.plannedFilter options) query = .ok planned)
    (hparallel : store.allowsParallel options planned query inTransaction = .ok parallel) :
    ∃ pairs, store.plan options query vars inTransaction =
      .ok { planned with foldedPairs := pairs, parallel } := by
  obtain ⟨pairs, heq⟩ := plan_eq store options query vars inTransaction
  refine ⟨pairs, ?_⟩
  rw [heq, hvalid]
  simp only [bind, Except.bind, hplanned, hparallel]
  rfl

/-- Only a plan that scans may have workers. -/
theorem allowsParallel_of_source {store : Store} {options : Options} {plan : Plan}
    {query : SelectQuery} {inTransaction : Bool}
    (hsource : ∀ scan, plan.source ≠ .rows (.scan scan)) :
    store.allowsParallel options plan query inTransaction = .ok false := by
  unfold Store.allowsParallel
  split
  · rfl
  · split
    next scan hscan => exact absurd hscan (hsource scan)
    · rfl

/-- The plans of a target. For targets other than classes only `source` is described, which is what
`opened` reads. -/
inductive TargetPlan (store : Store) (vars : Fields) (filter : Option Condition)
    (query : SelectQuery) (plan : Plan) : Prop
  /-- A class has one of its plans. -/
  | ofClass (className : String) (polymorphic : Bool)
      (htarget : query.target = .ofClass className polymorphic)
      (hdeclared : store.schema.declares className = true)
      (hclass : ClassPlan store vars className polymorphic filter query plan)
  /-- Clusters are scanned. -/
  | scan (scan : ScanPlan) (hsource : plan.source = .rows (.scan scan))
  /-- Records are read one by one. -/
  | records (rids : List Rid) (hsource : plan.source = .rows (.records rids))
  /-- An index of the store shows its entries. -/
  | index (stored : StoredIndex) (hstored : stored ∈ store.indexes) (lookup : Option IndexQuery)
      (keys : KeyFilter) (ascending : Bool)
      (hsource : plan.source = .rows (.indexTarget (.stored stored) lookup keys ascending))

/-- The inversion of `planTarget`: every plan of a target is one of `TargetPlan`. -/
theorem planTarget_ok {store : Store} {vars : Fields} {filter : Option Condition}
    {query : SelectQuery} {plan : Plan} (h : store.planTarget vars filter query = .ok plan) :
    TargetPlan store vars filter query plan := by
  unfold Store.planTarget at h
  split at h
  next className polymorphic htarget =>
    obtain ⟨hdeclared, hclass⟩ := planClass_ok h
    exact .ofClass className polymorphic htarget hdeclared hclass
  · unfold Store.planClusters at h
    split at h
    · cases h
    · cases h
      exact .scan _ rfl
  next name =>
    unfold Store.planIndexTarget at h
    split at h
    · cases h
    next stored hstored =>
      have hmem : stored ∈ store.indexes := List.mem_of_find?_eq_some hstored
      dsimp only at h
      split at h
      · cases h
      · -- whatever the condition says of the key, the source is the index
        cases filter with
        | none =>
            cases h
            exact .index stored hmem _ _ _ rfl
        | some condition =>
            obtain ⟨terms, -, h⟩ := Steps.bind_eq_ok.mp h
            cases h
            exact .index stored hmem _ _ _ rfl
  · cases h
    exact .records _ rfl
  · split at h
    · cases h
      exact .records _ rfl
    · cases h

/-- The inversion of `Store.plan` for a class target. The plan is one of `ClassPlan`, for the
condition as it is planned. Workers are only used where they are asked for, without ORDER BY, and
for a scan. -/
theorem plan_ofClass {store : Store} {options : Options} {query : SelectQuery} {vars : Fields}
    {inTransaction : Bool} {plan : Plan} {className : String} {polymorphic : Bool}
    (htarget : query.target = .ofClass className polymorphic)
    (h : store.plan options query vars inTransaction = .ok plan) :
    store.schema.declares className = true ∧
      ClassPlan store vars className polymorphic (query.plannedFilter options) query plan ∧
      (plan.parallel = true → query.parallel = true ∧ query.orderBy = [] ∧
        ∃ scan, plan.source = .rows (.scan scan)) := by
  obtain ⟨-, planned, pairs, parallel, hplanned, hparallel, rfl⟩ := plan_ok h
  unfold Store.planTarget at hplanned
  rw [htarget] at hplanned
  obtain ⟨hdeclared, hclass⟩ := planClass_ok hplanned
  refine ⟨hdeclared, hclass.congr pairs parallel, ?_⟩
  rintro rfl
  exact allowsParallel_true hparallel

/-- A query with a `countColumn?` has no condition, so a count need not check any. -/
theorem filter_of_countColumn {query : SelectQuery} {column : String}
    (h : query.countColumn? = some column) : query.filter = none := by
  unfold SelectQuery.countColumn? at h
  split at h
  next hfilter _ _ _ _ _ => exact hfilter
  · cases h

/-- A query without groups does not only count, so it has no `countColumn?` and its plan is not a
count. -/
theorem SelectQuery.countColumn?_of_not_isGrouping {query : SelectQuery}
    (h : query.isGrouping = false) : query.countColumn? = none := by
  unfold countColumn?
  split
  next hprojections => simp [isGrouping, hasAggregates, hprojections, Projection.isAggregate] at h
  · rfl

/-- Where `hselect` finds lookups for the class of a query, its plan reads them: they are tried
before the other ways. -/
theorem source_of_selection {store : Store} {options : Options} {query : SelectQuery}
    {vars : Fields} {inTransaction : Bool} {plan : Plan} {className : String} {polymorphic : Bool}
    (htarget : query.target = .ofClass className polymorphic)
    (h : store.plan options query vars inTransaction = .ok plan) {planned : Condition}
    (hplanned : query.plannedFilter options = some planned) {selection : Selection}
    (hselect : store.selectLookups? vars className planned query = some selection) :
    plan.source = .rows (.union selection.branches) := by
  obtain ⟨-, made, pairs, parallel, hmade, -, rfl⟩ := plan_ok h
  show made.source = _
  -- a condition rules out a count, and then lookups in the class come first
  have hcolumn : query.countColumn? = none := by
    cases hcolumn : query.countColumn? with
    | none => rfl
    | some column => simp [SelectQuery.plannedFilter, filter_of_countColumn hcolumn] at hplanned
  unfold Store.planTarget at hmade
  rw [htarget, hplanned] at hmade
  unfold Store.planClass Store.classLookups? at hmade
  rw [hcolumn] at hmade
  simp only [Option.bind_some, hselect] at hmade
  split at hmade
  · cases hmade
  · cases hmade
    rfl

/-- The plan of a query over a class checks records against `query.plannedFilter`, whichever way it
reads them. -/
theorem filter_of_plan {store : Store} {options : Options} {query : SelectQuery} {vars : Fields}
    {inTransaction : Bool} {plan : Plan} {className : String} {polymorphic : Bool}
    (htarget : query.target = .ofClass className polymorphic)
    (h : store.plan options query vars inTransaction = .ok plan) :
    plan.filter = query.plannedFilter options := by
  obtain ⟨-, hclass, -⟩ := plan_ofClass htarget h
  cases hclass with
  | count column hcolumn hsource hunchecked =>
      rw [hunchecked, SelectQuery.plannedFilter, filter_of_countColumn hcolumn]
      rfl
  | lookups condition selection hfilter hselect hreads => exact hreads.filter
  | fanOut condition parts sorted hpolymorphic hfilter hfan hreads => exact hreads.filter
  | walk index ascending hindex hreads => exact hreads.filter
  | scan hreads => exact hreads.filter

/-! ## Fan-outs

A fan-out is planned by a fold over the subclasses, with a bound for the depth of the tree.
`FansBelow` follows the list of subclasses, and its lemmas are about one step of the fold. -/

/-- What a fan-out has for some subclasses, one after the other: lookups, what is below them
(`below`), or nothing for an abstract class without subclasses. A subclass for which there is none
of these makes the fan-out impossible. -/
inductive FansBelow (store : Store) (vars : Fields) (condition : Condition)
    (query : SelectQuery) (below : String → Option FanOut) : List String → FanOut → Prop
  /-- Nothing for no subclass. -/
  | nil : FansBelow store vars condition query below [] ([], true)
  /-- Lookups in a subclass. -/
  | lookups {sub : String} {subs : List String} {selection : Selection} {parts : List Source}
      {sorted : Bool} (hselect : store.selectLookups? vars sub condition query = some selection)
      (hrest : FansBelow store vars condition query below subs (parts, sorted)) :
      FansBelow store vars condition query below (sub :: subs)
        (.union selection.branches :: parts, selection.fullySorted && sorted)
  /-- The fan-out below a subclass. -/
  | nested {sub : String} {subs : List String} {inner parts : List Source}
      {innerSorted sorted : Bool} (hinner : below sub = some (inner, innerSorted))
      (hrest : FansBelow store vars condition query below subs (parts, sorted)) :
      FansBelow store vars condition query below (sub :: subs)
        (.fanOut inner :: parts, innerSorted && sorted)
  /-- Nothing for an abstract class without subclasses. -/
  | hollow {sub : String} {subs : List String} {parts : List Source} {sorted : Bool}
      (habstract : store.schema.isAbstract sub = true)
      (hleaf : store.schema.subclasses sub = [])
      (hrest : FansBelow store vars condition query below subs (parts, sorted)) :
      FansBelow store vars condition query below (sub :: subs) (parts, sorted)

/-- The inversion of the fold over `extendFanOut`: it adds to `own` what there is for each
subclass. -/
theorem fansBelow_of_foldlM {store : Store} {vars : Fields} {condition : Condition}
    {query : SelectQuery} {below : String → Option FanOut} {subs : List String}
    {own fan : FanOut}
    (h : subs.foldlM (store.extendFanOut vars condition query below) own = some fan) :
    ∃ parts sorted, FansBelow store vars condition query below subs (parts, sorted) ∧
      fan = (own.1 ++ parts, own.2 && sorted) := by
  induction subs generalizing own with
  | nil =>
      cases h
      exact ⟨[], true, .nil, by simp⟩
  | cons sub subs ih =>
      rw [List.foldlM_cons] at h
      obtain ⟨extended, hextended, h⟩ := Option.bind_eq_some_iff.mp h
      obtain ⟨parts, sorted, hrest, rfl⟩ := ih h
      -- a subclass is looked up, fanned out in its turn, or hollow; otherwise there is no fan-out
      unfold Store.extendFanOut at hextended
      split at hextended
      next selection hselect =>
        cases hextended
        exact ⟨_, _, .lookups hselect hrest, by simp [Bool.and_assoc]⟩
      · split at hextended
        · obtain ⟨⟨inner, innerSorted⟩, hinner, hextended⟩ := Option.map_eq_some_iff.mp hextended
          cases hextended
          exact ⟨_, _, .nested hinner hrest, by simp [Bool.and_assoc]⟩
        next hleaf =>
          split at hextended
          next habstract =>
            cases hextended
            exact ⟨_, _, .hollow habstract (by simpa using hleaf) hrest, rfl⟩
          · cases hextended

/-- The inversion of one step of `fanOutWithin`: a scan of the class's own clusters, unless the
class is abstract, and what `FansBelow` relates to the subclasses. With a scan among its parts a
fan-out is not in order. -/
theorem fanOutWithin_succ {store : Store} {vars : Fields} {condition : Condition}
    {query : SelectQuery} {range : RidRange} {steps : Nat} {className : String} {fan : FanOut}
    (h : store.fanOutWithin vars condition query range (steps + 1) className = some fan) :
    ∃ parts sorted,
      FansBelow store vars condition query
        (store.fanOutWithin vars condition query range steps)
        (store.schema.subclasses className) (parts, sorted) ∧
      ((store.schema.isAbstract className = true ∧
          fan = (parts, !query.orderBy.isEmpty && sorted)) ∨
        (store.schema.isAbstract className = false ∧
          fan = (.scan ⟨store.schema.targetClusters className false, .ascending, range⟩ :: parts,
            false))) := by
  unfold Store.fanOutWithin at h
  obtain ⟨parts, sorted, hparts, rfl⟩ := fansBelow_of_foldlM h
  refine ⟨parts, sorted, hparts, ?_⟩
  -- an abstract class has no clusters of its own, so nothing stands before the parts
  cases habstract : store.schema.isAbstract className with
  | true => exact .inl ⟨rfl, by simp⟩
  | false => exact .inr ⟨rfl, by simp⟩

/-! ## The clusters of a target

Which clusters a class target reads, own ones or those of all subclasses, and that they hold the
records that its class filter accepts. -/

namespace Store

/-- The `targetClusters` of a class target hold the live records that its `ClassFilter` accepts. So
a scan of them needs no filter, and a plan with the filter gives the same records. -/
theorem Sound.mem_targetClusters_iff {store : Store} (h : store.Sound) {className : String}
    {polymorphic : Bool} {r : Record} (hr : store.Live r) :
    r.rid.cluster ∈ store.schema.targetClusters className polymorphic ↔
      ClassFilter.accepts ⟨className, polymorphic⟩ store.schema r.className = true := by
  -- a cluster belongs to one class, so the cluster of a live record tells its class
  have hmem (classes : List String) :
      r.rid.cluster ∈ sortDistinct Ord.compare (classes.flatMap store.schema.clusters) ↔
        r.className ∈ classes := by
    rw [mem_sortDistinct (fun _ => Nat.compare_eq_eq.mpr rfl)
      fun _ _ _ _ => Nat.compare_eq_eq.mp, List.mem_flatMap]
    simp only [h.live_mem_clusters_iff hr]
    exact ⟨fun ⟨name, hname, heq⟩ => heq ▸ hname, fun hname => ⟨_, hname, rfl⟩⟩
  unfold Schema.targetClusters ClassFilter.accepts
  dsimp only
  cases polymorphic with
  | false =>
      simp only [Bool.false_eq_true, if_false, beq_iff_eq]
      rw [hmem, List.mem_singleton]
  | true =>
      simp only [if_true]
      rw [hmem, h.forest.mem_tree_iff, h.forest.isSubclassOf_iff]

/-- The `targetClusters` of a class target are among `store.clusters`. -/
theorem Sound.cluster_of_targetClusters {store : Store} (h : store.Sound) {className : String}
    {polymorphic : Bool} {id : ClusterId}
    (hid : id ∈ store.schema.targetClusters className polymorphic) :
    ∃ c ∈ store.clusters, c.id = id := by
  obtain ⟨name, -, hname⟩ := List.mem_flatMap.mp (mem_of_mem_sortDistinct hid)
  obtain ⟨c, hc, hcid, -⟩ := h.owned hname
  exact ⟨c, hc, hcid⟩

/-- A live record of a class's own clusters, those of a target that is not `polymorphic`, is of the
class itself, and not of a subclass. -/
theorem Sound.className_of_own {store : Store} (h : store.Sound) {className : String} {r : Record}
    (hr : store.Live r) (hcluster : r.rid.cluster ∈ store.schema.targetClusters className false) :
    r.className = className := by
  obtain ⟨name, hname, hmem⟩ := List.mem_flatMap.mp (mem_of_mem_sortDistinct hcluster)
  obtain rfl : name = className := by simpa using hname
  exact (h.live_mem_clusters_iff hr).mp hmem

/-! ## Scans of a fan-out

Opening a source gives streams, and what they scan is read off their `contents`. The inversions of
opening come first, one for each kind of source, and then `ScansOnce` for a fan-out, a scan and a
whole plan. -/

section

variable {store : Store} {vars : Fields} {condition : Condition} {query : SelectQuery}
  {range : RidRange} {merges : Bool}

/-- The records that some contents still have to scan are live and have the property `p`, and none
of them comes twice. -/
def ScansOnce (store : Store) (c : Contents) (p : Record → Prop) : Prop :=
  ((scannedRecords c.scanned).map (·.rid)).Nodup ∧
    ∀ r ∈ scannedRecords c.scanned, store.Live r ∧ p r

/-- Records of two contents come once when no record is in both (`hapart`). -/
theorem ScansOnce.append {c d : Contents} {p q : Record → Prop} (h : store.Sound)
    (hc : ScansOnce store c p) (hd : ScansOnce store d q)
    (hapart : ∀ r, p r → ¬q r) : ScansOnce store (c.append d) fun r => p r ∨ q r := by
  have happend : scannedRecords (c.append d).scanned =
      scannedRecords c.scanned ++ scannedRecords d.scanned := List.filterMap_append
  unfold ScansOnce
  rw [happend]
  constructor
  · rw [List.map_append, List.nodup_append]
    refine ⟨hc.1, hd.1, ?_⟩
    intro rid hrid other hother heq
    obtain ⟨r, hr, hrrid⟩ := List.mem_map.mp hrid
    obtain ⟨s, hs, hsrid⟩ := List.mem_map.mp hother
    obtain ⟨hlive, hp⟩ := hc.2 r hr
    obtain ⟨hlive', hq⟩ := hd.2 s hs
    -- live records with one identity are one record, which cannot be in both
    obtain rfl := h.live_eq hlive hlive' (by rw [hrrid, hsrid, heq])
    exact hapart r hp hq
  · intro r hr
    rcases List.mem_append.mp hr with hr | hr
    · exact ⟨(hc.2 r hr).1, .inl (hc.2 r hr).2⟩
    · exact ⟨(hd.2 r hr).1, .inr (hd.2 r hr).2⟩

/-- Contents without scans fulfil `ScansOnce` for any `p`. -/
theorem scansOnce_nil {c : Contents} (p : Record → Prop) (hc : c.scanned = []) :
    ScansOnce store c p := by
  unfold ScansOnce
  rw [hc]
  exact ⟨.nil, by simp [scannedRecords]⟩

/-- The contents of a fan-out are those of its parts, whether `merges` makes it a `Stream.merge` or
a `.concat`. -/
theorem contents_fanOut (streams : List Stream) :
    (if merges then Stream.merge streams none true else .concat streams).contents =
      Stream.contentsOfAll streams := by
  cases merges <;> rfl

/-- The inversion of `Source.openedParts`: the first one is opened, and so are the others. -/
theorem openedParts_cons {part : Source} {parts : List Source} {streams : List Stream}
    {sorted : Bool}
    (h : Source.openedParts store merges (part :: parts) = .ok (.ok (streams, sorted))) :
    ∃ stream first others rest, part.opened store merges = .ok (.stream stream first) ∧
      Source.openedParts store merges parts = .ok (.ok (others, rest)) ∧
      streams = stream :: others ∧ sorted = (first && rest) := by
  unfold Source.openedParts at h
  split at h
  · cases h
  · cases h
  next stream first hpart =>
    split at h
    · cases h
    · cases h
    next others rest hparts =>
      cases h
      exact ⟨stream, first, others, rest, hpart, hparts, rfl, rfl⟩

/-- The inversion of opening a fan-out: `openedParts` opens its parts, and they are merged, or put
one behind the other. -/
theorem opened_fanOut {parts : List Source} {stream : Stream} {sorted : Bool}
    (h : (Source.fanOut parts).opened store merges = .ok (.stream stream sorted)) :
    ∃ streams, Source.openedParts store merges parts = .ok (.ok (streams, sorted)) ∧
      stream = if merges then .merge streams none true else .concat streams := by
  unfold Source.opened at h
  split at h
  · cases h
  · cases h
  next streams sorted hparts =>
    cases h
    exact ⟨streams, hparts, rfl⟩

/-- The inversion of opening lookups: `readBranches` reads them, and the stream is a `.lookup` of
what was found. -/
theorem opened_union {branches : List Branch} {stream : Stream} {sorted : Bool}
    (h : (Source.union branches).opened store merges = .ok (.stream stream sorted)) :
    ∃ rids ordered, readBranches branches = .ok (rids, ordered) ∧ stream = .lookup rids ∧
      sorted = (branches.length == 1 && ordered) := by
  unfold Source.opened at h
  split at h
  · cases h
  next rids ordered hread =>
    cases h
    exact ⟨rids, ordered, hread, rfl, rfl⟩

/-- The inversion of opening a scan: the stream scans what `scanClusters` lists. -/
theorem opened_scan {scan : ScanPlan} {stream : Stream} {sorted : Bool}
    (h : (Source.scan scan).opened store merges = .ok (.stream stream sorted)) :
    ∃ items, store.scanClusters scan.clusters scan.direction scan.range = .ok items ∧
      stream = .scan items true ∧ sorted = true := by
  unfold Source.opened at h
  obtain ⟨items, hitems, hstream⟩ := Steps.map_ok h
  cases hstream
  exact ⟨items, hitems, rfl, rfl⟩

/-- The inversion of opening a walk over an index: `orderedWalk` lists its entries, null entries
among them unless the index leaves them out, and the stream looks them up. -/
theorem opened_walk {index : Index} {ascending : Bool} {stream : Stream} {sorted : Bool}
    (h : (Source.sortedWalk index ascending).opened store merges = .ok (.stream stream sorted)) :
    ∃ entries, index.orderedWalk ascending (!index.definition.ignoreNulls) = .ok entries ∧
      stream = .lookup (entries.map (·.rid)) ∧ sorted = true := by
  unfold Source.opened at h
  split at h
  next entries hentries =>
    cases h
    exact ⟨entries, hentries, rfl, rfl⟩
  · cases h

/-- The parts of a fan-out for some subclasses scan records below these, none of them twice.
`hbelow` says the same of the fan-outs below the subclasses, and `Schema.Forest.subclasses_disjoint`
keeps those apart. -/
theorem Sound.fansBelow_scans (h : store.Sound) {below : String → Option FanOut}
    (hbelow : ∀ sub inner sorted, below sub = some (inner, sorted) → ∀ streams opened,
      Source.openedParts store merges inner = .ok (.ok (streams, opened)) →
      ScansOnce store (Stream.contentsOfAll streams) fun r => store.schema.Below r.className sub)
    {parent : String} {subs : List String} {fan : FanOut}
    (hsubs : ∀ sub ∈ subs, sub ∈ store.schema.subclasses parent) (hnodup : subs.Nodup)
    (hfan : FansBelow store vars condition query below subs fan) {streams : List Stream}
    {opened : Bool} (hopened : Source.openedParts store merges fan.1 = .ok (.ok (streams, opened))) :
    ScansOnce store (Stream.contentsOfAll streams) fun r =>
      ∃ sub ∈ subs, store.schema.Below r.className sub := by
  induction hfan generalizing streams opened with
  | nil =>
      cases hopened
      exact scansOnce_nil _ rfl
  | @lookups sub subs selection parts sorted hselect _ ih =>
      obtain ⟨stream, first, others, rest, hfirst, hothers, rfl, -⟩ := openedParts_cons hopened
      obtain ⟨rids, ordered, -, rfl, -⟩ := opened_union hfirst
      obtain ⟨honce, hlive⟩ := ih (fun s hs => hsubs s (List.mem_cons_of_mem _ hs))
        (List.nodup_cons.mp hnodup).2 hothers
      refine ⟨honce, fun r hr => ?_⟩
      obtain ⟨hr, s, hs, hbelow⟩ := hlive r hr
      exact ⟨hr, s, List.mem_cons_of_mem _ hs, hbelow⟩
  | @nested sub subs inner parts innerSorted sorted hinner _ ih =>
      obtain ⟨stream, first, others, rest, hfirst, hothers, rfl, -⟩ := openedParts_cons hopened
      obtain ⟨hnotin, hnodup⟩ := List.nodup_cons.mp hnodup
      obtain ⟨innerStreams, hinnerOpened, rfl⟩ := opened_fanOut hfirst
      have hfirstOnce := hbelow sub inner innerSorted hinner innerStreams first hinnerOpened
      have hothersOnce := ih (fun s hs => hsubs s (List.mem_cons_of_mem _ hs)) hnodup hothers
      -- classes below different subclasses are different, so nothing is scanned twice
      have hboth := hfirstOnce.append h hothersOnce fun r hr => by
        rintro ⟨s, hs, hsBelow⟩
        refine h.forest.subclasses_disjoint ?_ (hsubs sub (List.mem_cons_self ..))
          (hsubs s (List.mem_cons_of_mem _ hs)) hr hsBelow
        rintro rfl
        exact hnotin hs
      rw [Stream.contentsOfAll, contents_fanOut]
      refine ⟨hboth.1, fun r hr => ?_⟩
      obtain ⟨hlive, hr | ⟨s, hs, hr⟩⟩ := hboth.2 r hr
      · exact ⟨hlive, sub, List.mem_cons_self .., hr⟩
      · exact ⟨hlive, s, List.mem_cons_of_mem _ hs, hr⟩
  | @hollow sub subs parts sorted _ _ _ ih =>
      obtain ⟨honce, hlive⟩ := ih (fun s hs => hsubs s (List.mem_cons_of_mem _ hs))
        (List.nodup_cons.mp hnodup).2 hopened
      refine ⟨honce, fun r hr => ?_⟩
      obtain ⟨hr, s, hs, hbelow⟩ := hlive r hr
      exact ⟨hr, s, List.mem_cons_of_mem _ hs, hbelow⟩

/-- A fan-out scans records below its class, none of them twice. The induction is on `steps`, the
depth that `fanOutWithin` has left. -/
theorem Sound.fanOut_scans (h : store.Sound) {steps : Nat} {className : String} {fan : FanOut}
    (hfan : store.fanOutWithin vars condition query range steps className = some fan)
    {streams : List Stream} {opened : Bool}
    (hopened : Source.openedParts store merges fan.1 = .ok (.ok (streams, opened))) :
    ScansOnce store (Stream.contentsOfAll streams) fun r =>
      store.schema.Below r.className className := by
  induction steps generalizing className fan streams opened with
  | zero => cases hfan
  | succ steps ih =>
      obtain ⟨parts, sorted, hparts, hcases⟩ := fanOutWithin_succ hfan
      have hsubs {others : List Stream} {rest : Bool}
          (hothers : Source.openedParts store merges parts = .ok (.ok (others, rest))) :=
        h.fansBelow_scans (fun _ _ _ hinner _ _ hinnerOpened =>
          ih hinner hinnerOpened) (fun _ hsub => hsub)
          (h.forest.siblings className) hparts hothers
      have hbelow {r : Record} (hr : ∃ sub ∈ store.schema.subclasses className,
          store.schema.Below r.className sub) : store.schema.Below r.className className := by
        obtain ⟨sub, hsub, hr⟩ := hr
        exact hr.trans (h.forest.below_of_mem_subclasses hsub)
      rcases hcases with ⟨-, rfl⟩ | ⟨-, rfl⟩
      · obtain ⟨honce, hlive⟩ := hsubs hopened
        exact ⟨honce, fun r hr => ⟨(hlive r hr).1, hbelow (hlive r hr).2⟩⟩
      · obtain ⟨stream, first, others, rest, hfirst, hothers, rfl, -⟩ := openedParts_cons hopened
        obtain ⟨items, hitems, rfl, -⟩ := opened_scan hfirst
        have hown : ScansOnce store (Stream.scan items true).contents
            fun r => r.className = className := by
          refine ⟨h.scan_nodup hitems, fun r hr => ?_⟩
          obtain ⟨hlive, hcluster, -⟩ := h.mem_of_scanned hitems (mem_scannedRecords.mp hr)
          exact ⟨hlive, h.className_of_own hlive hcluster⟩
        -- a record of the class itself is below none of its subclasses
        have hboth := hown.append h (hsubs hothers) fun r hr => by
          rintro ⟨sub, hsub, hrBelow⟩
          exact h.forest.not_below_of_superclass? (h.forest.mem_subclasses.mp hsub) (hr ▸ hrBelow)
        refine ⟨hboth.1, fun r hr => ?_⟩
        obtain ⟨hlive, hr | hr⟩ := hboth.2 r hr
        · exact ⟨hlive, hr ▸ .refl _⟩
        · exact ⟨hlive, hbelow hr⟩

/-- A scan scans live records, none of them twice. The class of the records is left open: `p` is
`fun _ => True`. -/
theorem Sound.scan_scansOnce (h : store.Sound) {ids : List ClusterId} {direction : ScanDirection}
    {items : List ScanItem} (hitems : store.scanClusters ids direction range = .ok items) :
    ScansOnce store (Stream.scan items true).contents fun _ => True :=
  ⟨h.scan_nodup hitems, fun _ hr => ⟨(h.mem_of_scanned hitems (mem_scannedRecords.mp hr)).1, trivial⟩⟩

/-- What the plan of a class target opens scans live records, none of them twice, whether
`plan.opened` takes its source or its fallback. -/
theorem Sound.classPlan_scans (h : store.Sound) {className : String} {polymorphic : Bool}
    {filter : Option Condition} {plan : Plan}
    (hplan : ClassPlan store vars className polymorphic filter query plan) {source : Source}
    (hsource : plan.source = .rows source) {stream : Stream} {ordered : Bool}
    (hopened : plan.opened store query source = .ok (stream, ordered)) :
    ScansOnce store stream.contents fun _ => True := by
  -- only scans scan: lookups and walks have nothing in this part of their contents
  rcases Plan.opened_cases hopened with ⟨sorted, hopened, -⟩ | ⟨_, _, items, -, -, hitems, rfl, -⟩
  · cases hplan with
    | count column hcolumn hcount hunchecked =>
        rw [hcount] at hsource
        cases hsource
    | lookups condition selection hfilter hselect hreads =>
        cases hreads.source.symm.trans hsource
        obtain ⟨rids, _, -, rfl, -⟩ := opened_union hopened
        exact scansOnce_nil _ rfl
    | fanOut condition parts sortedParts hpolymorphic hfilter hfan hreads =>
        cases hreads.source.symm.trans hsource
        obtain ⟨streams, hparts, rfl⟩ := opened_fanOut hopened
        obtain ⟨honce, hlive⟩ := h.fanOut_scans hfan hparts
        rw [contents_fanOut]
        exact ⟨honce, fun r hr => ⟨(hlive r hr).1, trivial⟩⟩
    | walk index ascending hindex hreads =>
        cases hreads.source.symm.trans hsource
        obtain ⟨entries, -, rfl, -⟩ := opened_walk hopened
        exact scansOnce_nil _ rfl
    | scan hreads =>
        cases hreads.source.symm.trans hsource
        obtain ⟨items, hitems, rfl, -⟩ := opened_scan hopened
        exact h.scan_scansOnce hitems
  · exact h.scan_scansOnce hitems

/-- The records that the contents of an opened class plan give are live: they are scanned, or loaded
by their identity. -/
theorem Sound.live_of_classPlan (h : store.Sound) {className : String} {polymorphic : Bool}
    {filter : Option Condition} {plan : Plan}
    (hplan : ClassPlan store vars className polymorphic filter query plan) {source : Source}
    (hsource : plan.source = .rows source) {stream : Stream} {ordered : Bool}
    (hopened : plan.opened store query source = .ok (stream, ordered)) {r : Record}
    (hr : stream.contents.Gives store.load r) : store.Live r := by
  rcases hr with hr | hr | ⟨-, hr⟩
  · rw [(Plan.opened_isFresh hopened).2.1] at hr
    cases hr
  · exact ((h.classPlan_scans hplan hsource hopened).2 r (mem_scannedRecords.mpr hr)).1
  · exact (h.load_eq_some_iff.mp hr).1

mutual

/-- Every item that an opened source scans is a record, as long as no scan fails, which is
`hnone`. -/
theorem Sound.records_of_opened (h : store.Sound) (hnone : store.failingCluster = none) :
    ∀ {source : Source} {stream : Stream} {sorted : Bool},
      source.opened store merges = .ok (.stream stream sorted) →
      ∀ item ∈ stream.contents.scanned, ∃ r, item = .ok r
  | .records rids, _, _, hopened => by
      unfold Source.opened at hopened
      cases hopened
      exact fun item hitem => (List.mem_map.mp hitem).imp fun _ hr => hr.2.symm
  | .scan plan, _, _, hopened => by
      obtain ⟨items, hitems, rfl, -⟩ := opened_scan hopened
      exact record_of_scanned hitems hnone
  | .union branches, _, _, hopened => by
      obtain ⟨rids, _, -, rfl, -⟩ := opened_union hopened
      simp [Stream.contents]
  | .sortedWalk index ascending, _, _, hopened => by
      obtain ⟨entries, -, rfl, -⟩ := opened_walk hopened
      simp [Stream.contents]
  | .fanOut parts, _, _, hopened => by
      obtain ⟨streams, hparts, rfl⟩ := opened_fanOut hopened
      rw [contents_fanOut]
      exact h.records_of_openedParts hnone hparts
  | .indexTarget index wanted keys ascending, _, _, hopened => by
      unfold Source.opened at hopened
      obtain ⟨entries, -, hstream⟩ := Steps.map_ok hopened
      cases hstream
      exact fun item hitem => (List.mem_map.mp hitem).imp fun _ hr => hr.2.symm

/-- Every item that opened parts scan is a record, as long as no scan fails. Mutual with
`Sound.records_of_opened`, as sources and parts are. -/
theorem Sound.records_of_openedParts (h : store.Sound) (hnone : store.failingCluster = none) :
    ∀ {parts : List Source} {streams : List Stream} {sorted : Bool},
      Source.openedParts store merges parts = .ok (.ok (streams, sorted)) →
      ∀ item ∈ (Stream.contentsOfAll streams).scanned, ∃ r, item = .ok r
  | [], _, _, hopened => by
      unfold Source.openedParts at hopened
      cases hopened
      simp [Stream.contentsOfAll, Contents.empty]
  | part :: parts, _, _, hopened => by
      obtain ⟨stream, first, others, rest, hfirst, hothers, rfl, -⟩ := openedParts_cons hopened
      intro item hitem
      rcases List.mem_append.mp hitem with hitem | hitem
      · exact h.records_of_opened hnone hfirst item hitem
      · exact h.records_of_openedParts hnone hothers item hitem

end

/-- Every item that an opened plan scans is a record, as long as no scan fails. -/
theorem Sound.records_of_plan (h : store.Sound) (hnone : store.failingCluster = none) {plan : Plan}
    {source : Source} {stream : Stream} {ordered : Bool}
    (hopened : plan.opened store query source = .ok (stream, ordered)) :
    ∀ item ∈ stream.contents.scanned, ∃ r, item = .ok r := by
  rcases Plan.opened_cases hopened with ⟨_, hopened, -⟩ | ⟨_, _, items, -, -, hitems, rfl, -⟩
  · exact h.records_of_opened hnone hopened
  · exact record_of_scanned hitems hnone

end

end Store

end RecordQuery
