import RecordQuery.Condition.RangeFolding
import RecordQuery.Condition.RidHint
import RecordQuery.Plan.IndexTarget
import RecordQuery.Plan.Lookup

/-!
# `RecordQuery.Plan.Planner`: choosing a plan

For a class target the rules are tried in order: counting records without reading them,
lookups for every alternative of the condition, lookups in every subclass, a walk over an
index that has the order asked for, and a scan of the clusters. The condition is checked again
on every record, whatever the source, so a source may give too many records but never too few.
-/

set_option autoImplicit false

namespace RecordQuery

/-- The records that a value links to. -/
def Value.links : Value → List Rid
  | .link rid => [rid]
  | .list items => items.filterMap Value.link?
  | _ => []

namespace SelectQuery

/-- The direction of a scan that serves the query: downwards for `@rid DESC`. -/
def scanDirection (query : SelectQuery) : ScanDirection :=
  match query.isRidOnlySort, query.orderBy with
  | true, ⟨_, .desc⟩ :: _ => .descending
  | _, _ => .ascending

/-- The column of a query that only counts the records of its target. -/
def countColumn? (query : SelectQuery) : Option String :=
  match query.filter, query.groupBy, query.lets, query.unwind, query.expand,
    query.projections with
  | none, [], [], [], none, [.aggregate .count none name] => some name
  | _, _, _, _, _, _ => none

/-- Whether a scan gives the rows in the order asked for. -/
def scanSatisfiesOrder (query : SelectQuery) : Bool :=
  query.orderBy.isEmpty || query.isRidOnlySort

end SelectQuery

/-- A plan that reads from a source, with nothing else said. -/
def Plan.reading (source : Source) (filter : Option Condition) (orderSatisfied : Bool) : Plan :=
  { source := .rows source, filter, orderSatisfied
    classFilter := none, fallback := none, fullySorted := false, usedInOrderBy := false
    parallel := false, foldedPairs := 0 }

/-- What a fan-out gives for a class: its parts, and whether each of them is sorted. -/
abbrev FanOut := List Source × Bool

namespace Store

/-- A fan-out extended by one subclass: lookups in it, or else the fan-out `below` it, or
nothing for an abstract class without subclasses. -/
def extendFanOut (store : Store) (vars : Fields) (condition : Condition)
    (query : SelectQuery) (below : String → Option FanOut) (parts : FanOut) (sub : String) :
    Option FanOut :=
  match store.selectLookups? vars sub condition query with
  | some selection =>
      some (parts.1 ++ [.union selection.branches], parts.2 && selection.fullySorted)
  | none =>
      if !(store.schema.subclasses sub).isEmpty then
        (below sub).map fun nested => (parts.1 ++ [.fanOut nested.1], parts.2 && nested.2)
      else if store.schema.isAbstract sub then some parts
      else none

/-- The sources of a class and its subclasses: a scan of the class's own clusters, and
lookups in every subclass. None when some subclass needs a scan of its own. -/
def fanOutWithin (store : Store) (vars : Fields) (condition : Condition)
    (query : SelectQuery) (range : RidRange) : Nat → String → Option FanOut
  | 0, _ => none
  | steps + 1, className =>
      let own : FanOut :=
        if store.schema.isAbstract className then ([], !query.orderBy.isEmpty)
        else
          ([.scan ⟨store.schema.targetClusters className false, .ascending, range⟩], false)
      (store.schema.subclasses className).foldlM
        (store.extendFanOut vars condition query
          (store.fanOutWithin vars condition query range steps))
        own

/-- The fan-out of a class. -/
def fanOut? (store : Store) (vars : Fields) (className : String) (condition : Condition)
    (query : SelectQuery) (range : RidRange) : Option FanOut :=
  store.fanOutWithin vars condition query range (store.schema.length + 1) className

/-- The index whose walk gives the order asked for, with the fewest fields, and whether it is
walked upwards. It must not leave records out. -/
def sortIndex? (store : Store) (className : String) (query : SelectQuery) :
    Option (Index × Bool) :=
  if query.orderBy.any fun item => item.field.isLong || item.field.isAttribute then none
  else
    let fields := query.orderBy.map (·.field.first)
    let usable := ((store.indexesCovering className fields).map Index.stored).filter fun index =>
      !index.definition.ignoreNulls && index.matchesOrder query.orderBy
    let ranked := stableSort
      (fun (a b : Index) => Ord.compare a.definition.paramCount b.definition.paramCount) usable
    ranked.head?.map fun index => (index, index.visitsUpwards query.orderBy)

/-- The lookups for a class target, in the class itself or in its subclasses. -/
def classLookups? (store : Store) (vars : Fields) (className : String)
    (polymorphic : Bool) (condition : Condition) (query : SelectQuery) (scan : ScanPlan) :
    Option Plan :=
  let base : Plan :=
    { Plan.reading (.scan scan) (some condition) true with
      classFilter := some ⟨className, polymorphic⟩
      fallback := some scan }
  match store.selectLookups? vars className condition query with
  | some selection =>
      some { base with
        source := .rows (.union selection.branches)
        orderSatisfied := query.orderBy.isEmpty || selection.fullySorted
        fullySorted := selection.fullySorted
        usedInOrderBy := selection.usedInOrderBy }
  | none =>
      if polymorphic && !(store.schema.subclasses className).isEmpty then
        (store.fanOut? vars className condition query scan.range).map
          fun (parts, sorted) =>
            { base with
              source := .rows (.fanOut parts)
              orderSatisfied := query.orderBy.isEmpty || sorted
              fullySorted := sorted && !query.orderBy.isEmpty }
      else none

/-- The plan for a class target. -/
def planClass (store : Store) (vars : Fields) (className : String) (polymorphic : Bool)
    (filter : Option Condition) (query : SelectQuery) : Except Failure Plan :=
  if !store.schema.declares className then .error (.query (.unknownClass className))
  else
    let scan : ScanPlan :=
      ⟨store.schema.targetClusters className polymorphic, query.scanDirection,
        ridRangeOf filter⟩
    let classFilter : ClassFilter := ⟨className, polymorphic⟩
    match query.countColumn? with
    | some name => .ok
        { Plan.reading (.scan scan) none true with
          source := .count scan.clusters name
          classFilter := some classFilter
          fallback := some scan }
    | none =>
      match filter.bind fun condition =>
          store.classLookups? vars className polymorphic condition query scan with
      | some plan => .ok plan
      | none =>
        let sortedWalk :=
          if query.scanSatisfiesOrder then none else store.sortIndex? className query
        match sortedWalk with
        | some (index, ascending) => .ok
            { Plan.reading (.sortedWalk index ascending) filter true with
              classFilter := some classFilter
              fallback := some scan
              fullySorted := true
              usedInOrderBy := true }
        | none => .ok (Plan.reading (.scan scan) filter query.scanSatisfiesOrder)

/-- The plan for a list of clusters. -/
def planClusters (store : Store) (ids : List ClusterId) (filter : Option Condition)
    (query : SelectQuery) : Except Failure Plan :=
  match ids.find? fun id => (store.cluster? id).isNone with
  | some missing => .error (.query (.unknownCluster missing))
  | none =>
      .ok (Plan.reading
        (.scan ⟨sortDistinct Ord.compare ids, query.scanDirection, ridRangeOf filter⟩)
        filter query.scanSatisfiesOrder)

/-- The plan for an index target. -/
def planIndexTarget (store : Store) (name : String) (filter : Option Condition)
    (query : SelectQuery) : Except Failure Plan :=
  match store.index? name with
  | none => .error (.query (.unknownIndex name))
  | some stored => do
      let index := Index.stored stored
      match query.orderBy.find? fun item =>
          item.field.isLong || item.field.first != keyColumn with
      | some item => throw (.query (.unsupportedIndexOrder name item.field.text))
      | none =>
        let terms ← match filter with
          | some condition => (KeyTerms.ofCondition index condition).map some
          | none => .ok none
        let ascending := match query.orderBy with
          | item :: _ => item.direction == .asc
          | [] => true
        let ordered := !query.orderBy.isEmpty && index.isOrdered
        let source := Source.indexTarget index
          (terms.map fun t => t.lookup index.definition.isComposite)
          ((terms.map (·.keys)).getD .empty) ascending
        return { Plan.reading source none (query.orderBy.isEmpty || index.isOrdered) with
          fullySorted := ordered
          usedInOrderBy := ordered }

/-- The plan for a list of records. -/
def planRecords (rids : List Rid) (filter : Option Condition) (query : SelectQuery) : Plan :=
  Plan.reading (.records rids) filter query.orderBy.isEmpty

/-- The plan for the target of the query, its condition already folded. -/
def planTarget (store : Store) (vars : Fields) (filter : Option Condition)
    (query : SelectQuery) : Except Failure Plan :=
  match query.target with
  | .ofClass name polymorphic => store.planClass vars name polymorphic filter query
  | .clusters ids => store.planClusters ids filter query
  | .index name => store.planIndexTarget name filter query
  | .records rids => .ok (planRecords rids filter query)
  | .linked name =>
      match vars.get? name with
      | some value => .ok (planRecords value.links filter query)
      | none => .error (.query (.unknownVariable name))

/-- Whether the plan's scan may have a worker per cluster: asked for, outside a transaction,
without ORDER BY, over two clusters at least and enough records. -/
def allowsParallel (store : Store) (options : Options) (plan : Plan) (query : SelectQuery)
    (inTransaction : Bool) : Except Failure Bool :=
  if !query.parallel || inTransaction || !query.orderBy.isEmpty then .ok false
  else match plan.source with
    | .rows (.scan scan) =>
        if scan.clusters.length < 2 then .ok false
        else (store.count scan.clusters).map fun records => options.parallelMinRecords < records
    | _ => .ok false

/-- The plan of a query. -/
def plan (store : Store) (options : Options) (query : SelectQuery) (vars : Fields)
    (inTransaction : Bool) : Except Failure Plan := do
  query.validate
  let (filter, pairs) := match query.filter with
    | some condition =>
        if options.foldRanges then
          let (folded, pairs) := condition.foldRanges
          (some folded, pairs)
        else (some condition, 0)
    | none => (none, 0)
  let plan ← store.planTarget vars filter query
  let parallel ← store.allowsParallel options plan query inTransaction
  return { plan with foldedPairs := pairs, parallel }

end Store

end RecordQuery
