import RecordQuery.Plan.Basic

/-!
# `RecordQuery.Plan.Explain`: plans as trees of text

The explanation of a plan is a tree. Each node has the name of an operation and named
properties; a property is marked when it shows constants of the query.
-/

set_option autoImplicit false

namespace RecordQuery

/-- A named property of an operation. -/
structure ExplainProp where
  /-- The name. -/
  name : String
  /-- The text. -/
  value : String
  /-- Whether the text shows constants of the query. -/
  redactable : Bool
deriving DecidableEq, Repr

namespace ExplainProp

/-- A property without constants of the query. -/
def plain (name value : String) : ExplainProp := ⟨name, value, false⟩

/-- A property that shows constants of the query. -/
def constant (name value : String) : ExplainProp := ⟨name, value, true⟩

end ExplainProp

/-- An operation of a plan. -/
inductive ExplainNode where
  /-- The name, the properties, and the operations it reads from. -/
  | node (op : String) (props : List ExplainProp) (inputs : List ExplainNode)
deriving Repr

namespace ExplainNode

/-- The name of the operation. -/
def op : ExplainNode → String
  | node op _ _ => op

/-- The properties. -/
def props : ExplainNode → List ExplainProp
  | node _ props _ => props

/-- The operations it reads from. -/
def inputs : ExplainNode → List ExplainNode
  | node _ _ inputs => inputs

/-- The text of the first property of a name. -/
def prop? (node : ExplainNode) (name : String) : Option String :=
  (node.props.find? fun p => p.name == name).map (·.value)

mutual

/-- The first node with the given operation, from the root downwards. -/
def find? (wanted : String) : ExplainNode → Option ExplainNode
  | node op props inputs =>
      if op == wanted then some (node op props inputs) else findAmong? wanted inputs

/-- The first node with the given operation among some trees. -/
def findAmong? (wanted : String) : List ExplainNode → Option ExplainNode
  | [] => none
  | n :: ns =>
      match find? wanted n with
      | some found => some found
      | none => findAmong? wanted ns

end

end ExplainNode

/-- The text of a truth value. -/
def boolText (b : Bool) : String := if b then "true" else "false"

/-- The text of a direction. -/
def ascendingText (ascending : Bool) : String := if ascending then "asc" else "desc"

/-- The explanation of a scan. -/
def ScanPlan.explain (scan : ScanPlan) : ExplainNode :=
  let ridText (rid : Option Rid) : String := (rid.map Rid.text).getD ""
  let range :=
    if scan.range.isUnbounded then []
    else [.constant "range" (ridText scan.range.lowest ++ ".." ++ ridText scan.range.highest)]
  .node "ClusterScan"
    ([.plain "clusters" (",".intercalate (scan.clusters.map fun id => toString id)),
      .plain "direction" (ascendingText (scan.direction == .ascending))] ++ range) []

/-- The explanation of a candidate. -/
def Candidate.explain (candidate : Candidate) : ExplainNode :=
  .node "IndexLookup"
    ([.plain "index" candidate.index.name,
      .plain "kind" candidate.index.kind.text,
      .constant "query" candidate.lookup.text,
      .plain "compositeIndexUsed" (boolText candidate.index.definition.isComposite)] ++
      if candidate.sorted then [.plain "sorted" "true"] else []) []

mutual

/-- The explanation of a source. -/
def Source.explain : Source → ExplainNode
  | .records rids => .node "RecordList" [.plain "count" (toString rids.length)] []
  | .scan plan => plan.explain
  | .union branches =>
      .node "IndexUnion" [.plain "branches" (toString branches.length)]
        (branches.map fun branch => .node "IndexBranch" [] (branch.map Candidate.explain))
  | .sortedWalk index ascending =>
      .node "SortedIndexScan"
        [.plain "index" index.name, .plain "direction" (ascendingText ascending)] []
  | .fanOut parts => .node "PolymorphicMerge" [] (Source.explainAll parts)
  | .indexTarget index lookup _ ascending =>
      .node "IndexTarget"
        (.plain "index" index.name ::
          ((lookup.map fun q => ExplainProp.constant "query" q.text).toList ++
            [.plain "direction" (ascendingText ascending)])) []

/-- The explanations of the parts of a fan-out. -/
def Source.explainAll : List Source → List ExplainNode
  | [] => []
  | part :: parts => part.explain :: Source.explainAll parts

end

/-- The explanation of what a plan does to get its rows. -/
def PlanSource.explain : PlanSource → ExplainNode
  | .rows source => source.explain
  | .count clusters name =>
      .node "CountShortcut"
        [.plain "clusters" (toString clusters.length), .plain "alias" name] []

/-- The explanation of a plan for a query. -/
def Plan.explain (plan : Plan) (query : SelectQuery) : ExplainNode :=
  let when (condition : Bool) (prop : ExplainProp) : List ExplainProp :=
    if condition then [prop] else []
  let order := query.orderBy.map fun item => item.field.text ++ " " ++ item.direction.text
  .node "Select"
    ([.plain "target" query.target.text] ++
      (plan.filter.map fun c => ExplainProp.constant "filter" c.text).toList ++
      when (!query.orderBy.isEmpty) (.plain "order_by" (", ".intercalate order)) ++
      when (0 ≤ query.limit) (.plain "limit" (toString query.limit)) ++
      when (0 < query.skip) (.plain "skip" (toString query.skip)) ++
      [.plain "fullySortedByIndex" (boolText plan.fullySorted),
        .plain "indexIsUsedInOrderBy" (boolText plan.usedInOrderBy)] ++
      when (0 < plan.foldedPairs)
        (.plain "rangeQueryConvertedInBetween" (toString plan.foldedPairs)) ++
      when plan.parallel (.plain "parallel" "true"))
    [plan.source.explain]

end RecordQuery
