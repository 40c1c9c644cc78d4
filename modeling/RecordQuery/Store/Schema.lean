import RecordQuery.Rid
import RecordQuery.StableSort

/-!
# `RecordQuery.Store.Schema`: classes and their clusters

Classes form a forest: a class is declared below an existing one or at the top. Each concrete
class has clusters of its own. The walks up and down the forest are bounded by the number of
classes, which is never too few, because a superclass is declared before its subclasses.
-/

set_option autoImplicit false

namespace RecordQuery

/-- A declared class. -/
structure ClassDef where
  /-- The name. -/
  name : String
  /-- The class above it. -/
  superclass : Option String
  /-- The classes right below it, in order of declaration. -/
  subclasses : List String
  /-- The clusters that hold its own records. -/
  clusters : List ClusterId
  /-- Whether it can hold no records of its own. -/
  isAbstract : Bool
  /-- The properties that are links, with the class they lead to. -/
  links : List (String × String)
deriving Repr

/-- The declared classes, in order of declaration. -/
abbrev Schema := List ClassDef

namespace Schema

/-- The class of a name. -/
def find? (schema : Schema) (name : String) : Option ClassDef :=
  List.find? (fun c => c.name == name) schema

/-- Whether the class is declared. -/
def declares (schema : Schema) (name : String) : Bool := (schema.find? name).isSome

/-- Whether the class is abstract; an undeclared one is not. -/
def isAbstract (schema : Schema) (name : String) : Bool :=
  (schema.find? name).any (·.isAbstract)

/-- The class right above. -/
def superclass? (schema : Schema) (name : String) : Option String :=
  (schema.find? name).bind (·.superclass)

/-- The classes right below, in order of declaration. -/
def subclasses (schema : Schema) (name : String) : List String :=
  ((schema.find? name).map (·.subclasses)).getD []

/-- The clusters of the class's own records. -/
def clusters (schema : Schema) (name : String) : List ClusterId :=
  ((schema.find? name).map (·.clusters)).getD []

/-- The class and the classes above it, at most `steps` of them. -/
def ancestorsWithin (schema : Schema) : Nat → String → List String
  | 0, name => [name]
  | steps + 1, name =>
      name :: match schema.superclass? name with
        | some parent => ancestorsWithin schema steps parent
        | none => []

/-- The class and every class above it, nearest first. -/
def ancestors (schema : Schema) (name : String) : List String :=
  schema.ancestorsWithin schema.length name

/-- Whether the class is the other one or inherits from it. -/
def isSubclassOf (schema : Schema) (name ancestor : String) : Bool :=
  (schema.ancestors name).contains ancestor

/-- The classes still to visit and everything below them, level by level, at most `steps`
classes. -/
def treeWithin (schema : Schema) : Nat → List String → List String
  | _, [] => []
  | 0, _ :: _ => []
  | steps + 1, name :: pending =>
      name :: treeWithin schema steps (pending ++ schema.subclasses name)

/-- The class and every class below it, level by level. -/
def tree (schema : Schema) (name : String) : List String :=
  schema.treeWithin (schema.length + 1) [name]

/-- The clusters of a class target, ascending; a polymorphic one takes in every subclass. -/
def targetClusters (schema : Schema) (name : String) (polymorphic : Bool) : List ClusterId :=
  let classes := if polymorphic then schema.tree name else [name]
  sortDistinct Ord.compare (classes.flatMap schema.clusters)

/-- The class that a link property leads to, declared on the class or nearest above it. -/
def linkedClass? (schema : Schema) (name property : String) : Option String :=
  (schema.ancestors name).findSome? fun c =>
    (schema.find? c).bind fun definition =>
      (definition.links.find? fun (p, _) => p == property).map (·.2)

/-- The schema with one class changed. -/
def update (schema : Schema) (name : String) (change : ClassDef → ClassDef) : Schema :=
  schema.map fun c => if c.name == name then change c else c

end Schema

end RecordQuery
