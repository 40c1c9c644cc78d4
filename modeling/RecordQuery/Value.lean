import RecordQuery.Number.Shortest
import RecordQuery.Rid

/-!
# `RecordQuery.Value`: the values of records, keys, conditions and rows

`Value.compare` is the order used everywhere: by index keys, by ORDER BY and by group
buckets. Values of different kinds order by kind: null, bool, number, string, link, list,
map. An integer is compared with a floating-point number after rounding it to the nearest
one. Two values are equal when `compare` says so, hence `1` equals `1.0`.
-/

set_option autoImplicit false

namespace RecordQuery

/-- A dynamically typed value. -/
inductive Value where
  /-- No value. -/
  | null
  /-- A truth value. -/
  | bool (b : Bool)
  /-- A signed 64-bit integer. -/
  | int (n : Int64)
  /-- A floating-point number. -/
  | float (x : Binary64)
  /-- A text. -/
  | string (s : String)
  /-- A link to a record. -/
  | link (rid : Rid)
  /-- An ordered collection. -/
  | list (items : List Value)
  /-- Named values, in ascending order of their names. -/
  | map (entries : List (String × Value))
deriving Inhabited, Repr

/-- Named values in ascending order of their names, each name once. -/
abbrev Fields := List (String × Value)

namespace Fields

/-- The value under a name, if there is one. -/
def get? (fields : Fields) (name : String) : Option Value :=
  match fields with
  | [] => none
  | (k, v) :: rest => if k == name then some v else get? rest name

/-- The value under a name; a missing one reads as null. -/
def get (fields : Fields) (name : String) : Value := (get? fields name).getD .null

/-- Puts a value under a name, in its place in the order of names. -/
def insert (fields : Fields) (name : String) (value : Value) : Fields :=
  match fields with
  | [] => [(name, value)]
  | (k, v) :: rest =>
      match Ord.compare name k with
      | .lt => (name, value) :: (k, v) :: rest
      | .eq => (k, value) :: rest
      | .gt => (k, v) :: insert rest name value

/-- The fields given by a list of assignments; a later one wins. -/
def ofList (assignments : List (String × Value)) : Fields :=
  assignments.foldl (fun fields (name, value) => insert fields name value) []

end Fields

namespace Value

/-- The place of a value's kind in the order of kinds. -/
def rank : Value → Nat
  | null => 0
  | bool _ => 1
  | int _ | float _ => 2
  | string _ => 3
  | link _ => 4
  | list _ => 5
  | map _ => 6

mutual

/-- The order of values. -/
def compare : Value → Value → Ordering
  | null, null => .eq
  | bool a, bool b => Ord.compare a b
  | int a, int b => Ord.compare a.toInt b.toInt
  | float a, float b => Binary64.compare a b
  | int a, float b => Binary64.compare (Binary64.ofInt a.toInt) b
  | float a, int b => Binary64.compare a (Binary64.ofInt b.toInt)
  | string a, string b => Ord.compare a b
  | link a, link b => Rid.compare a b
  | list as, list bs => compareItems as bs
  | map as, map bs => compareEntries as bs
  | a, b => Ord.compare a.rank b.rank

/-- Item by item; a proper beginning comes first. -/
def compareItems : List Value → List Value → Ordering
  | [], [] => .eq
  | [], _ :: _ => .lt
  | _ :: _, [] => .gt
  | a :: as, b :: bs => (compare a b).then (compareItems as bs)

/-- Entry by entry, name before value; a proper beginning comes first. -/
def compareEntries : List (String × Value) → List (String × Value) → Ordering
  | [], [] => .eq
  | [], _ :: _ => .lt
  | _ :: _, [] => .gt
  | (k, a) :: as, (l, b) :: bs =>
      (Ord.compare k l).then ((compare a b).then (compareEntries as bs))

end

instance : Ord Value := ⟨compare⟩

/-- Two values are equal when neither comes before the other. -/
instance : BEq Value := ⟨fun a b => compare a b == .eq⟩

/-- A count as an integer; the largest integer stands for every count above it. -/
def ofCount (n : Nat) : Value :=
  .int (if (n : Int) ≤ Int64.maxValue.toInt then Int64.ofNat n else Int64.maxValue)

/-- Whether the value is null. -/
def isNull : Value → Bool
  | null => true
  | _ => false

/-- The record that a link points to. -/
def link? : Value → Option Rid
  | link rid => some rid
  | _ => none

/-- The text of a string value. -/
def string? : Value → Option String
  | string s => some s
  | _ => none

/-- A number as a floating-point number; integers are rounded. -/
def number? : Value → Option Binary64
  | int n => some (Binary64.ofInt n.toInt)
  | float x => some x
  | _ => none

mutual

/-- The written form of a value: strings in single quotes, lists in brackets, maps in
braces. -/
def text : Value → String
  | null => "null"
  | bool b => if b then "true" else "false"
  | int n => toString n.toInt
  | float x => x.text
  | string s => "'" ++ s ++ "'"
  | link rid => rid.text
  | list items => "[" ++ ", ".intercalate (textItems items) ++ "]"
  | map entries => "\x7b" ++ ", ".intercalate (textEntries entries) ++ "\x7d"

/-- The written forms of the items. -/
def textItems : List Value → List String
  | [] => []
  | v :: vs => v.text :: textItems vs

/-- The written forms of the entries. -/
def textEntries : List (String × Value) → List String
  | [] => []
  | (k, v) :: rest => (k ++ ": " ++ v.text) :: textEntries rest

end

/-- The text of a value inside a joined group key: strings stand without quotes. -/
def keyText : Value → String
  | string s => s
  | v => v.text

end Value

end RecordQuery
