/-!
# `RecordQuery.Toml.Basic`: documents of named values

A TOML document is a table of values. A table remembers how it came about, because that
decides what may still be added to it: a table with a header of its own must not get a second
one, and a table made by dotted keys can grow only by dotted keys.
-/

set_option autoImplicit false

namespace RecordQuery.Toml

/-- How a table came about. -/
inductive TableOrigin where
  /-- By a header of its own; the root counts as such. -/
  | header
  /-- As a step of a longer header. -/
  | implied
  /-- By a dotted key. -/
  | dotted
deriving DecidableEq, Repr

/-- A value of a document. -/
inductive Item where
  | string (text : String)
  | integer (n : Int)
  /-- A floating-point number. -/
  | float
  | boolean (b : Bool)
  /-- A date, a time, or both. -/
  | moment
  | array (items : List Item)
  /-- A table written in braces. -/
  | inlineTable (entries : List (String × Item))
  /-- A table of the document. -/
  | table (origin : TableOrigin) (entries : List (String × Item))
  /-- The tables of a repeated header, the latest one first. -/
  | tables (latest : List (String × Item)) (earlier : List (List (String × Item)))
deriving Repr

/-- Named values, in the order in which they were written. -/
abbrev Entries := List (String × Item)

namespace Entries

/-- The value of a name. -/
def get? (entries : Entries) (name : String) : Option Item :=
  (entries.find? fun (n, _) => n == name).map (·.2)

/-- Sets the value of a name, in its place or at the end. -/
def set (entries : Entries) (name : String) (item : Item) : Entries :=
  match entries with
  | [] => [(name, item)]
  | (n, old) :: rest => if n == name then (n, item) :: rest else (n, old) :: set rest name item

end Entries

/-- A change of a table: it may depend on how the table came about, and be refused. -/
abbrev TableChange := TableOrigin → Entries → Option (TableOrigin × Entries)

/-- Changes the table that a path leads to, making the tables on the way. Steps of a dotted
key do not enter tables that have a header of their own. -/
def changeAt (dotted : Bool) (change : TableChange) : List String → TableChange
  | [], origin, entries => change origin entries
  | name :: path, origin, entries =>
      let next := changeAt dotted change path
      let made := if dotted then TableOrigin.dotted else .implied
      match Entries.get? entries name with
      | none => do
          let (o, inner) ← next made []
          return (origin, Entries.set entries name (.table o inner))
      | some (.table o inner) =>
          if dotted && o == .header then none
          else do
            let (o, inner) ← next o inner
            return (origin, Entries.set entries name (.table o inner))
      | some (.tables latest earlier) => do
          let (_, inner) ← next .header latest
          return (origin, Entries.set entries name (.tables inner earlier))
      | some _ => none

/-- Adds a value under a new name. A dotted key adds only to tables made by dotted keys, and
a plain one only to other tables. -/
def addValue (viaDots : Bool) (name : String) (item : Item) : TableChange
  | origin, entries =>
      if viaDots != (origin == .dotted) then none
      else if (Entries.get? entries name).isSome then none
      else some (origin, entries ++ [(name, item)])

/-- Adds a value under a key of one or more names, given without the last one. -/
def addKeyValue (path : List String) (name : String) (item : Item) : TableChange :=
  changeAt (!path.isEmpty) (addValue (!path.isEmpty) name item) path

/-- Opens the table of a header. Only a table that was a mere step so far may get one. -/
def openTable (name : String) : TableChange
  | origin, entries =>
      match Entries.get? entries name with
      | none => some (origin, entries ++ [(name, .table .header [])])
      | some (.table .implied inner) =>
          some (origin, Entries.set entries name (.table .header inner))
      | some _ => none

/-- Opens one more table of a repeated header. -/
def openRepeated (name : String) : TableChange
  | origin, entries =>
      match Entries.get? entries name with
      | none => some (origin, entries ++ [(name, .tables [] [])])
      | some (.tables latest earlier) =>
          some (origin, Entries.set entries name (.tables [] (latest :: earlier)))
      | some _ => none

end RecordQuery.Toml
