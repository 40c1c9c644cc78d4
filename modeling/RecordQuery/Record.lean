import RecordQuery.Value

/-!
# `RecordQuery.Record`: stored records and result rows

A record has an identity, a class and fields; a row has the identity of the record it came
from, if it came from one, and the values of its columns.
-/

set_option autoImplicit false

namespace RecordQuery

/-- The attribute that reads the identity of a record. -/
def ridAttribute : String := "@rid"

/-- The attribute that reads the class of a record. -/
def classAttribute : String := "@class"

/-- A stored record. -/
structure Record where
  /-- The identity. -/
  rid : Rid
  /-- The name of the class. -/
  className : String
  /-- The fields. -/
  fields : Fields
deriving Inhabited, Repr

/-- A field or attribute of a record; a missing one reads as null. -/
def Record.get (record : Record) (name : String) : Value :=
  if name == ridAttribute then .link record.rid
  else if name == classAttribute then .string record.className
  else record.fields.get name

/-- A result row. -/
structure Row where
  /-- The identity of the record behind the row; computed rows have none. -/
  rid : Option Rid
  /-- The columns. -/
  fields : Fields
deriving Inhabited, Repr

namespace Row

/-- The row that shows every field of a record. -/
def ofRecord (record : Record) : Row := ⟨some record.rid, record.fields⟩

/-- A row without identity. -/
def computed (fields : Fields) : Row := ⟨none, fields⟩

/-- A column of a row; `@rid` reads the identity where there is one. -/
def get (row : Row) (name : String) : Value :=
  match row.rid with
  | some rid => if name == ridAttribute then .link rid else row.fields.get name
  | none => row.fields.get name

end Row

end RecordQuery
