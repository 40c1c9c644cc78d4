import Mathlib.Data.List.Forall2
import RecordQuery.Proofs.Buckets

/-!
# `RecordQuery.Proofs.RecordKeys`: the keys that a record contributes

A field with a list or a map contributes each of its components to an index
(`StoredIndex.components`), and an empty list contributes null. A record contributes every key that
takes one component of each indexed field. `StoredIndex.KeyOf definition record key` is this
relation, place by place. `StoredIndex.keysFor` computes the keys, drops repeats, and leaves out the
keys with a null in them where the index ignores nulls.

The two agree where the record is exact. For other records `keysFor` may have dropped a key that
only compares equal to one that it has kept. So what holds of any record is said up to equality
(`exists_mem_keysFor`).

The theorems:

* `StoredIndex.mem_keysFor`: the keys that an exact record contributes.
* `StoredIndex.exists_mem_keysFor`: any record contributes its keys up to equality.
* `StoredIndex.KeyOf.itemsIn`: the numbers in a key are those in the record, so a record with
  separated numbers has keys in a total order.
-/

set_option autoImplicit false

namespace RecordQuery

/-- Whether there is no floating-point number in any of the `fields` of the record. -/
def Record.isExact (record : Record) : Bool := Value.entriesExact record.fields

/-- What holds of all values of the fields, and of null, holds of `Fields.get`, which gives null for
a name that is missing. -/
theorem Fields.get_of_forall {fields : Fields} {p : Value → Prop} (h : ∀ e ∈ fields, p e.2)
    (hnull : p .null) (name : String) : p (fields.get name) := by
  unfold Fields.get
  induction fields with
  | nil => exact hnull
  | cons e rest ih =>
      unfold Fields.get?
      split
      · exact h e List.mem_cons_self
      · exact ih fun e he => h e (List.mem_cons_of_mem _ he)

section

variable {p : Int64 → Prop} {q : Binary64 → Prop}

/-- The numbers in what `get` answers for a record are those in its fields. -/
theorem Record.get_numbersIn {record : Record} (h : Value.EntriesIn p q record.fields)
    (name : String) : (record.get name).NumbersIn p q := by
  unfold Record.get
  split
  · trivial
  · split
    · trivial
    · exact Fields.get_of_forall (p := fun v => v.NumbersIn p q) (Value.entriesIn_iff.mp h) trivial
        name

end

/-- The value under a name is exact where all values are (`entriesExact`). -/
theorem Fields.get_isExact {fields : Fields} (h : Value.entriesExact fields = true)
    (name : String) : (fields.get name).isExact = true :=
  get_of_forall (p := fun v => v.isExact = true) (Value.entriesExact_iff.mp h) rfl name

/-- The fields of a record that `isExact` are exact. -/
theorem Record.get_isExact {record : Record} (h : record.isExact = true) (name : String) :
    (record.get name).isExact = true :=
  Value.isExact_of_numbersIn (Record.get_numbersIn (Value.entriesIn_of_entriesExact h) name)

namespace StoredIndex

/-- The `components` that a value contributes to keys are its parts, the names in it, or null, so
the numbers in them are those in the value. -/
theorem components_numbersIn {p : Int64 → Prop} {q : Binary64 → Prop} {part : MapPart}
    {value v : Value} (h : value.NumbersIn p q) (hv : v ∈ components part value) :
    v.NumbersIn p q := by
  unfold components at hv
  -- every component is in the value, is a key of a map, or is null
  split at hv
  · rw [List.mem_singleton.mp hv]
    trivial
  · rw [List.mem_singleton.mp hv]
    trivial
  next items => exact Value.itemsIn_iff.mp h v hv
  next entries =>
    split at hv
    · obtain ⟨e, -, rfl⟩ := List.mem_map.mp hv
      trivial
    · obtain ⟨e, he, rfl⟩ := List.mem_map.mp hv
      exact Value.entriesIn_iff.mp h e he
  · rw [List.mem_singleton.mp hv]
    exact h

/-- Every value has `components`: an empty list or map contributes null. -/
theorem components_ne_nil (part : MapPart) (value : Value) : components part value ≠ [] := by
  unfold components
  split <;> try simp
  next items hne => simpa using fun h => hne h
  next entries hne => split <;> simpa using fun h => hne h

/-- `combine` gives every choice of one component per field, and nothing else. -/
theorem mem_combine {choices : List (List Value)} {key : Key} :
    key ∈ combine choices ↔ List.Forall₂ (fun v choice => v ∈ choice) key choices := by
  induction choices generalizing key with
  | nil => simp [combine, List.forall₂_nil_right_iff]
  | cons choice rest ih =>
      simp only [combine, List.mem_flatMap, List.mem_map, List.forall₂_cons_right_iff, ih]
      constructor
      · rintro ⟨v, hv, vs, hvs, rfl⟩
        exact ⟨v, vs, hv, hvs, rfl⟩
      · rintro ⟨v, vs, hv, hvs, rfl⟩
        exact ⟨v, hv, vs, hvs, rfl⟩

/-- The key takes one of the `components` of every indexed field of the record, in the order of the
fields. -/
def KeyOf (definition : IndexDefinition) (record : Record) (key : Key) : Prop :=
  List.Forall₂ (fun v field => v ∈ components definition.mapPart (record.get field)) key
    definition.fields

/-- The numbers in a `KeyOf` a record are those in its fields. -/
theorem KeyOf.itemsIn {p : Int64 → Prop} {q : Binary64 → Prop} {definition : IndexDefinition}
    {record : Record} {key : Key} (h : KeyOf definition record key)
    (hrecord : Value.EntriesIn p q record.fields) : Value.ItemsIn p q key := by
  unfold KeyOf at h
  generalize definition.fields = fields at h
  induction h with
  | nil => trivial
  | cons hcomponent _ ih =>
      exact ⟨components_numbersIn (Record.get_numbersIn hrecord _) hcomponent, ih⟩

/-- A `KeyOf` an exact record is exact. -/
theorem KeyOf.isExact {definition : IndexDefinition} {record : Record} {key : Key}
    (h : KeyOf definition record key) (hrecord : record.isExact = true) : key.isExact = true :=
  Value.areExact_of_itemsIn (h.itemsIn (Value.entriesIn_of_entriesExact hrecord))

/-- A key that `keysFor` gives takes a component of every indexed field, for any record. -/
theorem keyOf_of_mem_keysFor {index : StoredIndex} {record : Record} {key : Key}
    (hkey : key ∈ index.keysFor record) : KeyOf index.definition record key := by
  have hmem := mem_of_mem_sortDistinct hkey
  have hcombine : key ∈ combine (index.definition.fields.map fun field =>
      components index.definition.mapPart (record.get field)) := by
    split at hmem
    · exact List.mem_of_mem_filter hmem
    · exact hmem
  rwa [mem_combine, List.forall₂_map_right_iff] at hcombine

/-- The keys that an exact record contributes: all of `KeyOf`, without those with a null in them
where the index leaves nulls out. -/
theorem mem_keysFor {index : StoredIndex} {record : Record} (hrecord : record.isExact = true)
    {key : Key} :
    key ∈ index.keysFor record ↔ KeyOf index.definition record key ∧
      (index.definition.ignoreNulls = true → key.any Value.isNull = false) := by
  have hcombine : ∀ key : Key, key ∈ combine (index.definition.fields.map fun field =>
      components index.definition.mapPart (record.get field)) ↔
        KeyOf index.definition record key := fun key => by
    rw [mem_combine, List.forall₂_map_right_iff, KeyOf]
  unfold keysFor
  generalize combine (index.definition.fields.map fun field =>
    components index.definition.mapPart (record.get field)) = keys at hcombine ⊢
  dsimp only
  have hkept : ∀ key : Key,
      key ∈ (if index.definition.ignoreNulls = true then
        keys.filter (fun key => !key.any Value.isNull) else keys) ↔
      KeyOf index.definition record key ∧
        (index.definition.ignoreNulls = true → key.any Value.isNull = false) := by
    intro key
    split
    next hnulls => simp [List.mem_filter, hcombine, hnulls]
    next hnulls => simp [hcombine, hnulls]
  rw [mem_sortDistinct Key.compare_self, hkept]
  -- no two of the keys compare equal, as they are exact
  intro x hx y hy hcmp
  exact (Key.compare_eq_iff (((hkept x).mp hx).1.isExact hrecord)
    (((hkept y).mp hy).1.isExact hrecord)).mp hcmp

/-- An index that leaves no nulls out (`hnulls`) has every `KeyOf` an exact record. -/
theorem mem_keysFor_of_nulls {index : StoredIndex} (hnulls : index.definition.ignoreNulls = false)
    {record : Record} (hrecord : record.isExact = true) {key : Key} :
    key ∈ index.keysFor record ↔ KeyOf index.definition record key := by
  rw [mem_keysFor hrecord, hnulls]
  simp

/-- An index that leaves no nulls out has for every `KeyOf` a record one that compares equal. The
key itself may have been dropped as a repeat. -/
theorem exists_mem_keysFor {index : StoredIndex} (hnulls : index.definition.ignoreNulls = false)
    {record : Record} {key : Key} (hkey : KeyOf index.definition record key) :
    ∃ kept ∈ index.keysFor record, kept.compare key = .eq := by
  refine exists_mem_sortDistinct Key.compare_self ?_
  rw [hnulls, if_neg (by simp), mem_combine, List.forall₂_map_right_iff]
  exact hkey

end StoredIndex

end RecordQuery
