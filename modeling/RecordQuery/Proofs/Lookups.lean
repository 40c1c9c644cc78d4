import Mathlib.Data.List.Perm.Subperm
import RecordQuery.Proofs.Mirror
import RecordQuery.Proofs.Opening
import RecordQuery.Proofs.Searches
import RecordQuery.Proofs.Selections

/-!
# `RecordQuery.Proofs.Lookups`: lookups find the records that fit their search

Three steps lead from a search to the records that are read for it. An index `Covers` the fields of
a search if they are its leading fields, in any order. `Index.candidate?` makes a lookup of the
search, with the bound values in the order of the fields of the index, and the last comparison in
its place. `StoredIndex.lookup` gives the entries. `Candidate.Serves` is the inversion of the second
step, and every fact about a candidate is derived from it.

`Search.Wants field component` says which components the search looks for in a field. A candidate
selects the keys whose leading components are wanted (`Candidate.Serves.selects_iff`). A record has
such a key exactly if it has a wanted component in every constrained field (`exists_key_iff`),
because a record contributes every choice of components. This is an equivalence, and it is what the
exact statements about lookups rest on. For completeness `Search.Fits` is enough.

A query reads one candidate for every alternative of its condition, the first that can be read. A
record on which the condition is true fits all searches of some alternative, so whichever candidate
is read for it finds the record (`Store.mem_of_selectLookups?`).

The theorems:

* `Candidate.Serves.exists_key_iff`: when a record has a key that the candidate selects.
* `StoredIndex.Mirrors.finds`: a lookup in an index finds the live records with a selected key.
* `Store.mem_of_selectLookups?`: the records read for a condition include those that every candidate
  of one alternative finds.
* `Store.Sound.finds_of_fits`: a candidate of an index finds the records that fit its search.
* `Store.Sound.mem_lookup_of_candidate`: it finds exactly those with a wanted component in every
  constrained field, where numbers are separated.
-/

set_option autoImplicit false

namespace RecordQuery

namespace StoredIndex

/-- A lookup in an index that mirrors the store finds every live record below its class that has a
key which `query` selects. `hquery` is needed for a prefix, which is read as a range. -/
theorem Mirrors.finds {index : StoredIndex} {store : Store} (h : index.Mirrors store)
    {query : IndexQuery} (hquery : query.IsExact) {ascending : Bool} {entries : List IndexEntry}
    (hok : index.lookup query ascending = .ok entries) {r : Record} (hr : store.Live r)
    (hbelow : store.schema.Below r.className index.definition.className) {key : Key}
    (hkey : key ∈ index.keysFor r) (hselects : query.Selects key) :
    ∃ entry ∈ entries, entry.rid = r.rid :=
  ⟨⟨key, r.rid⟩, (mem_of_lookup hok).mpr ((mem_matching h.ordered hquery.isSharp).mpr
    ⟨h.holds_iff.mpr ⟨r, hr, rfl, hbelow, hkey⟩, hselects⟩), rfl⟩

section

variable {p : Int64 → Prop} {q : Binary64 → Prop} (hseparated : Value.Separated p q)
  {index : StoredIndex} {store : Store}
  (h : index.Reflects (fun key => Value.ItemsIn p q key) store) (hsound : store.Sound)
  (hnulls : index.definition.ignoreNulls = false) {r : Record} (hr : store.Live r)
  (hrecord : Value.EntriesIn p q r.fields)
  (hbelow : store.schema.Below r.className index.definition.className)

include hseparated h hsound hnulls hr hrecord hbelow

/-- A lookup gives a live record exactly if a key of the record is selected, where the numbers are
separated and the index leaves no nulls out. The index may hold an equal key instead, which
`IndexQuery.selects_congr` says is selected as well. -/
theorem Reflects.mem_lookup_iff {query : IndexQuery} (hquery : query.NumbersIn p q)
    {ascending : Bool} {entries : List IndexEntry}
    (hok : index.lookup query ascending = .ok entries) :
    (∃ entry ∈ entries, entry.rid = r.rid) ↔
      ∃ key, KeyOf index.definition r key ∧ query.Selects key := by
  rw [← h.exists_holds_iff hsound hnulls hr (fun _ _ hkey => hkey.itemsIn hrecord) hbelow
    fun _ _ hkey hother heq => IndexQuery.selects_congr hseparated hkey hother heq hquery]
  simp only [mem_of_lookup hok, mem_matching_of_separated hseparated h.sorted hquery.runs]
  constructor
  · rintro ⟨entry, ⟨hholds, hselects⟩, hrid⟩
    exact ⟨entry.key, hrid ▸ hholds, hselects⟩
  · rintro ⟨key, hholds, hselects⟩
    exact ⟨⟨key, r.rid⟩, ⟨hholds, hselects⟩, rfl⟩

end

end StoredIndex

/-! ## The candidate of a search

From the search to the lookup, in both directions: which lookup an index gives for a search, and
which keys and records the lookup selects. The lemmas about `List.Forall₂` compare the leading
components of a key with the fields, one by one. -/

/-- The leading fields of the definition are the given `names`, in some order, and no name occurs
twice. -/
structure IndexDefinition.Covers (definition : IndexDefinition) (names : List String) : Prop where
  /-- The names are the leading fields. -/
  perm : (definition.fields.take names.length).Perm names
  /-- No name occurs twice. -/
  nodup : names.Nodup

namespace Store

/-- `distinct` decides that no name occurs twice. -/
theorem distinct_eq_true_iff {names : List String} : distinct names = true ↔ names.Nodup := by
  induction names with
  | nil => simp [distinct]
  | cons name names ih => simp [distinct, ih]

/-- An index among the `indexesCovering` some fields is declared for the class or above it, so the
records of the class are in it, and the fields are its leading ones. -/
theorem Sound.mem_indexesCovering {store : Store} (h : store.Sound) {className : String}
    {fields : List String} {index : StoredIndex}
    (hindex : index ∈ store.indexesCovering className fields) :
    index ∈ store.indexes ∧ store.schema.Below className index.definition.className ∧
      index.definition.Covers fields := by
  unfold indexesCovering indexesOf at hindex
  split at hindex
  · cases hindex
  next hfields =>
    simp only [Bool.or_eq_true, not_or, Bool.not_eq_true, Bool.not_eq_false',
      distinct_eq_true_iff] at hfields
    simp only [List.mem_filter, Bool.and_eq_true, decide_eq_true_eq, sameMembers,
      List.all_eq_true, List.contains_iff_mem] at hindex
    obtain ⟨⟨hmem, habove⟩, hlength, -, hwanted⟩ := hindex
    refine ⟨hmem, h.forest.mem_ancestors_iff.mp habove, ?_, hfields.2⟩
    -- distinct fields among as many leading ones are these in some order
    have hsub : fields.Subperm (index.definition.fields.take fields.length) :=
      hfields.2.subperm hwanted
    exact (hsub.perm_of_length_le (List.length_take_le _ _)).symm

end Store

/-- The component of a field that a search looks for: one that equals the `boundValue?`, and in the
last field one that `lastOperator` looks for. A field that is bound twice is looked for with the
value that was bound last. -/
def Search.Wants (search : Search) (field : String) (component : Value) : Prop :=
  match search.boundValue? field with
  | some value => (component == value) = true
  | none => search.lastOperator.Meets search.lastValue component

/-- The fields that a search constrains: the `bound` ones, and the end of the chain `lastField`. -/
def Search.names (search : Search) : List String :=
  search.bound.map (·.1) ++ [search.lastField.last]

section

variable {search : Search} {definition : IndexDefinition} {record : Record}

/-- What `boundValue?` answers for a field is bound to it by the search. -/
theorem Search.mem_of_boundValue? {field : String} {value : Value}
    (h : search.boundValue? field = some value) : (field, value) ∈ search.bound := by
  unfold boundValue? at h
  obtain ⟨p, hfind, rfl⟩ := Option.map_eq_some_iff.mp h
  obtain rfl : p.1 = field := by simpa using List.find?_some hfind
  exact List.mem_of_find?_eq_some hfind

/-- A field has no `boundValue?` exactly if it is none of the bound ones. -/
theorem Search.boundValue?_eq_none_iff {field : String} :
    search.boundValue? field = none ↔ field ∉ search.bound.map (·.1) := by
  unfold boundValue?
  simp only [Option.map_eq_none_iff, List.find?_eq_none, List.mem_map, not_exists, not_and,
    beq_iff_eq]

/-- Without bound fields `Wants` is what the last comparison looks for. -/
theorem Search.wants_iff_meets (h : search.bound = []) {field : String} {component : Value} :
    search.Wants field component ↔ search.lastOperator.Meets search.lastValue component := by
  have hnone : search.boundValue? field = none := boundValue?_eq_none_iff.mpr (by simp [h])
  rw [Wants, hnone]

/-- A record that suits a search has a component that the search `Wants` in every field among
`search.names`. -/
theorem Search.Suits.exists_wanted {part : MapPart} (h : search.Suits part record) {field : String}
    (hfield : field ∈ search.names) :
    ∃ component ∈ StoredIndex.components part (record.get field), search.Wants field component := by
  unfold Wants
  split
  next value hbound => exact h.bound _ (mem_of_boundValue? hbound)
  next hnone =>
    rcases List.mem_append.mp hfield with hmem | hlast
    · exact absurd hmem (boundValue?_eq_none_iff.mp hnone)
    · rw [List.mem_singleton.mp hlast]
      exact h.last

/-- What every element of a list has can be listed beside it, as `List.Forall₂` relates the two
lists. -/
theorem exists_forall₂ {α β : Type} {relation : β → α → Prop} {xs : List α}
    (h : ∀ x ∈ xs, ∃ y, relation y x) : ∃ ys, List.Forall₂ relation ys xs := by
  induction xs with
  | nil => exact ⟨[], .nil⟩
  | cons x xs ih =>
      obtain ⟨y, hy⟩ := h x List.mem_cons_self
      obtain ⟨ys, hys⟩ := ih fun x hx => h x (List.mem_cons_of_mem _ hx)
      exact ⟨y :: ys, .cons hy hys⟩

/-- A list is to be chosen beside `xs`, with a further condition on the first `count` places. As the
choices in the places do not depend on each other, it exists exactly if each of these places has
such a choice. Keys of a record are chosen so. -/
theorem exists_forall₂_take_iff {α β : Type} {relation wants : β → α → Prop} {xs : List α}
    (h : ∀ x ∈ xs, ∃ y, relation y x) (count : Nat) :
    (∃ ys, List.Forall₂ relation ys xs ∧ List.Forall₂ wants (ys.take count) (xs.take count)) ↔
      ∀ x ∈ xs.take count, ∃ y, relation y x ∧ wants y x := by
  induction xs generalizing count with
  | nil => simp
  | cons x xs ih =>
      obtain ⟨⟨y, hy⟩, hxs⟩ := List.forall_mem_cons.mp h
      simp only [List.forall₂_cons_right_iff]
      -- beyond the first ones any element that goes with it will do
      cases count with
      | zero =>
          obtain ⟨ys, hys⟩ := exists_forall₂ hxs
          simp only [List.take_zero, List.not_mem_nil, false_imp_iff, implies_true, iff_true]
          exact ⟨y :: ys, ⟨y, ys, hy, hys, rfl⟩, .nil⟩
      | succ count =>
          rw [List.take_succ_cons, List.forall_mem_cons, ← ih hxs count]
          constructor
          · rintro ⟨_, ⟨y, ys, hy, hys, rfl⟩, hwants⟩
            obtain ⟨hfirst, hrest⟩ := List.forall₂_cons.mp hwants
            exact ⟨⟨y, hy, hfirst⟩, ys, hys, hrest⟩
          · rintro ⟨⟨y, hy, hfirst⟩, ys, hys, hrest⟩
            exact ⟨y :: ys, ⟨y, ys, hy, hys, rfl⟩, .cons hfirst hrest⟩

/-- `List.Forall₂` for lists with a last element: the elements before are related, and the last
ones. -/
theorem forall₂_concat_iff {α β : Type} {relation : α → β → Prop} {xs : List α} {ys : List β}
    {x : α} {y : β} (hlength : xs.length = ys.length) :
    List.Forall₂ relation (xs ++ [x]) (ys ++ [y]) ↔ List.Forall₂ relation xs ys ∧ relation x y := by
  induction xs generalizing ys with
  | nil =>
      obtain rfl := List.length_eq_zero_iff.mp hlength.symm
      simp
  | cons first xs ih =>
      cases ys with
      | nil => cases hlength
      | cons second ys => simp [ih (Nat.succ.inj hlength), and_assoc]

/-- In `List.Forall₂` the relation may be replaced by one that agrees on the elements of `ys`. -/
theorem forall₂_congr_right {α β : Type} {relation other : α → β → Prop} {xs : List α}
    {ys : List β} (h : ∀ y ∈ ys, ∀ x, relation x y ↔ other x y) :
    List.Forall₂ relation xs ys ↔ List.Forall₂ other xs ys := by
  induction ys generalizing xs with
  | nil => simp [List.forall₂_nil_right_iff]
  | cons y ys ih =>
      obtain ⟨hy, hys⟩ := List.forall_mem_cons.mp h
      simp only [List.forall₂_cons_right_iff, hy, ih hys]

/-- A key starts with `leading` if its first components, `wanted`, equal those of `leading` one by
one. -/
theorem Key.startsWith_append_iff {wanted leading : Key} (hlength : wanted.length = leading.length)
    (rest : Key) : Key.startsWith (wanted ++ rest) leading = true ↔
      List.Forall₂ (fun component value => (component == value) = true) wanted leading := by
  induction wanted generalizing leading with
  | nil =>
      obtain rfl := List.length_eq_zero_iff.mp hlength.symm
      cases rest <;> simp [Key.startsWith]
  | cons v vs ih =>
      cases leading with
      | nil => cases hlength
      | cons w ws => simp [Key.startsWith, ih (Nat.succ.inj hlength)]

/-- The lookup that `lookupFor?` makes for a last comparison selects the keys whose leading
components equal the given ones and that go on with one that the comparison looks for. For an
equality the last parameter is what the component has to equal. -/
theorem selects_iff_of_lookupFor? {operator : Operator} {leading wanted : Key}
    {parameter value component : Value} {lookup : IndexQuery}
    (h : lookupFor? operator (leading ++ [parameter]) value = some lookup)
    (hlength : wanted.length = leading.length) (rest : Key) :
    lookup.Selects (wanted ++ component :: rest) ↔
      List.Forall₂ (fun component value => (component == value) = true) wanted leading ∧
        if operator.isEqualityClass then (component == parameter) = true
        else operator.Meets value component := by
  have hstarts (final : Value) :
      Key.startsWith (wanted ++ component :: rest) (leading ++ [final]) = true ↔
        List.Forall₂ (fun component value => (component == value) = true) wanted leading ∧
          (component == final) = true := by
    rw [← List.singleton_append, ← List.append_assoc,
      Key.startsWith_append_iff (by simp [hlength]), forall₂_concat_iff hlength]
  -- a range looks at the component that follows the leading ones
  have hrange (lower upper : Bound Value) :
      IndexQuery.Selects (.range leading lower upper) (wanted ++ component :: rest) ↔
        List.Forall₂ (fun component value => (component == value) = true) wanted leading ∧
          component.isWithin lower upper = true := by
    unfold IndexQuery.Selects
    dsimp only
    rw [Key.startsWith_append_iff hlength, ← hlength]
    simp
  unfold lookupFor? at h
  rw [List.dropLast_concat] at h
  cases operator with
  | equals | contains | containsKey | containsValue =>
      cases h
      exact hstarts parameter
  | oneOf =>
      dsimp only at h
      split at h
      next items =>
        cases h
        simp only [IndexQuery.Selects, List.mem_map, exists_exists_and_eq_and, hstarts,
          Operator.isEqualityClass, Operator.Meets, Value.list.injEq, exists_eq_left']
        constructor
        · rintro ⟨item, hitem, hleading, heq⟩
          exact ⟨hleading, item, hitem, heq⟩
        · rintro ⟨hleading, item, hitem, heq⟩
          exact ⟨item, hitem, hleading, heq⟩
      · cases h
  | less | lessOrEquals | greater | greaterOrEquals =>
      simp only [Option.ite_none_left_eq_some, Option.some.injEq] at h
      obtain ⟨-, rfl⟩ := h
      exact hrange _ _
  | between lowerInclusive upperInclusive =>
      dsimp only at h
      split at h
      next lower upper =>
        simp only [Option.ite_none_left_eq_some, Option.some.injEq] at h
        obtain ⟨-, -, rfl⟩ := h
        refine (hrange _ _).trans (and_congr_right fun _ => ?_)
        simp [Operator.isEqualityClass, Operator.Meets]
      · cases h
  | notEquals | like | isNull | isNotNull => cases h

/-- The numbers in a lookup are those in the parameters and the value that `lookupFor?` makes it
from. -/
theorem numbersIn_of_lookupFor? {p : Int64 → Prop} {q : Binary64 → Prop} {operator : Operator}
    {params : Key} {value : Value} {lookup : IndexQuery}
    (h : lookupFor? operator params value = some lookup) (hparams : Value.ItemsIn p q params)
    (hvalue : value.NumbersIn p q) : lookup.NumbersIn p q := by
  have hleading : Value.ItemsIn p q params.dropLast :=
    Value.itemsIn_iff.mpr fun v hv =>
      Value.itemsIn_iff.mp hparams v ((List.dropLast_sublist params).subset hv)
  unfold lookupFor? at h
  -- the parameters are the parts of a lookup, and the last one may be replaced by what the value
  -- has
  cases operator with
  | equals | contains | containsKey | containsValue =>
      cases h
      exact hparams
  | oneOf =>
      dsimp only at h
      split at h
      next items =>
        cases h
        intro choice hchoice
        obtain ⟨item, hitem, rfl⟩ := List.mem_map.mp hchoice
        refine Value.itemsIn_iff.mpr fun v hv => ?_
        rcases List.mem_append.mp hv with hv | hv
        · exact Value.itemsIn_iff.mp hleading v hv
        · rw [List.mem_singleton.mp hv]
          exact Value.itemsIn_iff.mp hvalue item hitem
      · cases h
  | less | lessOrEquals | greater | greaterOrEquals =>
      simp only [Option.ite_none_left_eq_some, Option.some.injEq] at h
      obtain ⟨-, rfl⟩ := h
      exact ⟨hleading, by simp [Bound.value?, hvalue]⟩
  | between lowerInclusive upperInclusive =>
      dsimp only at h
      split at h
      next lower upper =>
        simp only [Option.ite_none_left_eq_some, Option.some.injEq] at h
        obtain ⟨-, -, rfl⟩ := h
        refine ⟨hleading, fun limit hlimit => ?_⟩
        obtain ⟨hlower, hupper, -⟩ := hvalue
        cases lowerInclusive <;> cases upperInclusive <;>
          rcases hlimit with hlimit | hlimit <;> cases hlimit <;> assumption
      · cases h
  | notEquals | like | isNull | isNotNull => cases h

/-- A search `Wants` a component of a field exactly if it equals the parameter of the field, where
the field is bound or the last comparison is an equality. -/
theorem Search.wants_iff_beq {field : String} {component : Value}
    (hequal : search.boundValue? field = none → search.lastOperator.isEqualityClass = true) :
    search.Wants field component ↔
      (component == (search.boundValue? field).getD search.lastValue) = true := by
  unfold Wants
  split
  next value hbound => rw [hbound]; rfl
  next hnone => rw [hnone]; exact meets_iff_beq (hequal hnone)

/-- The leading fields that a search constrains are the places of the bound values, `init`, and one
more, for the last comparison. -/
theorem IndexDefinition.Covers.exists_concat (h : definition.Covers search.names) :
    ∃ init field, definition.fields.take search.names.length = init ++ [field] ∧
      init.length = search.bound.length := by
  have hlength : (definition.fields.take search.names.length).length =
      search.bound.length + 1 := by
    rw [h.perm.length_eq]
    simp [Search.names]
  obtain ⟨init, field, htake⟩ : ∃ init field,
      definition.fields.take search.names.length = init ++ [field] := by
    refine ⟨_, _, (List.dropLast_concat_getLast fun hnil => ?_).symm⟩
    rw [hnil] at hlength
    cases hlength
  exact ⟨init, field, htake, by simpa [htake] using hlength⟩

/-- A field among `search.names` that is not bound is the end of `lastField`. -/
theorem Search.eq_last_of_not_bound {field : String} (hfield : field ∈ search.names)
    (hnone : search.boundValue? field = none) : field = search.lastField.last := by
  rcases List.mem_append.mp hfield with hmem | hlast
  · exact absurd hmem (boundValue?_eq_none_iff.mp hnone)
  · exact List.mem_singleton.mp hlast

/-- A last comparison that is no equality falls on the last of the leading fields, and only there.
`placesLast` is the check by which an index refuses other searches. An equality may stand in any
place. -/
theorem IndexDefinition.Covers.placed_last (h : definition.Covers search.names)
    (hplaces : definition.placesLast search = true)
    (hrange : search.lastOperator.isEqualityClass = false) {init : List String} {field : String}
    (htake : definition.fields.take search.names.length = init ++ [field])
    (hinit : init.length = search.bound.length) :
    field = search.lastField.last ∧ search.boundValue? field = none ∧
      ∀ name ∈ init, name ≠ search.lastField.last := by
  have hfield : definition.fields[search.bound.length]? = some field := by
    have hat : (init ++ [field])[search.bound.length]? = some field := by
      rw [← hinit]
      simp
    rw [← htake, List.getElem?_take] at hat
    exact (Option.ite_none_right_eq_some.mp hat).2
  -- the definition has been checked for this: the field behind those bound is the last one
  obtain rfl : field = search.lastField.last := by
    simpa [IndexDefinition.placesLast, hrange, hfield] using hplaces
  refine ⟨rfl, ?_, fun name hname heq => ?_⟩
  · refine Search.boundValue?_eq_none_iff.mpr fun hmem => ?_
    exact List.disjoint_of_nodup_append h.nodup hmem List.mem_cons_self
  · have hnodup : (init ++ [search.lastField.last]).Nodup := by
      rw [← htake]
      exact h.perm.nodup_iff.mpr h.nodup
    exact List.disjoint_of_nodup_append hnodup hname (List.mem_singleton.mpr heq)

/-- What is known of a candidate that an index gives for a search: `Index.candidate?` has passed all
its checks, and the lookup is made from the search. -/
structure Candidate.Serves (candidate : Candidate) (index : Index) (search : Search) : Prop where
  /-- The index is read. -/
  index_eq : candidate.index = index
  /-- The candidate keeps the search. -/
  search_eq : candidate.search = search
  /-- What is looked up is made from the search. -/
  lookup : lookupFor? search.lastOperator (index.definition.paramsFor search) search.lastValue =
    some candidate.lookup
  /-- An index that leaves nulls out serves no search for them. -/
  nulls : index.definition.ignoreNulls = true → search.hasNulls = false
  /-- The last comparison falls on the right field, which is the last one of those looked up unless
  it is an equality. -/
  places : index.definition.placesLast search = true
  /-- The index stores the part of maps that the last comparison looks at. -/
  stores : index.definition.storesPartFor search.lastOperator = true

/-- The inversion of `Index.candidate?`: the candidate serves the search. -/
theorem Index.serves_of_candidate? {index : Index} {query : SelectQuery} {onlyBranch : Bool}
    {candidate : Candidate}
    (h : index.candidate? search query onlyBranch = some candidate) :
    candidate.Serves index search := by
  unfold candidate? at h
  simp only [Option.ite_none_left_eq_some, Option.map_eq_some_iff] at h
  obtain ⟨hnulls, -, hplaces, hstores, lookup, hlookup, rfl⟩ := h
  refine ⟨rfl, rfl, hlookup, fun hsparse => ?_, by simpa using hplaces, by simpa using hstores⟩
  rw [hsparse, Bool.and_true] at hnulls
  simpa using hnulls

section

variable {index : Index} {candidate : Candidate} (h : candidate.Serves index search)
  (hcovers : index.definition.Covers search.names)

include h hcovers

/-- The candidate selects the keys whose leading components are wanted of the fields in their
places. `hlength`: the key has a component for each field of the index. -/
theorem Candidate.Serves.selects_iff {key : Key}
    (hlength : key.length = index.definition.fields.length) :
    candidate.lookup.Selects key ↔
      List.Forall₂ (fun component field => search.Wants field component)
        (key.take search.names.length) (index.definition.fields.take search.names.length) := by
  obtain ⟨init, field, htake, hinit⟩ := hcovers.exists_concat
  have hlookup := h.lookup
  have hcount : search.fields.length = search.names.length := by
    simp [Search.fields, Search.names]
  rw [IndexDefinition.paramsFor, hcount, htake, List.map_append, List.map_singleton] at hlookup
  -- the key has a component for each of the leading fields
  obtain ⟨leading, component, rest, rfl, hleading⟩ : ∃ leading component rest,
      key = leading ++ component :: rest ∧ leading.length = init.length := by
    have hlong : init.length < key.length := by
      have htakeLength := congrArg List.length htake
      simp only [List.length_take, List.length_append, List.length_singleton] at htakeLength
      omega
    refine ⟨key.take init.length, key[init.length], key.drop (init.length + 1), ?_, ?_⟩
    · rw [← List.drop_eq_getElem_cons hlong, List.take_append_drop]
    · rw [List.length_take]
      omega
  have htakeKey : (leading ++ component :: rest).take search.names.length =
      leading ++ [component] := by
    have hnames : search.names.length = (leading ++ [component]).length := by
      simp [Search.names, hleading, hinit]
    rw [← List.singleton_append, ← List.append_assoc, hnames, List.take_left]
  rw [selects_iff_of_lookupFor? hlookup (by simp [hleading]), htake, htakeKey,
    forall₂_concat_iff hleading, List.forall₂_map_right_iff]
  have hmem {name : String} (hname : name ∈ init ++ [field]) : name ∈ search.names :=
    hcovers.perm.mem_iff.mp (htake ▸ hname)
  refine and_congr (forall₂_congr_right fun name hname component => ?_) ?_
  · -- every field but the last one is bound, unless the search ends in an equality
    refine (Search.wants_iff_beq fun hnone => ?_).symm
    cases hrange : search.lastOperator.isEqualityClass with
    | true => rfl
    | false =>
        have hlastField := Search.eq_last_of_not_bound (hmem (List.mem_append_left _ hname)) hnone
        obtain ⟨-, -, hne⟩ := hcovers.placed_last h.places hrange htake hinit
        exact absurd hlastField (hne name hname)
  · -- the last component meets the last comparison, or equals its constant
    cases hrange : search.lastOperator.isEqualityClass with
    | true => exact (Search.wants_iff_beq fun _ => hrange).symm
    | false =>
        obtain ⟨-, hnone, -⟩ := hcovers.placed_last h.places hrange htake hinit
        simp [Search.Wants, hnone]

/-- A record has a key that the candidate selects exactly if it has a wanted component in every
constrained field. From left to right the components are read off the key. From right to left they
are put together to a key, with any components in the other places (`exists_forall₂_take_iff`). -/
theorem Candidate.Serves.exists_key_iff :
    (∃ key, StoredIndex.KeyOf index.definition record key ∧ candidate.lookup.Selects key) ↔
      ∀ field ∈ search.names,
        ∃ component ∈ StoredIndex.components index.definition.mapPart (record.get field),
          search.Wants field component := by
  have hcomponents : ∀ field ∈ index.definition.fields, ∃ component,
      component ∈ StoredIndex.components index.definition.mapPart (record.get field) :=
    fun field _ => List.exists_mem_of_ne_nil _ (StoredIndex.components_ne_nil _ _)
  simp only [← hcovers.perm.mem_iff]
  rw [← exists_forall₂_take_iff hcomponents]
  exact exists_congr fun key => and_congr_right fun hkey =>
    h.selects_iff hcovers (List.Forall₂.length_eq hkey)

omit hcovers in
/-- The numbers in the lookup of a candidate that `Serves` a search are those in the search. -/
theorem Candidate.Serves.numbersIn {p : Int64 → Prop} {q : Binary64 → Prop}
    (hbound : ∀ e ∈ search.bound, e.2.NumbersIn p q) (hlast : search.lastValue.NumbersIn p q) :
    candidate.lookup.NumbersIn p q := by
  refine numbersIn_of_lookupFor? h.lookup (Value.itemsIn_iff.mpr fun v hv => ?_) hlast
  obtain ⟨name, -, rfl⟩ := List.mem_map.mp hv
  cases hvalue : search.boundValue? name with
  | none => exact hlast
  | some value => exact hbound _ (Search.mem_of_boundValue? hvalue)

end

/-- A lookup without floating-point numbers `IsExact`. -/
theorem IndexQuery.NumbersIn.isExact {p : Int64 → Prop} {query : IndexQuery}
    (h : query.NumbersIn p fun _ => False) : query.IsExact := by
  cases query with
  | exact _ => exact Value.areExact_of_itemsIn h
  | oneOf choices => exact fun leading hleading => Value.areExact_of_itemsIn (h leading hleading)
  | range _ _ _ => exact Value.areExact_of_itemsIn h.1
  | keyRange _ _ => trivial

/-- A record that `Fits` a search has a key that the lookup of the `candidate?` of an index selects,
and the lookup names exact components. -/
theorem exists_key_of_candidate {index : Index} {query : SelectQuery} {onlyBranch : Bool}
    {candidate : Candidate}
    (hcandidate : index.candidate? search query onlyBranch = some candidate)
    (hcovers : index.definition.Covers search.names)
    (hfits : search.Fits index.definition.mapPart record) :
    candidate.index = index ∧ candidate.lookup.IsExact ∧
      ∃ key, StoredIndex.KeyOf index.definition record key ∧ candidate.lookup.Selects key := by
  have hserves := index.serves_of_candidate? hcandidate
  have hnumbers := hserves.numbersIn (p := fun _ => True) (q := fun _ => False)
    (fun e he => Value.numbersIn_of_isExact (hfits.exactBound e he))
    (Value.numbersIn_of_isExact hfits.exactLast)
  exact ⟨hserves.index_eq, hnumbers.isExact,
    (hserves.exists_key_iff hcovers).mpr fun _ hfield => hfits.exists_wanted hfield⟩

end

/-! ## The lookups for a condition

A condition has several alternatives, and each of them several candidates. The fold of
`selectLookups?` and the reading of its branches are inverted here, down to one candidate for each
alternative. -/

namespace Store

section

variable {store : Store} {vars : Fields} {className : String} {condition : Condition}
  {query : SelectQuery}

/-- The candidates that `branchFor` ranks for an alternative are those that the `servingIndexes`
give for its searches. Their order is left out. -/
theorem mem_branchFor {onlyBranch : Bool} {searches : List Search} {candidate : Candidate} :
    candidate ∈ store.branchFor className query onlyBranch searches ↔
      ∃ search ∈ searches, ∃ index ∈ store.servingIndexes className search,
        index.candidate? search query onlyBranch = some candidate := by
  simp only [branchFor, List.mem_flatMap, List.mem_filterMap, (stableSort_perm _ _).mem_iff]

/-- The fold of `selectLookups?` adds a branch for every alternative to the selection, unless one is
empty. Then there is no selection, as its records would be missing. -/
theorem foldlM_branchFor {onlyBranch : Bool} {alternatives : List (List Search)}
    {start selection : Selection}
    (h : alternatives.foldlM
      (fun (selection : Selection) searches =>
        match store.branchFor className query onlyBranch searches with
        | [] => none
        | best :: others => some
            { branches := selection.branches ++ [best :: others]
              fullySorted := selection.fullySorted || best.sorted
              usedInOrderBy := selection.usedInOrderBy || best.index.servesOrder query.orderBy })
      start = some selection) :
    selection.branches = start.branches ++
        alternatives.map (store.branchFor className query onlyBranch) ∧
      (selection.fullySorted = true → start.fullySorted = true ∨
        ∃ searches ∈ alternatives, ∃ best ∈ store.branchFor className query onlyBranch searches,
          best.sorted = true) := by
  induction alternatives generalizing start with
  | nil =>
      cases h
      simp
  | cons searches alternatives ih =>
      rw [List.foldlM_cons] at h
      -- an alternative without a candidate makes the whole selection impossible
      cases hbranch : store.branchFor className query onlyBranch searches with
      | nil => simp [hbranch] at h
      | cons best others =>
          rw [hbranch] at h
          obtain ⟨hbranches, hsorted⟩ := ih h
          refine ⟨by simp [hbranches, hbranch], fun hfully => ?_⟩
          rcases hsorted hfully with hstart | ⟨searches', hmem, found, hfound, hbest⟩
          · rcases (Bool.or_eq_true _ _).mp hstart with hstart | hbest
            · exact .inl hstart
            · exact .inr ⟨searches, List.mem_cons_self, best, hbranch ▸ List.mem_cons_self, hbest⟩
          · exact .inr ⟨searches', List.mem_cons_of_mem _ hmem, found, hfound, hbest⟩

/-- The inversion of `selectLookups?`: the branches are those of all alternatives, and a selection
that is fully sorted has a branch with a sorted candidate. -/
theorem selectLookups?_some {selection : Selection}
    (h : store.selectLookups? vars className condition query = some selection) :
    selection.branches = (store.searchBranches vars className condition).map
      (store.branchFor className query
        ((store.searchBranches vars className condition).length == 1)) ∧
    (selection.fullySorted = true → ∃ branch ∈ selection.branches, ∃ best ∈ branch,
      best.sorted = true) := by
  obtain ⟨hbranches, hsorted⟩ := foldlM_branchFor h
  rw [List.nil_append] at hbranches
  refine ⟨hbranches, fun hfully => ?_⟩
  obtain ⟨searches, hsearches, best, hbest, hsorted⟩ := (hsorted hfully).resolve_left (by simp)
  exact ⟨_, hbranches ▸ List.mem_map.mpr ⟨searches, hsearches, rfl⟩, best, hbest, hsorted⟩

end

end Store

/-- The entries that `branch.read` answers are those of one of its candidates, the first that can be
read. -/
theorem Branch.exists_of_read {branch : Branch} {last : Failure} {entries : List IndexEntry}
    {sorted : Bool} (h : branch.read last = .ok (entries, sorted)) :
    ∃ candidate ∈ branch,
      candidate.index.lookup candidate.lookup candidate.ascending = .ok entries ∧
      sorted = candidate.sorted := by
  induction branch generalizing last with
  | nil => cases h
  | cons candidate others ih =>
      unfold Branch.read at h
      split at h
      next found hfound =>
        cases h
        exact ⟨candidate, List.mem_cons_self, hfound, rfl⟩
      · obtain ⟨found, hmem, hfound⟩ := ih h
        exact ⟨found, List.mem_cons_of_mem _ hmem, hfound⟩

/-- The inversion of `readBranches`: the identities read for several branches are those of one
candidate of the first branch, and then those of the others. -/
theorem readBranches_cons {branch : Branch} {branches : List Branch} {rids : List Rid}
    {sorted : Bool} (h : readBranches (branch :: branches) = .ok (rids, sorted)) :
    ∃ candidate ∈ branch, ∃ entries others rest,
      candidate.index.lookup candidate.lookup candidate.ascending = .ok entries ∧
      readBranches branches = .ok (others, rest) ∧
      rids = entries.map (·.rid) ++ others ∧ sorted = (candidate.sorted && rest) := by
  unfold readBranches at h
  split at h
  · cases h
  next entries best hread =>
    split at h
    · cases h
    next others rest hothers =>
      cases h
      obtain ⟨candidate, hcandidate, hlookup, rfl⟩ := Branch.exists_of_read hread
      exact ⟨candidate, hcandidate, entries, others, rest, hlookup, hothers, rfl, rfl⟩

/-- For each branch `readBranches` has read one candidate, whose entries are among the
identities. -/
theorem mem_readBranches {branches : List Branch} {rids : List Rid} {sorted : Bool}
    (h : readBranches branches = .ok (rids, sorted)) {branch : Branch} (hbranch : branch ∈ branches) :
    ∃ candidate ∈ branch, ∃ entries,
      candidate.index.lookup candidate.lookup candidate.ascending = .ok entries ∧
      ∀ entry ∈ entries, entry.rid ∈ rids := by
  induction branches generalizing rids sorted with
  | nil => cases hbranch
  | cons first others ih =>
      obtain ⟨candidate, hcandidate, entries, found, rest, hlookup, hothers, rfl, -⟩ :=
        readBranches_cons h
      rcases List.mem_cons.mp hbranch with rfl | hmem
      · exact ⟨candidate, hcandidate, entries, hlookup, fun entry hentry =>
          List.mem_append_left _ (List.mem_map_of_mem hentry)⟩
      · obtain ⟨other, hother, entries', hlookup', hall⟩ := ih hothers hmem
        exact ⟨other, hother, entries', hlookup', fun entry hentry =>
          List.mem_append_right _ (hall entry hentry)⟩

/-- The candidate's `lookup`, where it can be read, gives the record with the identity `rid`. -/
def Candidate.Finds (candidate : Candidate) (rid : Rid) : Prop :=
  ∀ entries, candidate.index.lookup candidate.lookup candidate.ascending = .ok entries →
    ∃ entry ∈ entries, entry.rid = rid

/-- The lookups for a condition give a record that all candidates of one alternative find
(`hfinds`). All of them are asked for, because it depends on failures which candidate is read. -/
theorem Store.mem_of_selectLookups? {store : Store} {vars : Fields} {className : String}
    {condition : Condition} {query : SelectQuery} {selection : Selection} {rid : Rid}
    (hselect : store.selectLookups? vars className condition query = some selection)
    (hfinds : ∃ searches ∈ store.searchBranches vars className condition, ∀ search ∈ searches,
      ∀ index ∈ store.servingIndexes className search, ∀ onlyBranch candidate,
        index.candidate? search query onlyBranch = some candidate → candidate.Finds rid)
    {rids : List Rid} {sorted : Bool}
    (hread : readBranches selection.branches = .ok (rids, sorted)) : rid ∈ rids := by
  obtain ⟨searches, hsearches, hfinds⟩ := hfinds
  have hbranch := List.mem_map_of_mem (f := store.branchFor className query
    ((store.searchBranches vars className condition).length == 1)) hsearches
  rw [← (selectLookups?_some hselect).1] at hbranch
  obtain ⟨candidate, hcandidate, entries, hlookup, hall⟩ := mem_readBranches hread hbranch
  obtain ⟨search, hsearch, index, hindex, hgiven⟩ := mem_branchFor.mp hcandidate
  obtain ⟨entry, hentry, rfl⟩ := hfinds search hsearch index hindex _ candidate hgiven entries hlookup
  exact hall entry hentry

namespace Store

/-- A `.stored` index among the `servingIndexes` of a search is declared for the class or above it,
and the search constrains its leading fields, which are fields of the record itself. -/
theorem Sound.stored_of_servingIndexes {store : Store} (h : store.Sound) {className : String}
    {search : Search} {index : StoredIndex}
    (hindex : .stored index ∈ store.servingIndexes className search) :
    search.lastField.isLong = false ∧ index ∈ store.indexes ∧
      store.schema.Below className index.definition.className ∧
      index.definition.Covers search.names := by
  unfold servingIndexes at hindex
  split at hindex
  · obtain ⟨proxy, -, hproxy⟩ := List.mem_map.mp hindex
    cases hproxy
  next hshort =>
    rw [Bool.not_eq_true] at hshort
    obtain ⟨stored, hstored, heq⟩ := List.mem_map.mp hindex
    cases heq
    have hnames : search.fields = search.names := by
      rw [Search.fields, Search.names, Search.last_of_not_isLong hshort]
    exact ⟨hshort, hnames ▸ h.mem_indexesCovering hstored⟩

/-- A search that ends in a field of the record itself (`hshort`) is served by `.stored` indexes
only. -/
theorem exists_stored_of_servingIndexes {store : Store} {className : String} {search : Search}
    (hshort : search.lastField.isLong = false) {index : Index}
    (hindex : index ∈ store.servingIndexes className search) : ∃ stored, index = .stored stored := by
  rw [servingIndexes, hshort, if_neg (by simp)] at hindex
  obtain ⟨stored, -, rfl⟩ := List.mem_map.mp hindex
  exact ⟨stored, rfl⟩

/-- A `.chained` proxy serves a search exactly if the search ends in a chain of several fields and
the proxy is one of the `chainProxies` for it. -/
theorem mem_chained_servingIndexes {store : Store} {className : String} {search : Search}
    {proxy : ChainProxy} : .chained proxy ∈ store.servingIndexes className search ↔
      search.lastField.isLong = true ∧ proxy ∈ store.chainProxies className search.lastField := by
  unfold servingIndexes
  split
  next hlong => simp [hlong]
  next hshort => simp [hshort]

/-- A candidate of an index that mirrors the store finds the records that fit the search. `hnulls`:
an index that leaves nulls out may lack the key, even if the search is for none
(`RecordQuery.Proofs.SparseIndexes`). -/
theorem Sound.finds_of_fits {store : Store} (h : store.Sound)
    (hmirrors : ∀ index ∈ store.indexes, index.Mirrors store)
    (hnulls : ∀ index ∈ store.indexes, index.definition.ignoreNulls = false) {r : Record}
    (hr : store.Live r) (hexact : r.isExact = true) {className : String}
    (hbelow : store.schema.Below r.className className) {search : Search}
    (hshort : search.lastField.isLong = false) (hfits : ∀ part, search.Fits part r)
    {query : SelectQuery} {onlyBranch : Bool} {index : Index}
    (hindex : index ∈ store.servingIndexes className search) {candidate : Candidate}
    (hcandidate : index.candidate? search query onlyBranch = some candidate) :
    candidate.Finds r.rid := by
  obtain ⟨stored, rfl⟩ := exists_stored_of_servingIndexes hshort hindex
  obtain ⟨-, hmem, habove, hcovers⟩ := h.stored_of_servingIndexes hindex
  obtain ⟨hsame, hlookup, key, hkey, hselects⟩ :=
    exists_key_of_candidate hcandidate hcovers (hfits _)
  -- an index that leaves no nulls out has every key of the record
  have hkept : key ∈ stored.keysFor r :=
    (StoredIndex.mem_keysFor_of_nulls (hnulls stored hmem) hexact).mpr hkey
  intro entries hentries
  rw [hsame] at hentries
  exact (hmirrors stored hmem).finds hlookup hentries hr (hbelow.trans habove) hkept hselects

/-- A lookup that is planned for a search finds a live record exactly if the record has a wanted
component in every constrained field, where numbers are `Separated` and the index leaves no nulls
out (`hnulls`). -/
theorem Sound.mem_lookup_of_candidate {p : Int64 → Prop} {q : Binary64 → Prop}
    (hseparated : Value.Separated p q) {store : Store} (h : store.Sound) {index : StoredIndex}
    (hreflects : index.Reflects (fun key => Value.ItemsIn p q key) store)
    (hnulls : index.definition.ignoreNulls = false) {className : String} {search : Search}
    (hindex : .stored index ∈ store.servingIndexes className search) {query : SelectQuery}
    {onlyBranch : Bool} {candidate : Candidate}
    (hcandidate : (Index.stored index).candidate? search query onlyBranch = some candidate)
    (hnumbers : candidate.lookup.NumbersIn p q) {r : Record} (hr : store.Live r)
    (hrecord : Value.EntriesIn p q r.fields) (hbelow : store.schema.Below r.className className)
    {entries : List IndexEntry}
    (hread : candidate.index.lookup candidate.lookup candidate.ascending = .ok entries) :
    (∃ entry ∈ entries, entry.rid = r.rid) ↔ ∀ field ∈ search.names,
      ∃ component ∈ StoredIndex.components index.definition.mapPart (r.get field),
        search.Wants field component := by
  obtain ⟨-, -, habove, hcovers⟩ := h.stored_of_servingIndexes hindex
  have hserves := Index.serves_of_candidate? hcandidate
  rw [hserves.index_eq] at hread
  -- the entries found are those with a selected key, and the record has such a key field by field
  exact (hreflects.mem_lookup_iff hseparated h hnulls hr hrecord (hbelow.trans habove) hnumbers
    hread).trans (hserves.exists_key_iff hcovers)

end Store

end RecordQuery
