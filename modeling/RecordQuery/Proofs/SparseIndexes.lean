import RecordQuery.Proofs.IndexPlans

/-!
# `RecordQuery.Proofs.SparseIndexes`: lookups in indexes that leave records out

A sparse index is one that ignores nulls, `ignoreNulls`: it has no key for a record with a null in
one of its fields. The planner does not use it for a search that looks for a null,
`Search.hasNulls`. That is enough for the fields that the search constrains, because no other
comparison that an index serves is true on null. It is not enough for the fields behind them: a
search may constrain only the leading fields of an index, and a record with a null further on is
left out although it matches.

`mem_lookup_of_sparse` says exactly which matching records a lookup finds, so the missing ones are
not excluded by a hypothesis but described. The argument is about one alternative of the condition
at a time. Its searches are all of the form `Search.Locates`: they look for values, `SeeksValues`,
and the record fits them. Merging keeps both properties. Then the record has one key in the index,
and it was dropped if and only if the key has a null in it.

The records have single values only, `Fields.AreSingle`, so that each of them has exactly one key. A
list makes several keys, and then some of them may be dropped and others not.

The theorems:

* `Search.SeeksValues.merge`: searches that look for no null find none, and so do merged ones.
* `Store.mem_lookup_of_sparse`: a lookup in a sparse index finds a record that matches exactly if
  none of the fields behind the constrained ones is null.
* `lookup_sparse_misses`: a lookup that misses a record that matches.
-/

set_option autoImplicit false

namespace RecordQuery

/-! ## Records of single values -/

/-- The values are single values, `isScalar`: null, booleans, integers, texts and links. -/
def Fields.AreSingle (fields : Fields) : Prop := ∀ p ∈ fields, p.2.isScalar = true

instance : DecidablePred Fields.AreSingle := fun fields =>
  inferInstanceAs (Decidable (∀ p ∈ fields, p.2.isScalar = true))

/-- Fields that are `AreSingle` are `AreFlat`. -/
theorem Fields.AreSingle.flat {fields : Fields} (h : fields.AreSingle) : fields.AreFlat :=
  fun p hp => .inl (h p hp)

/-- `get` gives a single value for every attribute and field of a record with single values. -/
theorem Record.get_isScalar {record : Record} (h : Fields.AreSingle record.fields)
    (name : String) : (record.get name).isScalar = true := by
  unfold Record.get
  split
  · rfl
  · split
    · rfl
    · exact Fields.get_of_forall (p := fun v => v.isScalar = true) h rfl name

/-- A single value is the only one of its `components`. -/
theorem Value.components_of_isScalar {v : Value} (h : v.isScalar = true) (part : MapPart) :
    StoredIndex.components part v = [v] :=
  components_of_rank (rank_lt_of_beq h (beq_self v)) part

/-- A record with single values has one key in an index: its values in the indexed fields. `KeyOf`
would also allow the items of lists. -/
theorem StoredIndex.keyOf_iff_of_single {definition : IndexDefinition} {record : Record}
    (h : Fields.AreSingle record.fields) {key : Key} :
    KeyOf definition record key ↔ key = definition.fields.map record.get := by
  unfold KeyOf
  generalize definition.fields = fields
  have hcomponent (v : Value) (field : String) :
      v ∈ components definition.mapPart (record.get field) ↔ v = record.get field := by
    rw [Value.components_of_isScalar (Record.get_isScalar h field), List.mem_singleton]
  induction fields generalizing key with
  | nil => simp [List.forall₂_nil_right_iff]
  | cons field fields ih =>
      rw [List.forall₂_cons_right_iff, List.map_cons]
      constructor
      · rintro ⟨v, vs, hv, hvs, rfl⟩
        rw [(hcomponent v field).mp hv, ih.mp hvs]
      · rintro rfl
        exact ⟨_, _, (hcomponent _ field).mpr rfl, ih.mpr rfl, rfl⟩

/-! ## Searches that look for no null -/

/-- Only null `==` null. -/
theorem Value.isNull_of_beq {v w : Value} (h : (v == w) = true) : v.isNull = w.isNull :=
  isNull_congr (beq_iff.mp h)

/-- Where a search is not marked as one for null, `hasNulls`, it looks for values other than null.
The mark is what the planner reads. -/
structure Search.SeeksValues (search : Search) : Prop where
  /-- The bound fields are bound to values other than null. -/
  bound : search.hasNulls = false → ∀ p ∈ search.bound, p.2.isNull = false
  /-- The last comparison looks for components other than null. -/
  last : search.hasNulls = false → ∀ component,
    search.lastOperator.Meets search.lastValue component → component.isNull = false

/-- An operator and constant for which `seeksNull` is false look for components other than null. -/
theorem Operator.Meets.isNull_eq_false {op : Operator} {value component : Value}
    (h : op.Meets value component) (hseeks : Search.seeksNull op value = false) :
    component.isNull = false := by
  have hwithin {lower upper : Bound Value} (h : component.isWithin lower upper = true) :
      component.isNull = false := by
    cases hnull : component.isNull with
    | false => rfl
    | true => simp [Value.isWithin, hnull] at h
  -- a component that equals a value is null if the value is, and none that is null is in a range
  cases op with
  | equals | contains | containsKey | containsValue =>
      rw [Value.isNull_of_beq h]
      simpa [Search.seeksNull] using hseeks
  | oneOf =>
      obtain ⟨items, rfl, item, hitem, heq⟩ := h
      rw [Value.isNull_of_beq heq]
      simp only [Search.seeksNull, List.any_eq_false] at hseeks
      simpa using hseeks item hitem
  | less | lessOrEquals | greater | greaterOrEquals => exact hwithin h
  | between lowerInclusive upperInclusive =>
      obtain ⟨lower, upper, -, h⟩ := h
      exact hwithin h
  | notEquals | like | isNull | isNotNull => exact h.elim

/-- The `search?` of a comparison looks for null only where `hasNulls` says so. The cases are the
operators. -/
theorem Comparison.seeksValues_of_search? {c : Comparison} {vars : Fields} {search : Search}
    (hsearch : c.search? vars = some search) : search.SeeksValues := by
  unfold search? at hsearch
  split at hsearch
  · split at hsearch
    · cases hsearch
    · obtain ⟨⟨op, value⟩, -, rfl⟩ := Option.map_eq_some_iff.mp hsearch
      constructor
      · intro _ p hp
        cases hp
      · intro hseeks component hmeets
        exact Operator.Meets.isNull_eq_false hmeets hseeks
  · cases hsearch

namespace Search

/-- `absorb` keeps `SeeksValues` when the search taken in, `anchor`, ends in an equality: the last
field of the other one becomes a bound field. -/
theorem SeeksValues.absorb {main anchor : Search} (hmain : main.SeeksValues)
    (hanchor : anchor.SeeksValues) (hop : anchor.lastOperator.isEqualityClass = true) :
    (main.absorb anchor).SeeksValues := by
  have hboth (h : (main.absorb anchor).hasNulls = false) :
      anchor.hasNulls = false ∧ main.hasNulls = false := by
    simpa [Search.absorb] using h
  refine ⟨fun hnulls p hp => ?_, fun hnulls => hmain.last (hboth hnulls).2⟩
  rcases mem_absorb hp with hp | hp | rfl
  · exact hanchor.bound (hboth hnulls).1 p hp
  · exact hmain.bound (hboth hnulls).2 p hp
  · -- an equality meets its own value
    exact hanchor.last (hboth hnulls).1 _ ((meets_iff_beq hop).mpr (Value.beq_self _))

/-- `merge` keeps `SeeksValues`, by `merge_cases`. -/
theorem SeeksValues.merge {a b : Search} (hmergeable : a.isMergeable b = true)
    (ha : a.SeeksValues) (hb : b.SeeksValues) : (a.merge b).SeeksValues :=
  merge_induction hmergeable (fun _ _ hmain hanchor hop _ => hmain.absorb hanchor hop) ha hb

/-- What a search without `hasNulls` `Wants` of a field is not null. -/
theorem SeeksValues.isNull_of_wants {search : Search} (h : search.SeeksValues)
    (hnulls : search.hasNulls = false) {field : String} {component : Value}
    (hwants : search.Wants field component) : component.isNull = false := by
  unfold Wants at hwants
  split at hwants
  next value hbound =>
    rw [Value.isNull_of_beq hwants]
    exact h.bound hnulls _ (mem_of_boundValue? hbound)
  · exact h.last hnulls component hwants

end Search

/-! ## Alternatives -/

/-- The alternatives of the `or` at the top of a condition. Each of them gets a branch of lookups of
its own. -/
def Condition.alternatives : Condition → List Condition
  | .or left right => left.alternatives ++ right.alternatives
  | other => [other]

/-- The `comparisons` of an alternative are comparisons of the condition. -/
theorem Condition.comparisons_of_alternative {condition alternative : Condition}
    (h : alternative ∈ condition.alternatives) {c : Comparison}
    (hc : c ∈ alternative.comparisons) : c ∈ condition.comparisons := by
  induction condition with
  | or left right ihl ihr =>
      rcases List.mem_append.mp h with h | h
      · exact List.mem_append_left _ (ihl h)
      · exact List.mem_append_right _ (ihr h)
  | and left right | not inner | compare c =>
      rw [List.mem_singleton.mp h] at hc
      exact hc

/-- `searchBranches` searches for a condition alternative by alternative, in their order. -/
theorem Store.searchBranches_eq (store : Store) (vars : Fields) (className : String)
    (condition : Condition) :
    store.searchBranches vars className condition =
      condition.alternatives.map (store.branchSearches vars className) := by
  induction condition with
  | or left right ihl ihr => simp [searchBranches, Condition.alternatives, ihl, ihr]
  | and left right | not inner | compare c => rfl

/-- A search of plain fields that a record `Fits`, and that `SeeksValues`. This is what merging the
searches of an AND preserves. -/
structure Search.Locates (record : Record) (search : Search) : Prop where
  /-- The search looks for values. -/
  seeks : search.SeeksValues
  /-- The last field is a field of the record itself. -/
  short : search.lastField.isLong = false
  /-- The record fits the search, whatever part of maps the index keeps. -/
  fits (part : MapPart) : search.Fits part record

namespace Store

/-! ## Lookups in sparse indexes -/

section

variable {store : Store} {vars : Fields} {className : String}

/-- What the searches of an alternative say of a record that it is true on: each of them `Locates`
the record. -/
theorem searches_of_alternative {alternative : Condition} (hdirect : alternative.Direct vars)
    {r : Record} (hflat : Fields.AreFlat r.fields)
    (htrue : alternative.evaluate (store.scope vars) r = .ok true) :
    ∀ search ∈ store.branchSearches vars className alternative, search.Locates r := by
  refine branchSearches_holds (fun a b hmergeable ha hb => ?_)
    (fun c hc search hreuse hsearch hholds => ?_) htrue
  · exact ⟨ha.seeks.merge hmergeable hb.seeks, Search.isLong_merge hmergeable ha.short hb.short,
      fun part => (ha.fits part).merge hmergeable (hb.fits part)⟩
  · obtain ⟨hshort, hfits⟩ := (hdirect c hc).fits hreuse hsearch hflat
      (Comparison.agreesOn_of_lookup fun _ _ _ => Scope.lookup_of_no_lets) hholds
    exact ⟨c.seeksValues_of_search? hsearch, hshort, hfits⟩

/-- A lookup that a record's only key is selected by finds the record exactly if the index has the
key, that is if none of its components is null. `hsparse` says that the index ignores nulls. -/
theorem mem_lookup_iff {index : StoredIndex} (hsound : store.Sound) (hmirrors : index.Mirrors store)
    (hsparse : index.definition.ignoreNulls = true) {r : Record} (hr : store.Live r)
    (hsingle : Fields.AreSingle r.fields)
    (hbelow : store.schema.Below r.className index.definition.className) {query : IndexQuery}
    (hexact : query.IsExact) (hselects : query.Selects (index.definition.fields.map r.get))
    {ascending : Bool} {entries : List IndexEntry}
    (hread : index.lookup query ascending = .ok entries) :
    (∃ entry ∈ entries, entry.rid = r.rid) ↔
      ∀ field ∈ index.definition.fields, (r.get field).isNull = false := by
  have hrecord : r.isExact = true := hsingle.flat.exact
  -- a record of single values has one key, which is left out if any part of it is null
  have hkept (key : Key) : key ∈ index.keysFor r ↔ key = index.definition.fields.map r.get ∧
      ∀ field ∈ index.definition.fields, (r.get field).isNull = false := by
    rw [StoredIndex.mem_keysFor hrecord, StoredIndex.keyOf_iff_of_single hsingle]
    refine and_congr_right ?_
    rintro rfl
    simp [hsparse, List.any_eq_false]
  constructor
  · rintro ⟨entry, hentry, hrid⟩
    obtain ⟨hholds, -⟩ := (StoredIndex.mem_matching hmirrors.ordered hexact.isSharp).mp
      ((StoredIndex.mem_of_lookup hread).mp hentry)
    obtain ⟨s, hs, hsrid, -, hkey⟩ := hmirrors.holds_iff.mp hholds
    obtain rfl := hsound.live_eq hs hr (hsrid.trans hrid)
    exact ((hkept entry.key).mp hkey).2
  · intro hnulls
    exact hmirrors.finds hexact hread hr hbelow ((hkept _).mpr ⟨rfl, hnulls⟩) hselects

/-- A candidate keeps the search that it serves; one of a sparse index looks for no null. This is
the check of `candidate?`. -/
theorem search_of_candidate {index : Index} {search : Search} {query : SelectQuery}
    {onlyBranch : Bool} {candidate : Candidate}
    (hcandidate : index.candidate? search query onlyBranch = some candidate) :
    candidate.search = search ∧
      (index.definition.ignoreNulls = true → search.hasNulls = false) := by
  have hserves := Index.serves_of_candidate? hcandidate
  exact ⟨hserves.search_eq, hserves.nulls⟩

/-- The branch that `selectLookups?` plans for an alternative (`hbranch`) serves the searches of
that alternative. -/
theorem branch_of_alternative {condition alternative : Condition} {query : SelectQuery}
    {selection : Selection} {branch : Branch}
    (hselect : store.selectLookups? vars className condition query = some selection)
    (hbranch : (alternative, branch) ∈ condition.alternatives.zip selection.branches) :
    alternative ∈ condition.alternatives ∧ ∃ onlyBranch, branch =
      store.branchFor className query onlyBranch (store.branchSearches vars className alternative) := by
  rw [(selectLookups?_some hselect).1, searchBranches_eq, List.map_map] at hbranch
  obtain ⟨i, hi, hget⟩ := List.getElem_of_mem hbranch
  simp only [List.getElem_zip, List.getElem_map, Function.comp_apply, Prod.mk.injEq] at hget
  obtain ⟨rfl, rfl⟩ := hget
  exact ⟨List.getElem_mem _, _, rfl⟩

/-- The fields that a search constrains are not null in a record that fits it, where the search
looks for no null. They are the first `fieldCount` fields of the index. -/
theorem constrained_ne_null {definition : IndexDefinition} {search : Search}
    (hcovers : definition.Covers search.names) (hseeks : search.SeeksValues)
    (hnulls : search.hasNulls = false) {r : Record} (hsingle : Fields.AreSingle r.fields)
    (hfits : search.Fits definition.mapPart r) :
    ∀ field ∈ definition.fields.take search.fieldCount, (r.get field).isNull = false := by
  intro field hfield
  have hcount : search.fieldCount = search.names.length := by
    simp [Search.fieldCount, Search.names]
  rw [hcount] at hfield
  obtain ⟨component, hcomponent, hwants⟩ :=
    hfits.exists_wanted (hcovers.perm.mem_iff.mp hfield)
  rw [Value.components_of_isScalar (Record.get_isScalar hsingle field),
    List.mem_singleton] at hcomponent
  exact hcomponent ▸ hseeks.isNull_of_wants hnulls hwants

/-- A lookup that is planned for an alternative in a sparse index, `hsparse`, finds a record that
the alternative is true on exactly if none of the index's fields behind the ones that the search
constrains is null in it. So a lookup that constrains all fields, where `drop` leaves none, misses
no record. -/
theorem mem_lookup_of_sparse (hreach : store.Reachable Fields.AreSingle) {condition : Condition}
    (hdirect : condition.Direct vars) {query : SelectQuery} {selection : Selection}
    (hselect : store.selectLookups? vars className condition query = some selection)
    {alternative : Condition} {branch : Branch}
    (hbranch : (alternative, branch) ∈ condition.alternatives.zip selection.branches)
    {candidate : Candidate} (hcandidate : candidate ∈ branch)
    (hsparse : candidate.index.definition.ignoreNulls = true) {r : Record}
    (hload : store.load r.rid = some r)
    (hbelow : store.schema.isSubclassOf r.className className = true)
    (htrue : alternative.evaluate (store.scope vars) r = .ok true) {entries : List IndexEntry}
    (hread : candidate.index.lookup candidate.lookup candidate.ascending = .ok entries) :
    (∃ entry ∈ entries, entry.rid = r.rid) ↔
      ∀ field ∈ candidate.index.definition.fields.drop candidate.search.fieldCount,
        r.get field ≠ .null := by
  have hsound := hreach.sound
  have hr : store.Live r := (hsound.load_eq_some_iff.mp hload).1
  have hsingle : Fields.AreSingle r.fields := hreach.admits_of_live hr
  rw [hsound.forest.isSubclassOf_iff] at hbelow
  -- the candidate is that of a stored index for a search of the alternative
  obtain ⟨halternative, onlyBranch, rfl⟩ := branch_of_alternative hselect hbranch
  obtain ⟨search, hsearch, index, hindex, hgiven⟩ := mem_branchFor.mp hcandidate
  have hdirect' : alternative.Direct vars :=
    fun c hc => hdirect c (Condition.comparisons_of_alternative halternative hc)
  obtain ⟨hseeks, hshort, hfits⟩ := searches_of_alternative hdirect' hsingle.flat htrue search hsearch
  have hnames : search.fields = search.names := by
    rw [Search.fields, Search.names, Search.last_of_not_isLong hshort]
  rw [servingIndexes, hshort, if_neg (by simp), hnames] at hindex
  obtain ⟨stored, hstored, rfl⟩ := List.mem_map.mp hindex
  obtain ⟨hmem, habove, hcovers⟩ := hsound.mem_indexesCovering hstored
  -- the lookup selects the only key that the record has there
  obtain ⟨hsame, hlookup, key, hkey, hselects⟩ := exists_key_of_candidate hgiven hcovers (hfits _)
  obtain rfl := (StoredIndex.keyOf_iff_of_single hsingle).mp hkey
  obtain ⟨hsearchEq, hnulls⟩ := search_of_candidate hgiven
  rw [hsame] at hread hsparse ⊢
  have hmirrors := hreach.mirrors (fun fields hfields => hfields.flat.exact) stored hmem
  rw [mem_lookup_iff hsound hmirrors hsparse hr hsingle (hbelow.trans habove) hlookup hselects hread,
    hsearchEq]
  have hconstrained := constrained_ne_null hcovers hseeks (hnulls hsparse) hsingle (hfits _)
  have hnull (v : Value) : v.isNull = false ↔ v ≠ .null := by cases v <;> simp [Value.isNull]
  constructor
  · intro hall field hfield
    exact (hnull _).mp (hall field (List.mem_of_mem_drop hfield))
  · intro hrest field hfield
    rw [← List.take_append_drop search.fieldCount stored.definition.fields,
      List.mem_append] at hfield
    rcases hfield with hfield | hfield
    · exact hconstrained field hfield
    · exact (hnull _).mpr (hrest field hfield)

end

end Store

/-! ## A record that is left out -/

/-- An index on the fields `x` and `y` that leaves nulls out, a record with both of them and a
record with `x` alone. -/
def sparseStore : Store := .ofChanges [
  .createClass "A" none 1 false,
  .createIndex "A.xy" .notUnique ⟨"A", ["x", "y"], true, .keys⟩,
  .insert "A" [("x", .int 1), ("y", .int 2)],
  .insert "A" [("x", .int 1)]]

/-- The condition `x = 1`. -/
def sparseCondition : Condition :=
  .compare ⟨.field ⟨"x", []⟩, .equals, .literal (.int 1)⟩

/-- The query with `sparseCondition`. -/
def sparseQuery : SelectQuery :=
  { SelectQuery.ofTarget (.ofClass "A" true) with filter := some sparseCondition }

/-- The record of `sparseStore` with the first field only. -/
def sparseRecord : Record := ⟨⟨1, 1⟩, "A", [("x", .int 1)]⟩

/-- `sparseCondition` is true on `sparseRecord`, and yet the lookup that is planned for it in the
sparse index gives the other record alone. -/
theorem lookup_sparse_misses :
    sparseStore.load sparseRecord.rid = some sparseRecord ∧
      sparseCondition.evaluate (sparseStore.scope []) sparseRecord = .ok true ∧
      ∃ selection candidate entries,
        sparseStore.selectLookups? [] "A" sparseCondition sparseQuery = some selection ∧
        selection.branches = [[candidate]] ∧ candidate.index.definition.ignoreNulls = true ∧
        candidate.index.lookup candidate.lookup candidate.ascending = .ok entries ∧
        entries.map (·.rid) = [⟨1, 0⟩] :=
  ⟨rfl, rfl, _, _, _, rfl, rfl, rfl, rfl, rfl⟩

/-- The second field, which the search does not constrain, is null in the record that the lookup
misses: both sides of `mem_lookup_of_sparse` are false here. -/
theorem mem_lookup_sparseRecord :
    ∃ selection branch candidate entries, sparseStore.Reachable Fields.AreSingle ∧
      sparseCondition.Direct [] ∧
      sparseStore.selectLookups? [] "A" sparseCondition sparseQuery = some selection ∧
      (sparseCondition, branch) ∈ sparseCondition.alternatives.zip selection.branches ∧
      candidate ∈ branch ∧ candidate.index.definition.ignoreNulls = true ∧
      candidate.index.lookup candidate.lookup candidate.ascending = .ok entries ∧
      candidate.index.definition.fields.drop candidate.search.fieldCount = ["y"] ∧
      ((∃ entry ∈ entries, entry.rid = sparseRecord.rid) ↔
        ∀ field ∈ candidate.index.definition.fields.drop candidate.search.fieldCount,
          sparseRecord.get field ≠ .null) := by
  have hreach : sparseStore.Reachable Fields.AreSingle :=
    Store.reachable_ofChanges (by decide +kernel)
  -- the condition is a single comparison with a literal
  have hdirect : sparseCondition.Direct [] := by
    intro c hc
    rw [List.mem_singleton.mp hc]
    exact (Comparison.simple_literal (by decide) (.inl rfl)).toDirect
  refine ⟨_, _, _, _, hreach, hdirect, rfl, List.mem_singleton.mpr rfl, List.mem_singleton.mpr rfl,
    rfl, rfl, rfl, ?_⟩
  exact @Store.mem_lookup_of_sparse sparseStore [] "A" hreach sparseCondition hdirect sparseQuery _
    rfl sparseCondition _ (List.mem_singleton.mpr rfl) _ (List.mem_singleton.mpr rfl) rfl
    sparseRecord rfl rfl rfl _ rfl

end RecordQuery
