import RecordQuery.Proofs.ChainLookups
import RecordQuery.Proofs.SparseIndexes

/-!
# `RecordQuery.Proofs.ValueParts`: lookups of values that an index keeps in parts

A comparison sees the value of a field as a whole, unless it is one of CONTAINS, CONTAINSKEY and
CONTAINSVALUE. An index keeps a list item by item, and of a map the keys or the values, `MapPart`.
What is planned allows for that in two places only: `=` is not looked up with a list or a map, and
an index on the other part of maps is refused for the comparison that a search ends in. So a lookup
may miss a record whose list is one of the choices of IN, and one whose map has a key that is bound
where the search goes on with another field.

`StoredIndex.components` are the parts of a value that an index makes keys of, and `Operator.Meets`
says which of them an operator looks for. `Operator.seesParts` says that the operator cannot tell a
value from its parts. So the results have two halves: a lookup finds exactly the records with a part
that is looked for, and this is enough where the operator sees parts. The records that a lookup
misses are thereby described too.

For a conjunction the same is said of every field that the merged search constrains, `Store.Offers`
and `Store.Sees`; a search of the conjunction may have several comparisons in it. A search that ends
in a chain is the exception: it constrains nothing else, and its parts are at the end of links.

Indexes that ignore nulls are left out, `SparseIndexes` is about those. An index that fails is left
out as well, as it finds nothing.

The theorems:

* `Store.mem_lookup_of_comparison`: the lookup for one comparison finds the records with a part that
  is looked for.
* `Store.mem_lookup_of_alternative`: a lookup for a conjunction finds the records with such a part
  in every constrained field, and along a chain those from which links lead to one with such a part.
* `lookup_wholeList_misses`, `lookup_boundKey_misses`: lookups that miss a record.
-/

set_option autoImplicit false

namespace RecordQuery

/-! ## Comparisons that look for parts

A single comparison: the lookup finds a record on which it is true exactly where its operator sees
the value in parts, as an index keeps it. -/

section

variable {vars : Fields} {c : Comparison} {search : Search}

/-- The `search?` of a comparison constrains one field, so it has nothing `bound`. -/
theorem Comparison.bound_of_search? (h : c.search? vars = some search) : search.bound = [] := by
  unfold search? at h
  split at h
  · split at h
    · cases h
    · obtain ⟨⟨op, value⟩, -, rfl⟩ := Option.map_eq_some_iff.mp h
      rfl
  · cases h

/-- The whole of a comparison is its search, where an index may serve it, `reuse`. -/
theorem Store.whole_compare_iff {store : Store} {className : String} :
    (store.analyze vars className (.compare c)).whole = some search ↔
      c.reuse = .lookup ∧ c.search? vars = some search := by
  unfold analyze
  split
  next hreuse =>
    cases hsearch : c.search? vars <;> simp [eq_of_beq hreuse]
  next hreuse => simp_all

/-- A record that a comparison is true on suits its search, where the operator sees the value in
parts, `hsees`, and the index keeps those parts, `hstores`. -/
theorem Comparison.suits_of_search? (hreuse : c.reuse = .lookup)
    (hsearch : c.search? vars = some search) (hshort : search.lastField.isLong = false)
    {scope : Scope} {r : Record} (hagrees : c.AgreesOn vars scope r)
    (htrue : c.evaluate scope r = .ok true) {definition : IndexDefinition}
    (hstores : definition.storesPartFor search.lastOperator = true)
    (hsees : search.lastOperator.seesParts (r.get search.lastField.first) = true) :
    search.Suits definition.mapPart r := by
  obtain ⟨chain, op, right, k, -, -, hadmits, hlookup, hterm, heq⟩ :=
    sought_of_search? hreuse hsearch hagrees htrue
  have hchain : search.lastField = chain := by rw [heq]; rfl
  rw [hchain] at hshort hsees
  have hhops : chain.hops = [] := by simpa [FieldChain.isLong] using hshort
  -- a short chain is the field itself, and follows no link
  have hresolve : chain.resolve scope.load r = r.get chain.first := by
    simp [FieldChain.resolve, hhops]
  rw [hresolve] at hadmits
  refine ⟨by simp [bound_of_search? hsearch], ?_⟩
  rw [hchain, Search.last_of_not_isLong hshort]
  exact exists_component_of_seesParts hadmits hterm hlookup
    (seesParts_of_soughtTerm? hterm ▸ hsees) fun _ => mapPart_of_storesPartFor hterm hstores

end

namespace Store

variable {p : Int64 → Prop} {q : Binary64 → Prop} {store : Store} {vars : Fields}
  {className : String} {query : SelectQuery} {index : StoredIndex} {candidate : Candidate}
  {r : Record}

/-- The lookup that is planned for a comparison of a field in an index that leaves no nulls out:
where numbers are separated, `hseparated`, it gives a record that the comparison is true on exactly
if a part of the record's value is looked for, `Operator.Meets`. That is so where the value is
neither a list nor a map, and where the operator looks into it, `seesParts`. -/
theorem mem_lookup_of_comparison (hseparated : Value.Separated p q)
    (hreach : store.Reachable fun fields => Value.EntriesIn p q fields)
    {c : Comparison} {search : Search}
    (hsearch : (store.analyze vars className (.compare c)).whole = some search)
    (hindex : .stored index ∈ store.servingIndexes className search)
    (hnulls : index.definition.ignoreNulls = false) (hworks : index.failing = false)
    {onlyBranch : Bool}
    (hcandidate : (Index.stored index).candidate? search query onlyBranch = some candidate)
    (hnumbers : candidate.lookup.NumbersIn p q) (hload : store.load r.rid = some r)
    (hbelow : store.schema.isSubclassOf r.className className = true)
    (htrue : c.evaluate (store.scope vars) r = .ok true) :
    ∃ entries, candidate.index.lookup candidate.lookup candidate.ascending = .ok entries ∧
      ((∃ entry ∈ entries, entry.rid = r.rid) ↔
        ∃ component ∈ StoredIndex.components index.definition.mapPart
          (r.get search.lastField.first), search.lastOperator.Meets search.lastValue component) ∧
      (search.lastOperator.seesParts (r.get search.lastField.first) = true →
        ∃ entry ∈ entries, entry.rid = r.rid) := by
  have hsound := hreach.sound
  have hr : store.Live r := (hsound.load_eq_some_iff.mp hload).1
  rw [hsound.forest.isSubclassOf_iff] at hbelow
  obtain ⟨hreuse, hsearch⟩ := whole_compare_iff.mp hsearch
  obtain ⟨hshort, hmem, -, -⟩ := hsound.stored_of_servingIndexes hindex
  have hserves := Index.serves_of_candidate? hcandidate
  obtain ⟨entries, hread⟩ : ∃ entries,
      candidate.index.lookup candidate.lookup candidate.ascending = .ok entries := by
    rw [hserves.index_eq]
    exact StoredIndex.exists_lookup hworks _ _
  have hbound := c.bound_of_search? hsearch
  have hfinds := hsound.mem_lookup_of_candidate hseparated
    (hreach.reflects_of_separated hseparated index hmem) hnulls hindex hcandidate hnumbers hr
    (hreach.admits_of_live hr) hbelow hread
  simp only [Search.names, hbound, List.map_nil, List.nil_append, List.forall_mem_singleton,
    Search.wants_iff_meets hbound, Search.last_of_not_isLong hshort] at hfinds
  refine ⟨entries, hread, hfinds, fun hsees => hfinds.mpr ?_⟩
  -- the comparison is true, so a part is looked for where the operator sees the parts
  have hsuits := c.suits_of_search? hreuse hsearch hshort
    (Comparison.agreesOn_of_lookup fun _ _ _ => Scope.lookup_of_no_lets) htrue hserves.stores hsees
  exact Search.last_of_not_isLong hshort ▸ hsuits.last

end Store

/-! ## Lists as wholes and as items -/

/-- An index on the field `x`, a record with a list in it, and one with a list of that list and
more. -/
def listStore : Store := .ofChanges [
  .createClass "A" none 1 false,
  .createIndex "A.x" .notUnique ⟨"A", ["x"], false, .keys⟩,
  .insert "A" [("x", .list [.int 1, .int 2])],
  .insert "A" [("x", .list [.list [.int 1, .int 2], .int 3])]]

/-- The record of `listStore` with the list. -/
def listRecord : Record := ⟨⟨1, 0⟩, "A", [("x", .list [.int 1, .int 2])]⟩

/-- The record of `listStore` with the list of the list and more. -/
def nestedListRecord : Record := ⟨⟨1, 1⟩, "A", [("x", .list [.list [.int 1, .int 2], .int 3])]⟩

/-- The condition `x IN [[1, 2]]`. -/
def wholeListCondition : Condition :=
  .compare ⟨.field ⟨"x", []⟩, .oneOf, .literal (.list [.list [.int 1, .int 2]])⟩

/-- The query with `wholeListCondition`. -/
def wholeListQuery : SelectQuery :=
  { SelectQuery.ofTarget (.ofClass "A" true) with filter := some wholeListCondition }

/-- `wholeListCondition` is true on `listRecord`, and yet the lookup that is planned for it gives
the other record alone. -/
theorem lookup_wholeList_misses :
    listStore.load listRecord.rid = some listRecord ∧
      wholeListCondition.evaluate (listStore.scope []) listRecord = .ok true ∧
      ∃ selection candidate entries,
        listStore.selectLookups? [] "A" wholeListCondition wholeListQuery = some selection ∧
        selection.branches = [[candidate]] ∧ candidate.index.definition.ignoreNulls = false ∧
        candidate.index.definition.fields = ["x"] ∧
        candidate.index.lookup candidate.lookup candidate.ascending = .ok entries ∧
        entries.map (·.rid) = [⟨1, 1⟩] :=
  ⟨rfl, rfl, _, _, _, rfl, rfl, rfl, rfl, rfl, rfl⟩

/-- The comparison `[1, 2] IN x`. -/
def listItemComparison : Comparison :=
  ⟨.literal (.list [.int 1, .int 2]), .oneOf, .field ⟨"x", []⟩⟩

/-- The lookup for `listItemComparison` gives `nestedListRecord`, which has the list among its
items. -/
theorem mem_lookup_nestedListRecord :
    listStore.Reachable (Value.EntriesIn (fun _ => True) fun _ => False) ∧
      ∃ search index candidate entries,
        (listStore.analyze [] "A" (.compare listItemComparison)).whole = some search ∧
        .stored index ∈ listStore.servingIndexes "A" search ∧
        (Index.stored index).candidate? search wholeListQuery true = some candidate ∧
        candidate.index.lookup candidate.lookup candidate.ascending = .ok entries ∧
        ∃ entry ∈ entries, entry.rid = nestedListRecord.rid := by
  have hreach : listStore.Reachable (Value.EntriesIn (fun _ => True) fun _ => False) := by
    refine Store.reachable_ofChanges ?_
    simp [Store.Change.Admitted, Value.EntriesIn, Value.ItemsIn, Value.NumbersIn]
  obtain ⟨entries, hread, -, hfinds⟩ := @Store.mem_lookup_of_comparison (fun _ => True)
    (fun _ => False) listStore [] "A" wholeListQuery _ _ nestedListRecord Value.separated_exact
    hreach listItemComparison _ rfl (List.mem_singleton.mpr rfl) rfl rfl true rfl
    ⟨⟨trivial, trivial, trivial⟩, trivial⟩ rfl rfl rfl
  exact ⟨hreach, _, _, _, entries, rfl, List.mem_singleton.mpr rfl, rfl, hread, hfinds rfl⟩

/-! ## Conjunctions

Of a conjunction only the searches that are planned matter, and of these the fields that they
constrain. `Sees` and `Offers` carry what was said of one comparison over to merged searches. -/

namespace Search

/-- A search that takes in another one, which ends in a field of the record itself, `hshort`,
constrains the fields of both. -/
theorem mem_names_absorb {main anchor : Search} (hshort : anchor.lastField.isLong = false)
    {name : String} : name ∈ (main.absorb anchor).names ↔ name ∈ anchor.names ∨ name ∈ main.names := by
  have hbound : name ∈ (main.absorb anchor).bound.map (·.1) ↔
      (name ∈ anchor.bound.map (·.1) ∨ name ∈ main.bound.map (·.1)) ∨
        name = anchor.lastField.last := by
    rw [last_of_not_isLong hshort]
    refine mem_names_bind.trans (or_congr_left ?_)
    rw [mem_names_foldl_bind, List.map_append, List.mem_append]
    simp
  simp only [names, List.mem_append, List.mem_singleton, hbound]
  tauto

/-- The record suits the search if the search is one of fields of the record itself, all of them
among `fields`. Searches that constrain other fields are not meant. -/
def SuitsWithin (part : MapPart) (record : Record) (fields : List String) (search : Search) :
    Prop :=
  search.lastField.isLong = false → (∀ name ∈ search.names, name ∈ fields) →
    search.Suits part record

/-- `merge` keeps `SuitsWithin`: their fields are among those of the merged one, so the given fields
have them too. -/
theorem SuitsWithin.merge {part : MapPart} {record : Record} {fields : List String} {a b : Search}
    (hmergeable : a.isMergeable b = true) (ha : a.SuitsWithin part record fields)
    (hb : b.SuitsWithin part record fields) : (a.merge b).SuitsWithin part record fields := by
  refine merge_induction hmergeable ?_ ha hb
  intro main anchor hmain hanchor hop hanchorShort hmainShort hnames
  simp only [mem_names_absorb hanchorShort] at hnames
  exact (hmain hmainShort fun name hname => hnames name (.inr hname)).absorb
    (hanchor hanchorShort fun name hname => hnames name (.inl hname)) hop hanchorShort

end Search

/-- Where the condition requires a comparison of one of the fields, its operator sees the value of
the record in parts, `seesParts`, and the index keeps the part of maps that it looks at,
`storesPartFor`. -/
def Condition.SeenInParts (vars : Fields) (definition : IndexDefinition) (r : Record)
    (fields : List String) (condition : Condition) : Prop :=
  ∀ c ∈ condition.required, ∀ search, c.reuse = .lookup → c.search? vars = some search →
    search.lastField.isLong = false → search.lastField.first ∈ fields →
    definition.storesPartFor search.lastOperator = true ∧
      search.lastOperator.seesParts (r.get search.lastField.first) = true

namespace Store

variable {p : Int64 → Prop} {q : Binary64 → Prop} {store : Store} {vars : Fields}
  {className : String} {query : SelectQuery} {index : StoredIndex} {candidate : Candidate}
  {r : Record}

/-- A record that a conjunction is true on suits every search for it whose fields are seen in parts.
The induction is on the conjunction, with `SuitsWithin.merge`. -/
theorem suitsWithin_of_alternative {definition : IndexDefinition} {fields : List String}
    {alternative : Condition} (hseen : alternative.SeenInParts vars definition r fields)
    (htrue : alternative.evaluate (store.scope vars) r = .ok true) :
    ∀ search ∈ store.branchSearches vars className alternative,
      search.SuitsWithin definition.mapPart r fields := by
  refine branchSearches_forall (fun a b hmergeable ha hb => ha.merge hmergeable hb) ?_
  intro c hc search hreuse hsearch hshort hnames
  have hfield : search.lastField.first ∈ fields := by
    refine hnames _ ?_
    rw [Search.names, Search.last_of_not_isLong hshort]
    exact List.mem_append_right _ List.mem_cons_self
  obtain ⟨hstores, hsees⟩ := hseen c hc search hreuse hsearch hshort hfield
  exact c.suits_of_search? hreuse hsearch hshort
    (Comparison.agreesOn_of_lookup fun _ _ _ => Scope.lookup_of_no_lets)
    (Condition.evaluate_required htrue hc) hstores hsees

/-- A search of an alternative that ends in a chain (`isLong`) is that of a comparison, since a
chain is merged with nothing. -/
theorem comparison_of_isLong {alternative : Condition} {search : Search}
    (hsearch : search ∈ store.branchSearches vars className alternative) :
    search.lastField.isLong = true →
      ∃ c ∈ alternative.required, c.reuse = .lookup ∧ c.search? vars = some search := by
  refine @branchSearches_forall store vars className (fun search => search.lastField.isLong = true →
    ∃ c ∈ alternative.required, c.reuse = .lookup ∧ c.search? vars = some search)
    (fun a b hmergeable _ _ hlong => ?_) alternative
    (fun c hc search hreuse hsearch _ => ⟨c, hc, hreuse, hsearch⟩) search hsearch
  -- searches that end in chains are not merged
  obtain ⟨ha, hb⟩ : a.lastField.isLong = false ∧ b.lastField.isLong = false := by
    simp only [Search.isMergeable, Bool.and_eq_true, Bool.not_eq_true'] at hmergeable
    exact ⟨hmergeable.1.1.1, hmergeable.1.1.2⟩
  cases hlong.symm.trans (Search.isLong_merge hmergeable ha hb)

/-- The record has what the search looks for, as the index keeps it: a part that it `Wants` in every
constrained field, or in a chain of indexes a part at the end of links from the record. -/
def Offers (store : Store) (search : Search) (r : Record) : Index → Prop
  | .stored index => ∀ field ∈ search.names,
      ∃ component ∈ StoredIndex.components index.definition.mapPart (r.get field),
        search.Wants field component
  | .chained proxy => ∃ s, r.Leads store.load search.lastField.beforeLast s ∧
      ∃ component ∈ StoredIndex.components proxy.last.definition.mapPart
        (s.get search.lastField.last), search.lastOperator.Meets search.lastValue component

/-- What the search comes from sees the record as the index keeps it: in parts (`SeenInParts`), or
in a chain of indexes at the end of links from the record, where what the chain reads as is no list
and seen in parts. -/
def Sees (store : Store) (vars : Fields) (alternative : Condition) (search : Search) (r : Record) :
    Index → Prop
  | .stored index => alternative.SeenInParts vars index.definition r search.names
  | .chained _ => (∃ s, r.Leads store.load search.lastField.beforeLast s) ∧
      (∀ items, search.lastField.resolve store.load r ≠ .list items) ∧
        search.lastOperator.seesParts (search.lastField.resolve store.load r) = true

section

variable {search : Search} {serving : Index} {alternative : Condition} (h : store.Sound)
  (hsearch : search ∈ store.branchSearches vars className alternative)
  (hserving : serving ∈ store.servingIndexes className search)
  (hlinks : store.LinksAlong className search.lastField.beforeLast) {onlyBranch : Bool}
  (hgiven : serving.candidate? search query onlyBranch = some candidate) (hr : store.Live r)
  (hbelow : store.schema.Below r.className className)

include h hsearch hserving hlinks hgiven hr hbelow

/-- A lookup that is planned for an alternative gives a live record exactly if the record offers
what the search looks for, `Offers`, where numbers are separated and no index that is read leaves
nulls out. -/
theorem mem_lookup_iff_offers (hseparated : Value.Separated p q)
    (hreflects : ∀ index ∈ store.indexes, index.Reflects (fun key => Value.ItemsIn p q key) store)
    (hrecords : ∀ r, store.Live r → Value.EntriesIn p q r.fields)
    (hnulls : ∀ part ∈ serving.parts, part.definition.ignoreNulls = false)
    (hnumbers : candidate.lookup.NumbersIn p q) {entries : List IndexEntry}
    (hread : candidate.index.lookup candidate.lookup candidate.ascending = .ok entries) :
    (∃ entry ∈ entries, entry.rid = r.rid) ↔ store.Offers search r serving := by
  cases serving with
  | stored index =>
      obtain ⟨-, hmem, -, -⟩ := h.stored_of_servingIndexes hserving
      exact h.mem_lookup_of_candidate hseparated (hreflects index hmem)
        (hnulls index List.mem_cons_self) hserving hgiven hnumbers hr (hrecords r hr) hbelow hread
  | chained proxy =>
      obtain ⟨hlong, hproxy⟩ := mem_chained_servingIndexes.mp hserving
      obtain ⟨c, -, -, hcompare⟩ := comparison_of_isLong hsearch hlong
      exact h.mem_lookup_of_chain hseparated hreflects hrecords (c.bound_of_search? hcompare) hlinks
        hproxy hnulls hgiven hnumbers hr hbelow hread

/-- A record that an alternative is true on offers what a search for it looks for, where it is seen
as the index keeps it, `Sees`. -/
theorem offers_of_sees (htrue : alternative.evaluate (store.scope vars) r = .ok true)
    (hsees : store.Sees vars alternative search r serving) : store.Offers search r serving := by
  cases serving with
  | stored index =>
      obtain ⟨hshort, -, -, -⟩ := h.stored_of_servingIndexes hserving
      have hsuits : search.Suits index.definition.mapPart r :=
        suitsWithin_of_alternative hsees htrue search hsearch hshort fun _ hname => hname
      exact fun field hfield => hsuits.exists_wanted hfield
  | chained proxy =>
      obtain ⟨hleads, hlist, hsees⟩ := hsees
      obtain ⟨hlong, hproxy⟩ := mem_chained_servingIndexes.mp hserving
      obtain ⟨c, hc, hreuse, hcompare⟩ := comparison_of_isLong hsearch hlong
      exact h.exists_part_of_leads hreuse hcompare hlinks hproxy
        (Index.serves_of_candidate? hgiven).stores hr hbelow
        (Condition.evaluate_required htrue hc) hleads hlist hsees

end

/-- A lookup that is planned for an alternative of a condition, in an index that leaves no nulls out
or along links in a chain of such indexes: where numbers are separated, it gives a record that the
alternative is true on exactly if the record offers what the search looks for, `Store.Offers`. That
is so where the index keeps the part of maps that each of the merged comparisons looks at, and their
operators see the record's values in parts, `Store.Sees`. -/
theorem mem_lookup_of_alternative (hseparated : Value.Separated p q)
    (hreach : store.Reachable fun fields => Value.EntriesIn p q fields) {condition : Condition}
    {selection : Selection}
    (hselect : store.selectLookups? vars className condition query = some selection)
    {alternative : Condition} {branch : Branch}
    (hbranch : (alternative, branch) ∈ condition.alternatives.zip selection.branches)
    (hcandidate : candidate ∈ branch)
    (hnulls : ∀ part ∈ candidate.index.parts, part.definition.ignoreNulls = false)
    (hworks : ∀ part ∈ candidate.index.parts, part.failing = false)
    (hlinks : store.LinksAlong className candidate.search.lastField.beforeLast)
    (hnumbers : candidate.lookup.NumbersIn p q) (hload : store.load r.rid = some r)
    (hbelow : store.schema.isSubclassOf r.className className = true)
    (htrue : alternative.evaluate (store.scope vars) r = .ok true) :
    ∃ entries, candidate.index.lookup candidate.lookup candidate.ascending = .ok entries ∧
      ((∃ entry ∈ entries, entry.rid = r.rid) ↔
        store.Offers candidate.search r candidate.index) ∧
      (store.Sees vars alternative candidate.search r candidate.index →
        ∃ entry ∈ entries, entry.rid = r.rid) := by
  have hsound := hreach.sound
  have hr : store.Live r := (hsound.load_eq_some_iff.mp hload).1
  rw [hsound.forest.isSubclassOf_iff] at hbelow
  -- the candidate is that of an index for a search of the alternative
  obtain ⟨-, onlyBranch, rfl⟩ := branch_of_alternative hselect hbranch
  obtain ⟨search, hsearch, serving, hserving, hgiven⟩ := mem_branchFor.mp hcandidate
  have hserves := Index.serves_of_candidate? hgiven
  obtain rfl := hserves.index_eq
  obtain rfl := hserves.search_eq
  obtain ⟨entries, hread⟩ :=
    Index.exists_lookup hworks candidate.lookup candidate.ascending
  have hfinds := mem_lookup_iff_offers hsound hsearch hserving hlinks hgiven hr hbelow hseparated
    (hreach.reflects_of_separated hseparated) (fun r hr => hreach.admits_of_live hr) hnulls hnumbers
    hread
  refine ⟨entries, hread, hfinds, fun hsees => hfinds.mpr ?_⟩
  exact offers_of_sees hsound hsearch hserving hlinks hgiven hr hbelow htrue hsees

end Store

/-! ## A key that is bound -/

/-- An index on a map and a number that keeps one `part` of maps, a record with a key and one with
that key for a value. -/
def mapStore (part : MapPart) : Store := .ofChanges [
  .createClass "A" none 1 false,
  .createIndex "A.mx" .notUnique ⟨"A", ["m", "x"], false, part⟩,
  .insert "A" [("m", .map [("a", .int 1)]), ("x", .int 5)],
  .insert "A" [("m", .map [("b", .string "a")]), ("x", .int 7)]]

/-- The record of `mapStore` whose map has the key. -/
def mapRecord : Record := ⟨⟨1, 0⟩, "A", [("m", .map [("a", .int 1)]), ("x", .int 5)]⟩

/-- The comparison `m CONTAINSKEY 'a'`. -/
def hasKey : Comparison := ⟨.field ⟨"m", []⟩, .containsKey, .literal (.string "a")⟩

/-- The comparison `x > 1`. -/
def aboveOne : Comparison := ⟨.field ⟨"x", []⟩, .greater, .literal (.int 1)⟩

/-- The condition `m CONTAINSKEY 'a' AND x > 1`. -/
def mapCondition : Condition := .and (.compare hasKey) (.compare aboveOne)

/-- The query with `mapCondition`. -/
def mapQuery : SelectQuery :=
  { SelectQuery.ofTarget (.ofClass "A" true) with filter := some mapCondition }

/-- `mapCondition` is true on `mapRecord`, and yet the lookup that is planned for it in the index on
values gives the other record alone. -/
theorem lookup_boundKey_misses :
    (mapStore .values).load mapRecord.rid = some mapRecord ∧
      mapCondition.evaluate ((mapStore .values).scope []) mapRecord = .ok true ∧
      ∃ selection candidate entries,
        (mapStore .values).selectLookups? [] "A" mapCondition mapQuery = some selection ∧
        selection.branches = [[candidate]] ∧ candidate.index.definition.ignoreNulls = false ∧
        candidate.index.definition.mapPart = .values ∧
        candidate.index.lookup candidate.lookup candidate.ascending = .ok entries ∧
        entries.map (·.rid) = [⟨1, 1⟩] :=
  ⟨rfl, rfl, _, _, _, rfl, rfl, rfl, rfl, rfl, rfl⟩

/-- The lookup in an index on keys (`.keys`) gives `mapRecord`. -/
theorem mem_lookup_mapRecord :
    (mapStore .keys).Reachable (Value.EntriesIn (fun _ => True) fun _ => False) ∧
      ∃ selection candidate others index entries,
        (mapStore .keys).selectLookups? [] "A" mapCondition mapQuery = some selection ∧
        selection.branches = [candidate :: others] ∧ candidate.index = .stored index ∧
        mapCondition.SeenInParts [] index.definition mapRecord candidate.search.names ∧
        candidate.index.lookup candidate.lookup candidate.ascending = .ok entries ∧
        ∃ entry ∈ entries, entry.rid = mapRecord.rid := by
  have hreach : (mapStore .keys).Reachable (Value.EntriesIn (fun _ => True) fun _ => False) := by
    refine Store.reachable_ofChanges ?_
    simp [Store.Change.Admitted, Value.EntriesIn, Value.NumbersIn]
  obtain ⟨selection, candidate, others, index, hselect, hbranches, hindex, hdefinition, hworks,
      hlast, hlookup⟩ : ∃ selection candidate others index,
        (mapStore .keys).selectLookups? [] "A" mapCondition mapQuery = some selection ∧
        selection.branches = [candidate :: others] ∧ candidate.index = .stored index ∧
        index.definition = ⟨"A", ["m", "x"], false, .keys⟩ ∧ index.failing = false ∧
        candidate.search.lastField.beforeLast = [] ∧
        candidate.lookup = .range [.string "a"] (.excluded (.int 1)) .unbounded :=
    ⟨_, _, _, _, rfl, rfl, rfl, rfl, rfl, rfl, rfl⟩
  -- one comparison looks into the map, and the other one is with a single value
  have hseen : mapCondition.SeenInParts [] index.definition mapRecord candidate.search.names := by
    intro c hc search hreuse hsearch hshort hfield
    simp only [mapCondition, Condition.required, List.cons_append, List.nil_append, List.mem_cons,
      List.not_mem_nil, or_false] at hc
    rw [hdefinition]
    rcases hc with rfl | rfl <;> cases hsearch <;> exact ⟨rfl, rfl⟩
  have hnumbers : candidate.lookup.NumbersIn (fun _ => True) fun _ => False := by
    simp [hlookup, IndexQuery.NumbersIn, Value.ItemsIn, Value.NumbersIn, Bound.value?]
  have hbranch : (mapCondition, candidate :: others) ∈
      mapCondition.alternatives.zip selection.branches := by
    rw [hbranches]
    exact List.mem_singleton.mpr rfl
  have hload : (mapStore .keys).load mapRecord.rid = some mapRecord := rfl
  obtain ⟨entries, hread, -, hfinds⟩ := Store.mem_lookup_of_alternative Value.separated_exact
    hreach hselect hbranch List.mem_cons_self (by simp [hindex, Index.parts, hdefinition])
    (by simpa [hindex, Index.parts] using hworks) (by rw [hlast]; trivial) hnumbers hload rfl rfl
  exact ⟨hreach, selection, candidate, others, index, entries, hselect, hbranches, hindex, hseen,
    hread, hfinds (by rwa [hindex])⟩

end RecordQuery
