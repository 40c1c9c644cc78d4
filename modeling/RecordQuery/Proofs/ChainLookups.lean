import RecordQuery.Proofs.IndexPlans
import RecordQuery.Proofs.LinkPaths

/-!
# `RecordQuery.Proofs.ChainLookups`: lookups along a chain of links

Where stored values are exact and the link properties of a chain hold links of the declared classes,
a lookup through a chain proxy has every record that the filter is true on, so that a query delivers
what a scan would deliver.

The condition on the filter is `Condition.Chained`: its comparisons are of long chains with
constants that are *present*, which are single values other than null and lists of them. Null is
left out because a chain whose path breaks off reads as null, and no index has an entry for such a
record (`NullChains`). One more form is left out by `Comparison.Chained.single`: IN with its field
on the right and a list on the left. It is planned as a lookup of the whole list, which an index
keeps only in items, and `collect_tags` shows a record that is missed.

The condition on the store is `Condition.Linked`, from `LinkPaths`. The indexes on the way may be
composite, may be those of subclasses, and may fail.

Two lemmas carry the argument. `Operator.Admits.exists_offered` is about one value: what a
comparison finds in a value that a chain reads as, it finds in the value itself or in an item of it,
and this item is neither null nor a list. So it is held by a record at the end of some path,
`Store.Hops.exists_end`. `Store.Sound.mem_lookup_of_chain` is about one lookup: it gives exactly the
records from which a path leads to a record with such a part.

The theorems:

* `Operator.Admits.exists_offered`: what a comparison with a chain finds is held at the end of a
  path of links.
* `Store.Sound.mem_lookup_of_chain`: a lookup in a chain gives the records from which the links lead
  to one with a part that is looked for.
* `Store.Sound.looksUp_of_chained`: every selection of lookups has the records that the condition is
  true on.
* `collect_of_chained`: the identities delivered are those of the answers.
-/

set_option autoImplicit false

namespace RecordQuery

/-! ## Constants that are present

A chain that breaks off reads as null, or as a list with null in the place of the broken part. A
present constant is found in neither, so where a comparison with it is true the links lead on to the
end. -/

namespace Value

/-- Whether the value is a single one other than null, `isScalar`. -/
def isPresent (v : Value) : Bool := v.isScalar && !v.isNull

/-- Whether the value is a list of single values other than null, each of them `isPresent`. -/
def arePresent : Value → Bool
  | list items => items.all isPresent
  | _ => false

/-- A value that `isPresent` is a single one, `isScalar`. -/
theorem isScalar_of_isPresent {v : Value} (h : v.isPresent = true) : v.isScalar = true :=
  ((Bool.and_eq_true _ _).mp h).1

/-- A list whose values `arePresent` is one of single values. -/
theorem isScalarList_of_arePresent {v : Value} (h : v.arePresent = true) :
    v.isScalarList = true := by
  cases v with
  | list items =>
      refine List.all_eq_true.mpr fun item hitem => isScalar_of_isPresent ?_
      exact List.all_eq_true.mp h item hitem
  | _ => cases h

/-- What is no list by its `rank` is none. The ranks of the constructors below the lists are smaller
than 5. -/
theorem ne_list_of_rank {v : Value} (h : v.rank < 5) (items : List Value) : v ≠ .list items := by
  rintro rfl
  simp [rank] at h

/-- What `==` a present value is neither null nor a list. -/
theorem of_beq_isPresent {v k : Value} (hk : k.isPresent = true) (h : (v == k) = true) :
    v.isNull = false ∧ ∀ items, v ≠ .list items := by
  obtain ⟨hscalar, hnull⟩ := (Bool.and_eq_true _ _).mp hk
  refine ⟨?_, ne_list_of_rank (rank_lt_of_beq hscalar h)⟩
  have hrank : v.rank = k.rank := rank_eq_of_compare_eq (eq_of_beq h)
  cases v with
  | null => cases k <;> simp [rank, isNull] at hrank hnull
  | _ => rfl

end Value

namespace Operator

/-- A constant that a comparison with a chain may look for: a single value other than null, or for
IN and BETWEEN a list of them. CONTAINS with a list is left out, as `Offers` stops at items. -/
def SeeksPresent (op : Operator) (constant : Value) : Prop :=
  constant.isPresent = true ∨
    (constant.arePresent = true ∧ (op = .oneOf ∨ ∃ lower upper, op = .between lower upper))

/-- A constant that an operator `SeeksPresent` is one that it `Seeks`. -/
theorem SeeksPresent.seeks {op : Operator} {k : Value} (h : op.SeeksPresent k) : op.Seeks k := by
  rcases h with h | ⟨h, hop⟩
  · exact .inl (Value.isScalar_of_isPresent h)
  · exact .inr ⟨Value.isScalarList_of_arePresent h, hop.imp_right .inr⟩

/-- What BETWEEN with present bounds (`hk`) holds for is neither null nor a list. -/
theorem of_between_present {lowerInclusive upperInclusive : Bool} {v k : Value}
    (h : apply (.between lowerInclusive upperInclusive) v k = .ok true)
    (hk : k.isScalar = true ∨ k.isScalarList = true) :
    v.isNull = false ∧ v.rank < 5 := by
  obtain ⟨lower, upper, rfl, habove, -⟩ := bounds_of_between h
  have hlower : lower.isScalar = true :=
    List.all_eq_true.mp (hk.resolve_left (by simp [Value.isScalar])) _ List.mem_cons_self
  obtain ⟨hrank, hnull, -⟩ := of_ordered_any hlower habove
  exact ⟨hnull, hrank⟩

/-- What IN with present choices (`hk`) holds for is neither null nor a list. -/
theorem of_oneOf_present {v k : Value} (h : apply .oneOf v k = .ok true)
    (hk : k.isPresent = true ∨ k.arePresent = true) :
    v.isNull = false ∧ ∀ items, v ≠ .list items := by
  simp only [apply] at h
  split at h
  next choices =>
    obtain ⟨choice, hchoice, heq⟩ := List.any_eq_true.mp (Except.ok.inj h)
    have hpresent : choice.isPresent = true :=
      List.all_eq_true.mp (hk.resolve_left (by simp [Value.isPresent, Value.isScalar])) _ hchoice
    exact Value.of_beq_isPresent hpresent (beq_comm choice v ▸ heq)
  next hne =>
    have hpresent : k.isPresent = true := hk.resolve_right fun hlist => by
      cases k with
      | list items => exact hne items rfl
      | _ => cases hlist
    exact Value.of_beq_isPresent hpresent (beq_comm k v ▸ Except.ok.inj h)

/-- Where a comparison with a present constant finds something in a value, it finds it in the value
itself, which is neither null nor a list, or CONTAINS finds it in such an item. The cases are the
operators that an index serves, `hreuse`. -/
theorem Admits.exists_offered {op : Operator} {v k : Value} (h : op.Admits v k)
    (hreuse : op.reuse = .lookup) (hnull : op ≠ .isNull) (hk : op.SeeksPresent k) :
    ∃ item, v.Offers item ∧ item.isNull = false ∧ (∀ items, item ≠ .list items) ∧
      op.Admits item k := by
  have halone (hv : v.isNull = false ∧ ∀ items, v ≠ .list items) :
      ∃ item, v.Offers item ∧ item.isNull = false ∧ (∀ items, item ≠ .list items) ∧
        op.Admits item k := ⟨v, .inl rfl, hv.1, hv.2, h⟩
  have hlists : k.isPresent = true ∨ k.arePresent = true := hk.imp_right And.left
  -- only CONTAINS looks into a list; every other operator meets the value as a whole
  cases op with
  | notEquals | like | isNotNull => cases hreuse
  | isNull => exact absurd rfl hnull
  | equals =>
      have hpresent : k.isPresent = true := by simpa [SeeksPresent] using hk
      exact halone (Value.of_beq_isPresent hpresent (Except.ok.inj (h.resolve_right (by simp))))
  | less | lessOrEquals | greater | greaterOrEquals =>
      have hscalar : k.isScalar = true :=
        Value.isScalar_of_isPresent (by simpa [SeeksPresent] using hk)
      obtain ⟨hrank, hvalue, -⟩ := of_ordered_any hscalar (Except.ok.inj (h.resolve_right (by simp)))
      exact halone ⟨hvalue, Value.ne_list_of_rank hrank⟩
  | between lowerInclusive upperInclusive =>
      obtain ⟨hvalue, hrank⟩ := of_between_present (h.resolve_right (by simp))
        (hlists.imp Value.isScalar_of_isPresent Value.isScalarList_of_arePresent)
      exact halone ⟨hvalue, Value.ne_list_of_rank hrank⟩
  | oneOf => exact halone (of_oneOf_present (h.resolve_right (by simp)) hlists)
  | contains =>
      have hpresent : k.isPresent = true := by simpa [SeeksPresent] using hk
      rcases h with hholds | ⟨-, -, heq⟩
      · cases v with
        | list items =>
            obtain ⟨item, hitem, heq⟩ := List.any_eq_true.mp (Except.ok.inj hholds)
            obtain ⟨hvalue, hlist⟩ := Value.of_beq_isPresent hpresent heq
            exact ⟨item, .inr ⟨items, rfl, hitem⟩, hvalue, hlist, .inr ⟨rfl, hlist, heq⟩⟩
        | _ => cases hholds
      · exact halone (Value.of_beq_isPresent hpresent heq)
  | containsKey | containsValue =>
      have hholds := h.resolve_right (by simp)
      cases v with
      | map entries => exact halone ⟨rfl, by simp⟩
      | _ => cases hholds

end Operator

/-! ## Comparisons with chains

A comparison with a chain keeps its constant when the chain is moved to the left, and its search
chases the same value. -/

/-- The comparison is one of chains with constants that the operator `SeeksPresent`: single values
other than null, or lists of them for IN and BETWEEN, and not by IS NULL. Where the chain of an IN
stands on its right, the constant is no list. -/
structure Comparison.Chained (vars : Fields) (c : Comparison) : Prop where
  /-- Fields are chains. -/
  long : ∀ chain, c.left = .field chain ∨ c.right = .field chain → chain.isLong = true
  /-- Nulls are not asked for. -/
  notNull : c.operator ≠ .isNull
  /-- The constants of binary operators are present. -/
  constants : c.operator.isUnary = false → ∀ operand, operand = c.left ∨ operand = c.right →
    ∀ k, operand.keyConstant? vars = some k → c.operator.SeeksPresent k
  /-- No list is on the left of IN. -/
  single : c.operator = .oneOf → ∀ k, c.left.keyConstant? vars = some k → k.isPresent = true

/-- All comparisons of the condition are `Comparison.Chained`. -/
def Condition.Chained (vars : Fields) (condition : Condition) : Prop :=
  ∀ c ∈ condition.comparisons, c.Chained vars

section

variable {vars : Fields}

/-- The constant of a comparison with a chain stays what it is when the chain is moved to the left.
`single` is used here: a list on the left of IN would become the right side of a CONTAINS. -/
theorem Comparison.Chained.of_fieldOnLeft {c : Comparison} (h : c.Chained vars)
    {chain : FieldChain} {op : Operator} {right : Operand}
    (hleft : c.fieldOnLeft? = some ⟨.field chain, op, right⟩) (hreuse : op.reuse = .lookup) :
    op ≠ .isNull ∧ ∀ k, right.keyConstant? vars = some k → op.SeeksPresent k := by
  -- either the chain was on the left already, or the comparison was turned around
  obtain ⟨-, rfl | ⟨hinverted, hfield, hright⟩⟩ := fieldOnLeft?_cases hleft
  · have hnull := h.notNull
    refine ⟨hnull, fun k hk => h.constants ?_ right (.inr rfl) k hk⟩
    cases op with
    | isNull => exact absurd rfl hnull
    | isNotNull => cases hreuse
    | _ => rfl
  · dsimp only at hinverted hfield hright
    refine ⟨?_, fun k hk => ?_⟩
    · rintro rfl
      cases hop : c.operator <;> rw [hop] at hinverted <;> cases hinverted
    · have hbinary : c.operator.isUnary = false := by
        cases hop : c.operator <;> rw [hop] at hinverted <;> first | rfl | cases hinverted
      rw [hright] at hk
      refine .inl ?_
      rcases h.constants hbinary c.left (.inl rfl) k hk with hpresent | ⟨-, hop | ⟨l, u, hop⟩⟩
      · exact hpresent
      · exact h.single hop k hk
      · rw [hop] at hinverted
        cases hinverted

/-- The search looks for a value that its chain finds from the record. It is what `Search.Fits` is
for searches of fields of the record itself. -/
structure Search.Chases (load : Rid → Option Record) (r : Record) (search : Search) : Prop where
  /-- The search ends in a chain. -/
  long : search.lastField.isLong = true
  /-- No other field is constrained. -/
  bound : search.bound = []
  /-- It comes from a comparison that holds for the value. -/
  admits : ∃ op k, op.Admits (search.lastField.resolve load r) k ∧ op.reuse = .lookup ∧
    op ≠ .isNull ∧ op.SeeksPresent k ∧
    soughtTerm? op (some k) = some (search.lastOperator, search.lastValue)

/-- The `search?` of a comparison with a chain looks for what the chain finds where the comparison
is true (`htrue`), and the chain is one of its sides. -/
theorem Comparison.Chained.chases {c : Comparison} (h : c.Chained vars) {search : Search}
    (hreuse : c.reuse = .lookup) (hsearch : c.search? vars = some search)
    {load : Rid → Option Record} {r : Record} (htrue : c.evaluate ⟨load, vars, []⟩ r = .ok true) :
    (c.left = .field search.lastField ∨ c.right = .field search.lastField) ∧
      search.Chases load r := by
  obtain ⟨chain, op, right, k, hleft, hconstant, hadmits, hlookup, hterm, heq⟩ :=
    sought_of_search? hreuse hsearch
      (agreesOn_of_lookup fun _ _ _ => Scope.lookup_of_no_lets) htrue
  have hside := side_of_fieldOnLeft? hleft
  obtain ⟨hnull, hseeks⟩ := h.of_fieldOnLeft hleft hlookup
  have hk : op.SeeksPresent k := hconstant.elim (hseeks k) fun hisNull => absurd hisNull.1 hnull
  have hfield : search.lastField = chain := by rw [heq]; rfl
  rw [hfield]
  refine ⟨hside, hfield ▸ h.long chain hside, by rw [heq]; rfl, op, k, ?_, hlookup, hnull, hk, hterm⟩
  rwa [hfield]

/-! ## Lookups

A record on which the comparison is true has a path to a record with a part that the search looks
for. The indexes of the hops join the two. -/

section

variable {store : Store} {r : Record} {className : String} {condition : Condition}

/-- A lookup that is planned for a chain of links, in a chain of indexes that leave no nulls out,
`hnulls`, gives a live record exactly if the links lead from it to one with a part that is looked
for, where numbers are separated, `hseparated`. The parts are the components that the last index
makes keys of. -/
theorem Store.Sound.mem_lookup_of_chain {p : Int64 → Prop} {q : Binary64 → Prop}
    (hseparated : Value.Separated p q) (h : store.Sound)
    (hreflects : ∀ index ∈ store.indexes, index.Reflects (fun key => Value.ItemsIn p q key) store)
    (hnumbers : ∀ r, store.Live r → Value.EntriesIn p q r.fields) {search : Search}
    (hbound : search.bound = [])
    (hlinks : store.LinksAlong className search.lastField.beforeLast) {proxy : ChainProxy}
    (hproxy : proxy ∈ store.chainProxies className search.lastField)
    (hnulls : ∀ hop ∈ proxy.hops, hop.definition.ignoreNulls = false) {query : SelectQuery}
    {onlyBranch : Bool} {candidate : Candidate}
    (hcandidate : (Index.chained proxy).candidate? search query onlyBranch = some candidate)
    (hlookup : candidate.lookup.NumbersIn p q) (hr : store.Live r)
    (hbelow : store.schema.Below r.className className)
    {entries : List IndexEntry}
    (hread : candidate.index.lookup candidate.lookup candidate.ascending = .ok entries) :
    (∃ entry ∈ entries, entry.rid = r.rid) ↔
      ∃ s, r.Leads store.load search.lastField.beforeLast s ∧
        ∃ component ∈ StoredIndex.components proxy.last.definition.mapPart
          (s.get search.lastField.last),
          search.lastOperator.Meets search.lastValue component := by
  obtain ⟨lastClass, hops, hlast⟩ := hops_of_chainProxies hlinks hproxy
  have hserves := Index.serves_of_candidate? hcandidate
  rw [hserves.index_eq] at hread
  have hnames : search.names = [search.lastField.last] := by simp [Search.names, hbound]
  obtain ⟨-, -, hcovers⟩ := h.mem_indexesCovering hlast
  -- the chain of indexes follows the links backwards from the keys that the lookup finds
  rw [hops.mem_lookup_iff hseparated h hreflects hnumbers hlast hnulls hr hbelow hlookup hread]
  refine exists_congr fun s => and_congr_right fun _ =>
    (hserves.exists_key_iff (hnames ▸ ⟨hcovers.perm, hcovers.nodup⟩)).trans ?_
  simp only [hnames, List.forall_mem_singleton, Search.wants_iff_meets hbound]
  rfl

/-- From a record that a comparison with a chain is true on, links that lead on to the end of the
chain lead to a part that is looked for, if the chain reads as no list, `hlist`, and the operator
sees what it reads as in the parts that the last index keeps, `hsees`. Here the comparison may be
any one that has a search, also IS NULL. -/
theorem Store.Sound.exists_part_of_leads (h : store.Sound) {vars : Fields} {c : Comparison}
    {search : Search} (hreuse : c.reuse = .lookup) (hsearch : c.search? vars = some search)
    (hlinks : store.LinksAlong className search.lastField.beforeLast) {proxy : ChainProxy}
    (hproxy : proxy ∈ store.chainProxies className search.lastField)
    (hstores : proxy.last.definition.storesPartFor search.lastOperator = true) (hr : store.Live r)
    (hbelow : store.schema.Below r.className className)
    (htrue : c.evaluate (store.scope vars) r = .ok true)
    (hleads : ∃ s, r.Leads store.load search.lastField.beforeLast s)
    (hlist : ∀ items, search.lastField.resolve store.load r ≠ .list items)
    (hsees : search.lastOperator.seesParts (search.lastField.resolve store.load r) = true) :
    ∃ s, r.Leads store.load search.lastField.beforeLast s ∧
      ∃ component ∈ StoredIndex.components proxy.last.definition.mapPart
        (s.get search.lastField.last),
        search.lastOperator.Meets search.lastValue component := by
  obtain ⟨s, hleads⟩ := hleads
  obtain ⟨lastClass, hops, -⟩ := hops_of_chainProxies hlinks hproxy
  obtain ⟨chain, op, right, k, -, -, hadmits, hlookup, hterm, heq⟩ :=
    Comparison.sought_of_search? hreuse hsearch
      (Comparison.agreesOn_of_lookup fun _ _ _ => Scope.lookup_of_no_lets) htrue
  have hchain : search.lastField = chain := by rw [heq]; rfl
  have hload := h.load_eq_some_iff.mpr ⟨hr, rfl⟩
  -- what the record at the end holds is what the comparison sees
  have hheld : s.get search.lastField.last = search.lastField.resolve store.load r :=
    hops.get_of_leads h hload hbelow hleads
      (FieldChain.resolve_eq_along hload search.lastField).symm hlist
  refine ⟨s, hleads, ?_⟩
  rw [hheld, hchain]
  exact exists_component_of_seesParts hadmits hterm hlookup
    (seesParts_of_soughtTerm? hterm ▸ hchain ▸ hsees) fun _ => mapPart_of_storesPartFor hterm hstores

/-- A candidate along a chain of links finds the records from which the chain finds what the search
looks for, `Search.Chases`. It may fail instead, and then another candidate is asked. -/
theorem Store.Sound.finds_of_chases (h : store.Sound)
    (hmirrors : ∀ index ∈ store.indexes, index.Mirrors store)
    (hnulls : ∀ index ∈ store.indexes, index.definition.ignoreNulls = false)
    (hexact : ∀ r, store.Live r → r.isExact = true) (hr : store.Live r)
    (hbelow : store.schema.Below r.className className) {search : Search}
    (hchases : search.Chases store.load r)
    (hlinks : store.LinksAlong className search.lastField.beforeLast) {query : SelectQuery}
    {onlyBranch : Bool} {index : Index} (hindex : index ∈ store.servingIndexes className search)
    {candidate : Candidate} (hcandidate : index.candidate? search query onlyBranch = some candidate) :
    candidate.Finds r.rid := by
  rw [servingIndexes, hchases.long, if_pos rfl] at hindex
  obtain ⟨proxy, hproxy, rfl⟩ := List.mem_map.mp hindex
  obtain ⟨lastClass, hops, hlast⟩ := hops_of_chainProxies hlinks hproxy
  obtain ⟨op, k, hadmits, hreuse, hnull, hk, hterm⟩ := hchases.admits
  have hload : store.load r.rid = some r := h.load_eq_some_iff.mpr ⟨hr, rfl⟩
  -- forwards: some record at the end of a path holds what is found
  obtain ⟨item, hoffers, hpresent, hlist, hadmitsItem⟩ := hadmits.exists_offered hreuse hnull hk
  obtain ⟨s, hleads, hs⟩ := hops.exists_end h hload hbelow
    (FieldChain.resolve_eq_along hload search.lastField).symm hoffers hpresent hlist
  have hheld : op.Admits (s.get search.lastField.last) k := by
    rcases hs with hs | hs
    · rwa [hs]
    · rwa [hs]
  have hsought : search.lastValue.isExact = true := isExact_of_soughtTerm?
    (hk.seeks.elim Value.isExact_of_isScalar fun hlist => Value.isExact_of_isScalarList hlist.1)
    hterm
  have hserves := Index.serves_of_candidate? hcandidate
  have hlookup := hserves.numbersIn (p := fun _ => True) (q := fun _ => False)
    (by simp [hchases.bound]) (Value.numbersIn_of_isExact hsought)
  intro entries hentries
  -- backwards: the lookup gives the beginnings of the paths that end there
  refine (h.mem_lookup_of_chain Value.separated_exact
    (fun index hindex => (hmirrors index hindex).reflects hexact)
    (fun r hr => Value.entriesIn_of_entriesExact (hexact r hr)) hchases.bound hlinks hproxy
    (fun hop hhop => hnulls hop (hops.mem_hops h hlast hhop)) hcandidate hlookup hr hbelow
    hentries).mpr ⟨s, hleads, ?_⟩
  exact exists_component hheld hterm hk.seeks hreuse
    fun _ => mapPart_of_storesPartFor hterm hserves.stores

/-- Every selection of lookups for a condition on chains has the records that it is true on. Unlike
`looksUp_of_direct` this is about the class that the query asks for and those below it, as the links
of a chain are declared by class. -/
theorem Store.Sound.looksUp_of_chained (h : store.Sound)
    (hmirrors : ∀ index ∈ store.indexes, index.Mirrors store)
    (hnulls : ∀ index ∈ store.indexes, index.definition.ignoreNulls = false)
    (hexact : ∀ r, store.Live r → r.isExact = true) (hr : store.Live r)
    (hchained : condition.Chained vars) (hlinked : condition.Linked store className)
    (htrue : condition.evaluate (store.scope vars) r = .ok true) (query : SelectQuery) :
    store.LooksUp vars className condition query r := by
  intro owner selection rids sorted howner hbelow hselect hread
  -- searches for chains are not merged
  have hmerge : ∀ a b : Search, a.isMergeable b = true →
      (a.Chases store.load r ∧ store.LinksAlong owner a.lastField.beforeLast) →
      (b.Chases store.load r ∧ store.LinksAlong owner b.lastField.beforeLast) →
      (a.merge b).Chases store.load r ∧
        store.LinksAlong owner (a.merge b).lastField.beforeLast := by
    intro a b hmergeable ha _
    simp [Search.isMergeable, ha.1.long] at hmergeable
  obtain ⟨searches, hsearches, hall⟩ := Store.searchBranches_holds hmerge
    (fun c hc search hreuse hsearch hholds => by
      obtain ⟨hside, hchases⟩ := (hchained c hc).chases hreuse hsearch hholds
      exact ⟨hchases, hlinked _ (Condition.mem_chains_iff.mpr ⟨c, hc, hside⟩) owner howner⟩) htrue
  refine Store.mem_of_selectLookups? hselect ⟨searches, hsearches, ?_⟩ hread
  intro search hsearch index hindex onlyBranch candidate hcandidate
  obtain ⟨hchases, hlinks⟩ := hall search hsearch
  exact h.finds_of_chases hmirrors hnulls hexact hr hbelow hchases hlinks hindex hcandidate

end

/-! ## Queries

Chains of several names are not folded and bound no identities, so the planned condition is the
filter itself. -/

/-- A condition on chains has no bounds to fold, as `rangeBound?` passes over long chains. So what
holds of its comparisons holds of those of the condition that is planned for. -/
theorem SelectQuery.forall_planned {query : SelectQuery} {options : Options} {P : Comparison → Prop}
    (hlong : ∀ c, P c → ∀ chain, c.left = .field chain ∨ c.right = .field chain →
      chain.isLong = true)
    (h : ∀ condition, query.filter = some condition → ∀ c ∈ condition.comparisons, P c)
    {planned : Condition} (hplanned : query.plannedFilter options = some planned) :
    ∀ c ∈ planned.comparisons, P c := by
  unfold plannedFilter at hplanned
  obtain ⟨condition, hcondition, rfl⟩ := Option.map_eq_some_iff.mp hplanned
  split
  · refine (Condition.forall_comparisons_folded (h condition hcondition) ?_).1
    intro c _ first _ hc _ hfirst
    obtain ⟨chain, hleft, hshort, -⟩ := Condition.rangeBound?_some hfirst
    rw [hlong c hc chain (Comparison.side_of_fieldOnLeft? hleft)] at hshort
    cases hshort
  · exact h condition hcondition

end

section

variable {env : Env} {query : SelectQuery} {context : Context} {signals : Signals}
  {className : String} {polymorphic : Bool}

/-- A query for whole records of a declared class, filtered by chains of links, `hchained`, delivers
the live records of the class on which its filter is true, whichever indexes there are and fail, and
whatever the schedule, `Env.Collects`. No floating-point number is stored, `hreach`; no index
ignores nulls, `hnulls`; the properties of the chains hold links of the declared classes, `hlinked`;
and the filter fails on no record, `hevaluates`. `Condition.Chained` leaves out a list on the left
of IN. -/
theorem collect_of_chained
    (hreach : env.store.Reachable fun fields => Value.entriesExact fields = true)
    (hnulls : ∀ index ∈ env.store.indexes, index.definition.ignoreNulls = false)
    (hquery : query.Plain className polymorphic)
    (hdeclared : env.store.schema.declares className = true)
    (hunhindered : { env with sink := .collecting : Env }.Unhindered query context signals)
    (hchained : ∀ condition, query.filter = some condition → condition.Chained context.vars)
    (hlinked : ∀ condition, query.filter = some condition → condition.Linked env.store className)
    (hevaluates : ∀ condition, query.filter = some condition → ∀ r, env.store.Live r →
      ∃ b, condition.evaluate (env.store.scope context.vars) r = .ok b) :
    env.Collects query context signals fun rows => ∀ rid, rid ∈ rowRids rows ↔
      ∃ r, Answers env.store context.vars query className polymorphic r ∧ r.rid = rid := by
  have hmirrors := hreach.mirrors fun fields hfields => hfields
  have hexact : ∀ r, env.store.Live r → r.isExact = true := fun r hr => hreach.admits_of_live hr
  have hlong {c : Comparison} (hc : c.Chained context.vars) {chain : FieldChain}
      (hside : c.left = .field chain ∨ c.right = .field chain) : chain.isLong = true :=
    hc.long chain hside
  have hscope := SelectQuery.scopeOn_of_no_lets hquery.lets env.store context.vars
  have hdecided : query.Decided env context.vars := by
    refine ⟨fun _ condition hcondition chain hchain hshort => ?_,
      fun condition hcondition r => by rw [hscope]; exact hevaluates condition hcondition r⟩
    obtain ⟨c, hc, hside⟩ := Condition.mem_chains_iff.mp hchain
    rw [hlong (hchained condition hcondition c hc) hside] at hshort
    cases hshort
  -- what is left is that every lookup for the planned condition finds the answers
  refine collects_answers hreach.sound hmirrors hexact hquery hdeclared hunhindered hdecided ?_
  intro planned hplanned r hanswers
  have hplannedTrue := ((qualifies_iff_answers hquery.lets).mpr hanswers).planned hdecided hplanned
  rw [hscope] at hplannedTrue
  -- folding changes no comparison with a chain of links, so what holds of the filter is kept
  have hcomparisons := SelectQuery.forall_planned
    (P := fun c => c.Chained context.vars ∧ ∀ chain, c.left = .field chain ∨ c.right = .field chain →
      ∀ owner, env.store.schema.Below owner className →
        env.store.LinksAlong owner chain.beforeLast)
    (fun c hc chain hside => hlong hc.1 hside)
    (fun condition hcondition c hc => ⟨hchained condition hcondition c hc, fun chain hside =>
      hlinked condition hcondition chain (Condition.mem_chains_iff.mpr ⟨c, hc, hside⟩)⟩) hplanned
  refine hreach.sound.looksUp_of_chained hmirrors hnulls hexact hanswers.live
    (fun c hc => (hcomparisons c hc).1) ?_ hplannedTrue query
  intro chain hchain
  obtain ⟨c, hc, hside⟩ := Condition.mem_chains_iff.mp hchain
  exact (hcomparisons c hc).2 chain hside

end

/-! ## Links through towns and countries -/

/-- People with a `home`, and cities with a `country`. One city has been deleted, one town lies in
two countries, and the index on the homes has the age as its second field. -/
def homeStore : Store := .ofChanges [
  .createClass "Country" none 1 false,
  .createClass "City" none 1 false,
  .createClass "Town" (some "City") 1 false,
  .createClass "Person" none 1 false,
  .createClass "Worker" (some "Person") 1 false,
  .linkProperty "Person" "home" "City",
  .linkProperty "City" "country" "Country",
  .createIndex "Person.home" .notUnique ⟨"Person", ["home", "age"], false, .keys⟩,
  .createIndex "City.country" .notUniqueHash ⟨"City", ["country"], false, .keys⟩,
  .createIndex "Country.name" .notUnique ⟨"Country", ["name"], false, .keys⟩,
  .insert "Country" [("name", .string "Italy")],
  .insert "Country" [("name", .string "France")],
  .insert "City" [("country", .link ⟨1, 0⟩)],
  .insert "City" [("country", .link ⟨1, 1⟩)],
  .insert "Town" [("country", .list [.link ⟨1, 0⟩, .link ⟨1, 1⟩])],
  .insert "Person" [("home", .link ⟨2, 0⟩)],
  .insert "Person" [("home", .link ⟨2, 1⟩)],
  .insert "Worker" [("home", .link ⟨3, 0⟩)],
  .insert "Worker" [("home", .list [.link ⟨2, 0⟩, .link ⟨2, 1⟩])],
  .delete ⟨2, 1⟩]

/-- An executor over `homeStore`. -/
def homeEnv : Env := ⟨homeStore, .default, fun _ => 0, .collecting⟩

/-- The condition `home.country.name = 'Italy' OR home.country.name CONTAINS 'France' AND NOT
home.country.name IN ['Spain', 'Greece']`. -/
def homeCondition : Condition :=
  .or
    (.compare ⟨.field ⟨"home", ["country", "name"]⟩, .equals, .literal (.string "Italy")⟩)
    (.and
      (.compare ⟨.field ⟨"home", ["country", "name"]⟩, .contains, .literal (.string "France")⟩)
      (.not (.compare ⟨.field ⟨"home", ["country", "name"]⟩, .oneOf,
        .literal (.list [.string "Spain", .string "Greece"])⟩)))

/-- The people on whom `homeCondition` is true. -/
def homeQuery : SelectQuery :=
  { SelectQuery.ofTarget (.ofClass "Person" true) with filter := some homeCondition }

/-- A chain on the left, compared with a present literal, makes a comparison that is `Chained`. -/
theorem Comparison.chained_literal {vars : Fields} {first next : String} {names : List String}
    {op : Operator} {k : Value} (hk : op.SeeksPresent k) (hnull : op ≠ .isNull) :
    Comparison.Chained vars ⟨.field ⟨first, next :: names⟩, op, .literal k⟩ := by
  refine ⟨fun chain h => ?_, hnull, ?_, fun _ k hk => ?_⟩
  · rcases h with h | h <;> cases h
    rfl
  · rintro - operand (rfl | rfl) constant hconstant <;> cases hconstant
    exact hk
  · cases hk

/-- Lookups for `homeQuery` through the three indexes give the one who lives in Italy and the one
who lives in a town of both countries. Both alternatives are served by a chain proxy. -/
theorem collect_homes :
    (homeStore.selectLookups? [] "Person" homeCondition homeQuery).map
        (fun selection => selection.branches.map fun branch => branch.map (·.index.kind)) =
      some [[.proxy], [.proxy]] ∧
    homeEnv.store.Reachable (fun fields => Value.entriesExact fields = true) ∧
      (∃ rows, (collect homeEnv homeQuery .empty []).1 = .ok rows ∧
        (∀ rid, rid ∈ rowRids rows ↔
          ∃ r, Answers homeEnv.store [] homeQuery "Person" true r ∧ r.rid = rid) ∧
        rowRids rows = [⟨4, 0⟩, ⟨5, 0⟩]) ∧
      ∀ result run, Executes { homeEnv with sink := .collecting } homeQuery .empty [] result run →
        ∀ rid, rid ∈ rowRids run.rows ↔ rid ∈ [⟨4, 0⟩, ⟨5, 0⟩] := by
  have hstore : homeEnv.store = homeStore := by dsimp only [homeEnv]
  have hreach : homeEnv.store.Reachable fun fields => Value.entriesExact fields = true := by
    rw [hstore]
    exact Store.reachable_ofChanges (by decide +kernel)
  have hlinked : homeCondition.Linked homeEnv.store "Person" :=
    hreach.sound.linked_iff.mpr (by decide +kernel)
  have hcomparisons : ∀ c ∈ homeCondition.comparisons,
      c.Chained [] ∧ ∀ lower upper, c.operator ≠ .between lower upper := by
    intro c hc
    simp only [homeCondition, Condition.comparisons, List.cons_append, List.nil_append,
      List.mem_cons, List.not_mem_nil, or_false] at hc
    rcases hc with rfl | rfl | rfl
    · exact ⟨Comparison.chained_literal (.inl rfl) (by simp), by simp⟩
    · exact ⟨Comparison.chained_literal (.inl rfl) (by simp), by simp⟩
    · exact ⟨Comparison.chained_literal (.inr ⟨rfl, .inl rfl⟩) (by simp), by simp⟩
  obtain ⟨⟨rows, hok, hrids⟩, hexecutes⟩ := @collect_of_chained homeEnv homeQuery .empty [] "Person" true hreach
    (by decide +kernel) ⟨rfl, rfl, rfl, rfl, rfl, rfl, rfl, rfl⟩ (by decide +kernel)
    ⟨⟨rfl, rfl, rfl, rfl, rfl⟩, rfl, rfl, ⟨rfl, rfl, rfl, rfl⟩, by decide +kernel⟩
    (by rintro condition ⟨⟩ c hc; exact (hcomparisons c hc).1)
    (by rintro condition ⟨⟩; exact hlinked)
    (by
      rintro condition ⟨⟩ r -
      exact Condition.exists_evaluate fun c hc => Operator.apply_ok (hcomparisons c hc).2 _ _)
  -- the run itself tells in which order the two are delivered
  have hrows : (collect homeEnv homeQuery .empty []).1.toOption.map rowRids =
      some [⟨4, 0⟩, ⟨5, 0⟩] := by decide +kernel
  rw [hok] at hrows
  have hdelivered : rowRids rows = [⟨4, 0⟩, ⟨5, 0⟩] := Option.some.inj hrows
  refine ⟨by decide +kernel, hreach, ⟨rows, hok, hrids, hdelivered⟩, fun result run hrun rid => ?_⟩
  rw [(hexecutes rfl result run hrun).2 rid, ← hdelivered, hrids]

/-! ## A list on the left of IN -/

/-- A city with a list of `tags`, and a person with a list of homes. -/
def tagStore : Store := .ofChanges [
  .createClass "City" none 1 false,
  .createClass "Person" none 1 false,
  .linkProperty "Person" "home" "City",
  .createIndex "City.tags" .notUnique ⟨"City", ["tags"], false, .keys⟩,
  .createIndex "Person.home" .notUnique ⟨"Person", ["home"], false, .keys⟩,
  .insert "City" [("tags", .list [.int 1])],
  .insert "Person" [("home", .list [.link ⟨1, 0⟩])]]

/-- An executor over `tagStore`. -/
def tagEnv : Env := ⟨tagStore, .default, fun _ => 0, .collecting⟩

/-- The condition `[1] IN home.tags`. -/
def tagCondition : Condition :=
  .compare ⟨.literal (.list [.int 1]), .oneOf, .field ⟨"home", ["tags"]⟩⟩

/-- The people on whom the condition about `home.tags` is true. -/
def tagQuery : SelectQuery :=
  { SelectQuery.ofTarget (.ofClass "Person" true) with filter := some tagCondition }

/-- The lists of tags of the homes have the list on the left among them, so that the person is an
answer. The lookup is one of a tag that equals the list, and nothing is delivered: this is the form
that `Comparison.Chained.single` leaves out. -/
theorem collect_tags :
    tagStore.Reachable (fun fields => Value.entriesExact fields = true) ∧
      (∀ index ∈ tagStore.indexes, index.definition.ignoreNulls = false) ∧
      tagQuery.Plain "Person" true ∧ tagCondition.Linked tagStore "Person" ∧
      (∀ r, ∃ keep, tagCondition.evaluate (tagStore.scope []) r = .ok keep) ∧
      (∃ r, Answers tagStore [] tagQuery "Person" true r ∧ r.rid = ⟨2, 0⟩) ∧
      (collect tagEnv tagQuery .empty []).1.toOption.map rowRids = some [] := by
  have hreach : tagStore.Reachable fun fields => Value.entriesExact fields = true :=
    Store.reachable_ofChanges (by decide +kernel)
  -- the person whose home has the list of tags
  have hload : tagStore.load ⟨2, 0⟩ = some ⟨⟨2, 0⟩, "Person", [("home", .list [.link ⟨1, 0⟩])]⟩ := by
    rfl
  refine ⟨hreach, by decide +kernel, ⟨rfl, rfl, rfl, rfl, rfl, rfl, rfl, rfl⟩,
    hreach.sound.linked_iff.mpr (by decide +kernel), ?_, ?_,
    by decide +kernel⟩
  · intro r
    exact @Operator.apply_ok .oneOf (by simp) _ _
  · refine ⟨_, ⟨(hreach.sound.load_eq_some_iff.mp hload).1, .refl _, ?_⟩, rfl⟩
    rintro condition ⟨⟩
    rfl

end RecordQuery
