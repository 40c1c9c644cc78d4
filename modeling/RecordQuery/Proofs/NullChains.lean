import RecordQuery.Proofs.ChainLookups

/-!
# `RecordQuery.Proofs.NullChains`: chains that break off

A chain breaks off where a property on the way is null or its link leads to no record, and it reads
as null then. Lookups in a chain of indexes start from the entries of the last index and follow the
links back, so that they give records from which the links lead on to the end, and no other. A
condition that asks for null is true on the records whose chain breaks off as well, and where it is
looked up they are missed.

`Comparison.Asks` are the comparisons in question: IS NULL, an equality with a constant that may be
null, and IN with a list that may have a null among its items. `Record.Leads` says that a path does
not break off. So the answers are of two kinds, and the result is about both: `mem_lookup_of_asks`
gives those from which the links lead on, and excludes the others.

Which answers a query misses depends on its plan. `Store.LookedUp` says that lookups are planned for
a record: in a class between its own and the one that is queried. A record that is not looked up is
scanned, and delivered. Lookups that cannot be read make room for a scan, and then nothing is
missed; hence the hypothesis on failing indexes in the last part of the result.

Chains that read as a list or a map are left out of completeness, `Value.IsWhole`: an index has
entries for their parts.

The theorems:

* `Store.mem_lookup_of_asks`: what a lookup gives for such a condition.
* `collect_of_asked_chain`: what a query delivers that asks for null, or for one of several values,
  at the end of a chain.
* `collect_homeless`: a query that misses a record whose chain breaks off.
-/

set_option autoImplicit false

namespace RecordQuery

/-! ## The ends of chains

A value that is no list and no map is stored as it is, null included. So for such ends of chains a
lookup finds what the comparison holds for. -/

/-- The value is neither a list nor a map, so an index keeps it as it is: it is the only one of its
`components`. -/
def Value.IsWhole (v : Value) : Prop := (∀ items, v ≠ .list items) ∧ ∀ entries, v ≠ .map entries

/-- A value that is neither a list nor a map is seen as it is by every operator, `seesParts`. -/
theorem Operator.seesParts_of_isWhole {op : Operator} {v : Value} (h : v.IsWhole) :
    op.seesParts v = true := by
  cases v with
  | list items => exact absurd rfl (h.1 items)
  | map entries => exact absurd rfl (h.2 entries)
  | _ => rfl

/-! ## Comparisons that ask for values

The comparisons are IS NULL, equality with a value, on either side of it, and IN with a list of
values. `Comparison.Asks` has them as one: the chain reads as one of `choices`. -/

/-- The comparison asks whether the chain is one of the values: null, a constant, or one of a list
of constants. The list of values is the last argument, `[.null]` for IS NULL. -/
inductive Comparison.Asks (vars : Fields) (chain : FieldChain) : Comparison → List Value → Prop
  /-- IS NULL asks for null; what stands on its right is no field. -/
  | isNull {right : Operand} (hright : ∀ other, right ≠ .field other) :
      Asks vars chain ⟨.field chain, .isNull, right⟩ [.null]
  /-- An equality asks for its constant. -/
  | equals {right : Operand} {k : Value} (hconstant : right.keyConstant? vars = some k) :
      Asks vars chain ⟨.field chain, .equals, right⟩ [k]
  /-- The constant of an equality may stand on its left. -/
  | flipped {left : Operand} {k : Value} (hconstant : left.keyConstant? vars = some k) :
      Asks vars chain ⟨left, .equals, .field chain⟩ [k]
  /-- IN asks for the constants of its list. -/
  | oneOf {right : Operand} {items : List Value}
      (hconstant : right.keyConstant? vars = some (.list items)) :
      Asks vars chain ⟨.field chain, .oneOf, right⟩ items

section

variable {vars : Fields} {chain : FieldChain} {c : Comparison} {choices : List Value}

/-- What an operand takes for its constant, `keyConstant?`, is its value where no LET binding hides
a variable. -/
theorem Operand.resolve_of_keyConstant? {operand : Operand} {k : Value}
    (h : operand.keyConstant? vars = some k) (load : Rid → Option Record) (r : Record) :
    operand.resolve ⟨load, vars, []⟩ r = k := by
  cases operand with
  | field chain => cases h
  | literal value => exact Option.some.inj h
  | named name => exact Scope.lookup_of_no_lets h

/-- Null is what `==` null, and nothing else is. -/
theorem Value.beq_null (v : Value) : (v == null) = v.isNull := by
  cases v <;> rfl

/-- The comparison has no field but `chain`. -/
theorem Comparison.Asks.eq_of_side (h : c.Asks vars chain choices) {field : FieldChain}
    (hside : c.left = .field field ∨ c.right = .field field) : field = chain := by
  -- the other side of the comparison is a constant or ignored, and so is no field
  cases h with
  | isNull hright =>
      rcases hside with hside | hside
      · cases hside
        rfl
      · exact absurd hside (hright field)
  | equals hconstant | oneOf hconstant =>
      rcases hside with hside | hside
      · cases hside
        rfl
      · dsimp only at hside
        rw [hside] at hconstant
        cases hconstant
  | flipped hconstant =>
      rcases hside with hside | hside
      · dsimp only at hside
        rw [hside] at hconstant
        cases hconstant
      · cases hside
        rfl

/-- The comparison is true where the chain reads as one of the values, `choices`. It has a value on
every record. -/
theorem Comparison.Asks.evaluate (h : c.Asks vars chain choices) (store : Store) (r : Record) :
    c.evaluate (store.scope vars) r =
      .ok (choices.any fun choice => chain.resolve store.load r == choice) := by
  cases h with
  | isNull =>
      show Except.ok (chain.resolve store.load r).isNull = _
      simp [Value.beq_null]
  | equals hconstant =>
      show Except.ok (chain.resolve store.load r == Operand.resolve _ _ r) = _
      simp [Store.scope, Operand.resolve_of_keyConstant? hconstant]
  | flipped hconstant =>
      show Except.ok (Operand.resolve _ _ r == chain.resolve store.load r) = _
      simp [Store.scope, Operand.resolve_of_keyConstant? hconstant, Operator.beq_comm]
  | oneOf hconstant =>
      show Operator.oneOf.apply (chain.resolve store.load r) (Operand.resolve _ _ r) = _
      simp [Store.scope, Operand.resolve_of_keyConstant? hconstant, Operator.apply,
        Operator.beq_comm]

/-- Moving the chain to the left by `fieldOnLeft?` leaves what the comparison asks for: an equality
is turned into an equality. -/
theorem Comparison.Asks.of_fieldOnLeft (h : c.Asks vars chain choices) {field : FieldChain}
    {op : Operator} {right : Operand}
    (hleft : c.fieldOnLeft? = some ⟨.field field, op, right⟩) :
    field = chain ∧ ((op = .isNull ∧ choices = [.null]) ∨
      (op = .equals ∧ ∃ k, right.keyConstant? vars = some k ∧ choices = [k]) ∨
      (op = .oneOf ∧ right.keyConstant? vars = some (.list choices))) := by
  cases h with
  | @isNull operand _ =>
      cases operand <;> cases hleft
      · exact ⟨rfl, .inl ⟨rfl, rfl⟩⟩
      · exact ⟨rfl, .inl ⟨rfl, rfl⟩⟩
  | @equals operand k hconstant | @flipped operand k hconstant =>
      cases operand <;> cases hleft
      · exact ⟨rfl, .inr (.inl ⟨rfl, k, hconstant, rfl⟩)⟩
      · exact ⟨rfl, .inr (.inl ⟨rfl, k, hconstant, rfl⟩)⟩
  | @oneOf operand items hconstant =>
      cases operand <;> cases hleft
      · exact ⟨rfl, .inr (.inr ⟨rfl, hconstant⟩)⟩
      · exact ⟨rfl, .inr (.inr ⟨rfl, hconstant⟩)⟩

/-- The comparison is searched for as one of the chain with the value or the list of them,
`Search.ofComparison`. IS NULL becomes an equality with null. -/
theorem Comparison.Asks.search_cases (h : c.Asks vars chain choices) {search : Search}
    (hsearch : c.search? vars = some search) :
    (∃ k, choices = [k] ∧ search = .ofComparison .equals chain k) ∨
      search = .ofComparison .oneOf chain (.list choices) := by
  unfold Comparison.search? at hsearch
  split at hsearch
  next field op right hleft =>
    obtain ⟨rfl, hasks⟩ := h.of_fieldOnLeft hleft
    split at hsearch
    · cases hsearch
    · obtain ⟨⟨sought, value⟩, hterm, rfl⟩ := Option.map_eq_some_iff.mp hsearch
      rcases hasks with ⟨rfl, rfl⟩ | ⟨rfl, k, hconstant, rfl⟩ | ⟨rfl, hconstant⟩
      · cases hterm
        exact .inl ⟨.null, rfl, rfl⟩
      · rw [hconstant] at hterm
        have hsought : soughtTerm? .equals (some k) = some (sought, value) := hterm
        obtain ⟨rfl, rfl⟩ := sought_eq (by simp) (by simp) hsought
        exact .inl ⟨_, rfl, rfl⟩
      · rw [hconstant] at hterm
        cases hterm
        exact .inr rfl
  · cases hsearch

/-- The search constrains the chain alone, so nothing is `bound`. -/
theorem Comparison.Asks.of_search? (h : c.Asks vars chain choices) {search : Search}
    (hsearch : c.search? vars = some search) : search.bound = [] ∧ search.lastField = chain := by
  rcases h.search_cases hsearch with ⟨k, -, rfl⟩ | rfl
  · exact ⟨rfl, rfl⟩
  · exact ⟨rfl, rfl⟩

/-- The numbers in the search are among those in the values, `choices`. So where these are
separated, the lookup is. -/
theorem Comparison.Asks.numbersIn (h : c.Asks vars chain choices) {search : Search}
    (hsearch : c.search? vars = some search) {p : Int64 → Prop} {q : Binary64 → Prop}
    (hchoices : ∀ choice ∈ choices, choice.NumbersIn p q) : search.lastValue.NumbersIn p q := by
  rcases h.search_cases hsearch with ⟨k, rfl, rfl⟩ | rfl
  · exact hchoices k List.mem_cons_self
  · exact Value.itemsIn_iff.mpr hchoices

end

/-! ## Lookups

A lookup through indexes finds the records from which the links lead to the end of the chain. A
chain that breaks off before has no entry in the last index, whatever it reads as. -/

namespace Store

section

variable {store : Store} {vars : Fields} {chain : FieldChain} {c : Comparison}
  {choices : List Value} {owner : String} {query : SelectQuery}

/-- The only search for a comparison with a chain is its own, `search?`: there is nothing to merge
it with. -/
theorem search?_of_branchSearches (hasks : c.Asks vars chain choices) (hlong : chain.isLong = true)
    {search : Search} (hsearch : search ∈ store.branchSearches vars owner (.compare c)) :
    c.reuse = .lookup ∧ c.search? vars = some search := by
  refine @branchSearches_forall store vars owner
    (fun search => c.reuse = .lookup ∧ c.search? vars = some search)
    (fun a b hmergeable ha hb => ?_) (.compare c) (fun d hd search hreuse hsearch => ?_) search
    hsearch
  · -- searches for chains are not merged
    obtain ⟨-, hfield⟩ := hasks.of_search? ha.2
    simp [Search.isMergeable, hfield, hlong] at hmergeable
  · rw [List.mem_singleton.mp hd] at hreuse hsearch
    exact ⟨hreuse, hsearch⟩

/-- The candidates for a comparison with a chain read chains of indexes, `chainProxies`. -/
theorem exists_proxy_of_branchFor (hasks : c.Asks vars chain choices) (hlong : chain.isLong = true)
    {onlyBranch : Bool} {candidate : Candidate}
    (hcandidate : candidate ∈ store.branchFor owner query onlyBranch
      (store.branchSearches vars owner (.compare c))) :
    ∃ search, c.reuse = .lookup ∧ c.search? vars = some search ∧
      ∃ proxy ∈ store.chainProxies owner chain,
        (Index.chained proxy).candidate? search query onlyBranch = some candidate := by
  obtain ⟨search, hsearch, index, hindex, hgiven⟩ := mem_branchFor.mp hcandidate
  obtain ⟨hreuse, hsearch⟩ := search?_of_branchSearches hasks hlong hsearch
  obtain ⟨-, hfield⟩ := hasks.of_search? hsearch
  rw [servingIndexes, hfield, if_pos hlong] at hindex
  obtain ⟨proxy, hproxy, rfl⟩ := List.mem_map.mp hindex
  exact ⟨search, hreuse, hsearch, proxy, hproxy, hgiven⟩

/-- Lookups for a comparison are those of one branch, `branchFor`, which has a candidate. -/
theorem branches_of_compare {selection : Selection}
    (hselect : store.selectLookups? vars owner (.compare c) query = some selection) :
    ∃ best others, selection.branches = [best :: others] ∧
      store.branchFor owner query true (store.branchSearches vars owner (.compare c)) =
        best :: others := by
  have hbranches := (selectLookups?_some hselect).1
  have hfold := hselect
  simp only [selectLookups?, searchBranches, List.foldlM_cons, List.length_singleton, beq_self_eq_true]
    at hfold
  simp only [searchBranches, List.map_singleton, List.length_singleton, beq_self_eq_true]
    at hbranches
  cases hbranch : store.branchFor owner query true
      (store.branchSearches vars owner (.compare c)) with
  | nil => simp [hbranch] at hfold
  | cons best others => exact ⟨best, others, hbranch ▸ hbranches, rfl⟩

variable {p : Int64 → Prop} {q : Binary64 → Prop} (hseparated : Value.Separated p q)
  (h : store.Sound)
  (hreflects : ∀ index ∈ store.indexes, index.Reflects (fun key => Value.ItemsIn p q key) store)
  (hnumbers : ∀ r, store.Live r → Value.EntriesIn p q r.fields)
  (hasks : c.Asks vars chain choices)
  (hchoices : ∀ choice ∈ choices, choice.NumbersIn p q) (hlong : chain.isLong = true)
  (hlinks : store.LinksAlong owner chain.beforeLast)
  (hnulls : ∀ proxy ∈ store.chainProxies owner chain, ∀ hop ∈ proxy.hops,
    hop.definition.ignoreNulls = false)

include hseparated h hreflects hnumbers hasks hchoices hlong hlinks hnulls

/-- A lookup for a comparison that asks for values at the end of a chain gives records only from
which the links lead on to the end, `Record.Leads`. It gives all of those that the comparison is
true on, where the chain reads as neither a list nor a map, `IsWhole`. -/
theorem mem_lookup_of_asks {onlyBranch : Bool} {candidate : Candidate}
    (hcandidate : candidate ∈ store.branchFor owner query onlyBranch
      (store.branchSearches vars owner (.compare c))) {r : Record} (hr : store.Live r)
    (hbelow : store.schema.Below r.className owner) {entries : List IndexEntry}
    (hread : candidate.index.lookup candidate.lookup candidate.ascending = .ok entries) :
    ((∃ entry ∈ entries, entry.rid = r.rid) → ∃ s, r.Leads store.load chain.beforeLast s) ∧
      (c.evaluate (store.scope vars) r = .ok true → (chain.resolve store.load r).IsWhole →
        (∃ s, r.Leads store.load chain.beforeLast s) → ∃ entry ∈ entries, entry.rid = r.rid) := by
  obtain ⟨search, hreuse, hsearch, proxy, hproxy, hgiven⟩ :=
    exists_proxy_of_branchFor hasks hlong hcandidate
  obtain ⟨hbound, rfl⟩ := hasks.of_search? hsearch
  have hserves := Index.serves_of_candidate? hgiven
  have hlookup := hserves.numbersIn (by simp [hbound]) (hasks.numbersIn hsearch hchoices)
  -- the lookup is that of a chain of indexes, which finds exactly what leads to a part it looks for
  have hfinds := h.mem_lookup_of_chain hseparated hreflects hnumbers hbound hlinks hproxy
    (hnulls proxy hproxy) hgiven hlookup hr hbelow hread
  refine ⟨fun hfound => ?_, fun htrue hwhole hleads => hfinds.mpr ?_⟩
  · obtain ⟨s, hleads, -⟩ := hfinds.mp hfound
    exact ⟨s, hleads⟩
  · exact h.exists_part_of_leads hreuse hsearch hlinks hproxy hserves.stores hr hbelow htrue hleads
      hwhole.1 (Operator.seesParts_of_isWhole hwhole)

/-- So do all that `selectLookups?` selects for the comparison: they have one branch, and any of its
candidates may be the one that is read. -/
theorem mem_of_selection {selection : Selection}
    (hselect : store.selectLookups? vars owner (.compare c) query = some selection)
    {r : Record} (hr : store.Live r) (hbelow : store.schema.Below r.className owner)
    {rids : List Rid} {sorted : Bool}
    (hread : readBranches selection.branches = .ok (rids, sorted)) :
    (r.rid ∈ rids → ∃ s, r.Leads store.load chain.beforeLast s) ∧
      (c.evaluate (store.scope vars) r = .ok true → (chain.resolve store.load r).IsWhole →
        (∃ s, r.Leads store.load chain.beforeLast s) → r.rid ∈ rids) := by
  obtain ⟨best, others, hbranches, hbranch⟩ := branches_of_compare hselect
  rw [hbranches] at hread
  obtain ⟨candidate, hcandidate, entries, found, rest, hlookup, hnone, rfl, -⟩ :=
    readBranches_cons hread
  cases hnone
  rw [← hbranch] at hcandidate
  rw [List.append_nil, List.mem_map]
  exact mem_lookup_of_asks hseparated h hreflects hnumbers hasks hchoices hlong hlinks hnulls
    hcandidate hr hbelow hlookup

omit hseparated hreflects hnumbers hchoices hnulls

/-- Lookups for the comparison can be read, `readBranches`, where no index is failing, `hworks`. -/
theorem exists_readBranches (hworks : ∀ index ∈ store.indexes, index.failing = false)
    {selection : Selection}
    (hselect : store.selectLookups? vars owner (.compare c) query = some selection) :
    ∃ rids sorted, readBranches selection.branches = .ok (rids, sorted) := by
  obtain ⟨best, others, hbranches, hbranch⟩ := branches_of_compare hselect
  obtain ⟨search, -, hsearch, proxy, hproxy, hgiven⟩ :=
    exists_proxy_of_branchFor hasks hlong (hbranch ▸ List.mem_cons_self)
  obtain ⟨lastClass, hops, hlast⟩ := hops_of_chainProxies hlinks hproxy
  have hparts : ∀ part ∈ best.index.parts, part.failing = false := by
    rw [(Index.serves_of_candidate? hgiven).index_eq]
    exact fun part hpart => hworks part (hops.mem_hops h hlast hpart)
  obtain ⟨entries, hlookup⟩ := Index.exists_lookup hparts best.lookup best.ascending
  refine ⟨entries.map (·.rid) ++ [], best.sorted && true, ?_⟩
  rw [hbranches]
  simp [readBranches, Branch.read, hlookup]

end

end Store

/-! ## Queries

Which records are delivered depends on whether the query looks up or scans. `Store.LookedUp` says
for a record which of the two happens in the part of the class tree that it comes from. -/

/-- Lookups for the condition are planned in a class between that of the record and the class
`target`. Without them the record is scanned. -/
def Store.LookedUp (store : Store) (vars : Fields) (target : String) (condition : Condition)
    (query : SelectQuery) (r : Record) : Prop :=
  ∃ owner, store.schema.Below owner target ∧ store.schema.Below r.className owner ∧
    store.selectLookups? vars owner condition query ≠ none

section

variable {env : Env} {query : SelectQuery} {context : Context} {signals : Signals}
  {className : String} {polymorphic : Bool}

/-- A record that `Answers` a query is of a class below the one that is queried, or of this class
where it is not `polymorphic`. -/
theorem Answers.below {store : Store} {vars : Fields} {r : Record}
    (h : Answers store vars query className polymorphic r) :
    store.schema.Below r.className className := by
  have hclass := h.ofClass
  split at hclass
  · exact hclass
  · exact hclass ▸ .refl _

/-- A filter that asks for values at the end of a chain of links is decided on every record,
`SelectQuery.Decided`. Range folding passes over long chains. -/
theorem Comparison.Asks.decided {vars : Fields} {c : Comparison} {chain : FieldChain}
    {choices : List Value} (hasks : c.Asks vars chain choices) (hlets : query.lets = [])
    (hfilter : query.filter = some (.compare c)) (hlong : chain.isLong = true) :
    query.Decided env vars := by
  constructor
  · rintro - condition hcondition field hfield hshort
    cases hfilter.symm.trans hcondition
    -- the comparison has no other field than the chain
    obtain ⟨d, hd, hside⟩ := Condition.mem_chains_iff.mp hfield
    rw [List.mem_singleton.mp hd] at hside
    rw [hasks.eq_of_side hside, hlong] at hshort
    cases hshort
  · intro condition hcondition r _
    cases hfilter.symm.trans hcondition
    rw [SelectQuery.scopeOn_of_no_lets hlets env.store vars]
    exact ⟨_, hasks.evaluate env.store r⟩

/-- A query for whole records of a declared class that asks for null, or for one of several values,
at the end of a chain of links succeeds and delivers answers, whatever the schedule, `Env.Collects`.
Among them are those that are not looked up, `LookedUp`, and those from which the links lead on to
the end and whose chain reads as neither a list nor a map. Where the class itself is looked up and
no index is failing, no answer is delivered whose chain breaks off. -/
theorem collect_of_asked_chain {p : Int64 → Prop} {q : Binary64 → Prop}
    (hseparated : Value.Separated p q)
    (hreach : env.store.Reachable fun fields => Value.EntriesIn p q fields)
    (hquery : query.Plain className polymorphic)
    (hdeclared : env.store.schema.declares className = true)
    (hunhindered : { env with sink := .collecting : Env }.Unhindered query context signals)
    {c : Comparison} (hfilter : query.filter = some (.compare c)) {chain : FieldChain}
    {choices : List Value} (hasks : c.Asks context.vars chain choices)
    (hchoices : ∀ choice ∈ choices, choice.NumbersIn p q) (hlong : chain.isLong = true)
    (hlinks : ∀ owner, env.store.schema.Below owner className →
      env.store.LinksAlong owner chain.beforeLast)
    (hnulls : ∀ owner, env.store.schema.Below owner className →
      ∀ proxy ∈ env.store.chainProxies owner chain, ∀ hop ∈ proxy.hops,
        hop.definition.ignoreNulls = false) :
    env.Collects query context signals fun rows =>
      (∀ rid ∈ rowRids rows,
        ∃ r, Answers env.store context.vars query className polymorphic r ∧ r.rid = rid) ∧
      (∀ r, Answers env.store context.vars query className polymorphic r →
        ¬env.store.LookedUp context.vars className (.compare c) query r ∨
          ((∃ s, r.Leads env.store.load chain.beforeLast s) ∧
            (chain.resolve env.store.load r).IsWhole) → r.rid ∈ rowRids rows) ∧
      (env.store.selectLookups? context.vars className (.compare c) query ≠ none →
        (∀ index ∈ env.store.indexes, index.failing = false) →
        ∀ r, Answers env.store context.vars query className polymorphic r →
          r.rid ∈ rowRids rows → ∃ s, r.Leads env.store.load chain.beforeLast s) := by
  have hsound := hreach.sound
  have hreflects := hreach.reflects_of_separated hseparated
  have hnumbers : ∀ r, env.store.Live r → Value.EntriesIn p q r.fields :=
    fun r hr => hreach.admits_of_live hr
  have hall := hsound.holdsAll_of_reflects hreflects
    fun r hr _ _ hkey => hkey.itemsIn (hnumbers r hr)
  have hplanned : query.plannedFilter env.options = some (.compare c) := by
    rw [SelectQuery.plannedFilter, hfilter]
    cases env.options.foldRanges <;> rfl
  have hdecided : query.Decided env context.vars := hasks.decided hquery.lets hfilter hlong
  have hqualifies {r : Record} := @qualifies_iff_answers env.store context.vars query className
    polymorphic hquery.lets r
  -- what the selections of lookups for a class below the target give
  have hselection {owner : String} (howner : env.store.schema.Below owner className)
      {selection : Selection}
      (hselect : env.store.selectLookups? context.vars owner (.compare c) query = some selection)
      {r : Record} (hr : env.store.Live r) (hbelow : env.store.schema.Below r.className owner)
      {rids : List Rid} {sorted : Bool}
      (hread : readBranches selection.branches = .ok (rids, sorted)) :=
    Store.mem_of_selection hseparated hsound hreflects hnumbers hasks hchoices hlong
      (hlinks owner howner) (hnulls owner howner) hselect hr hbelow hread
  refine .of_comes fun result run hcomes => ?_
  obtain ⟨hok, hsub, hfound⟩ := @found_of_comes { env with sink := .collecting } query context
    signals className polymorphic hsound hall hquery.target hquery.validate hdeclared hunhindered
    hdecided.collecting _ (fun planned hsame r hr
      (hfound : ¬env.store.LookedUp context.vars className (.compare c) query r ∨
        ((∃ s, r.Leads env.store.load chain.beforeLast s) ∧
          (chain.resolve env.store.load r).IsWhole)) => by
      cases hplanned.symm.trans hsame
      intro owner selection rids sorted howner hbelow hselect hread
      rcases hfound with hnone | ⟨hleads, hwhole⟩
      · exact absurd ⟨owner, howner, hbelow, by simp [hselect]⟩ hnone
      · exact (hselection howner hselect hr.live hbelow hread).2
          ((hqualifies.mp hr).holds _ hfilter) hwhole hleads) result run hcomes
  refine ⟨hok, fun rid hrid => ?_, fun r hr => hfound r (hqualifies.mpr hr), ?_⟩
  · obtain ⟨r, hr, hrid⟩ := hsub rid hrid
    exact ⟨r, hqualifies.mp hr, hrid⟩
  · intro hlooked hworks r hr hrid
    obtain ⟨selection, hselect⟩ := Option.ne_none_iff_exists'.mp hlooked
    obtain ⟨rids, sorted, hread⟩ := Store.exists_readBranches hsound hasks hlong
      (hlinks className (.refl _)) hworks hselect
    have hrids := @looked_of_comes { env with sink := .collecting } query context signals className
      polymorphic hsound hquery.target hquery.validate hdeclared hunhindered hdecided.collecting _
      hplanned selection hselect rids sorted hread result run hcomes
    exact (hselection (.refl _) hselect hr.live hr.below hread).1 ((hrids r.rid).mp hrid).1

end

/-! ## People without a home -/

/-- A city without a name, and people of whom one has no `home`, one lives in that city, and one in
a city that has been deleted. -/
def homelessStore : Store := .ofChanges [
  .createClass "City" none 1 false,
  .createClass "Person" none 1 false,
  .linkProperty "Person" "home" "City",
  .createIndex "City.name" .notUnique ⟨"City", ["name"], false, .keys⟩,
  .createIndex "Person.home" .notUnique ⟨"Person", ["home"], false, .keys⟩,
  .insert "City" [],
  .insert "City" [],
  .insert "Person" [],
  .insert "Person" [("home", .link ⟨1, 0⟩)],
  .insert "Person" [("home", .link ⟨1, 1⟩)],
  .delete ⟨1, 1⟩]

/-- An executor over `homelessStore`. -/
def homelessEnv : Env := ⟨homelessStore, .default, fun _ => 0, .collecting⟩

/-- The chain `home.name`. -/
def homeName : FieldChain := ⟨"home", ["name"]⟩

/-- The comparison `home.name IS NULL`. -/
def namelessHome : Comparison := ⟨.field homeName, .isNull, .literal .null⟩

/-- The people on whom `home.name IS NULL` is true. -/
def homelessQuery : SelectQuery :=
  { SelectQuery.ofTarget (.ofClass "Person" true) with filter := some (.compare namelessHome) }

/-- The person of `homelessStore` without a home. -/
def homelessPerson : Record := ⟨⟨2, 0⟩, "Person", []⟩

/-- The person of `homelessStore` in the city without a name. -/
def housedPerson : Record := ⟨⟨2, 1⟩, "Person", [("home", .link ⟨1, 0⟩)]⟩

/-- Whoever the chain `homeName` reads as null from is an answer. -/
theorem answers_of_namelessHome (hsound : homelessStore.Sound) {r : Record}
    (hload : homelessStore.load r.rid = some r) (hclass : r.className = "Person")
    (hnull : homeName.resolve homelessStore.load r = .null) :
    Answers homelessStore [] homelessQuery "Person" true r := by
  refine ⟨(hsound.load_eq_some_iff.mp hload).1, hclass ▸ .refl _, ?_⟩
  rintro condition ⟨⟩
  show Except.ok (homeName.resolve homelessStore.load r).isNull = _
  rw [hnull]
  rfl

/-- The chain `homeName` reads as null from the person without a home, and from the one in the
deleted city, so that both are answers. Neither is delivered, and the one in the city without a name
is. -/
theorem collect_homeless :
    homelessStore.Reachable (fun fields => Value.entriesExact fields = true) ∧
      (∀ index ∈ homelessStore.indexes, index.definition.ignoreNulls = false) ∧
      homelessQuery.Plain "Person" true ∧
      (Condition.compare namelessHome).Linked homelessStore "Person" ∧
      (∀ rid ∈ [⟨2, 0⟩, ⟨2, 2⟩],
        ∃ r, Answers homelessStore [] homelessQuery "Person" true r ∧ r.rid = rid ∧
          homeName.resolve homelessStore.load r = .null) ∧
      (collect homelessEnv homelessQuery .empty []).1.toOption.map rowRids = some [⟨2, 1⟩] := by
  have hreach : homelessStore.Reachable fun fields => Value.entriesExact fields = true :=
    Store.reachable_ofChanges (by decide +kernel)
  refine ⟨hreach, by decide +kernel, ⟨rfl, rfl, rfl, rfl, rfl, rfl, rfl, rfl⟩,
    hreach.sound.linked_iff.mpr (by decide +kernel), ?_, by decide +kernel⟩
  simp only [List.forall_mem_cons, List.not_mem_nil, false_imp_iff, implies_true, and_true]
  exact ⟨⟨homelessPerson, answers_of_namelessHome hreach.sound rfl rfl rfl, rfl, rfl⟩,
    ⟨⟨⟨2, 2⟩, "Person", [("home", .link ⟨1, 1⟩)]⟩,
      answers_of_namelessHome hreach.sound rfl rfl rfl, rfl, rfl⟩⟩

/-- The `housedPerson` in the city without a name is delivered, and the `homelessPerson`, from whom
the links lead nowhere, is not. -/
theorem mem_rows_homeless :
    homelessEnv.store.Reachable (Value.EntriesIn (fun _ => True) fun _ => False) ∧
      (∃ rows, (collect homelessEnv homelessQuery .empty []).1 = .ok rows ∧
        housedPerson.rid ∈ rowRids rows ∧ homelessPerson.rid ∉ rowRids rows) ∧
      ∀ result run, Executes { homelessEnv with sink := .collecting } homelessQuery .empty [] result run →
        housedPerson.rid ∈ rowRids run.rows ∧ homelessPerson.rid ∉ rowRids run.rows := by
  have hreach : homelessEnv.store.Reachable (Value.EntriesIn (fun _ => True) fun _ => False) := by
    refine Store.reachable_ofChanges ?_
    simp [Store.Change.Admitted, Value.EntriesIn, Value.NumbersIn]
  have hsound := hreach.sound
  have hlinked : (Condition.compare namelessHome).Linked homelessEnv.store "Person" :=
    hsound.linked_iff.mpr (by decide +kernel)
  have hnulls : ∀ index ∈ homelessEnv.store.indexes, index.definition.ignoreNulls = false := by
    decide +kernel
  have hlinks := fun owner howner => hlinked homeName (by decide) owner howner
  -- no index leaves nulls out, and so none of a chain does
  have hproxies : ∀ owner, homelessEnv.store.schema.Below owner "Person" →
      ∀ proxy ∈ homelessEnv.store.chainProxies owner homeName, ∀ hop ∈ proxy.hops,
        hop.definition.ignoreNulls = false := by
    intro owner howner proxy hproxy hop hhop
    obtain ⟨lastClass, hops, hlast⟩ := Store.hops_of_chainProxies (hlinks owner howner) hproxy
    exact hnulls hop (hops.mem_hops hsound hlast hhop)
  obtain ⟨⟨rows, hok, hgood⟩, hexecutes⟩ := @collect_of_asked_chain homelessEnv homelessQuery .empty
    [] "Person" true _ _ Value.separated_exact hreach ⟨rfl, rfl, rfl, rfl, rfl, rfl, rfl, rfl⟩
    (by decide +kernel)
    ⟨⟨rfl, rfl, rfl, rfl, rfl⟩, rfl, rfl, ⟨rfl, rfl, rfl, rfl⟩, by decide +kernel⟩ namelessHome rfl
    homeName [.null] (.isNull (by simp)) (by simp [Value.NumbersIn]) rfl hlinks hproxies
  -- from one person the links lead to the city, and from the other one nowhere
  have hhoused : (∃ s, housedPerson.Leads homelessEnv.store.load homeName.beforeLast s) ∧
      (homeName.resolve homelessEnv.store.load housedPerson).IsWhole :=
    ⟨⟨⟨⟨1, 0⟩, "City", []⟩, ⟨1, 0⟩, List.mem_singleton.mpr rfl, _, rfl, rfl⟩,
      fun items heq => (by cases heq), fun entries heq => (by cases heq)⟩
  have hlooked : homelessEnv.store.selectLookups? [] "Person" (.compare namelessHome)
      homelessQuery ≠ none := by decide +kernel
  have hworks : ∀ index ∈ homelessEnv.store.indexes, index.failing = false := by decide +kernel
  have hhomeless : ¬∃ s, homelessPerson.Leads homelessEnv.store.load homeName.beforeLast s := by
    rintro ⟨s, rid, hlink, -⟩
    cases hlink
  obtain ⟨-, hfound, hmissed⟩ := hgood
  refine ⟨hreach, ⟨rows, hok, hfound housedPerson (answers_of_namelessHome hsound rfl rfl rfl)
    (.inr hhoused), fun hrid => hhomeless (hmissed hlooked hworks homelessPerson
      (answers_of_namelessHome hsound rfl rfl rfl) hrid)⟩, fun result run hrun => ?_⟩
  obtain ⟨-, -, hfound, hmissed⟩ := hexecutes rfl result run hrun
  exact ⟨hfound housedPerson (answers_of_namelessHome hsound rfl rfl rfl) (.inr hhoused),
    fun hrid => hhomeless (hmissed hlooked hworks homelessPerson
      (answers_of_namelessHome hsound rfl rfl rfl) hrid)⟩

end RecordQuery
