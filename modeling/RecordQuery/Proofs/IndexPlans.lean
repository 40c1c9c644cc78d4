import RecordQuery.Proofs.Answers

/-!
# `RecordQuery.Proofs.IndexPlans`: index plans deliver what a scan would deliver

Where stored values are single values and lists of them, and conditions compare fields of the record
at hand with such constants, every lookup that a plan could make has the records that its condition
is true on. What a query delivers then does not depend on the indexes: not on which there are, and
not on which of them fail.

The way is from comparisons to queries. A comparison that is `Comparison.Direct` has a `Search`, and
a record that it is true on `Fits` that search, so it has an entry where the index is searched.
`looksUp_of_direct` lifts this to whole conditions, for every selection of lookups that planning
could make of them, whichever indexes it chooses. `SelectQuery.direct_planned` says that range
folding keeps conditions direct, as the plan is made for the folded one. What is delivered then is
`collects_answers`.

`Comparison.Simple` asks in addition that fields are named without dots. Range folding rebuilds its
operands with `FieldChain.parse`, and a dot in a name becomes a hop there. What is left out: chains
that follow links (`LinkPaths`), LET bindings (`LetBindings`), and indexes that ignore nulls
(`SparseIndexes`), which may have dropped a record that a prefix search is to find.

The theorems:

* `Comparison.Direct.fits`: a record that a comparison is true on fits its search.
* `Store.Sound.looksUp_of_direct`: every selection of lookups has the records that the condition is
  true on, if it agrees with its constants on them.
* `collect_of_simple`: the identities delivered are those of the answers.
-/

set_option autoImplicit false

namespace RecordQuery

/-! ## Stored values

What is inserted is limited to single values and lists of them, for which the keys of a record and
the operators of a comparison see the same parts. -/

/-- The values are single values and lists of them: no map, no list in a list, and no floating-point
number. This is what `Store.Reachable` is asked to admit. -/
def Fields.AreFlat (fields : Fields) : Prop :=
  ∀ p ∈ fields, p.2.isScalar = true ∨ p.2.isScalarList = true

instance : DecidablePred Fields.AreFlat := fun fields =>
  inferInstanceAs (Decidable (∀ p ∈ fields, p.2.isScalar = true ∨ p.2.isScalarList = true))

/-- A list of single values `isExact`, as floating-point numbers are not `isScalar`. -/
theorem Value.isExact_of_isScalarList {v : Value} (h : v.isScalarList = true) :
    v.isExact = true := by
  cases v with
  | list items =>
      refine Value.areExact_iff.mpr fun item hitem => isExact_of_isScalar ?_
      exact List.all_eq_true.mp h item hitem
  | _ => cases h

/-- Fields that are `AreFlat` are exact. -/
theorem Fields.AreFlat.exact {fields : Fields} (h : fields.AreFlat) :
    Value.entriesExact fields = true :=
  Value.entriesExact_iff.mpr fun p hp =>
    (h p hp).elim Value.isExact_of_isScalar Value.isExact_of_isScalarList

/-- `get` answers no map for a record with flat fields, so CONTAINSKEY and CONTAINSVALUE are false
on it. -/
theorem Record.get_ne_map {record : Record} (h : Fields.AreFlat record.fields) (name : String)
    (entries : Fields) : record.get name ≠ .map entries := by
  unfold Record.get
  split
  · simp
  · split
    · simp
    · refine Fields.get_of_forall (p := fun v => v ≠ .map entries) (fun p hp heq => ?_) (by simp) name
      have hflat := h p hp
      rw [heq] at hflat
      rcases hflat with hflat | hflat <;> cases hflat

/-! ## Comparisons with constants

`Comparison.Direct` is about the constant and the chain, `Comparison.Simple` also about the name of
the field, which may have no dot where ranges are folded. Both are kept by folding and by moving the
field to the left. -/

/-- The comparison is one of fields of the record at hand with constants that are single values, or
lists of them for IN, CONTAINS and BETWEEN: `Operator.Seeks` says which constants an operator may
have. A side may also be something else, such as a variable of a LET; then there is no search. -/
structure Comparison.Direct (vars : Fields) (c : Comparison) : Prop where
  /-- Fields are those of the record at hand. -/
  short : ∀ chain, c.left = .field chain ∨ c.right = .field chain → chain.hops = []
  /-- Constants are single values, or lists of them. -/
  constants : ∀ operand, operand = c.left ∨ operand = c.right →
    ∀ k, operand.keyConstant? vars = some k → c.operator.Seeks k

/-- The comparison is `Direct`, of fields that are named without dots. -/
structure Comparison.Simple (vars : Fields) (c : Comparison) : Prop extends c.Direct vars where
  /-- Fields are named without dots. -/
  dotFree : ∀ chain, c.left = .field chain ∨ c.right = .field chain →
    '.' ∉ chain.first.toList

/-- All comparisons of the condition are `Comparison.Direct`, under negations too. -/
def Condition.Direct (vars : Fields) (condition : Condition) : Prop :=
  ∀ c ∈ condition.comparisons, c.Direct vars

/-- All comparisons of the condition are `Comparison.Simple`. -/
def Condition.Simple (vars : Fields) (condition : Condition) : Prop :=
  ∀ c ∈ condition.comparisons, c.Simple vars

section

variable {vars : Fields}

/-- The field of a comparison with a literal is the side that is no literal. -/
theorem Comparison.eq_of_literal_side {field chain : FieldChain} {k : Value}
    (h : Operand.field field = .field chain ∨ Operand.literal k = .field chain) : chain = field := by
  rcases h with h | h <;> cases h
  rfl

/-- A field of the record at hand compared with a literal that the operator `Seeks` makes a direct
comparison. -/
theorem Comparison.direct_literal {chain : FieldChain} {op : Operator} {k : Value}
    (hshort : chain.hops = []) (hk : op.Seeks k) :
    Comparison.Direct vars ⟨.field chain, op, .literal k⟩ where
  short other h := by rw [eq_of_literal_side h, hshort]
  constants := by
    rintro operand (rfl | rfl) constant hconstant <;> cases hconstant
    exact hk

/-- A field named without dots (`hdots`) compared with a literal makes a `Simple` comparison. -/
theorem Comparison.simple_literal {name : String} {op : Operator} {k : Value}
    (hdots : '.' ∉ name.toList) (hk : op.Seeks k) :
    Comparison.Simple vars ⟨.field ⟨name, []⟩, op, .literal k⟩ := by
  refine ⟨direct_literal rfl hk, fun chain h => ?_⟩
  rw [eq_of_literal_side h]
  exact hdots

/-- The operands of a direct comparison stay what they are when the field is moved to the left by
`fieldOnLeft?`. -/
theorem Comparison.Direct.of_fieldOnLeft {c : Comparison} (h : c.Direct vars) {chain : FieldChain}
    {op : Operator} {right : Operand} (hleft : c.fieldOnLeft? = some ⟨.field chain, op, right⟩) :
    ∀ k, right.keyConstant? vars = some k → op.Seeks k := by
  intro k hk
  obtain ⟨-, heq | ⟨hinverted, -, hright⟩⟩ := fieldOnLeft?_cases hleft
  · subst heq
    exact h.constants right (.inr rfl) k hk
  · dsimp only at hinverted hright
    refine (h.constants right (.inl hright) k hk).imp_right fun hlist => ⟨hlist.1, ?_⟩
    -- IN and CONTAINS are the inverse of each other, and BETWEEN has no inverse
    rcases hlist.2 with hop | hop | ⟨lower, upper, hop⟩ <;> rw [hop] at hinverted <;>
      cases hinverted <;> simp

/-- A record that a direct comparison is true on fits its search, if it agrees with its constant,
`AgreesOn`. The cases are the operators, and `hreuse` leaves out those that no index serves. -/
theorem Comparison.Direct.fits {c : Comparison} (h : c.Direct vars) {search : Search}
    (hreuse : c.reuse = .lookup) (hsearch : c.search? vars = some search) {scope : Scope}
    {r : Record} (hflat : Fields.AreFlat r.fields) (hagrees : c.AgreesOn vars scope r)
    (htrue : c.evaluate scope r = .ok true) :
    search.lastField.isLong = false ∧ ∀ part, search.Fits part r := by
  obtain ⟨chain, op, right, k, hleft, hconstant, hadmits, hlookup, hterm, heq⟩ :=
    sought_of_search? hreuse hsearch hagrees htrue
  have hseeks := h.of_fieldOnLeft hleft
  have hshort : chain.hops = [] := h.short chain (side_of_fieldOnLeft? hleft)
  -- IS NULL has no constant and seeks null
  have hk : op.Seeks k := by
    rcases hconstant with hconstant | ⟨-, rfl⟩
    · exact hseeks k hconstant
    · exact .inl rfl
  have hfield : search.lastField = chain := by rw [heq]; rfl
  have hbound : search.bound = [] := by rw [heq]; rfl
  have hresolve : chain.resolve scope.load r = r.get search.lastField.last := by
    rw [hfield]
    simp [FieldChain.resolve, FieldChain.last, hshort]
  refine ⟨by simp [hfield, FieldChain.isLong, hshort], fun part => ?_⟩
  have hnomap : ∀ entries, r.get search.lastField.last ≠ .map entries := Record.get_ne_map hflat _
  refine ⟨⟨by simp [hbound], ?_⟩, by simp [hbound], isExact_of_soughtTerm? ?_ hterm⟩
  · rw [hresolve] at hadmits
    refine exists_component hadmits hterm hk hlookup ?_
    rintro ⟨entries, hmap⟩
    exact absurd hmap (hnomap entries)
  · exact hk.elim Value.isExact_of_isScalar fun hlist => Value.isExact_of_isScalarList hlist.1

namespace Condition

/-- A `Simple` condition is `DotFree`. -/
theorem Simple.dotFree {condition : Condition} (h : condition.Simple vars) :
    condition.DotFree := by
  intro chain hchain _
  obtain ⟨c, hc, hfield⟩ := mem_chains_iff.mp hchain
  rw [FieldChain.parse_of_no_dot ((h c hc).dotFree chain hfield), ← (h c hc).short chain hfield]

/-- A `Simple` condition is a `Direct` one. -/
theorem Simple.direct {condition : Condition} (h : condition.Simple vars) :
    condition.Direct vars :=
  fun c hc => (h c hc).toDirect

/-- The BETWEEN that `ofBounds` makes of two bounds compares the field of one of them with the
values of both. Which of the two is the lower one does not matter here. -/
theorem mem_ofBounds {first second : RangeBound} {e : Comparison}
    (he : e ∈ (ofBounds first second).comparisons) :
    ∃ lower upper : RangeBound, ∃ l u,
      (lower = first ∧ upper = second ∨ lower = second ∧ upper = first) ∧
      e = ⟨.field (.parse lower.field), .between l u, .literal (.list [lower.value, upper.value])⟩ := by
  cases hlow : first.operator.isLowerBound with
  | true =>
      simp only [ofBounds, hlow, if_true, comparisons, List.mem_singleton] at he
      exact ⟨first, second, _, _, .inl ⟨rfl, rfl⟩, he⟩
  | false =>
      simp only [ofBounds, hlow, Bool.false_eq_true, if_false, comparisons,
        List.mem_singleton] at he
      exact ⟨second, first, _, _, .inr ⟨rfl, rfl⟩, he⟩

/-- A direct condition stays so when its ranges are folded, if its fields are named without dots,
`DotFree`. -/
theorem Direct.foldRanges {condition : Condition} (h : condition.Direct vars)
    (hdots : condition.DotFree) : condition.foldRanges.1.Direct vars := by
  -- a bound has a single value, and its field is a path of its own
  have hbound {c : Comparison} {bound : RangeBound}
      (hc : c.Direct vars ∧ ∀ chain, c.left = .field chain ∨ c.right = .field chain →
        FieldChain.parse chain.first = chain)
      (hsome : (compare c).rangeBound? = some bound) :
      bound.value.isScalar = true ∧ ∃ chain : FieldChain, chain.hops = [] ∧
        FieldChain.parse chain.first = chain ∧ bound.field = chain.first := by
    obtain ⟨chain, hleft, -, hfield, hop⟩ := rangeBound?_some hsome
    have hside := Comparison.side_of_fieldOnLeft? hleft
    refine ⟨(hc.1.of_fieldOnLeft hleft _ rfl).resolve_right fun hlist => ?_, chain,
      hc.1.short chain hside, hc.2 chain hside, hfield⟩
    rcases hlist.2 with hlist | hlist | ⟨lower, upper, hlist⟩ <;> rw [hlist] at hop <;> cases hop
  refine fun c hc => ((forall_comparisons_folded (P := fun c => c.Direct vars ∧
    ∀ chain, c.left = .field chain ∨ c.right = .field chain →
      FieldChain.parse chain.first = chain) (fun c hc => ⟨h c hc, fun chain hside => ?_⟩) ?_).1 c hc).1
  · refine hdots chain (mem_chains_iff.mpr ⟨c, hc, hside⟩) ?_
    simp [FieldChain.isLong, (h c hc).short chain hside]
  · intro c d first second hc hd hfirst hsecond _ _ e he
    obtain ⟨lower, upper, l, u, hends, rfl⟩ := mem_ofBounds he
    obtain ⟨hlower, hupper, chain, hshort, hparse, hfield⟩ : lower.value.isScalar = true ∧
        upper.value.isScalar = true ∧ ∃ chain : FieldChain, chain.hops = [] ∧
          FieldChain.parse chain.first = chain ∧ lower.field = chain.first := by
      obtain ⟨hfirstValue, hfirstField⟩ := hbound hc hfirst
      obtain ⟨hsecondValue, hsecondField⟩ := hbound hd hsecond
      rcases hends with ⟨rfl, rfl⟩ | ⟨rfl, rfl⟩
      · exact ⟨hfirstValue, hsecondValue, hfirstField⟩
      · exact ⟨hsecondValue, hfirstValue, hsecondField⟩
    rw [hfield, hparse]
    refine ⟨Comparison.direct_literal hshort (.inr ⟨?_, .inr (.inr ⟨l, u, rfl⟩)⟩), fun other hside => ?_⟩
    · simp [Value.isScalarList, hlower, hupper]
    · rw [Comparison.eq_of_literal_side hside, hparse]

/-- `foldRanges` keeps `AgreesOn`: a BETWEEN has literals as its bounds. -/
theorem AgreesOn.foldRanges {condition : Condition} {scope : Scope} {r : Record}
    (h : condition.AgreesOn vars scope r) : condition.foldRanges.1.AgreesOn vars scope r := by
  refine (forall_comparisons_folded h fun _ _ _ _ _ _ _ _ _ _ e he => ?_).1
  obtain ⟨lower, upper, l, u, -, rfl⟩ := mem_ofBounds he
  exact Comparison.agreesOn_of_lookup fun name hside => by rcases hside with h | h <;> cases h

end Condition

/-- The condition that is planned for (`plannedFilter`) is `Direct` where the filter is. -/
theorem SelectQuery.direct_planned {query : SelectQuery} {options : Options}
    (h : ∀ condition, query.filter = some condition → condition.Direct vars)
    (hdots : options.foldRanges = true →
      ∀ condition, query.filter = some condition → condition.DotFree)
    {planned : Condition} (hplanned : query.plannedFilter options = some planned) :
    planned.Direct vars := by
  unfold SelectQuery.plannedFilter at hplanned
  obtain ⟨condition, hcondition, rfl⟩ := Option.map_eq_some_iff.mp hplanned
  split
  next hfold => exact (h condition hcondition).foldRanges (hdots hfold condition hcondition)
  next => exact h condition hcondition

/-- The condition that is planned for (`hplanned`) agrees with its constants where the filter
does. -/
theorem SelectQuery.agreesOn_planned {query : SelectQuery} {options : Options} {scope : Scope}
    {r : Record} (h : ∀ condition, query.filter = some condition → condition.AgreesOn vars scope r)
    {planned : Condition} (hplanned : query.plannedFilter options = some planned) :
    planned.AgreesOn vars scope r := by
  unfold SelectQuery.plannedFilter at hplanned
  obtain ⟨condition, hcondition, rfl⟩ := Option.map_eq_some_iff.mp hplanned
  split
  · exact (h condition hcondition).foldRanges
  · exact h condition hcondition

/-! ## Queries

The lookups of a direct condition give every record that it is true on. The rest is the same for
every plan, and is taken from `collects_answers`. -/

/-- Every selection of lookups for a direct condition has the records that it is true on, if it
agrees with its constants on them. `LooksUp` is about every selection, and not the one that planning
ranks first, because a failing index makes the executor go on to another. `hmirrors` says that the
indexes hold the entries of all live records, and `hnulls` that none was dropped. -/
theorem Store.Sound.looksUp_of_direct {store : Store} (h : store.Sound)
    (hmirrors : ∀ index ∈ store.indexes, index.Mirrors store)
    (hnulls : ∀ index ∈ store.indexes, index.definition.ignoreNulls = false) {r : Record}
    (hr : store.Live r) (hflat : Fields.AreFlat r.fields) {condition : Condition}
    (hdirect : condition.Direct vars) {scope : Scope} (hagrees : condition.AgreesOn vars scope r)
    (htrue : condition.evaluate scope r = .ok true) (target : String) (query : SelectQuery) :
    store.LooksUp vars target condition query r := by
  intro className selection rids sorted _ hbelow hselect hread
  -- searches are merged where one binds what the other leaves open, which loses no record
  have hmerge : ∀ a b : Search, a.isMergeable b = true →
      (a.lastField.isLong = false ∧ ∀ part, a.Fits part r) →
      (b.lastField.isLong = false ∧ ∀ part, b.Fits part r) →
      (a.merge b).lastField.isLong = false ∧ ∀ part, (a.merge b).Fits part r :=
    fun a b hmergeable ha hb =>
      ⟨Search.isLong_merge hmergeable ha.1 hb.1, fun part => (ha.2 part).merge hmergeable (hb.2 part)⟩
  obtain ⟨searches, hsearches, hfits⟩ := Store.searchBranches_holds hmerge
    (fun c hc search hreuse hsearch hholds =>
      (hdirect c hc).fits hreuse hsearch hflat (hagrees c hc) hholds) htrue
  refine Store.mem_of_selectLookups? hselect ⟨searches, hsearches, ?_⟩ hread
  intro search hsearch index hindex onlyBranch candidate hcandidate
  obtain ⟨hshort, hfit⟩ := hfits search hsearch
  exact h.finds_of_fits hmirrors hnulls hr hflat.exact hbelow hshort hfit hindex hcandidate

end

section

variable {env : Env} {query : SelectQuery} {context : Context} {signals : Signals}
  {className : String} {polymorphic : Bool}

/-- A query for whole records of a declared class delivers the live records of the class on which
its filter is true, whichever indexes there are and fail, and whatever the schedule, `Env.Collects`.
Stored values are single values and lists of them, `hreach`, no index ignores nulls, `hnulls`, and
the filter is simple, `hsimple`, and fails on no record, `hevaluates`. Which indexes fail is a part
of `env.store`, and nothing is assumed of it. -/
theorem collect_of_simple (hreach : env.store.Reachable Fields.AreFlat)
    (hnulls : ∀ index ∈ env.store.indexes, index.definition.ignoreNulls = false)
    (hquery : query.Plain className polymorphic)
    (hdeclared : env.store.schema.declares className = true)
    (hunhindered : { env with sink := .collecting : Env }.Unhindered query context signals)
    (hsimple : ∀ condition, query.filter = some condition → condition.Simple context.vars)
    (hevaluates : ∀ condition, query.filter = some condition → ∀ r, env.store.Live r →
      ∃ b, condition.evaluate (env.store.scope context.vars) r = .ok b) :
    env.Collects query context signals fun rows => ∀ rid, rid ∈ rowRids rows ↔
      ∃ r, Answers env.store context.vars query className polymorphic r ∧ r.rid = rid := by
  have hmirrors := hreach.mirrors fun fields hfields => hfields.exact
  have hscope := SelectQuery.scopeOn_of_no_lets hquery.lets env.store context.vars
  have hdecided : query.Decided env context.vars :=
    ⟨fun _ condition hcondition => (hsimple condition hcondition).dotFree,
      fun condition hcondition r => by rw [hscope]; exact hevaluates condition hcondition r⟩
  refine collects_answers hreach.sound hmirrors
    (fun r hr => (hreach.admits_of_live hr).exact) hquery hdeclared hunhindered hdecided ?_
  intro planned hplanned r hanswers
  have hplannedTrue := ((qualifies_iff_answers hquery.lets).mpr hanswers).planned hdecided hplanned
  rw [hscope] at hplannedTrue
  -- folding keeps the condition direct, so that every lookup has its records
  have hdirect := SelectQuery.direct_planned
    (fun condition hcondition => (hsimple condition hcondition).direct) hdecided.dotFree hplanned
  exact hreach.sound.looksUp_of_direct hmirrors hnulls hanswers.live
    (hreach.admits_of_live hanswers.live) hdirect
    (fun c _ => Comparison.agreesOn_of_lookup fun _ _ _ => Scope.lookup_of_no_lets) hplannedTrue
    className query

end

/-! ## A failing index -/

/-- A class with two indexes, one of which is `failing`, and a subclass with an index of its own. -/
def failingIndexStore : Store := .ofChanges [
  .createClass "A" none 1 false,
  .createClass "B" (some "A") 1 false,
  .createIndex "A.x" .notUnique ⟨"A", ["x"], false, .keys⟩,
  .createIndex "A.xy" .notUnique ⟨"A", ["x", "y"], false, .keys⟩,
  .createIndex "B.y" .notUnique ⟨"B", ["y"], false, .keys⟩,
  .insert "A" [("x", .int 1), ("y", .int 2)],
  .insert "B" [("x", .int 3), ("y", .list [.int 1, .int 2])],
  .insert "B" [("y", .int 2)],
  .failIndex "A.x" true]

/-- The records with `x > 0 AND x < 3 OR x = 3 AND y CONTAINS 2`. -/
def failingIndexQuery : SelectQuery :=
  { SelectQuery.ofTarget (.ofClass "A" true) with
    filter := some (.or
      (.and (.compare ⟨.field ⟨"x", []⟩, .greater, .literal (.int 0)⟩)
        (.compare ⟨.field ⟨"x", []⟩, .less, .literal (.int 3)⟩))
      (.and (.compare ⟨.field ⟨"x", []⟩, .equals, .literal (.int 3)⟩)
        (.compare ⟨.field ⟨"y", []⟩, .contains, .literal (.int 2)⟩))) }

/-- The environment over `failingIndexStore`, with a sink that takes every row. -/
def failingIndexEnv : Env := ⟨failingIndexStore, .default, fun _ => 0, .collecting⟩

/-- The lookups of a union, alternative by alternative and best candidate first: the index of each
candidate, and the records that it finds, or `none` where its index fails. -/
def PlanSource.lookups : PlanSource → List (List (String × Option (List Rid)))
  | .rows (.union branches) => branches.map fun branch => branch.map fun candidate =>
      (candidate.index.name,
        (candidate.index.lookup candidate.lookup candidate.ascending).toOption.map fun entries =>
          entries.map (·.rid))
  | _ => []

/-- The plan is a union of lookups, and the best candidate for `x > 0 AND x < 3` is the index that
fails. The next candidate stands in for it, so that the query delivers its two answers all the same,
and so does every execution of it. -/
theorem collect_failingIndex :
    failingIndexEnv.store.Reachable Fields.AreFlat ∧
      (failingIndexEnv.plan failingIndexQuery .empty).toOption.map (fun plan => plan.source.lookups) =
        some [[("A.x", none), ("A.xy", some [⟨1, 0⟩])],
          [("A.xy", some [⟨2, 0⟩]), ("A.x", none), ("A.xy", some [⟨2, 0⟩, ⟨2, 0⟩])]] ∧
      (∃ rows, (collect failingIndexEnv failingIndexQuery .empty []).1 = .ok rows ∧
        (∀ rid, rid ∈ rowRids rows ↔
          ∃ r, Answers failingIndexEnv.store [] failingIndexQuery "A" true r ∧ r.rid = rid) ∧
        rowRids rows = [⟨1, 0⟩, ⟨2, 0⟩]) ∧
      ∀ result run, Executes { failingIndexEnv with sink := .collecting } failingIndexQuery .empty [] result run →
        ∀ rid, rid ∈ rowRids run.rows ↔ rid ∈ [⟨1, 0⟩, ⟨2, 0⟩] := by
  have hreach : failingIndexEnv.store.Reachable Fields.AreFlat :=
    Store.reachable_ofChanges (by decide +kernel)
  obtain ⟨⟨rows, hok, hrids⟩, hexecutes⟩ := @collect_of_simple failingIndexEnv failingIndexQuery
    .empty [] "A" true hreach (by decide +kernel) ⟨rfl, rfl, rfl, rfl, rfl, rfl, rfl, rfl⟩
    (by decide +kernel) ⟨⟨rfl, rfl, rfl, rfl, rfl⟩, rfl, rfl, ⟨rfl, rfl, rfl, rfl⟩, by decide +kernel⟩
    (by
      rintro condition ⟨⟩ c hc
      simp only [Condition.comparisons, List.cons_append, List.nil_append, List.mem_cons,
        List.not_mem_nil, or_false] at hc
      -- every comparison of the filter is one with a literal
      rcases hc with rfl | rfl | rfl | rfl <;>
        exact Comparison.simple_literal (by decide) (.inl rfl))
    (by
      rintro condition ⟨⟩ r -
      refine Condition.exists_evaluate fun c hc => Operator.apply_ok (fun lower upper => ?_) _ _
      simp only [Condition.comparisons, List.cons_append, List.nil_append, List.mem_cons,
        List.not_mem_nil, or_false] at hc
      rcases hc with rfl | rfl | rfl | rfl <;> simp)
  have hrows : (collect failingIndexEnv failingIndexQuery .empty []).1.toOption.map rowRids =
      some [⟨1, 0⟩, ⟨2, 0⟩] := by decide +kernel
  rw [hok] at hrows
  have hdelivered : rowRids rows = [⟨1, 0⟩, ⟨2, 0⟩] := Option.some.inj hrows
  refine ⟨hreach, by decide +kernel, ⟨rows, hok, hrids, hdelivered⟩, fun result run hrun rid => ?_⟩
  rw [(hexecutes rfl result run hrun).2 rid, ← hdelivered, hrids]

end RecordQuery
