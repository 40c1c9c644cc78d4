import RecordQuery.Proofs.Coverage
import RecordQuery.Proofs.ExactRecords
import RecordQuery.Proofs.RangeFolding
import RecordQuery.Proofs.SparseIndexes

/-!
# `RecordQuery.Proofs.OrderedLookups`: lookups and walks that give the order asked for

An index keeps its keys ascending, and a record of single values has one key, its values in the
indexed fields. So where ORDER BY names leading fields of an index in one direction, the entries of
a lookup come in the order asked for.

The argument is in two halves. The first is about entries: `StoredIndex.Follows` says that entries
come in key order, and the lemmas prove it of each kind of lookup and of a walk. The second is about
records: `IndexDefinition.Orders` says that an index has the fields of ORDER BY in front, all in one
direction, and then key order is the order of `Precedes`. `orders_of_candidate` and
`orders_of_sortIndex` say that planning marks a lookup as sorted, and chooses an index for a walk,
only for such an index.

One lookup is different: `IndexQuery.oneOf` reads the entries of several choices, in the order of
the choices after sorting. That is an order of keys only if the choices are totally ordered, which
floating-point numbers are not. `Condition.ChoosesExactly` leaves these out, and only for IN. In an
index target the choices may have different lengths and overlap; `kept_follows` covers them with
`IndexQuery.Apart`.

The theorems:

* `StoredIndex.kept_follows`: what is kept of a lookup comes in key order, if no key of it starts
  with two choices that differ.
* `StoredIndex.matching_follows`: so do all entries of a lookup whose choices have one length.
* `StoredIndex.walk_follows`: so do those of a walk, with the null keys on their side.
* `Index.orders_of_matches`: what it means that an index matches the order asked for.
* `Store.Sound.orders_of_candidate`, `Store.Sound.orders_of_sortIndex`: what is read in order is an
  index that is ordered by ORDER BY.
* `Store.Sound.ascends_of_candidate`, `Store.Sound.ascends_of_walk`: the records come in the order
  asked for.
-/

set_option autoImplicit false

namespace RecordQuery

/-! ## Keys

What the order of keys says of the keys that start with given components. -/

namespace Key

/-- The first `count` components of two keys are in the order of the keys, or equal. -/
theorem isLE_take (count : Nat) {a b : Key} (h : (a.compare b).isLE = true) :
    (Key.compare (a.take count) (b.take count)).isLE = true := by
  induction count generalizing a b with
  | zero => rfl
  | succ count ih =>
      cases a with
      | nil => cases b <;> rfl
      | cons v vs =>
          cases b with
          | nil => cases h
          | cons w ws =>
              rcases isLE_then_iff.mp h with hlt | ⟨heq, hrest⟩
              · exact isLE_then_iff.mpr (.inl hlt)
              · exact isLE_then_iff.mpr (.inr ⟨heq, ih hrest⟩)

/-- No key of the same length comes before one that `isNull` throughout, as null is the least value.
A shorter key would. -/
theorem isLE_of_isNull {a b : Key} (hlength : a.length = b.length) (h : a.isNull = true) :
    (a.compare b).isLE = true := by
  induction a generalizing b with
  | nil => cases b <;> rfl
  | cons v vs ih =>
      cases b with
      | nil => cases hlength
      | cons w ws =>
          obtain ⟨hnull, hrest⟩ := (Bool.and_eq_true _ _).mp h
          have htail := ih (Nat.succ.inj hlength) hrest
          cases v <;> try cases hnull
          cases w with
          | null => exact isLE_then_iff.mpr (.inr ⟨rfl, htail⟩)
          | _ => rfl

section

variable {p : Int64 → Prop} {q : Binary64 → Prop} (hseparated : Value.Separated p q)
  {leading leading' key later : Key} (hleading : Value.ItemsIn p q leading)
  (hleading' : Value.ItemsIn p q leading') (hkey : Value.ItemsIn p q key)

include hseparated hleading hleading' hkey

/-- A key that starts with components comes before one that starts with later ones, unless that one
starts with the earlier ones too, which `hnot` excludes. -/
theorem lt_of_startsWith (hlater : Value.ItemsIn p q later) (hlt : leading.compare leading' = .lt)
    (h : key.startsWith leading = true) (h' : later.startsWith leading' = true)
    (hnot : later.startsWith leading = false) : key.compare later = .lt := by
  have htotal := hseparated.totalOn
  induction leading generalizing leading' key later with
  | nil => cases later <;> cases hnot
  | cons v vs ih =>
      match leading', key, later with
      | w :: ws, k :: ks, l :: ls =>
          simp only [startsWith, Bool.and_eq_true] at h h'
          have hkv : k.compare v = .eq := Value.beq_iff.mp h.1
          have hlw : l.compare w = .eq := Value.beq_iff.mp h'.1
          -- the components of the keys compare like those that they equal
          have hkl : k.compare l = v.compare w := by
            rw [htotal.congr_left hkey.1 hleading.1 hlater.1 hkv, Value.compare_swap,
              htotal.congr_left hlater.1 hleading'.1 hleading.1 hlw, ← Value.compare_swap]
          rcases Ordering.then_eq_lt.mp hlt with hfirst | ⟨hfirst, hrest⟩
          · exact Ordering.then_eq_lt.mpr (.inl (hkl.trans hfirst))
          · have hlv : (l == v) = true := by
              rw [Value.beq_iff, htotal.congr_left hlater.1 hleading'.1 hleading.1 hlw,
                Value.compare_swap, hfirst]
              rfl
            simp only [startsWith, hlv, Bool.true_and] at hnot
            exact Ordering.then_eq_lt.mpr (.inr ⟨hkl.trans hfirst,
              ih hleading.2 hleading'.2 hkey.2 hlater.2 hrest h.2 h'.2 hnot⟩)
      | [], _, _ => cases hlt
      | _ :: _, [], _ => cases h
      | _ :: _, _ :: _, [] => cases h'

/-- A key starts with one run of components of a length (`hlength`), up to equality. -/
theorem compare_eq_of_startsWith (hlength : leading.length = leading'.length)
    (h : key.startsWith leading = true) (h' : key.startsWith leading' = true) :
    leading.compare leading' = .eq := by
  induction leading generalizing leading' key with
  | nil =>
      cases leading' with
      | nil => rfl
      | cons w ws => cases hlength
  | cons v vs ih =>
      match leading', key with
      | w :: ws, k :: ks =>
          simp only [startsWith, Bool.and_eq_true] at h h'
          -- both components equal the one of the key, so they equal one another
          have hvw : v.compare w = .eq := by
            rw [← hseparated.totalOn.congr_left hkey.1 hleading.1 hleading'.1
              (Value.beq_iff.mp h.1)]
            exact Value.beq_iff.mp h'.1
          exact Ordering.then_eq_eq.mpr ⟨hvw,
            ih hleading.2 hleading'.2 hkey.2 (Nat.succ.inj hlength) h.2 h'.2⟩
      | [], _ => cases hlength
      | _ :: _, [] => cases h

end

end Key

/-! ## Entries in key order

The relation `Follows` includes the direction, so lookups and walks are treated upwards and
downwards at once. -/

/-- The choices of a lookup are exact and name the same number of components. Lookups other than
`oneOf` have no choices. -/
def IndexQuery.ChoosesExactly (query : IndexQuery) : Prop :=
  ∀ choices, query = .oneOf choices →
    ∃ count, ∀ leading ∈ choices, leading.length = count ∧ Key.isExact leading = true

/-- No key with the property `p` starts with two of the `runs` of the lookup that are not equal. So
the entries of different choices do not interleave in key order. -/
def IndexQuery.Apart (query : IndexQuery) (p : Key → Prop) : Prop :=
  ∀ a ∈ query.runs, ∀ b ∈ query.runs, ∀ key, p key →
    key.startsWith a = true → key.startsWith b = true → a.compare b = .eq

namespace StoredIndex

/-- No entry comes before one that stands behind it, when keys are visited upwards, or downwards
unless `ascending`. Entries of equal keys may stand in any order. -/
def Follows (ascending : Bool) (entries : List IndexEntry) : Prop :=
  entries.Pairwise fun e f =>
    (if ascending then e.key.compare f.key else f.key.compare e.key).isLE = true

/-- Entries turned around follow each other in the other direction. -/
theorem Follows.reverse {entries : List IndexEntry} (h : Follows true entries) :
    Follows false entries.reverse :=
  List.pairwise_reverse.mpr h

/-- Ascending entries are in order in the direction in which `directed` reads them. -/
theorem Follows.directed {entries : List IndexEntry} (h : Follows true entries)
    (ascending : Bool) : Follows ascending (directed ascending entries) := by
  cases ascending with
  | true => exact h
  | false => exact h.reverse

/-- Of the entries of several choices, each choice keeps its own. `sortChoices` puts the choices
into key order first. -/
theorem kept_oneOf (index : StoredIndex) (keeps : Key → Bool) (choices : List Key) :
    (index.matching (.oneOf choices)).filter (fun e => keeps e.key) =
      (sortChoices Key.compare choices).flatMap fun leading =>
        (Bucket.allEntries (index.buckets.startingWith leading)).filter fun e => keeps e.key :=
  List.filter_flatMap ..

section

variable {index : StoredIndex} (h : index.buckets.Ordered)

include h

/-- The entries of buckets of an index, taken in their order, ascend: keys ascend strictly from
bucket to bucket, `Ordered`. -/
theorem allEntries_follows {buckets : List Bucket}
    (hbuckets : buckets.Sublist index.buckets.elements) :
    Follows true (Bucket.allEntries buckets) := by
  refine allEntries_pairwise (h.ascending.sublist hbuckets) ?_ ?_
  · -- the entries of one bucket have one key
    intro b _
    refine List.pairwise_of_forall fun r s => ?_
    rw [if_pos rfl, Key.compare_self]
    rfl
  · intro e f hlt
    rw [if_pos rfl, hlt]
    rfl

/-- The entries of a lookup that are kept come in key order, those of several choices if the key of
none of them starts with two, `IndexQuery.Apart`. -/
theorem kept_follows (keeps : Key → Bool) {query : IndexQuery}
    (hquery : ∀ choices, query = .oneOf choices → query.IsSharp ∧ query.Apart
      (· ∈ ((index.matching query).filter fun e => keeps e.key).map (·.key))) :
    Follows true ((index.matching query).filter fun e => keeps e.key) := by
  cases query with
  | exact leading =>
      exact (allEntries_follows h (Buckets.startingWith_sublist leading _)).filter _
  | range leading lower upper =>
      exact (allEntries_follows h
        (List.filter_sublist.trans (Buckets.startingWith_sublist leading _))).filter _
  | keyRange lower upper => exact (allEntries_follows h List.filter_sublist).filter _
  | oneOf choices =>
      obtain ⟨hsharp, hapart⟩ := hquery choices rfl
      rw [kept_oneOf] at hapart ⊢
      unfold Follows
      rw [List.pairwise_flatMap]
      constructor
      · exact fun leading _ =>
          (allEntries_follows h (Buckets.startingWith_sublist leading _)).filter _
      · refine (sortChoices_strict Key.totalOn_sharp hsharp).imp_of_mem ?_
        intro leading leading' hmem hmem' hlt e he f hf
        have hchoice := mem_of_mem_sortChoices hmem
        have hchoice' := mem_of_mem_sortChoices hmem'
        obtain ⟨⟨b, hb, hkey, -⟩, hstarts⟩ := (listed_startingWith h (hsharp _ hchoice)).mp
          (mem_allEntries.mp (List.mem_of_mem_filter he))
        obtain ⟨⟨c, hc, hkey', -⟩, hstarts'⟩ := (listed_startingWith h (hsharp _ hchoice')).mp
          (mem_allEntries.mp (List.mem_of_mem_filter hf))
        -- the later key does not start with the earlier choice as well
        have hnot : f.key.startsWith leading = false := by
          refine Bool.eq_false_iff.mpr fun hboth => ?_
          have heq := hapart _ hchoice _ hchoice' f.key
            (List.mem_map_of_mem (List.mem_flatMap.mpr ⟨leading', hmem', hf⟩)) hboth hstarts'
          rw [hlt] at heq
          cases heq
        rw [if_pos rfl, Key.lt_of_startsWith Value.separated_sharp (hsharp _ hchoice)
          (hsharp _ hchoice') (Key.IsSharp.of_isExact (hkey ▸ h.exact b hb))
          (Key.IsSharp.of_isExact (hkey' ▸ h.exact c hc)) hlt hstarts hstarts' hnot]
        rfl

/-- The entries of a lookup come in key order, those of its choices included if these are totally
ordered, `ChoosesExactly`: choices of one length are apart. -/
theorem matching_follows {query : IndexQuery} (hquery : query.ChoosesExactly) :
    Follows true (index.matching query) := by
  have hkept : (index.matching query).filter (fun _ => true) = index.matching query :=
    List.filter_true _
  rw [← hkept]
  refine kept_follows h (fun _ => true) ?_
  rintro choices rfl
  obtain ⟨count, hchoices⟩ := hquery choices rfl
  have hsharp : (IndexQuery.oneOf choices).IsSharp :=
    fun leading hleading => .of_isExact (hchoices leading hleading).2
  refine ⟨hsharp, fun a ha b hb key hkey hstarts hstarts' => ?_⟩
  rw [hkept] at hkey
  obtain ⟨e, he, rfl⟩ := List.mem_map.mp hkey
  obtain ⟨⟨c, hc, hkey, -⟩, -⟩ := (mem_matching h hsharp).mp he
  exact Key.compare_eq_of_startsWith Value.separated_sharp (hsharp a ha) (hsharp b hb)
    (Key.IsSharp.of_isExact (hkey ▸ h.exact c hc))
    ((hchoices a ha).1.trans (hchoices b hb).1.symm) hstarts hstarts'

/-- The entries of an `orderedWalk` with nulls come in key order, where all keys have the same
length: a null key comes before every other one. The walk reads null keys apart from the others, so
this has to be put together. -/
theorem walk_follows {ascending : Bool} {entries : List IndexEntry}
    (hok : Index.orderedWalk (.stored index) ascending true = .ok entries) {count : Nat}
    (hlength : ∀ entry ∈ entries, entry.key.length = count) : Follows ascending entries := by
  obtain rfl := orderedWalk_ok hok
  have hvalues := allEntries_follows h
    (List.filter_sublist : (index.buckets.elements.filter fun b => !b.key.isNull).Sublist _)
  have hnull {entry : IndexEntry}
      (hentry : entry ∈ Bucket.allEntries (index.buckets.elements.filter fun b => b.key.isNull)) :
      entry.key.isNull = true :=
    ((listed_filter fun key => key.isNull).mp (mem_allEntries.mp hentry)).2
  -- null keys stand first on the way up and last on the way down
  cases ascending with
  | true =>
      refine List.pairwise_append.mpr
        ⟨allEntries_follows h List.filter_sublist, hvalues, fun e he f hf => ?_⟩
      refine Key.isLE_of_isNull ?_ (hnull he)
      rw [hlength e (List.mem_append_left _ he), hlength f (List.mem_append_right _ hf)]
  | false =>
      refine List.pairwise_append.mpr ⟨hvalues.reverse, ?_, fun e he f hf => ?_⟩
      · refine List.pairwise_of_forall_mem_list fun e he f hf => ?_
        refine Key.isLE_of_isNull ?_ (hnull hf)
        rw [hlength e (List.mem_append_right _ he), hlength f (List.mem_append_right _ hf)]
      · refine Key.isLE_of_isNull ?_ (hnull hf)
        rw [hlength e (List.mem_append_left _ he), hlength f (List.mem_append_right _ hf)]

end

end StoredIndex

/-! ## The order that an index gives

Planning compares the items of ORDER BY with the fields of an index. The lemmas say what a match
means for the ORDER BY values of two records in the index. -/

/-- ORDER BY names leading fields of the index, in one direction. This is what `Index.matchesOrder`
tests. -/
structure IndexDefinition.Orders (definition : IndexDefinition) (order : List OrderItem)
    (direction : Direction) : Prop where
  /-- The direction is that of every item. -/
  direction : ∀ item ∈ order, item.direction = direction
  /-- The items are the leading fields. -/
  fields : order.map (·.field) = (definition.fields.take order.length).map fun field => ⟨field, []⟩

/-- Items of ORDER BY that name fields of the record at hand have these `fields` for their
chains. -/
theorem map_field_of_short {items : List OrderItem} {fields : List String}
    (h : List.Forall₂ (fun item field => item.field.isLong = false ∧ item.field.first = field)
      items fields) : items.map (·.field) = fields.map fun field => ⟨field, []⟩ := by
  induction h with
  | nil => rfl
  | @cons item field items fields hitem _ ih =>
      obtain ⟨hshort, rfl⟩ := hitem
      have hhops : item.field.hops = [] := by simpa [FieldChain.isLong] using hshort
      rw [List.map_cons, List.map_cons, ih, ← hhops]

/-- An index that matches the order asked for, with enough fields, is ordered by it, and its keys
are to be visited in the direction asked for. `hlength` is apart since `matchesOrder` stops at the
end of either list. -/
theorem Index.orders_of_matches {index : Index} {order : List OrderItem}
    (hmatches : index.matchesOrder order = true)
    (hlength : order.length ≤ index.definition.fields.length) :
    ∃ direction, index.definition.Orders order direction ∧
      index.visitsUpwards order = (direction == .asc) := by
  cases order with
  | nil => cases hmatches
  | cons first rest =>
      simp only [matchesOrder, Bool.and_eq_true, List.all_eq_true, beq_iff_eq, bne_iff_ne,
        Bool.not_eq_true', Prod.forall] at hmatches
      obtain ⟨⟨hordered, -⟩, hitems⟩ := hmatches
      have hzip : (first :: rest).zip (index.definition.fields.take (first :: rest).length) =
          (first :: rest).zip index.definition.fields := by
        rw [@List.zip_eq_zip_take_min _ _ (first :: rest) index.definition.fields,
          Nat.min_eq_left hlength, List.take_length]
      -- each item asks for the field at its place, in the direction of the first item
      have hpairs : List.Forall₂ (fun item field => (item.direction = first.direction ∧
          item.field.isLong = false) ∧ item.field.first = field) (first :: rest)
          (index.definition.fields.take (first :: rest).length) := by
        refine List.forall₂_iff_zip.mpr ⟨by rw [List.length_take, Nat.min_eq_left hlength], ?_⟩
        intro item field hmem
        exact hitems item field (hzip ▸ hmem)
      refine ⟨first.direction, ⟨fun item hitem => ?_, ?_⟩, ?_⟩
      · obtain ⟨i, hi, rfl⟩ := List.getElem_of_mem hitem
        exact ((List.forall₂_iff_get.mp hpairs).2 i hi (hpairs.length_eq ▸ hi)).1.1
      · exact map_field_of_short (hpairs.imp fun _ _ hitem => ⟨hitem.1.2, hitem.2⟩)
      · have hwalk : index.walkOrder = .ascending := by
          unfold walkOrder
          rw [if_pos hordered]
        simp only [visitsUpwards, hwalk]
        cases first.direction <;> rfl

/-- Where all items have one direction, `compareKeys` compares ORDER BY keys like keys of an index,
or the other way around for DESC. -/
theorem compareKeys_of_direction {order : List OrderItem} {direction : Direction}
    (h : ∀ item ∈ order, item.direction = direction) {a b : Key} (ha : a.length = order.length)
    (hb : b.length = order.length) :
    compareKeys order a b = if direction == .asc then a.compare b else b.compare a := by
  induction order generalizing a b with
  | nil =>
      obtain rfl := List.length_eq_zero_iff.mp ha
      obtain rfl := List.length_eq_zero_iff.mp hb
      cases direction <;> rfl
  | cons item items ih =>
      match a, b with
      | v :: vs, w :: ws =>
          have hrest := ih (fun i hi => h i (List.mem_cons_of_mem _ hi)) (Nat.succ.inj ha)
            (Nat.succ.inj hb)
          rw [compareKeys_cons, hrest]
          unfold OrderItem.compare
          rw [h item List.mem_cons_self]
          -- downwards each component is compared the other way around
          cases direction with
          | asc => rfl
          | desc =>
              show (v.compare w).swap.then (Key.compare ws vs) = (w.compare v).then _
              rw [← Value.compare_swap v w]
              rfl

namespace IndexDefinition.Orders

variable {definition : IndexDefinition} {order : List OrderItem} {direction : Direction}

/-- The ORDER BY values of a record are its values in the leading fields of the index. `load` does
not matter, as no link is followed. -/
theorem orderKey_eq (h : definition.Orders order direction) (load : Rid → Option Record)
    (r : Record) : orderKey order load r = (definition.fields.map r.get).take order.length := by
  have hresolve : orderKey order load r =
      (order.map (·.field)).map fun chain => chain.resolve load r := by
    unfold orderKey
    rw [List.map_map]
    rfl
  rw [hresolve, h.fields, List.map_map, ← List.map_take]
  rfl

/-- Records whose keys are in the `direction` asked for are in the order asked for (`Precedes`). -/
theorem precedes (h : definition.Orders order direction) (load : Rid → Option Record)
    {r s : Record}
    (hkeys : (if direction == .asc
        then Key.compare (definition.fields.map r.get) (definition.fields.map s.get)
        else Key.compare (definition.fields.map s.get) (definition.fields.map r.get)).isLE = true) :
    Precedes order load r s := by
  have hlength (r : Record) : (orderKey order load r).length = order.length := List.length_map _
  unfold Precedes
  rw [compareKeys_of_direction h.direction (hlength r) (hlength s), h.orderKey_eq load r,
    h.orderKey_eq load s]
  cases direction with
  | asc => exact Key.isLE_take _ hkeys
  | desc => exact Key.isLE_take _ hkeys

end IndexDefinition.Orders

/-! ## Records in order

Both halves are put together for a candidate and for a walk. That no choice of an IN is a
floating-point number is carried from the condition, over its searches, to the lookup. -/

/-- A search for one of several choices is on its own, and the choices are exact. With bound fields
in front, `Search.merge` makes no such search. -/
def Search.ChoosesExactly (search : Search) : Prop :=
  search.lastOperator = .oneOf → search.bound = [] ∧ search.lastValue.isExact = true

/-- `merge` of two searches does not end in IN, as no search with IN `isMergeable`. -/
theorem Search.choosesExactly_merge {a b : Search} (hmergeable : a.isMergeable b = true) :
    (a.merge b).ChoosesExactly := by
  intro hop
  have hboth := hmergeable
  simp only [isMergeable, Bool.and_eq_true] at hboth
  obtain ⟨⟨-, ha, hb⟩, -⟩ := hboth
  have hlast : (a.merge b).lastOperator.isMergeable = true :=
    merge_induction (P := fun search => search.lastOperator.isMergeable = true) hmergeable
      (fun _ _ hmain _ _ _ => hmain) ha hb
  rw [hop] at hlast
  cases hlast

/-- What `soughtTerm?` searches for among several choices comes from IN. -/
theorem oneOf_of_soughtTerm? {op : Operator} {constant : Option Value} {value : Value}
    (h : soughtTerm? op constant = some (.oneOf, value)) :
    op = .oneOf ∧ ∃ k, constant = some k := by
  unfold soughtTerm? at h
  split at h
  · cases h
  · obtain ⟨k, rfl, hterm⟩ := Option.bind_eq_some_iff.mp h
    refine ⟨?_, k, rfl⟩
    unfold searchTerm? at hterm
    split at hterm <;> try split at hterm
    all_goals first | rfl | cases hterm
    rfl

/-- Where the comparison is an IN with a field on its left, its choices are exact: no floating-point
number is among them. -/
def Comparison.ChoosesExactly (vars : Fields) (c : Comparison) : Prop :=
  ∀ chain right k, c.fieldOnLeft? = some ⟨.field chain, .oneOf, right⟩ →
    right.keyConstant? vars = some k → k.isExact = true

/-- The `search?` of a comparison with exact choices has exact choices. -/
theorem Comparison.ChoosesExactly.search {c : Comparison} {vars : Fields}
    (h : c.ChoosesExactly vars) {search : Search} (hsearch : c.search? vars = some search) :
    search.ChoosesExactly := by
  unfold search? at hsearch
  split at hsearch
  next chain op right hleft =>
    split at hsearch
    · cases hsearch
    · obtain ⟨⟨sought, value⟩, hterm, rfl⟩ := Option.map_eq_some_iff.mp hsearch
      have hterm : soughtTerm? op (right.keyConstant? vars) = some (sought, value) := by
        cases op <;> exact hterm
      intro hop
      obtain rfl : sought = .oneOf := hop
      obtain ⟨rfl, k, hconstant⟩ := oneOf_of_soughtTerm? hterm
      rw [hconstant] at hterm
      exact ⟨rfl, isExact_of_soughtTerm? (h chain right k hleft hconstant) hterm⟩
  · cases hsearch

/-- No IN of the condition chooses among floating-point numbers (`Comparison.ChoosesExactly`). This
is the one thing that the order of rows asks of a filter. -/
def Condition.ChoosesExactly (vars : Fields) (condition : Condition) : Prop :=
  ∀ c ∈ condition.comparisons, c.ChoosesExactly vars

/-- `foldRanges` makes a BETWEEN of two bounds, and no IN. -/
theorem Condition.ChoosesExactly.folded {condition : Condition} {vars : Fields}
    (h : condition.ChoosesExactly vars) : condition.foldRanges.1.ChoosesExactly vars := by
  refine (forall_comparisons_folded h ?_).1
  intro c d first second _ _ _ _ _ _ e he
  obtain rfl := List.mem_singleton.mp he
  intro chain right k hleft
  cases hleft

/-- The `searchBranches` of a condition with exact choices have exact choices. -/
theorem Condition.ChoosesExactly.searches {condition : Condition} {vars : Fields}
    (h : condition.ChoosesExactly vars) (store : Store) (className : String) :
    ∀ searches ∈ store.searchBranches vars className condition, ∀ search ∈ searches,
      search.ChoosesExactly :=
  Store.searchBranches_forall (fun _ _ hmergeable _ _ => Search.choosesExactly_merge hmergeable)
    fun c hc _ _ hsearch => (h c hc).search hsearch

/-- A lookup of several choices is made from IN, a choice for each item behind what is bound,
`params`. -/
theorem oneOf_of_lookupFor? {operator : Operator} {params : Key} {value : Value}
    {choices : List Key} (h : lookupFor? operator params value = some (.oneOf choices)) :
    operator = .oneOf ∧ ∃ items, value = .list items ∧
      choices = items.map fun item => params.dropLast ++ [item] := by
  unfold lookupFor? at h
  -- only IN has choices; BETWEEN, which also splits a list, makes a range of it
  cases operator with
  | oneOf =>
      dsimp only at h
      split at h
      next items =>
        cases h
        exact ⟨rfl, items, rfl, rfl⟩
      · cases h
  | between lower upper =>
      dsimp only at h
      split at h
      · simp at h
      · cases h
  | _ => simp at h

/-- The lookup of a `candidate?` has exact choices where its search has. -/
theorem choosesExactly_of_candidate {index : Index} {search : Search} {query : SelectQuery}
    {onlyBranch : Bool} {candidate : Candidate} (hsearch : search.ChoosesExactly)
    (hcandidate : index.candidate? search query onlyBranch = some candidate) :
    candidate.lookup.ChoosesExactly := by
  unfold Index.candidate? at hcandidate
  simp only [Option.ite_none_left_eq_some, Option.map_eq_some_iff] at hcandidate
  obtain ⟨-, -, -, -, lookup, hlookup, rfl⟩ := hcandidate
  rintro choices rfl
  obtain ⟨hop, items, hitems, rfl⟩ := oneOf_of_lookupFor? hlookup
  obtain ⟨hbound, hexact⟩ := hsearch hop
  rw [hitems] at hexact
  -- a search for choices binds no field, so nothing stands before a choice
  have hcount : (index.definition.paramsFor search).length ≤ 1 := by
    simp only [IndexDefinition.paramsFor, Search.fields, hbound, List.length_map, List.length_take]
    exact Nat.min_le_left ..
  have hnone : (index.definition.paramsFor search).dropLast = [] := by
    apply List.length_eq_zero_iff.mp
    rw [List.length_dropLast]
    omega
  refine ⟨1, fun leading hleading => ?_⟩
  obtain ⟨item, hitem, rfl⟩ := List.mem_map.mp hleading
  have hitem : item.isExact = true := Value.areExact_iff.mp hexact item hitem
  rw [hnone]
  exact ⟨rfl, by simp [Value.areExact, hitem]⟩

namespace Store

section

variable {store : Store} (hsound : store.Sound)

include hsound

/-- A candidate that is marked as `sorted` reads a stored index that `Orders` by ORDER BY, in the
direction asked for. A chained index is never marked. -/
theorem Sound.orders_of_candidate {className : String} {query : SelectQuery} {onlyBranch : Bool}
    {searches : List Search} {candidate : Candidate}
    (hcandidate : candidate ∈ store.branchFor className query onlyBranch searches)
    (hsorted : candidate.sorted = true) :
    ∃ stored ∈ store.indexes, candidate.index = .stored stored ∧
      ∃ direction, stored.definition.Orders query.orderBy direction ∧
        candidate.ascending = (direction == .asc) := by
  obtain ⟨search, -, index, hindex, hgiven⟩ := mem_branchFor.mp hcandidate
  unfold Index.candidate? at hgiven
  simp only [Option.ite_none_left_eq_some, Option.map_eq_some_iff] at hgiven
  obtain ⟨-, -, -, -, lookup, -, rfl⟩ := hgiven
  simp only [Bool.and_eq_true, decide_eq_true_eq] at hsorted
  obtain ⟨⟨⟨hserves, -⟩, -⟩, hlength⟩ := hsorted
  obtain ⟨hkind, hmatches⟩ := (Bool.and_eq_true _ _).mp hserves
  obtain ⟨direction, horders, hupwards⟩ := Index.orders_of_matches hmatches hlength
  -- a view over several indexes serves no order
  obtain ⟨stored, hstored, rfl⟩ : ∃ stored ∈ store.indexesCovering className search.fields,
      index = .stored stored := by
    unfold servingIndexes at hindex
    split at hindex
    · obtain ⟨proxy, -, rfl⟩ := List.mem_map.mp hindex
      cases hkind
    · obtain ⟨stored, hstored, rfl⟩ := List.mem_map.mp hindex
      exact ⟨stored, hstored, rfl⟩
  refine ⟨stored, (hsound.mem_indexesCovering hstored).1, rfl, direction, horders, ?_⟩
  rw [hserves, Bool.not_true, Bool.false_or, hupwards]

/-- The index that `sortIndex?` chooses for the order asked for `Orders` by ORDER BY, keeps null
keys, and is walked in the direction asked for. -/
theorem Sound.orders_of_sortIndex {className : String} {query : SelectQuery} {index : Index}
    {ascending : Bool} (hindex : store.sortIndex? className query = some (index, ascending)) :
    ∃ stored ∈ store.indexes, index = .stored stored ∧ index.definition.ignoreNulls = false ∧
      ∃ direction, stored.definition.Orders query.orderBy direction ∧
        ascending = (direction == .asc) := by
  obtain ⟨-, ⟨stored, hstored, rfl⟩, hnulls, hmatches, rfl⟩ := sortIndex?_some hindex
  obtain ⟨hmem, -, hcovers⟩ := hsound.mem_indexesCovering hstored
  have hlength : query.orderBy.length ≤ stored.definition.fields.length := by
    have hcount := hcovers.perm.length_eq
    rw [List.length_take, List.length_map] at hcount
    omega
  obtain ⟨direction, horders, hupwards⟩ := Index.orders_of_matches hmatches hlength
  exact ⟨stored, hmem, rfl, hnulls, direction, horders, hupwards⟩

end

section

variable {store : Store} (hsound : store.Sound)
  (hsingle : ∀ r, store.Live r → Fields.AreSingle r.fields)

include hsound hsingle

/-- The key of an entry that an index holds is made of the values of the record. Records have single
values, `hsingle`, so there is no other key. -/
theorem Sound.key_of_held {index : StoredIndex} (hmirrors : index.Mirrors store) {key : Key}
    {rid : Rid} (hheld : index.buckets.Holds key rid) {r : Record} (hr : store.load rid = some r) :
    key = index.definition.fields.map r.get := by
  obtain ⟨s, hs, hrid, -, hkey⟩ := hmirrors.holds_iff.mp hheld
  obtain ⟨hlive, hrid'⟩ := hsound.load_eq_some_iff.mp hr
  obtain rfl := hsound.live_eq hs hlive (hrid.trans hrid'.symm)
  have hrecord := hsingle s hs
  exact (StoredIndex.keyOf_iff_of_single hrecord).mp
    ((StoredIndex.mem_keysFor hrecord.flat.exact).mp hkey).1

/-- Entries in the direction asked for give records in the order asked for, where the index is one
that `Orders`. -/
theorem Sound.ascends_of_follows {index : StoredIndex} (hmirrors : index.Mirrors store)
    {order : List OrderItem} {direction : Direction}
    (horders : index.definition.Orders order direction) {entries : List IndexEntry}
    (hheld : ∀ entry ∈ entries, index.buckets.Holds entry.key entry.rid)
    (hfollows : StoredIndex.Follows (direction == .asc) entries) :
    Stream.Ascends order store.load (.lookup (entries.map (·.rid))) := by
  show ((entries.map (·.rid)).filterMap store.load).Pairwise (Precedes order store.load)
  rw [List.filterMap_map, List.pairwise_filterMap]
  refine hfollows.imp_of_mem fun {e f} he hf hkeys r hr s hs => ?_
  refine horders.precedes store.load ?_
  rw [← hsound.key_of_held hsingle hmirrors (hheld e he) hr,
    ← hsound.key_of_held hsingle hmirrors (hheld f hf) hs]
  exact hkeys

/-- A candidate that is marked as sorted gives the records in the order asked for. `hexact` is about
the searches it may serve. -/
theorem Sound.ascends_of_candidate (hmirrors : ∀ index ∈ store.indexes, index.Mirrors store)
    {className : String} {query : SelectQuery} {onlyBranch : Bool} {searches : List Search}
    (hexact : ∀ search ∈ searches, search.ChoosesExactly) {candidate : Candidate}
    (hcandidate : candidate ∈ store.branchFor className query onlyBranch searches)
    (hsorted : candidate.sorted = true) {entries : List IndexEntry}
    (hok : candidate.index.lookup candidate.lookup candidate.ascending = .ok entries) :
    Stream.Ascends query.orderBy store.load (.lookup (entries.map (·.rid))) := by
  obtain ⟨search, hsearch, index, -, hgiven⟩ := mem_branchFor.mp hcandidate
  have hchoices := choosesExactly_of_candidate (hexact search hsearch) hgiven
  obtain ⟨stored, hstored, hindex, direction, horders, hascending⟩ :=
    hsound.orders_of_candidate hcandidate hsorted
  rw [hindex, hascending] at hok
  refine hsound.ascends_of_follows hsingle (hmirrors stored hstored) horders
    (StoredIndex.holds_of_lookup hok) ?_
  rw [StoredIndex.eq_of_read hok]
  exact (StoredIndex.matching_follows (hmirrors stored hstored).ordered hchoices).directed _

/-- The walk over the index that `sortIndex?` chooses gives the records in the order asked for. -/
theorem Sound.ascends_of_walk (hmirrors : ∀ index ∈ store.indexes, index.Mirrors store)
    {className : String} {query : SelectQuery} {index : Index} {ascending : Bool}
    (hindex : store.sortIndex? className query = some (index, ascending))
    {entries : List IndexEntry}
    (hok : index.orderedWalk ascending (!index.definition.ignoreNulls) = .ok entries) :
    Stream.Ascends query.orderBy store.load (.lookup (entries.map (·.rid))) := by
  obtain ⟨stored, hstored, rfl, hnulls, direction, horders, rfl⟩ := hsound.orders_of_sortIndex hindex
  have hmirror := hmirrors stored hstored
  rw [hnulls, Bool.not_false] at hok
  have hheld := StoredIndex.holds_of_walk hok
  refine hsound.ascends_of_follows hsingle hmirror horders hheld ?_
  have hkeys : ∀ entry ∈ entries, entry.key.length = stored.definition.fields.length := by
    intro entry hentry
    obtain ⟨r, hr, hrid, -, -⟩ := hmirror.holds_iff.mp (hheld entry hentry)
    rw [hsound.key_of_held hsingle hmirror (hheld entry hentry)
      (hsound.load_eq_some_iff.mpr ⟨hr, hrid⟩), List.length_map]
  exact StoredIndex.walk_follows hmirror.ordered hok hkeys

end

end Store

end RecordQuery
