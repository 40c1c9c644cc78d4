import RecordQuery.Proofs.RecordKeys

/-!
# `RecordQuery.Proofs.Selections`: the entries that a lookup selects

An `IndexQuery` names keys in one of four ways: those that start with some components (`exact`), or
with one of several choices of them (`oneOf`), those that start with some and go on with a component
within bounds (`range`), and those within bounds as a whole (`keyRange`). `IndexQuery.Selects` is
this specification. It is about one key, and not about an index.

`StoredIndex.matching` computes the entries from the buckets. For leading components it begins at
their place in the order and stops at the first key that does not start with them. So it gives the
keys that are selected only if these stand together, and in an order that contradicts itself they
may not. The theorems ask for separated numbers (`Value.Separated`) in the keys and in the leading
components. Bounds are another matter. They are compared with every key that comes into question, so
`mem_matching` asks nothing of them.

The theorems:

* `IndexQuery.selects_congr`: equal keys are named by the same lookups.
* `StoredIndex.mem_matching_of_separated`: a lookup gives exactly the entries whose key it selects,
  where the numbers are separated.
* `StoredIndex.mem_matching`: so it does in an index with exact keys.
* `StoredIndex.lookup_error_iff`: a lookup is refused exactly if the index is failing.
-/

set_option autoImplicit false

namespace RecordQuery

/-! ## What a lookup selects

`IndexQuery.Selects` says which keys a lookup names, one case for each kind of lookup, without the
search in the buckets. -/

/-- Whether the component of a key behind the `leading` ones is within the bounds. A key without a
component there is not. -/
def Key.goesOnWithin (leading : Key) (lower upper : Bound Value) (key : Key) : Bool :=
  match key[leading.length]? with
  | some component => component.isWithin lower upper
  | none => false

/-- `goesOnWithin` says that the key has a component there, and that it is within the bounds. -/
theorem Key.goesOnWithin_iff {leading : Key} {lower upper : Bound Value} {key : Key} :
    Key.goesOnWithin leading lower upper key = true ↔
      ∃ component, key[leading.length]? = some component ∧
        component.isWithin lower upper = true := by
  unfold goesOnWithin
  cases key[leading.length]? <;> simp

namespace IndexQuery

/-- The lookup names the key. This is the specification that `StoredIndex.matching` is compared
with. -/
def Selects (query : IndexQuery) (key : Key) : Prop :=
  match query with
  | exact leading => key.startsWith leading = true
  | oneOf choices => ∃ leading ∈ choices, key.startsWith leading = true
  | range leading lower upper => key.startsWith leading = true ∧
      ∃ component, key[leading.length]? = some component ∧ component.isWithin lower upper = true
  | keyRange lower upper => key.isWithin lower upper = true

/-- The leading components of the lookup are exact. Nothing is asked of bounds. -/
def IsExact : IndexQuery → Prop
  | exact leading | range leading _ _ => leading.isExact = true
  | oneOf choices => ∀ leading ∈ choices, Key.isExact leading = true
  | keyRange _ _ => True

/-- The runs of leading components that the lookup names: one, or each of the choices of `oneOf`.
Each of them is looked up by its place in the order of keys. -/
def runs : IndexQuery → List Key
  | exact leading | range leading _ _ => [leading]
  | oneOf choices => choices
  | keyRange _ _ => []

/-- No two integers are rounded to a floating-point number in the `runs` of leading components, so
these are in a total order with all exact keys. -/
def IsSharp (query : IndexQuery) : Prop := ∀ leading ∈ query.runs, leading.IsSharp

/-- Leading components that are exact are sharp: they have no number that two integers are rounded
to. -/
theorem IsExact.isSharp {query : IndexQuery} (h : query.IsExact) : query.IsSharp := by
  intro leading hleading
  cases query with
  | exact _ | range _ _ _ =>
      rw [List.mem_singleton.mp hleading]
      exact .of_isExact h
  | oneOf choices => exact .of_isExact (h leading hleading)
  | keyRange _ _ => cases hleading

end IndexQuery

/-! ## Equal keys

Keys that compare equal may differ, an integer and a floating-point number for instance. Where
numbers are separated a lookup does not tell such keys apart. -/

namespace Key

/-- Keys that compare `.eq` have as many components, and these are equal place by place. -/
theorem forall₂_of_compare_eq {key other : Key} (h : key.compare other = .eq) :
    List.Forall₂ (fun v w => v.compare w = .eq) key other := by
  induction key generalizing other with
  | nil =>
      cases other with
      | nil => exact .nil
      | cons _ _ => cases h
  | cons v vs ih =>
      cases other with
      | nil => cases h
      | cons w ws =>
          obtain ⟨hvw, hrest⟩ := Ordering.then_eq_eq.mp h
          exact .cons hvw (ih hrest)

/-- Keys with equal components compare `.eq`. -/
theorem compare_eq_of_forall₂ {key other : Key}
    (h : List.Forall₂ (fun v w => v.compare w = .eq) key other) : key.compare other = .eq := by
  induction h with
  | nil => rfl
  | cons hvw _ ih => exact Ordering.then_eq_eq.mpr ⟨hvw, ih⟩

/-- Equal keys have nulls in the same places (`isNull`), as only null equals null. -/
theorem map_isNull_congr {key other : Key}
    (h : List.Forall₂ (fun v w => v.compare w = .eq) key other) :
    key.map Value.isNull = other.map Value.isNull := by
  induction h with
  | nil => rfl
  | cons hvw _ ih => rw [List.map_cons, List.map_cons, Value.isNull_congr hvw, ih]

end Key

/-- The numbers in the components and the bounds that the lookup names have the properties `p` and
`q`. -/
def IndexQuery.NumbersIn (p : Int64 → Prop) (q : Binary64 → Prop) : IndexQuery → Prop
  | exact leading => Value.ItemsIn p q leading
  | oneOf choices => ∀ leading ∈ choices, Value.ItemsIn p q leading
  | range leading lower upper => Value.ItemsIn p q leading ∧
      ∀ limit, lower.value? = some limit ∨ upper.value? = some limit → limit.NumbersIn p q
  | keyRange lower upper =>
      ∀ limit, lower.value? = some limit ∨ upper.value? = some limit → Value.ItemsIn p q limit

section

variable {p : Int64 → Prop} {q : Binary64 → Prop}

/-- The numbers in the `runs` of leading components are among those of the lookup. -/
theorem IndexQuery.NumbersIn.runs {query : IndexQuery} (h : query.NumbersIn p q) :
    ∀ leading ∈ query.runs, Value.ItemsIn p q leading := by
  intro leading hleading
  cases query with
  | exact _ => exact List.mem_singleton.mp hleading ▸ h
  | range _ _ _ => exact List.mem_singleton.mp hleading ▸ h.1
  | oneOf choices => exact h leading hleading
  | keyRange _ _ => cases hleading

variable (hseparated : Value.Separated p q)

include hseparated

/-- Equal values lie within the same bounds: they compare alike to a third value, which needs
`hseparated` for the bounds too. -/
theorem Value.isWithin_congr {v w : Value} (hv : v.NumbersIn p q) (hw : w.NumbersIn p q)
    (heq : v.compare w = .eq) {lower upper : Bound Value}
    (hbounds : ∀ limit, lower.value? = some limit ∨ upper.value? = some limit →
      limit.NumbersIn p q) : v.isWithin lower upper = w.isWithin lower upper := by
  have hcompare (limit : Value) (hlimit : limit.NumbersIn p q) :
      v.compare limit = w.compare limit := hseparated.totalOn.congr_left hv hw hlimit heq
  unfold isWithin
  rw [isNull_congr heq]
  cases lower <;> cases upper <;> simp_all [Bound.value?]

section

variable {key other : Key} (hkey : Value.ItemsIn p q key) (hother : Value.ItemsIn p q other)
  (heq : key.compare other = .eq)

include hkey hother heq

/-- Equal keys begin with equal components, so `compareLeading?` says the same of them and a bound
that may be shorter than they are. -/
theorem Key.compareLeading?_congr {bound : Key} (hbound : Value.ItemsIn p q bound) :
    key.compareLeading? bound = other.compareLeading? bound := by
  have hcomponents := forall₂_of_compare_eq heq
  have htake (n : Nat) {key : Key} (h : Value.ItemsIn p q key) : Value.ItemsIn p q (key.take n) :=
    Value.itemsIn_iff.mpr fun v hv => Value.itemsIn_iff.mp h v (List.mem_of_mem_take hv)
  have hnulls (n : Nat) : (key.take n).any Value.isNull = (other.take n).any Value.isNull := by
    have hmap := congrArg (List.any · id) (map_isNull_congr (List.forall₂_take n hcomponents))
    simpa only [List.any_map, Function.id_comp] using hmap
  unfold compareLeading?
  dsimp only
  rw [hcomponents.length_eq, hnulls, (totalOn_separated hseparated).congr_left (htake _ hkey)
    (htake _ hother) (htake _ hbound) (compare_eq_of_forall₂ (List.forall₂_take _ hcomponents))]

/-- Equal keys go on within the same bounds, if the numbers in these (`hbounds`) are separated from
theirs. -/
theorem Key.goesOnWithin_congr (leading : Key) {lower upper : Bound Value}
    (hbounds : ∀ limit, lower.value? = some limit ∨ upper.value? = some limit →
      limit.NumbersIn p q) :
    goesOnWithin leading lower upper key = goesOnWithin leading lower upper other := by
  unfold goesOnWithin
  generalize leading.length = n
  have hcomponents := forall₂_of_compare_eq heq
  clear heq
  induction hcomponents generalizing n with
  | nil => rfl
  | cons hvw _ ih =>
      cases n with
      | zero => exact Value.isWithin_congr hseparated hkey.1 hother.1 hvw hbounds
      | succ n => exact ih hkey.2 hother.2 n

/-- A lookup `Selects` equal keys alike. So it does not matter which of several equal keys an index
has kept. -/
theorem IndexQuery.selects_congr {query : IndexQuery} (hquery : query.NumbersIn p q) :
    query.Selects key ↔ query.Selects other := by
  -- equal keys start with the same runs
  have hstarts (leading : Key) (hleading : leading ∈ query.runs) :
      key.startsWith leading = other.startsWith leading :=
    Key.startsWith_congr_left hseparated hkey (hquery.runs leading hleading) hother heq
  cases query with
  | exact leading =>
      unfold Selects
      dsimp only
      rw [hstarts leading (List.mem_singleton.mpr rfl)]
  | oneOf choices =>
      refine exists_congr fun leading => and_congr_right fun hleading => ?_
      rw [hstarts leading hleading]
  | range leading lower upper =>
      unfold Selects
      dsimp only
      rw [hstarts leading (List.mem_singleton.mpr rfl), ← Key.goesOnWithin_iff,
        ← Key.goesOnWithin_iff, Key.goesOnWithin_congr hseparated hkey hother heq leading hquery.2]
  | keyRange lower upper =>
      have hcompare (bound : Key) (hbound : lower.value? = some bound ∨ upper.value? = some bound) :
          key.compareLeading? bound = other.compareLeading? bound :=
        Key.compareLeading?_congr hseparated hkey hother heq (hquery bound hbound)
      have hnull : key.isNull = other.isNull := by
        have hmap := congrArg (List.all · id) (Key.map_isNull_congr (Key.forall₂_of_compare_eq heq))
        unfold Key.isNull
        simpa only [List.all_map, Function.id_comp] using hmap
      unfold Selects Key.isWithin Key.isAbove Key.isBelow
      dsimp only
      cases lower <;> cases upper <;> simp_all [Bound.value?]

end

end

/-! ## What a lookup gives

From the buckets to the entries: `startingWith` cuts out the keys of one run of components,
`matching` those of the lookup, and `directed` turns them around. -/

namespace StoredIndex

/-- `allEntries` of some buckets are the keys and records `Listed` in them. -/
theorem mem_allEntries {buckets : List Bucket} {entry : IndexEntry} :
    entry ∈ Bucket.allEntries buckets ↔ Bucket.Listed buckets entry.key entry.rid := by
  unfold Bucket.allEntries Bucket.entries Bucket.Listed
  simp only [List.mem_flatMap, List.mem_map]
  constructor
  · rintro ⟨b, hb, rid, hrid, rfl⟩
    exact ⟨b, hb, rfl, hrid⟩
  · rintro ⟨b, hb, hkey, hrid⟩
    exact ⟨b, hb, entry.rid, hrid, by rw [hkey]⟩

/-- What holds of the records of every key (`hone`), and of entries of different keys in their order
(`htwo`), holds all along the entries of ascending buckets. -/
theorem allEntries_pairwise {R : IndexEntry → IndexEntry → Prop} {buckets : List Bucket}
    (hascending : buckets.Pairwise fun b c => b.key.compare c.key = .lt)
    (hone : ∀ b ∈ buckets, b.rids.Pairwise fun r s => R ⟨b.key, r⟩ ⟨b.key, s⟩)
    (htwo : ∀ e f : IndexEntry, e.key.compare f.key = .lt → R e f) :
    (Bucket.allEntries buckets).Pairwise R := by
  unfold Bucket.allEntries
  rw [List.pairwise_flatMap]
  constructor
  · intro b hb
    unfold Bucket.entries
    rw [List.pairwise_map]
    exact hone b hb
  · refine hascending.imp ?_
    intro b c hlt e he f hf
    obtain ⟨_, -, rfl⟩ := List.mem_map.mp he
    obtain ⟨_, -, rfl⟩ := List.mem_map.mp hf
    exact htwo _ _ hlt

/-- Buckets filtered by their key (`keeps`) list what was `Listed` under such keys. -/
theorem listed_filter {buckets : List Bucket} (keeps : Key → Bool) {key : Key} {rid : Rid} :
    Bucket.Listed (buckets.filter fun b => keeps b.key) key rid ↔
      Bucket.Listed buckets key rid ∧ keeps key = true := by
  unfold Bucket.Listed
  simp only [List.mem_filter]
  constructor
  · rintro ⟨b, ⟨hb, hkeeps⟩, rfl, hrid⟩
    exact ⟨⟨b, hb, rfl, hrid⟩, hkeeps⟩
  · rintro ⟨⟨b, hb, rfl, hrid⟩, hkeeps⟩
    exact ⟨b, ⟨hb, hkeeps⟩, rfl, hrid⟩

section

variable {p : Int64 → Prop} {q : Binary64 → Prop} (hseparated : Value.Separated p q)
  {index : StoredIndex} (h : index.buckets.SortedIn fun key => Value.ItemsIn p q key)

include hseparated

/-- `sortChoices` loses none of the choices of a lookup, except for equal ones, and equal components
are those of the same keys. -/
theorem startsWith_sortChoices {choices : List Key}
    (hchoices : ∀ leading ∈ choices, Value.ItemsIn p q leading) {key : Key}
    (hkey : Value.ItemsIn p q key) :
    (∃ leading ∈ sortChoices Key.compare choices, key.startsWith leading = true) ↔
      ∃ leading ∈ choices, key.startsWith leading = true := by
  constructor
  · rintro ⟨leading, hleading, hstarts⟩
    exact ⟨leading, mem_of_mem_sortChoices hleading, hstarts⟩
  · rintro ⟨leading, hleading, hstarts⟩
    obtain ⟨found, hfound, heq⟩ := exists_mem_sortChoices Key.compare_self hleading
    refine ⟨found, hfound, ?_⟩
    rwa [Key.startsWith_congr_right hseparated hkey
      (hchoices _ (mem_of_mem_sortChoices hfound)) (hchoices _ hleading) heq]

include h

/-- `startingWith` lists what is held under keys with the components, where the numbers are
separated. -/
theorem listed_startingWith_of_separated {leading : Key} (hleading : Value.ItemsIn p q leading)
    {key : Key} {rid : Rid} :
    Bucket.Listed (index.buckets.startingWith leading) key rid ↔
      index.buckets.Holds key rid ∧ key.startsWith leading = true := by
  unfold Buckets.Holds Bucket.Listed
  simp only [h.mem_startingWith hseparated hleading]
  constructor
  · rintro ⟨b, ⟨hb, hstarts⟩, rfl, hrid⟩
    exact ⟨⟨b, hb, rfl, hrid⟩, hstarts⟩
  · rintro ⟨⟨b, hb, rfl, hrid⟩, hstarts⟩
    exact ⟨b, ⟨hb, hstarts⟩, rfl, hrid⟩

/-- A lookup gives exactly the entries whose key it selects, where the numbers in the keys and the
leading components are separated. There is a case for each way of naming keys. `exact`, `oneOf` and
`range` read the buckets of `startingWith`, and `keyRange` tests every key. -/
theorem mem_matching_of_separated {query : IndexQuery}
    (hquery : ∀ leading ∈ query.runs, Value.ItemsIn p q leading) {entry : IndexEntry} :
    entry ∈ index.matching query ↔
      index.buckets.Holds entry.key entry.rid ∧ query.Selects entry.key := by
  have hlisted (leading : Key) (hleading : Value.ItemsIn p q leading) :
      entry ∈ Bucket.allEntries (index.buckets.startingWith leading) ↔
        index.buckets.Holds entry.key entry.rid ∧ entry.key.startsWith leading = true :=
    mem_allEntries.trans (listed_startingWith_of_separated hseparated h hleading)
  unfold matching IndexQuery.Selects
  cases query with
  | exact leading => exact hlisted leading (hquery leading (List.mem_singleton.mpr rfl))
  | oneOf choices =>
      -- sorting the choices drops only repeats, so they select the same keys
      have hsorted (leading : Key) (hleading : leading ∈ sortChoices Key.compare choices) :=
        hlisted leading (hquery _ (mem_of_mem_sortChoices hleading))
      rw [List.mem_flatMap]
      constructor
      · rintro ⟨leading, hleading, hentry⟩
        obtain ⟨hholds, hstarts⟩ := (hsorted leading hleading).mp hentry
        exact ⟨hholds, leading, mem_of_mem_sortChoices hleading, hstarts⟩
      · rintro ⟨⟨b, hb, hkey, hrid⟩, hchosen⟩
        obtain ⟨leading, hleading, hstarts⟩ :=
          (startsWith_sortChoices hseparated hquery (hkey ▸ h.within b hb)).mpr hchosen
        exact ⟨leading, hleading, (hsorted leading hleading).mpr ⟨⟨b, hb, hkey, hrid⟩, hstarts⟩⟩
  | range leading lower upper =>
      refine mem_allEntries.trans ((listed_filter (Key.goesOnWithin leading lower upper)).trans ?_)
      rw [listed_startingWith_of_separated hseparated h (hquery leading (List.mem_singleton.mpr rfl)),
        Key.goesOnWithin_iff, and_assoc]
  | keyRange lower upper =>
      exact mem_allEntries.trans (listed_filter fun key => key.isWithin lower upper)

end

/-- In an index with exact keys `startingWith` lists what is held under keys with the components. -/
theorem listed_startingWith {index : StoredIndex} (h : index.buckets.Ordered) {leading : Key}
    (hleading : leading.IsSharp) {key : Key} {rid : Rid} :
    Bucket.Listed (index.buckets.startingWith leading) key rid ↔
      index.buckets.Holds key rid ∧ key.startsWith leading = true :=
  listed_startingWith_of_separated Value.separated_sharp (h.sortedIn_numbers _) hleading

/-- In an index with exact keys `matching` gives exactly the entries whose key the lookup
`Selects`. -/
theorem mem_matching {index : StoredIndex} (h : index.buckets.Ordered) {query : IndexQuery}
    (hquery : query.IsSharp) {entry : IndexEntry} :
    entry ∈ index.matching query ↔
      index.buckets.Holds entry.key entry.rid ∧ query.Selects entry.key :=
  mem_matching_of_separated Value.separated_sharp (h.sortedIn_numbers _) hquery

/-- `directed` turns the entries around or not, and keeps all of them. -/
theorem directed_perm (ascending : Bool) (entries : List IndexEntry) :
    (directed ascending entries).Perm entries := by
  cases ascending with
  | true => exact .refl _
  | false => exact List.reverse_perm entries

/-- The inversion of `read`: what is not refused is what was read. Only a `failing` index refuses a
read. -/
theorem eq_of_read {α : Type} {index : StoredIndex} {result found : α}
    (hok : index.read result = .ok found) : found = result := by
  unfold read at hok
  split at hok
  · cases hok
  · exact (Except.ok.inj hok).symm

/-- `lookup` is refused exactly if the index is `failing`, whatever it asks for. -/
theorem lookup_error_iff {index : StoredIndex} {query : IndexQuery} {ascending : Bool} :
    (∃ failure, index.lookup query ascending = .error failure) ↔ index.failing = true := by
  unfold lookup read
  cases index.failing <;> simp

/-- An index that is not `failing` answers every lookup. -/
theorem exists_lookup {index : StoredIndex} (h : index.failing = false) (query : IndexQuery)
    (ascending : Bool) : ∃ entries, index.lookup query ascending = .ok entries := by
  unfold lookup read
  exact ⟨_, if_neg (by simp [h])⟩

/-- A `lookup` that is not refused gives the `matching` entries, in either direction. -/
theorem mem_of_lookup {index : StoredIndex} {query : IndexQuery} {ascending : Bool}
    {entries : List IndexEntry} (hok : index.lookup query ascending = .ok entries)
    {entry : IndexEntry} : entry ∈ entries ↔ entry ∈ index.matching query := by
  rw [eq_of_read hok]
  exact (directed_perm _ _).mem_iff

end StoredIndex

end RecordQuery
