import RecordQuery.Proofs.Entries

/-!
# `RecordQuery.Proofs.Listings`: lookups are filters of the listing

The listing of an index is all its entries, bucket by bucket, `StoredIndex.listing`. It is in strict
order, by key first and then by record, and this order is what every read comes down to: two lists
in strict order with the same members are the same list, `StrictlyAscending.eq_of_mem_iff`. A lookup
starts in the middle of the buckets and breaks off early, and one of several runs reads a block of
buckets for each of them. Both give the part of the listing that the lookup selects, in the order of
the listing, if keys that start with the same components stand together. They do where no
floating-point number is what two integers are rounded to.

`IndexQuery.Selects` is the meaning of a lookup, key by key, and says nothing of buckets. The runs
of a lookup of several are to be of one length, `IndexQuery.IsEven`, or an entry may be found twice
(`Entries`). The keys are those of any writes, so the index need not be one of a store. Nor need it
be one whose keys have no floating-point numbers: `Value.Separated` asks only that no two integers
be rounded to one that is there.

The theorems:

* `StoredIndex.listing_strict`: the listing is in strict order.
* `StoredIndex.matching_strict`: so is what a lookup finds, also one of several runs of one length.
* `StoredIndex.matching_eq_filter`: a lookup finds the selected part of the listing.
* `StoredIndex.nulls_append`: the null keys stand in front.
* `StoredIndex.reads_filter_listing`: lookups and walks of an index, after any writes to it, are
  filters of its listing, read in the direction asked for.
* `StoredIndex.lookup_roundedPrefix`: where two integers are rounded to the number looked for, the
  lookup misses an entry.
-/

set_option autoImplicit false

namespace RecordQuery

/-! ## Lists in strict order

A list in strict order is determined by its members. So an equation between two such lists follows
from what they have. -/

/-- Lists that are `StrictlyAscending` with the same members are the same list. So it is enough to
know the members of what is read, and its order. -/
theorem StrictlyAscending.eq_of_mem_iff {α : Type} {cmp : α → α → Ordering}
    (hswap : ∀ a b, cmp b a = (cmp a b).swap) {xs ys : List α} (hxs : StrictlyAscending cmp xs)
    (hys : StrictlyAscending cmp ys) (h : ∀ a, a ∈ xs ↔ a ∈ ys) : xs = ys := by
  refine List.Perm.eq_of_pairwise ?_ hxs hys
    ((List.perm_ext_iff_of_nodup (hxs.nodup hswap) (hys.nodup hswap)).mpr h)
  intro a b _ _ hlt hgt
  rw [hswap, hlt] at hgt
  cases hgt

/-- `allEntries` of filtered buckets are those entries whose keys the filter `keeps`. -/
theorem Bucket.allEntries_filter (keeps : Key → Bool) (buckets : List Bucket) :
    allEntries (buckets.filter fun b => keeps b.key) =
      (allEntries buckets).filter fun e => keeps e.key := by
  induction buckets with
  | nil => rfl
  | cons b buckets ih =>
      have hentries : b.entries.filter (fun e => keeps e.key) =
          if keeps b.key then b.entries else [] := by
        unfold entries
        by_cases hkeeps : keeps b.key = true <;> simp [hkeeps]
      show _ = (b.entries ++ allEntries buckets).filter _
      rw [List.filter_append, hentries, ← ih]
      by_cases hkeeps : keeps b.key = true <;> simp [hkeeps, allEntries]

/-! ## What a lookup selects

A lookup sorts its choices, drops equal ones, and reads one after the other. On keys of one length
the outcome is a part of the listing, in the same order. -/

namespace IndexQuery

instance (query : IndexQuery) (key : Key) : Decidable (query.Selects key) :=
  match query with
  | exact leading => inferInstanceAs (Decidable (key.startsWith leading = true))
  | oneOf choices =>
      inferInstanceAs (Decidable (∃ leading ∈ choices, key.startsWith leading = true))
  | range leading lower upper =>
      have : Decidable (∃ component, key[leading.length]? = some component ∧
          component.isWithin lower upper = true) := decidable_of_iff _ Key.goesOnWithin_iff
      inferInstanceAs (Decidable (key.startsWith leading = true ∧ _))
  | keyRange lower upper => inferInstanceAs (Decidable (key.isWithin lower upper = true))

/-- The runs of leading components are equally long. A lookup that is no `oneOf` has at most one
run. -/
def IsEven (query : IndexQuery) : Prop := ∃ count, ∀ leading ∈ query.runs, leading.length = count

end IndexQuery

namespace StoredIndex

/-- The entries of the index, bucket by bucket, as a lookup would see them all. -/
def listing (index : StoredIndex) : List IndexEntry := Bucket.allEntries index.buckets.elements

/-- The `listing` has what the buckets of the index hold. -/
theorem mem_listing {index : StoredIndex} {entry : IndexEntry} :
    entry ∈ index.listing ↔ index.buckets.Holds entry.key entry.rid :=
  mem_allEntries

section

variable {p : Int64 → Prop} {q : Binary64 → Prop} (hseparated : Value.Separated p q)
  {index : StoredIndex} (h : index.buckets.SortedIn fun key => Value.ItemsIn p q key)
  (hlists : index.buckets.ListsOnce)

include h hlists

/-- The listing is in strict order: keys ascend from bucket to bucket, `h`, and records within a
bucket, `hlists`. -/
theorem listing_strict : StrictlyAscending IndexEntry.compare index.listing :=
  allEntries_strict h.ascending hlists (List.Sublist.refl _)

include hseparated

/-- What `matching` finds for a lookup is in strict order. The blocks of several runs come one
behind the other: runs of one length that are not equal start no key together, and equal ones are
read once. -/
theorem matching_strict {query : IndexQuery}
    (hruns : ∀ leading ∈ query.runs, Value.ItemsIn p q leading) (heven : query.IsEven) :
    StrictlyAscending IndexEntry.compare (index.matching query) := by
  cases query with
  | exact leading =>
    exact allEntries_strict h.ascending hlists (Buckets.startingWith_sublist leading _)
  | range leading lower upper =>
      exact allEntries_strict h.ascending hlists
        (List.filter_sublist.trans (Buckets.startingWith_sublist leading _))
  | keyRange lower upper => exact allEntries_strict h.ascending hlists List.filter_sublist
  | oneOf choices =>
      obtain ⟨count, hlength⟩ := heven
      show StrictlyAscending _ ((sortChoices Key.compare choices).flatMap _)
      unfold StrictlyAscending
      rw [List.pairwise_flatMap]
      constructor
      · intro leading _
        exact allEntries_strict h.ascending hlists (Buckets.startingWith_sublist leading _)
      · -- of two runs the first one comes before the second, and so do the keys that start with
        -- them
        refine (sortChoices_strict (Key.totalOn_separated hseparated) hruns).imp_of_mem ?_
        intro a b ha hb hlt e he f hf
        have hchoice := mem_of_mem_sortChoices ha
        have hchoice' := mem_of_mem_sortChoices hb
        obtain ⟨⟨c, hc, hkey, -⟩, hstarts⟩ := (listed_startingWith_of_separated hseparated h
          (hruns a hchoice)).mp (mem_allEntries.mp he)
        obtain ⟨⟨d, hd, hkey', -⟩, hstarts'⟩ := (listed_startingWith_of_separated hseparated h
          (hruns b hchoice')).mp (mem_allEntries.mp hf)
        have hnot : f.key.startsWith a = false := by
          refine Bool.eq_false_iff.mpr fun hboth => ?_
          have heq := Key.compare_eq_of_startsWith hseparated (hruns a hchoice)
            (hruns b hchoice') (hkey' ▸ h.within d hd)
            ((hlength a hchoice).trans (hlength b hchoice').symm) hboth hstarts'
          rw [hlt] at heq
          cases heq
        have hkeys : e.key.compare f.key = .lt :=
          Key.lt_of_startsWith hseparated (hruns a hchoice) (hruns b hchoice')
            (hkey ▸ h.within c hc) (hkey' ▸ h.within d hd) hlt hstarts hstarts' hnot
        exact Ordering.then_eq_lt.mpr (.inl hkeys)

/-- A lookup finds the part of the listing that it selects, `Selects`: both are in strict order and
have the same members. -/
theorem matching_eq_filter {query : IndexQuery}
    (hruns : ∀ leading ∈ query.runs, Value.ItemsIn p q leading) (heven : query.IsEven) :
    index.matching query = index.listing.filter fun e => query.Selects e.key := by
  refine StrictlyAscending.eq_of_mem_iff IndexEntry.compare_swap
    (matching_strict hseparated h hlists hruns heven) ((listing_strict h hlists).filter _) ?_
  intro entry
  rw [mem_matching_of_separated hseparated h hruns, List.mem_filter, mem_listing,
    decide_eq_true_iff]

omit hseparated in
/-- Where the keys have one length, `hlength`, those that are all null stand in front of the
listing, as null is the least value. -/
theorem nulls_append {count : Nat} (hlength : ∀ entry ∈ index.listing, entry.key.length = count) :
    (index.listing.filter fun e => e.key.isNull) ++ (index.listing.filter fun e => !e.key.isNull) =
      index.listing := by
  have hstrict := listing_strict h hlists
  have hperm := List.filter_append_perm (fun e : IndexEntry => e.key.isNull) index.listing
  -- both lists have the same entries, and a strict order leaves one way to list them
  refine StrictlyAscending.eq_of_mem_iff IndexEntry.compare_swap ?_ hstrict
    fun entry => hperm.mem_iff
  refine List.pairwise_append.mpr ⟨hstrict.filter _, hstrict.filter _, ?_⟩
  intro e he f hf
  obtain ⟨hmem, hnull⟩ := List.mem_filter.mp he
  obtain ⟨hmem', hother⟩ := List.mem_filter.mp hf
  have hle := Key.isLE_of_isNull ((hlength e hmem).trans (hlength f hmem').symm) hnull
  have hne : e.key.compare f.key ≠ .eq := by
    intro heq
    have hmap := congrArg (List.all · id) (Key.map_isNull_congr (Key.forall₂_of_compare_eq heq))
    simp only [List.all_map, Function.id_comp] at hmap
    rw [Bool.not_eq_true', Key.isNull, ← hmap] at hother
    exact absurd hnull (Bool.eq_false_iff.mp hother)
  refine Ordering.then_eq_lt.mpr (.inl ?_)
  cases hcmp : e.key.compare f.key <;> simp_all

end

/-! ## After any writes

Any puts and erasures, in any order, leave an index of which all this holds. No record needs to be
behind the keys. -/

/-- After any writes of keys of the declared length, `hwrites`, the listing of an index is in strict
order, and what it answers are filters of the listing. A lookup gives the entries that it selects,
in the order of the listing or against it, a walk those whose key is not all null, and the others
stand in front of them. The numbers in the keys and in what a lookup starts with are separated,
`hseparated`; the runs of a lookup of several are equally long, `heven`. An index that is failing
answers nothing. -/
theorem reads_filter_listing {p : Int64 → Prop} {q : Binary64 → Prop}
    (hseparated : Value.Separated p q) {definition : IndexDefinition} {writes : List IndexWrite}
    (hwrites : ∀ write ∈ writes, write.KeyIn fun key =>
      key.length = definition.paramCount ∧ Value.ItemsIn p q key)
    (name : String) (kind : IndexKind) (failing : Bool) {query : IndexQuery}
    (hruns : ∀ leading ∈ query.runs, Value.ItemsIn p q leading) (heven : query.IsEven)
    (ascending : Bool) :
    let index := { writes.foldl write (.empty name kind definition) with failing }
    StrictlyAscending IndexEntry.compare index.listing ∧
      index.lookup query ascending =
        index.read (directed ascending (index.listing.filter fun e => query.Selects e.key)) ∧
      index.walk ascending =
        index.read (directed ascending (index.listing.filter fun e => !e.key.isNull)) ∧
      index.nulls = index.read (index.listing.filter fun e => e.key.isNull) ∧
      (index.listing.filter fun e => e.key.isNull) ++
        (index.listing.filter fun e => !e.key.isNull) = index.listing := by
  intro index
  -- every write keeps the keys in order and of the declared length
  have hsorted := sortedIn_ofWrites ((Key.totalOn_separated hseparated).mono And.right) hwrites
    name kind definition
  have h : index.buckets.SortedIn fun key => Value.ItemsIn p q key :=
    ⟨fun b hb => (hsorted.within b hb).2, hsorted.ascending⟩
  have hlists : index.buckets.ListsOnce := listsOnce_ofWrites writes name kind definition
  have hlength : ∀ entry ∈ index.listing, entry.key.length = definition.paramCount := by
    intro entry hentry
    obtain ⟨b, hb, hkey, -⟩ := mem_listing.mp hentry
    rw [← hkey]
    exact (hsorted.within b hb).1
  have hkept (keeps : Key → Bool) : Bucket.allEntries (index.buckets.elements.filter
      fun b => keeps b.key) = index.listing.filter fun e => keeps e.key :=
    Bucket.allEntries_filter keeps _
  refine ⟨listing_strict h hlists, ?_, ?_, ?_, nulls_append h hlists hlength⟩
  · show index.read (directed ascending (index.matching query)) = _
    rw [matching_eq_filter hseparated h hlists hruns heven]
  · show index.read (directed ascending (Bucket.allEntries _)) = _
    rw [hkept fun key => !key.isNull]
  · show index.read (Bucket.allEntries _) = _
    rw [hkept fun key => key.isNull]

/-- Keys of two components, with nulls, and one that is removed again. -/
def pairWrites : List IndexWrite :=
  [.put [.int 2, .null] ⟨1, 0⟩, .put [.int 1, .string "b"] ⟨1, 1⟩, .put [.null, .null] ⟨1, 2⟩,
    .put [.int 1, .string "a"] ⟨1, 4⟩, .put [.int 1, .string "a"] ⟨1, 3⟩,
    .put [.int 3, .int 0] ⟨1, 5⟩, .remove [.int 3, .int 0] ⟨1, 5⟩, .put [.null, .int 7] ⟨1, 6⟩]

/-- The index after `pairWrites`. -/
def pairIndex : StoredIndex :=
  pairWrites.foldl write (.empty "A.xy" .notUnique ⟨"A", ["x", "y"], false, .keys⟩)

/-- A lookup of two leading values, one of them twice among the choices of `oneOf`. -/
def pairQuery : IndexQuery := .oneOf [[.int 2], [.int 1], [.int 2]]

/-- The records of two leading values, from the last one to the first, are those of the `listing`
with them. -/
theorem lookup_pairs :
    (Value.Separated (fun _ => True) (fun _ => False) ∧
      (∀ write ∈ pairWrites, write.KeyIn fun key => key.length = pairIndex.definition.paramCount ∧
        Value.ItemsIn (fun _ => True) (fun _ => False) key) ∧
      (∀ leading ∈ pairQuery.runs, Value.ItemsIn (fun _ => True) (fun _ => False) leading) ∧
      pairQuery.IsEven) ∧
      pairIndex.lookup pairQuery false =
        .ok (pairIndex.listing.filter fun e => pairQuery.Selects e.key).reverse ∧
      (pairIndex.listing.filter fun e => pairQuery.Selects e.key).map (·.rid) =
        [⟨1, 3⟩, ⟨1, 4⟩, ⟨1, 1⟩, ⟨1, 0⟩] := by
  have hwrites : ∀ write ∈ pairWrites, write.KeyIn fun key =>
      key.length = pairIndex.definition.paramCount ∧
        Value.ItemsIn (fun _ => True) (fun _ => False) key := by
    have hcount : pairIndex.definition.paramCount = 2 := by decide +kernel
    simp [hcount, pairWrites, IndexWrite.KeyIn, Value.ItemsIn, Value.NumbersIn]
  have hruns : ∀ leading ∈ pairQuery.runs,
      Value.ItemsIn (fun _ => True) (fun _ => False) leading := by
    simp [pairQuery, IndexQuery.runs, Value.ItemsIn, Value.NumbersIn]
  -- both runs have one component
  have heven : pairQuery.IsEven := ⟨1, by simp [pairQuery, IndexQuery.runs]⟩
  have hreads := reads_filter_listing Value.separated_exact hwrites "A.xy" .notUnique false hruns
    heven false
  exact ⟨⟨Value.separated_exact, hwrites, hruns, heven⟩, hreads.2.1, by decide +kernel⟩

/-- Twelve integers, two of them rounded to `2 ^ 53`. The second of these two ends up in the node at
the top of the tree, and the first one below it. -/
def roundedWrites : List IndexWrite :=
  ([0, 1, 2, 3, 4, 9007199254740992, 9007199254740993, 9007199254740994, 9007199254740996,
    9007199254740998, 9007199254741000, 9007199254741002] : List Int64).zipIdx.map fun (n, i) =>
      .put [.int n] ⟨1, i⟩

/-- A lookup of the number `2 ^ 53` starts at the integer that it meets first, and misses the other
one, whose key starts with that number as well. -/
theorem lookup_roundedPrefix :
    let index := roundedWrites.foldl write (.empty "A.x" .notUnique ⟨"A", ["x"], false, .keys⟩)
    let query := IndexQuery.exact [.float ⟨0x4340000000000000⟩]
    (∀ entry ∈ index.listing,
      entry.key.length = index.definition.paramCount ∧ entry.key.isExact = true) ∧
      (index.listing.filter fun e => query.Selects e.key).map (·.rid) = [⟨1, 5⟩, ⟨1, 6⟩] ∧
      (index.lookup query true).toOption.map (fun entries => entries.map (·.rid)) =
        some [⟨1, 6⟩] := by
  decide +kernel

end StoredIndex

end RecordQuery
