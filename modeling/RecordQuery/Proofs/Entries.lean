import Mathlib.Data.List.Pairwise
import RecordQuery.Proofs.OrderedLookups

/-!
# `RecordQuery.Proofs.Entries`: the entries of an index, each of them once

A bucket lists its records in ascending order, whatever keys the index has, and no two buckets have
the same key. So a walk gives every entry once, and so does a lookup of one run of leading
components. A lookup of several runs reads them one after the other, and an entry whose key starts
with two of them comes twice.

`Buckets.ListsOnce` is the invariant of the buckets. It needs no order of keys: an insert puts the
identity in its place in one bucket, and the others stay. So it holds with floating-point numbers
too. That keys are different needs a total order, `Buckets.Ordered`.

`IndexQuery.Apart` is the exact condition for a lookup to give no entry twice, and `kept_nodup_iff`
says so for the part of the entries that an index target keeps. The same condition decides whether
the entries are in key order (`OrderedLookups`).

The theorems:

* `Store.Reachable.listsOnce`: the indexes of every reachable store list each record of a key once.
* `StoredIndex.allEntries_strict`: entries are in strict order, by key and then by record.
* `StoredIndex.exists_orderedWalk`: a walk gives every entry once.
* `StoredIndex.kept_nodup_iff`: a lookup gives no entry twice exactly if no key of its entries
  starts with two runs that are not equal.
-/

set_option autoImplicit false

namespace RecordQuery

/-! ## The records of a key

A key has a list of records, which a put and an erasure keep ascending. So a record stands once in
the list of a key, for any sequence of writes and with no condition on the keys. -/

/-- Putting an identity into an ascending list keeps it ascending: `insertRid` leaves out one that
is there. -/
theorem Bucket.insertRid_ascending {rid : Rid} {rids : List Rid}
    (h : rids.Pairwise fun r s => r.compare s = .lt) :
    (insertRid rid rids).Pairwise fun r s => r.compare s = .lt := by
  induction h with
  | nil => exact List.pairwise_singleton _ _
  | @cons r rs hr hrs ih =>
      unfold insertRid
      -- the identity comes first, is there already, or goes behind the first one
      split
      next hlt =>
        refine .cons (fun s hs => ?_) (.cons hr hrs)
        rcases List.mem_cons.mp hs with rfl | hs
        · exact hlt
        · exact Rid.totalOn.lt_trans trivial trivial trivial hlt (hr s hs)
      next => exact .cons hr hrs
      next hgt =>
        refine .cons (fun s hs => ?_) ih
        rcases Bucket.mem_insertRid.mp hs with rfl | hs
        · exact (Rid.totalOn.gt_iff_lt trivial trivial).mp hgt
        · exact hr s hs

/-- What a list holds after `List.modify` has changed one of its elements. -/
theorem mem_or_exists_of_mem_modify {α : Type} {change : α → α} {i : Nat} {xs : List α} {y : α}
    (h : y ∈ xs.modify i change) : y ∈ xs ∨ ∃ x ∈ xs, change x = y := by
  obtain ⟨j, hj⟩ := List.mem_iff_getElem?.mp h
  rw [List.getElem?_modify] at hj
  obtain ⟨x, hx, rfl⟩ := Option.map_eq_some_iff.mp hj
  have hmem := List.mem_of_getElem? hx
  split
  · exact .inr ⟨x, hmem, rfl⟩
  · exact .inl hmem

namespace Buckets

/-- Every bucket lists its `rids` in ascending order, each of them once. Nothing is said of keys. -/
def ListsOnce (buckets : Buckets) : Prop :=
  ∀ b ∈ buckets.elements, b.rids.Pairwise fun r s => r.compare s = .lt

variable {buckets : Buckets}

/-- `insert` keeps the records of every key in order, also when the record is there already. -/
theorem ListsOnce.insert (h : buckets.ListsOnce) (key : Key) (rid : Rid) :
    (buckets.insert key rid).ListsOnce := by
  intro b hb
  unfold Buckets.insert at hb
  split at hb
  · rcases mem_or_exists_of_mem_modify hb with hb | ⟨c, hc, rfl⟩
    · exact h b hb
    · exact Bucket.insertRid_ascending (h c hc)
  · rcases List.eq_or_mem_of_mem_insertIdx hb with rfl | hb
    · exact List.pairwise_singleton _ _
    · exact h b hb

/-- `erase` keeps the records of every key in order. -/
theorem ListsOnce.erase (h : buckets.ListsOnce) (key : Key) (rid : Rid) :
    (buckets.erase key rid).ListsOnce := by
  intro b hb
  unfold Buckets.erase at hb
  split at hb
  · dsimp only at hb
    split at hb
    · exact h b (List.mem_of_mem_eraseIdx hb)
    · rcases mem_or_exists_of_mem_modify hb with hb | ⟨c, hc, rfl⟩
      · exact h b hb
      · exact (h c hc).filter _
  · exact h b hb

end Buckets

namespace StoredIndex

/-- Keys that come and go keep the records of every key in order: the cases of `Invariant` are the
ways in which an index of a store may change. -/
theorem invariant_listsOnce {admits : Fields → Prop} :
    Invariant admits fun index => index.buckets.ListsOnce where
  empty _ _ _ b hb := by cases hb
  put {_ _ key record} _ _ hindex hput := by
    rw [put_ok hput]
    exact hindex.insert key record.rid
  remove {_ key record} _ _ hindex := hindex.erase key record.rid
  switch _ hindex := hindex

end StoredIndex

/-- Whatever `writes` go to an index, it lists each record of a key once. -/
theorem StoredIndex.listsOnce_ofWrites (writes : List IndexWrite) (name : String)
    (kind : IndexKind) (definition : IndexDefinition) :
    (writes.foldl write (.empty name kind definition)).buckets.ListsOnce := by
  refine List.foldlRecOn (motive := fun index : StoredIndex => index.buckets.ListsOnce) writes
    write (fun b hb => by cases hb) fun index h made _ => ?_
  cases made with
  | put key rid =>
      rw [StoredIndex.write]
      cases hput : index.put key rid with
      | error failure => exact h
      | ok next =>
          obtain rfl := put_ok hput
          exact h.insert key rid
  | remove key rid => exact h.erase key rid
  | clear => exact fun b hb => by cases hb

/-- Every index of a reachable store lists each record of a key once, whatever is stored,
`admits`. -/
theorem Store.Reachable.listsOnce {admits : Fields → Prop} {store : Store}
    (h : Reachable admits store) : ∀ index ∈ store.indexes, index.buckets.ListsOnce :=
  StoredIndex.invariant_listsOnce.reachable h

/-! ## The order of entries

Entries are ordered by key and then by record. In this order all entries of an index are strictly
ascending, and so they are distinct. -/

/-- In a list that is `StrictlyAscending` no element stands twice. -/
theorem StrictlyAscending.nodup {α : Type} {cmp : α → α → Ordering}
    (hswap : ∀ a b, cmp b a = (cmp a b).swap) {xs : List α} (hxs : StrictlyAscending cmp xs) :
    xs.Nodup := by
  refine List.Pairwise.imp ?_ hxs
  rintro a _ hlt rfl
  rw [eq_of_eq_swap (hswap a a)] at hlt
  cases hlt

/-- The order of entries: by `key`, and by `rid` where the keys are equal. -/
def IndexEntry.compare (e f : IndexEntry) : Ordering :=
  (e.key.compare f.key).then (e.rid.compare f.rid)

/-- Exchanging two entries turns `IndexEntry.compare` around. -/
theorem IndexEntry.compare_swap (e f : IndexEntry) : f.compare e = (e.compare f).swap := by
  unfold compare
  rw [Ordering.swap_then, show f.key.compare e.key = (e.key.compare f.key).swap from
    Value.compareItems_swap _ _, Rid.totalOn.swap trivial trivial]

/-! ## Walks and lookups

A walk gives every entry once. A lookup of several choices reads the entries of one choice after the
other, and so gives an entry as often as its key starts with one of them. -/

namespace StoredIndex

/-- The entries of some buckets of an index, taken in their order (`hbuckets`), are in strict order:
by key from bucket to bucket, and by record within one. -/
theorem allEntries_strict {index : StoredIndex}
    (hascending : index.buckets.elements.Pairwise fun b c => b.key.compare c.key = .lt)
    (hlists : index.buckets.ListsOnce) {buckets : List Bucket}
    (hbuckets : buckets.Sublist index.buckets.elements) :
    StrictlyAscending IndexEntry.compare (Bucket.allEntries buckets) := by
  refine allEntries_pairwise (hascending.sublist hbuckets) ?_ ?_
  · -- the entries of one bucket are in the order of their records
    intro b hb
    refine (hlists b (hbuckets.subset hb)).imp fun {r s} hlt => ?_
    exact Ordering.then_eq_lt.mpr (.inr ⟨Key.compare_self b.key, hlt⟩)
  · intro e f hlt
    exact Ordering.then_eq_lt.mpr (.inl hlt)

section

variable {index : StoredIndex} (h : index.buckets.Ordered) (hlists : index.buckets.ListsOnce)

include h hlists

/-- No entry stands twice among those of some buckets of an index, taken in their order. -/
theorem allEntries_nodup {buckets : List Bucket}
    (hbuckets : buckets.Sublist index.buckets.elements) : (Bucket.allEntries buckets).Nodup :=
  (allEntries_strict h.ascending hlists hbuckets).nodup IndexEntry.compare_swap

/-- A walk that is not refused gives every entry once, null keys only if they are asked for,
`includeNulls`. -/
theorem exists_orderedWalk (hread : index.failing = false) (ascending includeNulls : Bool) :
    ∃ walked, Index.orderedWalk (.stored index) ascending includeNulls = .ok walked ∧
      walked.Nodup ∧ ∀ entry, entry ∈ walked ↔ index.buckets.Holds entry.key entry.rid ∧
        (includeNulls = true ∨ entry.key.isNull = false) := by
  let values := Bucket.allEntries (index.buckets.elements.filter fun b => !b.key.isNull)
  let nulls := Bucket.allEntries (index.buckets.elements.filter fun b => b.key.isNull)
  have hvalues (entry : IndexEntry) : entry ∈ values ↔
      index.buckets.Holds entry.key entry.rid ∧ entry.key.isNull = false := by
    refine mem_allEntries.trans ((listed_filter fun key => !key.isNull).trans ?_)
    rw [Bool.not_eq_true']
    rfl
  have hnulls (entry : IndexEntry) : entry ∈ nulls ↔
      index.buckets.Holds entry.key entry.rid ∧ entry.key.isNull = true :=
    mem_allEntries.trans (listed_filter fun key => key.isNull)
  have hvaluesOnce : values.Nodup := allEntries_nodup h hlists List.filter_sublist
  have hnullsOnce : nulls.Nodup := allEntries_nodup h hlists List.filter_sublist
  have hdirected : (directed ascending values).Perm values := directed_perm _ _
  have hwalk : Index.orderedWalk (.stored index) ascending includeNulls =
      .ok (if includeNulls then
        (if ascending then nulls ++ directed ascending values
          else directed ascending values ++ nulls)
        else directed ascending values) := by
    unfold Index.orderedWalk
    simp only [Index.walk, Index.nulls, StoredIndex.walk, StoredIndex.nulls, read, hread]
    cases includeNulls <;> cases ascending <;> rfl
  refine ⟨_, hwalk, ?_⟩
  cases includeNulls with
  | false =>
      refine ⟨hdirected.nodup_iff.mpr hvaluesOnce, fun entry => ?_⟩
      rw [if_neg (by simp), hdirected.mem_iff, hvalues]
      simp
  | true =>
      -- the direction decides on which side the null keys stand, and not which entries there are
      have hboth : (nulls ++ values).Perm (if ascending then nulls ++ directed ascending values
          else directed ascending values ++ nulls) := by
        split
        · exact hdirected.symm.append_left nulls
        · exact List.perm_append_comm.trans (hdirected.symm.append_right nulls)
      rw [if_pos rfl, ← hboth.nodup_iff]
      refine ⟨List.nodup_append.mpr ⟨hnullsOnce, hvaluesOnce, ?_⟩, fun entry => ?_⟩
      · rintro e he _ hf rfl
        have hnull := ((hnulls e).mp he).2
        rw [((hvalues e).mp hf).2] at hnull
        cases hnull
      · rw [← hboth.mem_iff, List.mem_append, hnulls, hvalues]
        cases entry.key.isNull <;> simp

omit hlists in
/-- The entries that start with the components `leading`, and that `keeps` accepts. -/
theorem mem_keptStartingWith (keeps : Key → Bool) {leading : Key} (hleading : leading.IsSharp)
    {e : IndexEntry} :
    e ∈ (Bucket.allEntries (index.buckets.startingWith leading)).filter (fun e => keeps e.key) ↔
      (index.buckets.Holds e.key e.rid ∧ e.key.startsWith leading = true) ∧ keeps e.key = true :=
  List.mem_filter.trans (and_congr_left' (mem_allEntries.trans (listed_startingWith h hleading)))

omit hlists in
/-- Where a lookup of several runs, `choices`, gives no kept entry twice, no key of them starts with
two runs that are not equal: such an entry would be read with both. -/
theorem apart_of_kept_nodup (keeps : Key → Bool) {choices : List Key}
    (hsharp : (IndexQuery.oneOf choices).IsSharp)
    (honce : ((index.matching (.oneOf choices)).filter fun e => keeps e.key).Nodup) :
    (IndexQuery.oneOf choices).Apart
      (· ∈ ((index.matching (.oneOf choices)).filter fun e => keeps e.key).map (·.key)) := by
  intro a ha b hb key hkey hstarts hstarts'
  obtain ⟨e, he, rfl⟩ := List.mem_map.mp hkey
  obtain ⟨hmatching, hkeeps⟩ := List.mem_filter.mp he
  obtain ⟨hholds, -⟩ := (mem_matching h hsharp).mp hmatching
  have hexact : e.key.IsSharp := by
    obtain ⟨c, hc, hkey, -⟩ := hholds
    exact .of_isExact (hkey ▸ h.exact c hc)
  -- sorting keeps an equal one of each of the two runs, and the entry is found for both
  obtain ⟨a', ha', heq⟩ := exists_mem_sortChoices Key.compare_self ha
  obtain ⟨b', hb', heq'⟩ := exists_mem_sortChoices Key.compare_self hb
  have hsharpA := hsharp a' (mem_of_mem_sortChoices ha')
  have hsharpB := hsharp b' (mem_of_mem_sortChoices hb')
  rw [← Key.startsWith_congr_right Value.separated_sharp hexact hsharpA (hsharp a ha) heq] at hstarts
  rw [← Key.startsWith_congr_right Value.separated_sharp hexact hsharpB (hsharp b hb) heq'] at hstarts'
  by_contra hne
  have hdifferent : a' ≠ b' := by
    rintro rfl
    rw [← Key.totalOn_sharp.congr_left hsharpA (hsharp a ha) (hsharp b hb) heq] at hne
    exact hne heq'
  have hsymm : Std.Symm fun a b : Key =>
      ∀ e ∈ (Bucket.allEntries (index.buckets.startingWith a)).filter (fun e => keeps e.key),
      ∀ f ∈ (Bucket.allEntries (index.buckets.startingWith b)).filter (fun e => keeps e.key),
        e ≠ f := ⟨fun _ _ hdisjoint e he f hf heq => hdisjoint f hf e he heq.symm⟩
  rw [kept_oneOf] at honce
  exact (List.pairwise_flatMap.mp honce).2.forall ha' hb' hdifferent
    e ((mem_keptStartingWith h keeps hsharpA).mpr ⟨⟨hholds, hstarts⟩, hkeeps⟩)
    e ((mem_keptStartingWith h keeps hsharpB).mpr ⟨⟨hholds, hstarts'⟩, hkeeps⟩) rfl

/-- A lookup gives no kept entry twice exactly if no key of them starts with two runs of components
that are not equal. `hentries` leaves their order open, as a lookup may read backwards. -/
theorem kept_nodup_iff (keeps : Key → Bool) {query : IndexQuery} (hsharp : query.IsSharp)
    {entries : List IndexEntry}
    (hentries : entries.Perm ((index.matching query).filter fun e => keeps e.key)) :
    entries.Nodup ↔ query.Apart (· ∈ entries.map (·.key)) := by
  have hkeys : (· ∈ entries.map (·.key)) =
      (· ∈ ((index.matching query).filter fun e => keeps e.key).map (·.key)) :=
    funext fun key => propext (hentries.map _).mem_iff
  rw [hkeys, hentries.nodup_iff]
  -- one run gives some of the buckets, and there are no two runs
  have hone {leading : Key} {buckets : List Bucket}
      (hbuckets : buckets.Sublist index.buckets.elements) (p : Key → Prop) :
      ((Bucket.allEntries buckets).filter fun e => keeps e.key).Nodup ↔
        ∀ a ∈ [leading], ∀ b ∈ [leading], ∀ key, p key → key.startsWith a = true →
          key.startsWith b = true → a.compare b = .eq := by
    refine iff_of_true ((allEntries_nodup h hlists hbuckets).filter _) fun a ha b hb _ _ _ _ => ?_
    rw [List.mem_singleton.mp ha, List.mem_singleton.mp hb, Key.compare_self]
  cases query with
  | exact leading => exact hone (Buckets.startingWith_sublist leading _) _
  | range leading lower upper =>
      exact hone (List.filter_sublist.trans (Buckets.startingWith_sublist leading _)) _
  | keyRange lower upper =>
      exact iff_of_true ((allEntries_nodup h hlists List.filter_sublist).filter _)
        fun a ha => absurd ha List.not_mem_nil
  | oneOf choices =>
      refine ⟨apart_of_kept_nodup h keeps hsharp, fun hapart => ?_⟩
      rw [kept_oneOf] at hapart ⊢
      refine List.pairwise_flatMap.mpr ⟨fun leading _ =>
        (allEntries_nodup h hlists (Buckets.startingWith_sublist leading _)).filter _, ?_⟩
      -- an entry that two runs give has a key that starts with both
      refine (sortChoices_strict Key.totalOn_sharp hsharp).imp_of_mem ?_
      rintro a b ha hb hlt e he _ hf rfl
      have hchoice := mem_of_mem_sortChoices ha
      have hchoice' := mem_of_mem_sortChoices hb
      have heq := hapart a hchoice b hchoice' e.key
        (List.mem_map_of_mem (List.mem_flatMap.mpr ⟨a, ha, he⟩))
        ((mem_keptStartingWith h keeps (hsharp a hchoice)).mp he).1.2
        ((mem_keptStartingWith h keeps (hsharp b hchoice')).mp hf).1.2
      rw [hlt] at heq
      cases heq

end

end StoredIndex

end RecordQuery
