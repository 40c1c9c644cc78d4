import RecordQuery.Proofs.Lookups
import RecordQuery.Proofs.Plans
import RecordQuery.Proofs.StreamOrder

/-!
# `RecordQuery.Proofs.ExactRecords`: the records that a plan reads

An opened source gives live records, except for an index target: it shows the entries of the index
as records of their own, `entryRecord`, with a key of a live record in each. So in a store without
floating-point numbers no record that a plan draws has one.

`Store.IsExact` says that there are none, in the live records and in the keys of the indexes. The
second half does not follow from the first: an index may hold entries that were put there by hand,
and an index target shows them. `Store.Reachable.isExact` proves both where the indexes are filled
from the records. `Source.ReadsFrom` is the invariant of planning that is needed for it, that an
index target is one of the store's own indexes; `Index.joined` never becomes a target.

The theorems:

* `Store.readsFrom_of_plan`: a plan asks only indexes of the store to show their entries.
* `Store.IsExact.givesExact_of_plan`: the records of an opened plan are exact.
-/

set_option autoImplicit false

namespace RecordQuery

/-! ## Entries

The entries that an index gives are entries that it holds, so the keys in them are exact if all keys
of the index are. -/

namespace StoredIndex

/-- The entries of some buckets of an index are held by the index, `Buckets.Holds`. -/
theorem holds_of_allEntries {index : StoredIndex} {buckets : List Bucket}
    (hbuckets : ∀ b ∈ buckets, b ∈ index.buckets.elements) {entry : IndexEntry}
    (hentry : entry ∈ Bucket.allEntries buckets) : index.buckets.Holds entry.key entry.rid := by
  obtain ⟨b, hb, hkey, hrid⟩ := mem_allEntries.mp hentry
  exact ⟨b, hbuckets b hb, hkey, hrid⟩

/-- A `lookup` gives entries that the index `Holds`, whatever `query` asks for. Whether they are the
right ones does not matter here. -/
theorem holds_of_lookup {index : StoredIndex} {query : IndexQuery} {ascending : Bool}
    {entries : List IndexEntry} (hok : index.lookup query ascending = .ok entries) :
    ∀ entry ∈ entries, index.buckets.Holds entry.key entry.rid := by
  intro entry hentry
  rw [mem_of_lookup hok] at hentry
  cases query with
  | exact leading =>
      exact holds_of_allEntries (Buckets.startingWith_sublist leading _).subset hentry
  | oneOf choices =>
      obtain ⟨leading, -, hentry⟩ := List.mem_flatMap.mp hentry
      exact holds_of_allEntries (Buckets.startingWith_sublist leading _).subset hentry
  | range leading lower upper =>
      refine holds_of_allEntries (fun b hb => ?_) hentry
      exact (Buckets.startingWith_sublist leading _).subset (List.mem_of_mem_filter hb)
  | keyRange lower upper =>
      exact holds_of_allEntries (fun b hb => List.mem_of_mem_filter hb) hentry

/-- An `orderedWalk` gives entries that the index `Holds`, with null keys or without. -/
theorem holds_of_walk {index : StoredIndex} {ascending includeNulls : Bool}
    {entries : List IndexEntry}
    (hok : Index.orderedWalk (.stored index) ascending includeNulls = .ok entries) :
    ∀ entry ∈ entries, index.buckets.Holds entry.key entry.rid := by
  -- a walk lists some of the buckets, one way or the other
  have hfilter (keeps : Bucket → Bool) {entry : IndexEntry}
      (hentry : entry ∈ Bucket.allEntries (index.buckets.elements.filter keeps)) :
      index.buckets.Holds entry.key entry.rid :=
    holds_of_allEntries (fun b hb => List.mem_of_mem_filter hb) hentry
  unfold Index.orderedWalk at hok
  obtain ⟨values, hvalues, hok⟩ := Steps.bind_eq_ok.mp hok
  have hvalues : ∀ entry ∈ values, index.buckets.Holds entry.key entry.rid := by
    intro entry hentry
    rw [eq_of_read hvalues] at hentry
    exact hfilter _ ((directed_perm _ _).mem_iff.mp hentry)
  cases includeNulls with
  | false =>
      cases hok
      exact hvalues
  | true =>
      obtain ⟨nulls, hnulls, hok⟩ := Steps.bind_eq_ok.mp hok
      have hnulls : ∀ entry ∈ nulls, index.buckets.Holds entry.key entry.rid := by
        intro entry hentry
        rw [eq_of_read hnulls] at hentry
        exact hfilter _ hentry
      cases hok
      intro entry hentry
      split at hentry
      · exact (List.mem_append.mp hentry).elim (hnulls entry) (hvalues entry)
      · exact (List.mem_append.mp hentry).elim (hvalues entry) (hnulls entry)

end StoredIndex

/-- The `entryRecord` that shows an entry with an exact key is exact: its other field is an
identity. -/
theorem entryRecord_isExact {entry : IndexEntry} (h : entry.key.isExact = true)
    (composite : Bool) : (entryRecord composite entry).isExact = true := by
  have hkey : (if composite then Value.list entry.key
      else entry.key.head?.getD .null).isExact = true := by
    cases composite with
    | true => exact h
    | false =>
        cases hhead : entry.key.head? with
        | none => rfl
        | some v => exact Value.areExact_iff.mp h v (List.mem_of_mem_head? hhead)
  simpa [entryRecord, Record.isExact, Value.entriesExact, Value.isExact] using hkey

/-! ## Sources

Only a plan for an index target shows entries as records. `Source.ReadsFrom` keeps this case apart
from the others, in which records come from the store. -/

mutual

/-- The source reads records, or asks an index of the store to show its entries. Only `indexTarget`
shows entries, and only `fanOut` has parts. -/
def Source.ReadsFrom (store : Store) : Source → Prop
  | .indexTarget index _ _ _ => ∃ stored ∈ store.indexes, index = .stored stored
  | .fanOut parts => Source.AllReadFrom store parts
  | _ => True

/-- Each of the sources `ReadsFrom` the store: it reads records, or asks an index of the store to
show its entries. -/
def Source.AllReadFrom (store : Store) : List Source → Prop
  | [] => True
  | part :: parts => part.ReadsFrom store ∧ Source.AllReadFrom store parts

end

namespace Store

section

variable {store : Store}

/-- The parts of a fan-out for some subclasses read records. `hbelow` is the hypothesis of the
induction on the depth of the classes. -/
theorem allReadFrom_of_fansBelow {vars : Fields} {condition : Condition} {query : SelectQuery}
    {below : String → Option FanOut}
    (hbelow : ∀ sub fan, below sub = some fan → Source.AllReadFrom store fan.1)
    {subs : List String} {fan : FanOut}
    (h : FansBelow store vars condition query below subs fan) : Source.AllReadFrom store fan.1 := by
  induction h with
  | nil => exact trivial
  | lookups _ _ ih => exact ⟨trivial, ih⟩
  | nested hinner _ ih => exact ⟨hbelow _ _ hinner, ih⟩
  | hollow _ _ _ ih => exact ih

/-- The parts of a fan-out read records, so they are `AllReadFrom`. The induction is on `steps`. -/
theorem allReadFrom_of_fanOut {vars : Fields} {condition : Condition} {query : SelectQuery}
    {range : RidRange} {steps : Nat} {className : String} {fan : FanOut}
    (h : store.fanOutWithin vars condition query range steps className = some fan) :
    Source.AllReadFrom store fan.1 := by
  induction steps generalizing className fan with
  | zero => cases h
  | succ steps ih =>
      obtain ⟨parts, sorted, hparts, hcases⟩ := fanOutWithin_succ h
      have hread := allReadFrom_of_fansBelow (fun _ _ => ih) hparts
      rcases hcases with ⟨-, rfl⟩ | ⟨-, rfl⟩
      · exact hread
      · exact ⟨trivial, hread⟩

/-- The source of a `ClassPlan` reads records, as only index targets show entries. -/
theorem readsFrom_of_classPlan {vars : Fields} {className : String} {polymorphic : Bool}
    {filter : Option Condition} {query : SelectQuery} {plan : Plan}
    (hplan : ClassPlan store vars className polymorphic filter query plan) {source : Source}
    (hsource : plan.source = .rows source) : source.ReadsFrom store := by
  cases hplan with
  | count column hcolumn hcount hunchecked => cases hcount.symm.trans hsource
  | lookups condition selection hfilter hselect hreads =>
      cases hreads.source.symm.trans hsource
      exact trivial
  | fanOut condition parts sorted hpolymorphic hfilter hfan hreads =>
      cases hreads.source.symm.trans hsource
      exact allReadFrom_of_fanOut hfan
  | walk index ascending hindex hreads =>
      cases hreads.source.symm.trans hsource
      exact trivial
  | scan hreads =>
      cases hreads.source.symm.trans hsource
      exact trivial

/-- A plan for a target asks only indexes of the store to show their entries. The cases are those of
`planTarget`. -/
theorem readsFrom_of_planTarget {vars : Fields} {filter : Option Condition} {query : SelectQuery}
    {plan : Plan} (h : store.planTarget vars filter query = .ok plan) {source : Source}
    (hsource : plan.source = .rows source) : source.ReadsFrom store := by
  cases planTarget_ok h with
  | ofClass _ _ _ _ hclass => exact readsFrom_of_classPlan hclass hsource
  | scan _ hreads | records _ hreads =>
      cases hreads.symm.trans hsource
      exact trivial
  | index stored hstored _ _ _ hreads =>
      cases hreads.symm.trans hsource
      exact ⟨stored, hstored, rfl⟩

/-- Any plan `ReadsFrom` the store: it asks only indexes of the store to show their entries. -/
theorem readsFrom_of_plan {options : Options} {query : SelectQuery} {vars : Fields}
    {inTransaction : Bool} {plan : Plan}
    (h : store.plan options query vars inTransaction = .ok plan) {source : Source}
    (hsource : plan.source = .rows source) : source.ReadsFrom store := by
  obtain ⟨-, planned, pairs, parallel, hplanned, -, rfl⟩ := plan_ok h
  exact readsFrom_of_planTarget hplanned hsource

end

/-! ## Streams

From the store to the stream of a plan: live records are exact, keys are exact, and so is every
record that the stream may give. -/

/-- There are no floating-point numbers in the store, neither in live records nor in the keys of
indexes. What a query delivers in order is then in a total order. -/
structure IsExact (store : Store) : Prop where
  /-- Every live record is exact. -/
  records : ∀ r, store.Live r → r.isExact = true
  /-- The keys of every index are exact. -/
  keys : ∀ index ∈ store.indexes, ∀ b ∈ index.buckets.elements, b.key.isExact = true

/-- A `Reachable` store into which only exact fields are inserted (`hadmits`) is exact. The keys are
made from fields of live records, so they have no other numbers. -/
theorem Reachable.isExact {admits : Fields → Prop} {store : Store}
    (hadmits : ∀ fields, admits fields → Value.entriesExact fields = true)
    (h : Reachable admits store) : store.IsExact where
  records _ hr := hadmits _ (h.admits_of_live hr)
  keys index hindex := (h.mirrors hadmits index hindex).ordered.exact

section

variable {store : Store} {merges : Bool}

/-- A loaded record is exact, as in a `Sound` store only live records are loaded. -/
theorem IsExact.load (h : store.IsExact) (hsound : store.Sound) {rid : Rid} {r : Record}
    (hr : store.load rid = some r) :
    r.isExact = true :=
  h.records r (hsound.load_eq_some_iff.mp hr).1

/-- The contents of a `lookup` give exact records: those it loads are live. -/
theorem IsExact.givesExact_lookup (h : store.IsExact) (hsound : store.Sound) (rids : List Rid) :
    Stream.GivesExact store.load (Stream.lookup rids).contents := by
  rintro r (hr | hr | ⟨-, hr⟩)
  · cases hr
  · cases hr
  · exact h.load hsound hr

/-- The contents of a `scan` give exact records, as all it scans are live. -/
theorem IsExact.givesExact_scan (h : store.IsExact) (hsound : store.Sound)
    {ids : List ClusterId} {direction : ScanDirection} {range : RidRange} {items : List ScanItem}
    (hitems : store.scanClusters ids direction range = .ok items) :
    Stream.GivesExact store.load (Stream.scan items true).contents := by
  rintro r (hr | hr | ⟨hr, -⟩)
  · cases hr
  · exact h.records r (hsound.mem_of_scanned hitems hr).1
  · cases hr

/-- The contents of `plain` records give exact ones if these are (`hrecords`). -/
theorem givesExact_plain {records : List Record} (hrecords : ∀ r ∈ records, r.isExact = true) :
    Stream.GivesExact store.load (Stream.plain records).contents := by
  rintro r (hr | hr | ⟨hr, -⟩)
  · cases hr
  · obtain ⟨s, hs, heq⟩ := List.mem_map.mp hr
    cases heq
    exact hrecords r hs
  · cases hr

mutual

/-- The records of an opened source are exact. The recursion is that of `Source.opened`, over the
parts of a fan-out. -/
theorem IsExact.givesExact_of_opened (h : store.IsExact) (hsound : store.Sound) :
    ∀ {source : Source} {stream : Stream} {sorted : Bool}, source.ReadsFrom store →
      source.opened store merges = .ok (.stream stream sorted) →
      Stream.GivesExact store.load stream.contents
  | .records rids, _, _, _, hopened => by
      unfold Source.opened at hopened
      cases hopened
      refine givesExact_plain fun r hr => ?_
      obtain ⟨rid, -, hload⟩ := List.mem_filterMap.mp hr
      exact h.load hsound hload
  | .scan plan, _, _, _, hopened => by
      obtain ⟨items, hitems, rfl, -⟩ := opened_scan hopened
      exact h.givesExact_scan hsound hitems
  | .union branches, _, _, _, hopened => by
      obtain ⟨rids, _, -, rfl, -⟩ := opened_union hopened
      exact h.givesExact_lookup hsound rids
  | .sortedWalk index ascending, _, _, _, hopened => by
      obtain ⟨entries, -, rfl, -⟩ := opened_walk hopened
      exact h.givesExact_lookup hsound _
  | .fanOut parts, _, _, hreads, hopened => by
      obtain ⟨streams, hparts, rfl⟩ := opened_fanOut hopened
      rw [contents_fanOut]
      exact h.givesExact_of_openedParts hsound hreads hparts
  | .indexTarget index wanted keys ascending, _, _, hreads, hopened => by
      obtain ⟨stored, hstored, rfl⟩ := hreads
      have hkeys := h.keys stored hstored
      unfold Source.opened at hopened
      obtain ⟨entries, hentries, hstream⟩ := Steps.map_ok hopened
      cases hstream
      -- an entry becomes a record that shows its key, which is a key of the index
      have hheld : ∀ entry ∈ entries, stored.buckets.Holds entry.key entry.rid := by
        cases wanted with
        | none => exact StoredIndex.holds_of_walk hentries
        | some query => exact StoredIndex.holds_of_lookup hentries
      refine givesExact_plain fun r hr => ?_
      obtain ⟨entry, hentry, rfl⟩ := List.mem_map.mp hr
      obtain ⟨b, hb, hkey, -⟩ := hheld entry (List.mem_of_mem_filter hentry)
      exact entryRecord_isExact (hkey ▸ hkeys b hb) _

/-- The contents of opened parts give exact records. Mutual with the lemma about an opened
source. -/
theorem IsExact.givesExact_of_openedParts (h : store.IsExact) (hsound : store.Sound) :
    ∀ {parts : List Source} {streams : List Stream} {sorted : Bool},
      Source.AllReadFrom store parts →
      Source.openedParts store merges parts = .ok (.ok (streams, sorted)) →
      Stream.GivesExact store.load (Stream.contentsOfAll streams)
  | [], _, _, _, hopened => by
      unfold Source.openedParts at hopened
      cases hopened
      rintro r (hr | hr | ⟨hr, -⟩) <;> cases hr
  | part :: parts, _, _, ⟨hread, hreads⟩, hopened => by
      obtain ⟨stream, first, others, rest, hfirst, hothers, rfl, -⟩ := openedParts_cons hopened
      intro r hr
      rcases Contents.gives_append.mp hr with hr | hr
      · exact h.givesExact_of_opened hsound hread hfirst r hr
      · exact h.givesExact_of_openedParts hsound hreads hothers r hr

end

/-- The records of an opened plan are exact, by `readsFrom_of_plan`. -/
theorem IsExact.givesExact_of_plan (h : store.IsExact) (hsound : store.Sound)
    {options : Options} {query : SelectQuery} {vars : Fields} {inTransaction : Bool} {plan : Plan}
    (hplan : store.plan options query vars inTransaction = .ok plan) {source : Source}
    (hsource : plan.source = .rows source) {stream : Stream} {ordered : Bool}
    (hopened : plan.opened store query source = .ok (stream, ordered)) :
    Stream.GivesExact store.load stream.contents := by
  rcases Plan.opened_cases hopened with ⟨_, hopened, -⟩ | ⟨_, _, items, -, -, hitems, rfl, -⟩
  · exact h.givesExact_of_opened hsound (readsFrom_of_plan hplan hsource) hopened
  · exact h.givesExact_scan hsound hitems

end

end Store

end RecordQuery
