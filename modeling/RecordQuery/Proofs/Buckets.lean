import Mathlib.Data.List.InsertIdx
import RecordQuery.Index.Stored
import RecordQuery.Proofs.Levels
import RecordQuery.Proofs.Sorting
import RecordQuery.Proofs.ValueOrder

/-!
# `RecordQuery.Proofs.Buckets`: what the buckets of an index hold

The buckets of an index are a `LeveledList` with one bucket for each key and the records under the
key in it. A change looks for the place of its key, and finds a bucket whose key compares equal, or
the gap between two buckets. Where the order is total on the keys, buckets behave as a relation
between keys and records, and there are two such relations. `Buckets.Finds key rid` is about a key
that *equals* the given one, as a search sees it. `Buckets.Holds key rid` is about the key itself.
For exact keys the two are the same (`Buckets.Ordered.finds_iff`).

There are two invariants to go with them. `Buckets.SortedIn p` says that the keys are strictly
ascending and have the property `p`, and everything about it takes a hypothesis
`TotalOn Key.compare p`. `Buckets.Ordered` is the case of exact keys. Each change is opened once
(`insert_cases`, `erase_cases`), with what it does to the list of buckets. That the invariants are
kept and what is found afterwards follow from that. The levels of the list never occur, because of
`LeveledList.locate_eq`.

The theorems:

* `Buckets.SortedIn.finds_insert`, `Buckets.SortedIn.finds_erase`: a change adds or removes the
  record under the keys that equal its own.
* `Buckets.Ordered.holds_insert`, `Buckets.Ordered.holds_erase`: with exact keys it adds or removes
  one entry and no other.
* `Buckets.SortedIn.mem_startingWith`: a lookup of leading components finds every key that starts
  with them.
* `Buckets.startingWith_sublist`: it gives the buckets in their order, also in an order that
  contradicts itself.
-/

set_option autoImplicit false

namespace RecordQuery

universe u

/-! ## Places in a list

Inserting at a place, changing there and searching are all brought to one form: the list cut into
what comes before the place and what comes behind it. -/

/-- The list is cut at `place`, and `List.set` there leaves both parts alone. -/
theorem exists_cut_of_getElem? {α : Type u} {xs : List α} {place : Nat} {x : α}
    (h : xs[place]? = some x) :
    ∃ before after, xs = before ++ x :: after ∧ before.length = place ∧
      ∀ y, xs.set place y = before ++ y :: after := by
  obtain ⟨hplace, rfl⟩ := List.getElem?_eq_some_iff.mp h
  refine ⟨xs.take place, xs.drop (place + 1), ?_, ?_, fun y => ?_⟩
  · rw [List.getElem_cons_drop, List.take_append_drop]
  · rw [List.length_take]
    omega
  · rw [List.set_eq_take_append_cons_drop, if_pos hplace]

/-- `List.insertIdx` at the length of a beginning puts the element behind it. -/
theorem insertIdx_length_append {α : Type u} (before behind : List α) (x : α) :
    (before ++ behind).insertIdx before.length x = before ++ x :: behind := by
  induction before with
  | nil => rfl
  | cons y before ih => simp [ih]

/-- `List.modify` at the length of a beginning changes the element behind it and leaves the others
alone. -/
theorem modify_length_append {α : Type u} (before behind : List α) (x : α) (change : α → α) :
    (before ++ x :: behind).modify before.length change = before ++ change x :: behind := by
  induction before with
  | nil => rfl
  | cons y before ih => simp [ih]

/-- `List.Pairwise` holds with a new element in its place, between `before` and `behind`. -/
theorem pairwise_insert {α : Type u} {R : α → α → Prop} {before behind : List α} {x : α}
    (h : (before ++ behind).Pairwise R) (hbefore : ∀ y ∈ before, R y x)
    (hbehind : ∀ y ∈ behind, R x y) : (before ++ x :: behind).Pairwise R := by
  obtain ⟨hfront, hback, hacross⟩ := List.pairwise_append.mp h
  refine List.pairwise_append.mpr ⟨hfront, List.pairwise_cons.mpr ⟨hbehind, hback⟩, ?_⟩
  intro y hy z hz
  rcases List.mem_cons.mp hz with rfl | hz
  · exact hbefore y hy
  · exact hacross y hy z hz

/-- In a total order of keys, a search for a key `Separates` an ascending list. So the search finds
the place that a walk from the front would find. -/
theorem separates_of_ascending {α κ : Type} {cmp : κ → κ → Ordering} {p : κ → Prop}
    (htotal : TotalOn cmp p) {keyOf : α → κ} {xs : List α} (hwithin : ∀ x ∈ xs, p (keyOf x))
    (hascending : xs.Pairwise fun x y => cmp (keyOf x) (keyOf y) = .lt) {key : κ} (hkey : p key) :
    Separates (fun x => cmp key (keyOf x)) xs := by
  refine hascending.imp_of_mem fun {x y} hx hy hlt hne => ?_
  exact htotal.lt_of_isLE_of_lt hkey (hwithin x hx) (hwithin y hy) (TotalOn.isLE_of_ne_gt hne) hlt

namespace Key

/-- A key does not come before components that it `startsWith`, as a longer key comes after its
beginning. -/
theorem isLE_of_startsWith {key leading : Key} (h : key.startsWith leading = true) :
    (leading.compare key).isLE = true := by
  induction leading generalizing key with
  | nil => cases key <;> rfl
  | cons w ws ih =>
      match key with
      | [] => simp [startsWith] at h
      | v :: vs =>
          simp only [startsWith, Bool.and_eq_true] at h
          have hswap := Value.compare_swap v w
          rw [Value.beq_iff.mp h.1] at hswap
          exact isLE_then_iff.mpr (.inr ⟨hswap, ih h.2⟩)

section

variable {p : Int64 → Prop} {q : Binary64 → Prop} (hseparated : Value.Separated p q)
  {key leading other : Key} (hkey : Value.ItemsIn p q key) (hleading : Value.ItemsIn p q leading)
  (hother : Value.ItemsIn p q other)

include hseparated hkey hleading hother

/-- The keys that start with some components stand together: a key between the components and a key
that starts with them starts with them too. `hseparated` is needed in each place, where the
component of the key in the middle is squeezed between two equal ones. -/
theorem startsWith_of_between (hle : (leading.compare key).isLE = true)
    (hle' : (key.compare other).isLE = true) (h : other.startsWith leading = true) :
    key.startsWith leading = true := by
  induction leading generalizing key other with
  | nil => cases key <;> rfl
  | cons w ws ih =>
      match key, other with
      | _, [] => simp [startsWith] at h
      | [], _ :: _ => simp [compare, Value.compareItems] at hle
      | v :: vs, u :: us =>
          simp only [startsWith, Bool.and_eq_true] at h ⊢
          have huw : u.compare w = .eq := Value.beq_iff.mp h.1
          have htotal := hseparated.totalOn
          obtain ⟨hw, hws⟩ := hleading
          obtain ⟨hv, hvs⟩ := hkey
          obtain ⟨hu, hus⟩ := hother
          -- the first component is between two equal ones
          have hwv : (w.compare v).isLE = true := isLE_of_isLE_then hle
          have hvu : (v.compare u).isLE = true := isLE_of_isLE_then hle'
          have hvw : v.compare w = .eq :=
            htotal.eq_of_isLE hv hw (htotal.isLE_trans hv hu hw hvu (by rw [huw]; rfl)) hwv
          have hwv : w.compare v = .eq := by rw [Value.compare_swap, hvw]; rfl
          have hvu : v.compare u = .eq := by
            rw [Value.compare_swap, htotal.congr_left hu hw hv huw, hwv]
            rfl
          refine ⟨Value.beq_iff.mpr hvw, ih hvs hws hus ?_ ?_ h.2⟩
          · exact ((isLE_then_iff.mp hle).resolve_left (by simp [hwv])).2
          · exact ((isLE_then_iff.mp hle').resolve_left (by simp [hvu])).2

/-- A key `startsWith` equal components alike. -/
theorem startsWith_congr_right (heq : leading.compare other = .eq) :
    key.startsWith leading = key.startsWith other := by
  induction leading generalizing key other with
  | nil =>
      cases other with
      | nil => rfl
      | cons w ws => cases heq
  | cons v vs ih =>
      match other, key with
      | [], _ => cases heq
      | _ :: _, [] => rfl
      | w :: ws, k :: ks =>
          obtain ⟨hvw, hrest⟩ := Ordering.then_eq_eq.mp heq
          obtain ⟨hk, hks⟩ := hkey
          -- a component equals both of two equal ones or neither
          have hfirst : (k == v) = (k == w) := by
            rw [Bool.eq_iff_iff, Value.beq_iff, Value.beq_iff, Value.compare_swap v k,
              Value.compare_swap w k,
              hseparated.totalOn.congr_left hleading.1 hother.1 hk hvw]
          show ((k == v) && Key.startsWith ks vs) = ((k == w) && Key.startsWith ks ws)
          rw [hfirst, ih hks hleading.2 hother.2 hrest]

/-- Equal keys `startsWith` the same components. -/
theorem startsWith_congr_left (heq : key.compare other = .eq) :
    key.startsWith leading = other.startsWith leading := by
  induction leading generalizing key other with
  | nil => cases key <;> cases other <;> rfl
  | cons w ws ih =>
      match key, other with
      | [], [] => rfl
      | [], _ :: _ | _ :: _, [] => cases heq
      | v :: vs, u :: us =>
          obtain ⟨hvu, hrest⟩ := Ordering.then_eq_eq.mp heq
          have hfirst : (v == w) = (u == w) := by
            rw [Bool.eq_iff_iff, Value.beq_iff, Value.beq_iff,
              hseparated.totalOn.congr_left hkey.1 hother.1 hleading.1 hvu]
          show ((v == w) && Key.startsWith vs ws) = ((u == w) && Key.startsWith us ws)
          rw [hfirst, ih hkey.2 hleading.2 hother.2 hrest]

end

end Key

namespace Bucket

/-- `insertRid` adds the identity to the list, unless it is there, and no other. -/
theorem mem_insertRid {rid other : Rid} {rids : List Rid} :
    other ∈ insertRid rid rids ↔ other = rid ∨ other ∈ rids := by
  induction rids with
  | nil => simp [insertRid]
  | cons r rs ih =>
      simp only [insertRid]
      split
      next => simp
      next heq =>
        rw [Rid.compare_eq_iff] at heq
        subst heq
        simp
      next =>
        simp only [List.mem_cons, ih]
        tauto

/-- The record stands under the key itself, and not under an equal one, in one of the buckets. -/
def Listed (buckets : List Bucket) (key : Key) (rid : Rid) : Prop :=
  ∃ b ∈ buckets, b.key = key ∧ rid ∈ b.rids

end Bucket

namespace Buckets

/-- The keys are exact and strictly ascending by `Key.compare`. This is the invariant of an index
into which only exact keys were put. -/
structure Ordered (buckets : Buckets) : Prop where
  /-- No key has a floating-point number in it. -/
  exact : ∀ b ∈ buckets.elements, b.key.isExact = true
  /-- Every key comes before those behind it. -/
  ascending : buckets.elements.Pairwise fun b c => b.key.compare c.key = .lt

/-- The record stands under the key itself, as an entry of the index: it is `Listed` among the
elements. -/
def Holds (buckets : Buckets) (key : Key) (rid : Rid) : Prop :=
  Bucket.Listed buckets.elements key rid

/-- Without buckets the index is `Ordered`. -/
theorem ordered_empty : Ordered (LeveledList.empty : Buckets) where
  exact b hb := by simp [LeveledList.empty] at hb
  ascending := List.Pairwise.nil

/-- Without buckets the index `Holds` nothing. -/
theorem not_holds_empty (key : Key) (rid : Rid) :
    ¬ Holds (LeveledList.empty : Buckets) key rid := by
  simp [Holds, Bucket.Listed, LeveledList.empty]

/-! ## Keys in any total order

`SortedIn` and `Finds` are for keys that may compare equal without being the same, as with
floating-point numbers. `insert_cases` and `erase_cases` are the inversions of the two changes. -/

/-- The keys have the property `p` and are strictly ascending. With `TotalOn Key.compare p` no two
of them are equal. -/
structure SortedIn (p : Key → Prop) (buckets : Buckets) : Prop where
  /-- Every key has the property. -/
  within : ∀ b ∈ buckets.elements, p b.key
  /-- Every key comes before those behind it. -/
  ascending : buckets.elements.Pairwise fun b c => b.key.compare c.key = .lt

/-- The record stands under a key that equals the given one by `Key.compare`. This is what a search
for the key comes to. -/
def Finds (buckets : Buckets) (key : Key) (rid : Rid) : Prop :=
  ∃ b ∈ buckets.elements, key.compare b.key = .eq ∧ rid ∈ b.rids

/-- Without buckets the index is `SortedIn` any property. -/
theorem sortedIn_empty (p : Key → Prop) : SortedIn p (LeveledList.empty : Buckets) where
  within b hb := by simp [LeveledList.empty] at hb
  ascending := List.Pairwise.nil

section

variable {p : Key → Prop} {buckets : Buckets} (h : SortedIn p buckets)

include h

/-- Buckets stay sorted when the records in them change and the keys do not (`hkeys`). -/
theorem SortedIn.of_keys_eq {changed : Buckets}
    (hkeys : changed.elements.map (·.key) = buckets.elements.map (·.key)) :
    SortedIn p changed where
  within b hb := by
    have hmem : b.key ∈ buckets.elements.map (·.key) := hkeys ▸ List.mem_map_of_mem hb
    obtain ⟨c, hc, heq⟩ := List.mem_map.mp hmem
    exact heq ▸ h.within c hc
  ascending := by
    have hpairs : (buckets.elements.map (·.key)).Pairwise fun k l => k.compare l = .lt :=
      List.pairwise_map.mpr h.ascending
    rw [← hkeys] at hpairs
    exact List.pairwise_map.mp hpairs

variable (htotal : TotalOn Key.compare p) {key : Key} (hkey : p key)

include htotal hkey

/-- A search for a key tells the buckets apart, by `separates_of_ascending`. -/
theorem SortedIn.separates : Separates (fun b : Bucket => key.compare b.key) buckets.elements :=
  separates_of_ascending htotal h.within h.ascending hkey

/-- A key that `place` has `found` equals that of a bucket, between those before it and those behind
it. -/
theorem SortedIn.place_found {i : Nat} (hplace : buckets.place key = .found i) :
    ∃ before b behind, buckets.elements = before ++ b :: behind ∧ i = before.length ∧
      key.compare b.key = .eq := by
  obtain ⟨before, b, behind, hsplit, hi, heq, -⟩ :=
    LeveledList.locate_found (h.separates htotal hkey) hplace
  exact ⟨before, b, behind, hsplit, hi, heq⟩

/-- A key whose place is `vacant` would stand between those before it and those behind it. -/
theorem SortedIn.place_vacant {i : Nat} (hplace : buckets.place key = .vacant i) :
    ∃ before behind, buckets.elements = before ++ behind ∧ i = before.length ∧
      (∀ b ∈ before, b.key.compare key = .lt) ∧ ∀ b ∈ behind, key.compare b.key = .lt := by
  obtain ⟨before, behind, hsplit, hi, hgt, hlt⟩ :=
    LeveledList.locate_vacant (h.separates htotal hkey) hplace
  refine ⟨before, behind, hsplit, hi, fun b hb => ?_, hlt⟩
  exact (htotal.gt_iff_lt hkey (h.within b (by simp [hsplit, hb]))).mp (hgt b hb)

/-- The records that `Buckets.get?` finds under a key are those of `Buckets.Finds`. -/
theorem SortedIn.mem_get? {rid : Rid} :
    (∃ rids, buckets.get? key = some rids ∧ rid ∈ rids) ↔ buckets.Finds key rid := by
  have hseparates := h.separates htotal hkey
  unfold get? LeveledList.find?
  cases hlocate : buckets.locate fun b => key.compare b.key with
  | found i =>
      obtain ⟨before, b, behind, hsplit, rfl, heq, hgt, hlt⟩ :=
        LeveledList.locate_found hseparates hlocate
      have hb : buckets.elements[before.length]? = some b := by simp [hsplit]
      simp only [hb, Option.map_some, Option.some.injEq, exists_eq_left']
      constructor
      · exact fun hrid => ⟨b, by simp [hsplit], heq, hrid⟩
      · rintro ⟨c, hc, hceq, hrid⟩
        -- no other bucket has a key that equals it
        rw [hsplit, List.mem_append, List.mem_cons] at hc
        rcases hc with hc | rfl | hc
        · simp [hgt c hc] at hceq
        · exact hrid
        · simp [hlt c hc] at hceq
  | vacant i =>
      obtain ⟨before, behind, hsplit, -, hgt, hlt⟩ := LeveledList.locate_vacant hseparates hlocate
      simp only [Option.map_none, reduceCtorEq, false_and, exists_false, false_iff]
      rintro ⟨c, hc, hceq, -⟩
      rw [hsplit, List.mem_append] at hc
      rcases hc with hc | hc
      · simp [hgt c hc] at hceq
      · simp [hlt c hc] at hceq

/-- What `insert` does to the list of buckets. Either there is a bucket whose key equals the new
one, and the record joins it under the key that the bucket has. Or a new bucket comes between those
before it and those behind it. -/
theorem SortedIn.insert_cases (rid : Rid) :
    (∃ before b behind, buckets.elements = before ++ b :: behind ∧ key.compare b.key = .eq ∧
      (buckets.insert key rid).elements =
        before ++ { b with rids := Bucket.insertRid rid b.rids } :: behind) ∨
    (∃ before behind, buckets.elements = before ++ behind ∧
      (∀ b ∈ before, b.key.compare key = .lt) ∧ (∀ b ∈ behind, key.compare b.key = .lt) ∧
      (buckets.insert key rid).elements = before ++ ⟨key, [rid]⟩ :: behind) := by
  -- the place of the key is that of its bucket, or the one where its bucket belongs
  cases hplace : buckets.place key with
  | found i =>
      obtain ⟨before, b, behind, hsplit, hi, hb⟩ := h.place_found htotal hkey hplace
      refine .inl ⟨before, b, behind, hsplit, hb, ?_⟩
      rw [Buckets.insert, hplace]
      show buckets.elements.modify i _ = _
      rw [hsplit, hi, modify_length_append]
  | vacant i =>
      obtain ⟨before, behind, hsplit, hi, hbefore, hbehind⟩ := h.place_vacant htotal hkey hplace
      refine .inr ⟨before, behind, hsplit, hbefore, hbehind, ?_⟩
      rw [Buckets.insert, hplace]
      show buckets.elements.insertIdx i _ = _
      rw [hsplit, hi, insertIdx_length_append]

/-- An insert keeps the buckets sorted. In the second case of `insert_cases` the new key stands
between its neighbours. -/
theorem SortedIn.insert (rid : Rid) : SortedIn p (buckets.insert key rid) := by
  rcases h.insert_cases htotal hkey rid with ⟨before, b, behind, hsplit, -, hinsert⟩ |
    ⟨before, behind, hsplit, hbefore, hbehind, hinsert⟩
  · exact h.of_keys_eq (by rw [hinsert, hsplit]; simp)
  · constructor
    · intro b hb
      rw [hinsert, List.mem_append, List.mem_cons] at hb
      rcases hb with hb | rfl | hb
      · exact h.within b (by simp [hsplit, hb])
      · exact hkey
      · exact h.within b (by simp [hsplit, hb])
    · rw [hinsert]
      exact pairwise_insert (hsplit ▸ h.ascending) hbefore hbehind

/-- An insert adds the record under the keys that equal its own, and nothing else. The key asked
about, `other`, has to be in the order too (`hother`). -/
theorem SortedIn.finds_insert {rid : Rid} {other : Key} (hother : p other) {otherRid : Rid} :
    (buckets.insert key rid).Finds other otherRid ↔
      buckets.Finds other otherRid ∨ (other.compare key = .eq ∧ otherRid = rid) := by
  unfold Finds
  rcases h.insert_cases htotal hkey rid with ⟨before, b, behind, hsplit, hb, hinsert⟩ |
    ⟨before, behind, hsplit, -, -, hinsert⟩
  · -- the bucket that the record joins is under a key that equals that of the record
    have hsame : other.compare b.key = .eq ↔ other.compare key = .eq := by
      have hbkey := h.within b (by simp [hsplit])
      rw [htotal.swap hbkey hother, htotal.swap hkey hother, htotal.congr_left hkey hbkey hother hb]
    simp only [hinsert, hsplit, List.mem_append, List.mem_cons, or_and_right, exists_or,
      exists_eq_left, Bucket.mem_insertRid, hsame]
    grind
  · simp only [hinsert, hsplit, List.mem_append, List.mem_cons, or_and_right, exists_or,
      exists_eq_left, List.not_mem_nil, or_false]
    grind

/-- What `erase` does to the list of buckets. The record leaves the bucket of a key that equals its
own, and the bucket goes with its last record. Without such a bucket nothing changes. -/
theorem SortedIn.erase_cases (rid : Rid) :
    (∃ before b behind, buckets.elements = before ++ b :: behind ∧ key.compare b.key = .eq ∧
      (buckets.erase key rid).elements =
        before ++ { b with rids := b.rids.filter (· != rid) } :: behind) ∨
    (∃ before b behind, buckets.elements = before ++ b :: behind ∧ key.compare b.key = .eq ∧
      b.rids.filter (· != rid) = [] ∧ (buckets.erase key rid).elements = before ++ behind) ∨
    ((∀ b ∈ buckets.elements, key.compare b.key ≠ .eq) ∧ buckets.erase key rid = buckets) := by
  -- a key without a place in the buckets has no bucket, as all others come before or after it
  cases hplace : buckets.place key with
  | found i =>
      obtain ⟨before, b, behind, hsplit, hi, hb⟩ := h.place_found htotal hkey hplace
      rw [Buckets.erase, hplace]
      dsimp only [LeveledList.modifyAt, LeveledList.eraseAt]
      rw [hsplit, hi, modify_length_append, List.getElem?_append_right (Nat.le_refl _),
        Nat.sub_self, List.getElem?_cons_zero, Option.any_some]
      split
      next hempty =>
        refine .inr (.inl ⟨before, b, behind, rfl, hb, List.isEmpty_iff.mp hempty, ?_⟩)
        rw [List.eraseIdx_append_of_length_le (Nat.le_refl _), Nat.sub_self]
        rfl
      next => exact .inl ⟨before, b, behind, rfl, hb, rfl⟩
  | vacant i =>
      obtain ⟨before, behind, hsplit, hi, hbefore, hbehind⟩ := h.place_vacant htotal hkey hplace
      refine .inr (.inr ⟨?_, by rw [Buckets.erase, hplace]⟩)
      intro b hb heq
      have hbkey := h.within b hb
      rw [hsplit, List.mem_append] at hb
      rcases hb with hb | hb
      · have hlt := hbefore b hb
        rw [htotal.swap hkey hbkey, heq] at hlt
        cases hlt
      · rw [hbehind b hb] at heq
        cases heq

/-- `erase` keeps the buckets sorted: a bucket may go, and none moves. -/
theorem SortedIn.erase (rid : Rid) : SortedIn p (buckets.erase key rid) := by
  rcases h.erase_cases htotal hkey rid with ⟨before, b, behind, hsplit, -, herase⟩ |
    ⟨before, b, behind, hsplit, -, -, herase⟩ | ⟨-, herase⟩
  · exact h.of_keys_eq (by rw [herase, hsplit]; simp)
  · have hsub : (before ++ behind).Sublist buckets.elements := by
      rw [hsplit]
      exact (List.Sublist.refl before).append (List.sublist_cons_self b behind)
    refine ⟨fun c hc => h.within c (hsub.subset (herase ▸ hc)), ?_⟩
    rw [herase]
    exact h.ascending.sublist hsub
  · rw [herase]
    exact h

/-- Only the bucket `b` has a key that equals the given one, as the keys are strictly ascending. -/
theorem SortedIn.ne_of_split {before behind : List Bucket} {b : Bucket}
    (hsplit : buckets.elements = before ++ b :: behind) (hb : key.compare b.key = .eq) :
    ∀ c, c ∈ before ∨ c ∈ behind → key.compare c.key ≠ .eq := by
  have hascending := h.ascending
  rw [hsplit, List.pairwise_append, List.pairwise_cons] at hascending
  have hbkey := h.within b (by simp [hsplit])
  rintro c (hc | hc) heq
  · have hlt := hascending.2.2 c hc b List.mem_cons_self
    have hckey := h.within c (by simp [hsplit, hc])
    rw [← htotal.congr_left hkey hckey hbkey heq, hb] at hlt
    cases hlt
  · have hlt := hascending.2.1.1 c hc
    rw [← htotal.congr_left hkey hbkey (h.within c (by simp [hsplit, hc])) hb, heq] at hlt
    cases hlt

/-- An erasure removes the record from under the keys that equal its own, and nothing else.
`ne_of_split` rules out that the record is still found in another bucket of the key. -/
theorem SortedIn.finds_erase {rid : Rid} {other : Key} (hother : p other) {otherRid : Rid} :
    (buckets.erase key rid).Finds other otherRid ↔
      buckets.Finds other otherRid ∧ ¬(other.compare key = .eq ∧ otherRid = rid) := by
  -- the bucket of the key is that of every equal key, and of no other
  have hsame {b : Bucket} (hb : b ∈ buckets.elements) (heq : key.compare b.key = .eq) :
      other.compare b.key = .eq ↔ other.compare key = .eq := by
    rw [htotal.swap (h.within b hb) hother, htotal.swap hkey hother,
      htotal.congr_left hkey (h.within b hb) hother heq]
  unfold Finds
  rcases h.erase_cases htotal hkey rid with ⟨before, b, behind, hsplit, hb, herase⟩ |
    ⟨before, b, behind, hsplit, hb, hempty, herase⟩ | ⟨hnone, herase⟩
  · have hiff := hsame (by simp [hsplit]) hb
    have hothers : other.compare key = .eq → ∀ c, c ∈ before ∨ c ∈ behind →
        other.compare c.key ≠ .eq := fun heq =>
      h.ne_of_split htotal hother hsplit (hiff.mpr heq)
    simp only [herase, hsplit, List.mem_append, List.mem_cons, or_and_right, exists_or,
      exists_eq_left, List.mem_filter, bne_iff_ne, hiff]
    grind
  · have hiff := hsame (by simp [hsplit]) hb
    have hothers : other.compare key = .eq → ∀ c, c ∈ before ∨ c ∈ behind →
        other.compare c.key ≠ .eq := fun heq =>
      h.ne_of_split htotal hother hsplit (hiff.mpr heq)
    have hrids : otherRid ∈ b.rids → otherRid = rid := fun hmem => by
      simpa using (List.filter_eq_nil_iff.mp hempty) otherRid hmem
    simp only [herase, hsplit, List.mem_append, List.mem_cons, or_and_right, exists_or,
      exists_eq_left, hiff]
    grind
  · rw [herase]
    refine ⟨fun hfinds => ⟨hfinds, ?_⟩, And.left⟩
    rintro ⟨heq, -⟩
    obtain ⟨b, hb, hbeq, -⟩ := hfinds
    refine hnone b hb ?_
    rwa [← htotal.congr_left hother hkey (h.within b hb) heq]

end

/-! ## Exact keys

Exact keys that compare equal are the same, so `Holds` can speak of the key itself. Each lemma is
the one of before, read for such keys. -/

/-- Buckets with exact keys are `SortedIn` the exact keys, where the order is total. -/
theorem Ordered.sortedIn {buckets : Buckets} (h : Ordered buckets) :
    SortedIn (fun key => key.isExact = true) buckets :=
  ⟨h.exact, h.ascending⟩

/-- Buckets that are `SortedIn` the exact keys are `Ordered`. -/
theorem SortedIn.ordered {buckets : Buckets}
    (h : SortedIn (fun key => key.isExact = true) buckets) : Ordered buckets :=
  ⟨h.within, h.ascending⟩

/-- Exact keys have integers only, so they are sorted among keys with any floating-point numbers
`q`. -/
theorem Ordered.sortedIn_numbers {buckets : Buckets} (h : Ordered buckets)
    (q : Binary64 → Prop) : SortedIn (fun key => Value.ItemsIn (fun _ => True) q key) buckets :=
  ⟨fun b hb => Value.itemsIn_of_areExact (h.exact b hb), h.ascending⟩

section

variable {buckets : Buckets} (h : Ordered buckets)

include h

/-- What an `Ordered` index holds stands under an exact key. -/
theorem Ordered.isExact_of_holds {key : Key} {rid : Rid} (hholds : buckets.Holds key rid) :
    key.isExact = true := by
  obtain ⟨b, hb, rfl, -⟩ := hholds
  exact h.exact b hb

variable {key : Key} (hkey : key.isExact = true)

include hkey

/-- For exact keys `Finds` and `Holds` are the same, because exact keys that compare equal are one
key. -/
theorem Ordered.finds_iff {rid : Rid} : buckets.Finds key rid ↔ buckets.Holds key rid := by
  refine exists_congr fun b => and_congr_right fun hb => and_congr_left fun _ => ?_
  exact (Key.compare_eq_iff hkey (h.exact b hb)).trans eq_comm

/-- `insert` of an exact key keeps the buckets in order. -/
theorem Ordered.insert (rid : Rid) : Ordered (buckets.insert key rid) :=
  (h.sortedIn.insert Key.totalOn_exact hkey rid).ordered

/-- `insert` adds its entry and no other. -/
theorem Ordered.holds_insert {rid : Rid} {other : Key} {otherRid : Rid} :
    Holds (buckets.insert key rid) other otherRid ↔
      Holds buckets other otherRid ∨ (other = key ∧ otherRid = rid) := by
  by_cases hother : other.isExact = true
  · rw [← (h.insert hkey rid).finds_iff hother, ← h.finds_iff hother,
      h.sortedIn.finds_insert Key.totalOn_exact hkey hother, Key.compare_eq_iff hother hkey]
  · have hbefore : ¬Holds buckets other otherRid := mt h.isExact_of_holds hother
    have hafter : ¬Holds (buckets.insert key rid) other otherRid :=
      mt (h.insert hkey rid).isExact_of_holds hother
    simp only [hbefore, hafter, false_or, false_iff, not_and]
    rintro rfl
    exact absurd hkey hother

/-- `erase` keeps the buckets in order. -/
theorem Ordered.erase (rid : Rid) : Ordered (buckets.erase key rid) :=
  (h.sortedIn.erase Key.totalOn_exact hkey rid).ordered

/-- `erase` removes its entry and no other. -/
theorem Ordered.holds_erase {rid : Rid} {other : Key} {otherRid : Rid} :
    Holds (buckets.erase key rid) other otherRid ↔
      Holds buckets other otherRid ∧ ¬ (other = key ∧ otherRid = rid) := by
  by_cases hother : other.isExact = true
  · rw [← (h.erase hkey rid).finds_iff hother, ← h.finds_iff hother,
      h.sortedIn.finds_erase Key.totalOn_exact hkey hother, Key.compare_eq_iff hother hkey]
  · have hbefore : ¬Holds buckets other otherRid := mt h.isExact_of_holds hother
    have hafter : ¬Holds (buckets.erase key rid) other otherRid :=
      mt (h.erase hkey rid).isExact_of_holds hother
    simp only [hbefore, hafter, false_and]

end

/-! ## Lookups

The keys that start with some components stand together, and the search finds where they begin. -/

/-- `startingWith` gives some of the buckets, in their order. This needs no total order: it takes a
part of the list and filters it. -/
theorem startingWith_sublist (leading : Key) (buckets : Buckets) :
    (buckets.startingWith leading).Sublist buckets.elements :=
  (List.takeWhile_sublist _).trans (List.drop_sublist _ _)

/-- The buckets that `startingWith` gives have keys that start with the components. -/
theorem startsWith_of_mem {leading : Key} {buckets : Buckets} {b : Bucket}
    (hb : b ∈ buckets.startingWith leading) : b.key.startsWith leading = true :=
  List.all_eq_true.mp List.all_takeWhile b hb

/-- Where numbers are separated, `startingWith` gives every bucket whose key starts with the
components. It begins at the place of the components, which no such key comes before
(`Key.isLE_of_startsWith`), and ends at the first key that does not start with them, behind which
there is none (`Key.startsWith_of_between`). -/
theorem SortedIn.mem_startingWith {p : Int64 → Prop} {q : Binary64 → Prop}
    (hseparated : Value.Separated p q) {buckets : Buckets}
    (h : SortedIn (fun key => Value.ItemsIn p q key) buckets) {leading : Key}
    (hleading : Value.ItemsIn p q leading) {b : Bucket} :
    b ∈ buckets.startingWith leading ↔
      b ∈ buckets.elements ∧ b.key.startsWith leading = true := by
  refine ⟨fun hb => ⟨(startingWith_sublist leading buckets).subset hb, startsWith_of_mem hb⟩, ?_⟩
  rintro ⟨hb, hstarts⟩
  obtain ⟨before, hsplit, hgt, hne⟩ :=
    LeveledList.onwards_eq (h.separates (Key.totalOn_separated hseparated) hleading)
  unfold startingWith
  generalize buckets.onwards (fun b => leading.compare b.key) = onwards at hsplit hne ⊢
  rw [hsplit, List.mem_append] at hb
  rcases hb with hb | hb
  · have hle := Key.isLE_of_startsWith hstarts
    simp [hgt b hb] at hle
  · -- every bucket up to this one lies between the components and a key that starts with them
    obtain ⟨front, behind, rfl⟩ := List.append_of_mem hb
    have hascending := h.ascending
    rw [hsplit, List.pairwise_append] at hascending
    have hfront : ∀ c ∈ front, c.key.startsWith leading = true := by
      intro c hc
      have hlt := (List.pairwise_append.mp hascending.2.1).2.2 c hc b (List.mem_cons_self ..)
      refine Key.startsWith_of_between hseparated (h.within c (by simp [hsplit, hc])) hleading
        (h.within b (by simp [hsplit])) (TotalOn.isLE_of_ne_gt (hne c (by simp [hc]))) ?_ hstarts
      rw [hlt]
      rfl
    rw [List.takeWhile_append_of_pos hfront, List.takeWhile_cons, if_pos hstarts]
    simp

end Buckets

end RecordQuery
