import RecordQuery.Proofs.Sorting
import RecordQuery.Proofs.StreamOrder

/-!
# `RecordQuery.Proofs.Merging`: merging takes every record once and keeps ties in place

A merge looks only at the first records of its inputs. Whatever their order, it gives the records of
each input in the order of that input. When the inputs are in order, the record it takes is smaller
than all that earlier inputs still give and not larger than all that later ones do, which is how a
stable sort of all the records begins.

There are two levels. `Merges` is merging as a relation between lists of records: it takes the
record that `leastHead` chooses, and goes on with what is left. On this level the results are
`Interleaves`, for inputs in any order, and the stable sort, for inputs in order. The other level is
that of streams. `Stream.Yields` says that a stream gives some records, one pull after the other,
and then its end. `Stream.yields_primed` takes the one to the other, by induction on `Merges`.

The inputs of a merge share the identities that have been seen, so what one input gives may depend
on what others have given. `Yields` is therefore relative to the identities that the stream may
note, `own`: it gives the same whatever else has been seen, and notes nothing beside them.
`MergeInput.Apart` says that no two inputs note the same identity. Streams of plain records note
none, so for them it says nothing.

The theorems:

* `Merges.interleaves`: a merge interleaves its inputs.
* `Merges.eq_insertionSort`: a merge of inputs in order is their stable sort.
* `Stream.yields_primed`: the stream of a merge gives what merging its inputs gives.
* `Stream.Yields.draws`: what a stream gives is what is drawn from it.
* `Stream.merge_stable`: these together, for inputs of any kind, merges among them.
-/

set_option autoImplicit false

namespace RecordQuery

universe u

/-! ## Interleaving

The relation between several lists and one that has their elements, those of each list in its order,
whatever the order between the lists. -/

/-- The list consists of the elements of all the lists, those of one list in their order. Each step
takes the first element of some list, and `nil` asks that no list has an element left. -/
inductive Interleaves {α : Type u} : List (List α) → List α → Prop
  | nil {lists : List (List α)} (hnil : ∀ list ∈ lists, list = []) : Interleaves lists []
  | cons {lists : List (List α)} {place : Nat} {x : α} {rest all : List α}
      (hplace : lists[place]? = some (x :: rest)) (hrest : Interleaves (lists.set place rest) all) :
      Interleaves lists (x :: all)

/-! ## Merging lists

The choice of `leastHead` depends only on the heads. So a merge is described by which list it takes
from, and everything about order follows from what the chosen head is compared to. -/

section

variable {order : List OrderItem} {load : Rid → Option Record}

/-- The records compared by their ORDER BY values, `orderKey`. -/
def compareRecords (order : List OrderItem) (load : Rid → Option Record) (r s : Record) : Ordering :=
  compareKeys order (orderKey order load r) (orderKey order load s)

/-- The head of an input that gives these records: the first one with its `orderKey`. -/
def leading (order : List OrderItem) (load : Rid → Option Record) (records : List Record) :
    Option Head :=
  records.head?.map fun r => ⟨orderKey order load r, r⟩

/-- The `leading` head is the first record, with its `orderKey`. -/
theorem leading_eq_some {records : List Record} {head : Head} :
    leading order load records = some head ↔
      head.key = orderKey order load head.record ∧ ∃ rest, records = head.record :: rest := by
  cases head
  cases records with
  | nil => simp [leading]
  | cons r rest =>
      simp only [leading, List.head?_cons, Option.map_some, Option.some.injEq, Head.mk.injEq,
        List.cons.injEq, exists_and_left, exists_eq', and_true]
      constructor
      · rintro ⟨rfl, rfl⟩
        exact ⟨rfl, rfl⟩
      · rintro ⟨rfl, rfl⟩
        exact ⟨rfl, rfl⟩

/-- Merging takes the first record of the list with the least head, and then merges what is left,
until all of the lists are empty. This is `pullLeast` without streams. -/
inductive Merges (order : List OrderItem) (load : Rid → Option Record) :
    List (List Record) → List Record → Prop
  | nil {lists : List (List Record)} (hnil : ∀ records ∈ lists, records = []) :
      Merges order load lists []
  | cons {lists : List (List Record)} {place : Nat} {head : Head} {rest all : List Record}
      (hleast : leastHead order 0 none (lists.map (leading order load)) = some (place, head))
      (hplace : lists[place]? = some (head.record :: rest))
      (hrest : Merges order load (lists.set place rest) all) :
      Merges order load lists (head.record :: all)

/-- Where `leastHead` finds a head, it is the head of the list at its place. -/
theorem getElem?_of_leastHead {lists : List (List Record)} {place : Nat} {head : Head}
    (hleast : leastHead order 0 none (lists.map (leading order load)) = some (place, head)) :
    ∃ rest, lists[place]? = some (head.record :: rest) := by
  have hhead := Stream.getElem?_leastHead hleast
  rw [List.getElem?_map] at hhead
  obtain ⟨records, hrecords, hleading⟩ := Option.map_eq_some_iff.mp hhead
  obtain ⟨-, rest, rfl⟩ := leading_eq_some.mp hleading
  exact ⟨rest, hrecords⟩

/-- Any lists can be merged: `Merges` asks nothing of the keys. The induction is on the number of
records that are left. -/
theorem exists_merges (order : List OrderItem) (load : Rid → Option Record)
    (lists : List (List Record)) : ∃ all, Merges order load lists all := by
  -- every step takes one record
  induction hsize : lists.flatten.length generalizing lists with
  | zero =>
      refine ⟨[], .nil ?_⟩
      exact List.flatten_eq_nil_iff.mp (List.length_eq_zero_iff.mp hsize)
  | succ size ih =>
      have hcases := Stream.leastHead_cases order 0 none (lists.map (leading order load))
      cases hleast : leastHead order 0 none (lists.map (leading order load)) with
      | none =>
          rw [hleast] at hcases
          have hnil : ∀ records ∈ lists, records = [] := fun records hrecords => by
            have hnone := hcases.2 _ (List.mem_map_of_mem hrecords)
            simpa [leading] using hnone
          rw [List.flatten_eq_nil_iff.mpr hnil] at hsize
          cases hsize
      | some found =>
          obtain ⟨place, head⟩ := found
          obtain ⟨rest, hplace⟩ := getElem?_of_leastHead hleast
          obtain ⟨before, after, rfl, -, hset⟩ := exists_cut_of_getElem? hplace
          obtain ⟨all, hall⟩ := ih ((before ++ (head.record :: rest) :: after).set place rest) (by
            rw [hset]
            simp only [List.flatten_append, List.flatten_cons, List.cons_append,
              List.length_append, List.length_cons] at hsize ⊢
            omega)
          exact ⟨head.record :: all, .cons hleast hplace hall⟩

/-- A merge interleaves its inputs, in order or not. -/
theorem Merges.interleaves {lists : List (List Record)} {all : List Record}
    (h : Merges order load lists all) : Interleaves lists all := by
  induction h with
  | nil hnil => exact .nil hnil
  | cons _ hplace _ ih => exact .cons hplace ih

/-- The head that `leastHead` finds comes strictly before the earlier heads, unless it is `best`,
the one known before. So of equal heads the first one is taken. -/
theorem leastHead_lt {heads : List (Option Head)} {place i : Nat} {best : Option (Nat × Head)}
    {least : Head} (hbest : ∀ b, best = some b → IsSortKey order b.2.key)
    (hheads : ∀ h, some h ∈ heads → IsSortKey order h.key)
    (hleast : leastHead order place best heads = some (i, least)) :
    best = some (i, least) ∨
      (∀ b, best = some b → compareKeys order least.key b.2.key = .lt) ∧
      ∀ (j : Nat) (h : Head), heads[j]? = some (some h) → place + j < i →
        compareKeys order least.key h.key = .lt := by
  have htotal := compareKeys_totalOn order
  induction heads generalizing place best with
  | nil => exact .inl hleast
  | cons first heads ih =>
      have hrest : ∀ h, some h ∈ heads → IsSortKey order h.key :=
        fun h hh => hheads h (List.mem_cons_of_mem _ hh)
      have hleastKey := (Stream.leastHead_least hbest hheads hleast).1
      cases first with
      | none =>
          rcases ih hbest hrest hleast with hsame | ⟨hbefore, hothers⟩
          · exact .inl hsame
          · refine .inr ⟨hbefore, fun j h hj hlt => ?_⟩
            cases j with
            | zero => simp at hj
            | succ j => exact hothers j h hj (by omega)
      | some first =>
          have hfirst := hheads first (List.mem_cons_self ..)
          -- what is said of the heads behind the first one, and of that one, joined
          have hjoin (hlt : place < i → compareKeys order least.key first.key = .lt)
              (hothers : ∀ (j : Nat) (h : Head), heads[j]? = some (some h) → place + 1 + j < i →
                compareKeys order least.key h.key = .lt) (j : Nat) (h : Head)
              (hj : (some first :: heads)[j]? = some (some h)) (hplace : place + j < i) :
              compareKeys order least.key h.key = .lt := by
            cases j with
            | zero =>
                obtain rfl : first = h := by simpa using hj
                exact hlt (by omega)
            | succ j => exact hothers j h hj (by omega)
          rcases Stream.leastHead_cons_some order place best first heads with
            ⟨hnext, hless⟩ | ⟨kept, rfl, hnot, hnext⟩
          · rw [hnext] at hleast
            rcases ih (by simpa using hfirst) hrest hleast with hsame | ⟨hbefore, hothers⟩
            · obtain ⟨rfl, rfl⟩ := Prod.mk.inj (Option.some.inj hsame)
              exact .inr ⟨hless, fun j h _ hlt => absurd hlt (by omega)⟩
            · refine .inr ⟨fun b hb => ?_, hjoin (fun _ => hbefore _ rfl) hothers⟩
              exact htotal.lt_trans hleastKey hfirst (hbest b hb) (hbefore _ rfl) (hless b hb)
          · rw [hnext] at hleast
            have hkept := hbest kept rfl
            rcases ih hbest hrest hleast with hsame | ⟨hbefore, hothers⟩
            · exact .inl hsame
            · refine .inr ⟨hbefore, hjoin (fun _ => ?_) hothers⟩
              have hle : (compareKeys order kept.2.key first.key).isLE = true := by
                rw [htotal.swap hfirst hkept]
                cases hcmp : compareKeys order first.key kept.2.key with
                | lt => exact absurd hcmp hnot
                | eq | gt => rfl
              exact htotal.lt_of_lt_of_isLE hleastKey hkept hfirst (hbefore _ rfl) hle

/-- The `leading` one of some records in order is not larger than any of them. -/
theorem exists_first_isLE {records : List Record}
    (hkeys : ∀ r ∈ records, IsSortKey order (orderKey order load r))
    (hsorted : Ascending (compareRecords order load) records) {r : Record} (hr : r ∈ records) :
    ∃ first, leading order load records = some ⟨orderKey order load first, first⟩ ∧
      first ∈ records ∧ (compareRecords order load first r).isLE = true := by
  cases records with
  | nil => cases hr
  | cons first later =>
      refine ⟨first, rfl, List.mem_cons_self, ?_⟩
      rcases List.mem_cons.mp hr with rfl | hr
      · rw [compareRecords, (compareKeys_totalOn order).refl (hkeys r List.mem_cons_self)]
        rfl
      · exact (List.pairwise_cons.mp hsorted).1 r hr

/-- The record that a merge takes is smaller than those of earlier inputs and not larger than those
of its own input and of later ones, when all inputs are in order, `hsorted`. -/
theorem compareRecords_of_leastHead {before after : List (List Record)} {head : Head}
    {rest : List Record}
    (hkeys : ∀ records ∈ before ++ (head.record :: rest) :: after, ∀ r ∈ records,
      IsSortKey order (orderKey order load r))
    (hsorted : ∀ records ∈ before ++ (head.record :: rest) :: after,
      Ascending (compareRecords order load) records)
    (hleast : leastHead order 0 none
      ((before ++ (head.record :: rest) :: after).map (leading order load)) =
        some (before.length, head)) :
    (∀ r ∈ before.flatten, compareRecords order load head.record r = .lt) ∧
      ∀ r ∈ rest ++ after.flatten, (compareRecords order load head.record r).isLE = true := by
  have htotal := (compareKeys_totalOn order).comap (orderKey order load)
  have hheads : ∀ h, some h ∈ (before ++ (head.record :: rest) :: after).map (leading order load) →
      IsSortKey order h.key := by
    intro h hh
    obtain ⟨records, hrecords, hleading⟩ := List.mem_map.mp hh
    obtain ⟨hkey, later, rfl⟩ := leading_eq_some.mp hleading
    exact hkey ▸ hkeys _ hrecords _ List.mem_cons_self
  have hheadKey : head.key = orderKey order load head.record := by
    obtain ⟨records, -, hleading⟩ :=
      List.mem_map.mp (List.mem_of_getElem? (Stream.getElem?_leastHead hleast))
    exact (leading_eq_some.mp hleading).1
  have hown := hkeys (head.record :: rest) (by simp)
  have hownKey := hown _ List.mem_cons_self
  obtain ⟨-, -, hle⟩ := Stream.leastHead_least (by simp) hheads hleast
  obtain ⟨-, hlt⟩ := (leastHead_lt (by simp) hheads hleast).resolve_left (by simp)
  rw [hheadKey] at hle hlt
  constructor
  · intro r hr
    obtain ⟨records, hrecords, hr⟩ := List.mem_flatten.mp hr
    have hmem : records ∈ before ++ (head.record :: rest) :: after := List.mem_append_left _ hrecords
    obtain ⟨first, hleading, hfirst, hfirstLe⟩ :=
      exists_first_isLE (hkeys records hmem) (hsorted records hmem) hr
    obtain ⟨j, hj, hplace⟩ := List.mem_iff_getElem.mp hrecords
    have hhead : ((before ++ (head.record :: rest) :: after).map (leading order load))[j]? =
        some (some ⟨orderKey order load first, first⟩) := by
      rw [List.getElem?_map, List.getElem?_append_left hj, List.getElem?_eq_getElem hj, hplace,
        Option.map_some, hleading]
    exact htotal.lt_of_lt_of_isLE hownKey (hkeys records hmem first hfirst)
      (hkeys records hmem r hr) (hlt j _ hhead (by omega)) hfirstLe
  · intro r hr
    rcases List.mem_append.mp hr with hr | hr
    · exact (List.pairwise_cons.mp (hsorted (head.record :: rest) (by simp))).1 r hr
    · obtain ⟨records, hrecords, hr⟩ := List.mem_flatten.mp hr
      have hmem : records ∈ before ++ (head.record :: rest) :: after := by simp [hrecords]
      obtain ⟨first, hleading, hfirst, hfirstLe⟩ :=
        exists_first_isLE (hkeys records hmem) (hsorted records hmem) hr
      exact htotal.isLE_trans hownKey (hkeys records hmem first hfirst) (hkeys records hmem r hr)
        (hle _ (List.mem_map.mpr ⟨records, hmem, hleading⟩)) hfirstLe

/-- A merge of lists in order is the sort of their concatenation by insertion. The induction is on
`Merges`, and `compareRecords_of_leastHead` says that the record taken is inserted in front. -/
theorem Merges.eq_insertionSort {lists : List (List Record)} {all : List Record}
    (h : Merges order load lists all)
    (hkeys : ∀ records ∈ lists, ∀ r ∈ records, IsSortKey order (orderKey order load r))
    (hsorted : ∀ records ∈ lists, Ascending (compareRecords order load) records) :
    all = insertionSort (compareRecords order load) lists.flatten := by
  induction h with
  | nil hnil =>
      rw [List.flatten_eq_nil_iff.mpr hnil]
      rfl
  | @cons lists place head rest all hleast hplace _ ih =>
      obtain ⟨before, after, rfl, rfl, hset⟩ := exists_cut_of_getElem? hplace
      obtain ⟨hsmaller, hnotLarger⟩ := compareRecords_of_leastHead hkeys hsorted hleast
      rw [hset] at ih
      -- the lists that are left are those of before, one of them without its head
      have hrest {P : List Record → Prop} (hP : ∀ records ∈ before ++ (head.record :: rest) :: after,
          P records) (htail : P (head.record :: rest) → P rest) :
          ∀ records ∈ before ++ rest :: after, P records := by
        intro records hrecords
        rcases List.mem_append.mp hrecords with hrecords | hrecords
        · exact hP records (by simp [hrecords])
        · rcases List.mem_cons.mp hrecords with rfl | hrecords
          · exact htail (hP _ (by simp))
          · exact hP records (by simp [hrecords])
      have hall := ih (hrest hkeys fun h r hr => h r (List.mem_cons_of_mem _ hr))
        (hrest hsorted fun h => (List.pairwise_cons.mp h).2)
      rw [hall]
      simp only [List.flatten_append, List.flatten_cons, List.cons_append]
      -- the least head is strictly before all in front of it, and not behind any after it
      refine (insertionSort_least hsmaller fun r hr => ?_).symm
      have hkey : ∀ r ∈ rest ++ after.flatten, IsSortKey order (orderKey order load r) := by
        intro r hr
        rcases List.mem_append.mp hr with hr | hr
        · exact hkeys (head.record :: rest) (by simp) r (List.mem_cons_of_mem _ hr)
        · obtain ⟨records, hrecords, hr⟩ := List.mem_flatten.mp hr
          exact hkeys records (by simp [hrecords]) r hr
      exact (compareKeys_totalOn order).isLT_eq_false
        (hkeys (head.record :: rest) (by simp) _ List.mem_cons_self) (hkey r hr) (hnotLarger r hr)

end

/-! ## What a stream gives whatever else has been given

`PullsTo` quantifies over all lists of seen identities that agree with the given one on those that
the stream may note. This is what makes a statement about one input usable while others are read. -/

/-- Of the identities `own` the same ones are in both lists. -/
def AgreeOn (own seen seen' : List Rid) : Prop :=
  ∀ rid ∈ own, rid ∈ seen ↔ rid ∈ seen'

/-- Apart from the identities `own` the same ones are in both lists. -/
def AgreeBeside (own seen seen' : List Rid) : Prop :=
  ∀ rid, rid ∉ own → (rid ∈ seen ↔ rid ∈ seen')

/-- What was noted among `others` says nothing about `own`, if the two are disjoint. -/
theorem AgreeOn.trans_beside {own others seen seen' seen'' : List Rid}
    (h : AgreeOn own seen seen') (hbeside : AgreeBeside others seen' seen'')
    (hdisjoint : own.Disjoint others) : AgreeOn own seen seen'' := by
  intro rid hrid
  exact (h rid hrid).trans (hbeside rid fun hother => hdisjoint hrid hother)

/-- `AgreeBeside` is transitive: what two steps leave as it was stays as it was. -/
theorem AgreeBeside.trans {own seen seen' seen'' : List Rid} (h : AgreeBeside own seen seen')
    (h' : AgreeBeside own seen' seen'') : AgreeBeside own seen seen'' :=
  fun rid hrid => (h rid hrid).trans (h' rid hrid)

/-- What may have changed among `own` only, has changed among `others` only, if these are more. -/
theorem AgreeBeside.mono {own others seen seen' : List Rid} (h : AgreeBeside own seen seen')
    (hsub : own ⊆ others) : AgreeBeside others seen seen' :=
  fun rid hrid => h rid fun hown => hrid (hsub hown)

namespace Stream

open Steps

/-- A pull gives the record, or none at the end, in every state in which of the stream's own
identities those in `seen` have been given. It notes only its own identities, and leaves a stream of
which something is said, `leaving`. The depth of the stream bounds how deep a pull has to look. -/
def PullsTo (order : List OrderItem) (load : Rid → Option Record) (own : List Rid)
    (record : Option Record) (seen : List Rid) (s : Stream)
    (leaving : List Rid → Stream → Prop) : Prop :=
  ∀ (bound : Nat) (state : PullState), depth s ≤ bound → AgreeOn own seen state.seen →
    ∃ rest after, (pullWithin order load bound s).run.run state = (.ok (record, rest), after) ∧
      AgreeBeside own state.seen after.seen ∧ depth rest ≤ depth s ∧ leaving after.seen rest

/-- The stream gives these records one after the other, and then its end, whatever other streams are
pulled in between. Of its own identities those in `seen` have been given before. The recursion is on
the records. -/
def Yields (order : List OrderItem) (load : Rid → Option Record) (own : List Rid) :
    List Record → List Rid → Stream → Prop
  | [], seen, s => PullsTo order load own none seen s fun _ _ => True
  | r :: records, seen, s => PullsTo order load own (some r) seen s (Yields order load own records)

section

variable {order : List OrderItem} {load : Rid → Option Record} {own seen seen' : List Rid}
  {records : List Record} {s : Stream}

/-- A stream gives the same records when other identities have been given: only those of `own`
matter. -/
theorem Yields.congr (h : Yields order load own records seen s) (hagree : AgreeOn own seen seen') :
    Yields order load own records seen' s := by
  cases records <;>
  · intro bound state hdepth hstate
    exact h bound state hdepth fun rid hrid => (hagree rid hrid).trans (hstate rid hrid)

/-- The next pull of a stream gives the first of the records that it `Yields` and leaves the others.
The identities it notes are among `own`. -/
theorem Yields.pull (h : Yields order load own records seen s) {bound : Nat} {state : PullState}
    (hdepth : depth s ≤ bound) (hagree : AgreeOn own seen state.seen) :
    ∃ rest after,
      (pullWithin order load bound s).run.run state = (.ok (records.head?, rest), after) ∧
      AgreeBeside own state.seen after.seen ∧ depth rest ≤ depth s ∧
      ∀ r later, records = r :: later → Yields order load own later after.seen rest := by
  cases records with
  | nil =>
      obtain ⟨rest, after, hrun, hbeside, hless, -⟩ := h bound state hdepth hagree
      exact ⟨rest, after, hrun, hbeside, hless, by simp⟩
  | cons r records =>
      obtain ⟨rest, after, hrun, hbeside, hless, hrest⟩ := h bound state hdepth hagree
      refine ⟨rest, after, hrun, hbeside, hless, ?_⟩
      rintro _ _ ⟨⟩
      exact hrest

/-- A stream gives the records that all its pulls in this state give. This is how `Yields` is proved
of each kind of stream. -/
theorem Yields.of_pull
    (h : ∀ (bound : Nat) (state : PullState), depth s ≤ bound → AgreeOn own seen state.seen →
      ∃ rest after,
        (pullWithin order load bound s).run.run state = (.ok (records.head?, rest), after) ∧
        AgreeBeside own state.seen after.seen ∧ depth rest ≤ depth s ∧
        ∀ r later, records = r :: later → Yields order load own later after.seen rest) :
    Yields order load own records seen s := by
  cases records with
  | nil =>
      intro bound state hdepth hagree
      obtain ⟨rest, after, hrun, hbeside, hless, -⟩ := h bound state hdepth hagree
      exact ⟨rest, after, hrun, hbeside, hless, trivial⟩
  | cons r records =>
      intro bound state hdepth hagree
      obtain ⟨rest, after, hrun, hbeside, hless, hrest⟩ := h bound state hdepth hagree
      exact ⟨rest, after, hrun, hbeside, hless, hrest r records rfl⟩

/-- The records that a stream gives are drawn from it, `Draws`, and then its end is met. `Draws` is
what the loops of a query do with a stream. -/
theorem Yields.draws (h : Yields order load own records seen s) (hagree : AgreeOn own seen seen') :
    ∃ last lastSeen last' after, Draws order load s seen' records last lastSeen ∧
      (Stream.pull order load last).run.run ⟨lastSeen, []⟩ = (.ok (none, last'), after) := by
  have hstate : AgreeOn own seen (PullState.mk seen' []).seen := hagree
  induction records generalizing s seen seen' with
  | nil =>
      obtain ⟨rest, after, hrun, -⟩ := h.pull (Nat.le_refl _) hstate
      exact ⟨s, seen', rest, after, .nil s seen', hrun⟩
  | cons r records ih =>
      obtain ⟨rest, after, hrun, -, -, hrest⟩ := h.pull (Nat.le_refl _) hstate
      obtain ⟨last, lastSeen, last', final, hdraws, hend⟩ :=
        ih (hrest r records rfl) (fun rid _ => Iff.rfl) fun rid _ => Iff.rfl
      exact ⟨last, lastSeen, last', final, .cons hrun hdraws, hend⟩

/-- Records as they are come as they are: no identity is noted, so `own` and `seen` are free. -/
theorem yields_plain (order : List OrderItem) (load : Rid → Option Record) (own seen : List Rid)
    (records : List Record) : Yields order load own records seen (plain records) := by
  induction records generalizing seen with
  | nil =>
      refine .of_pull fun bound state hdepth _ => ?_
      obtain ⟨bound, rfl⟩ := Nat.exists_eq_add_of_le' hdepth
      exact ⟨plain [], state, rfl, fun _ _ => Iff.rfl, Nat.le_refl _, by simp⟩
  | cons r records ih =>
      refine .of_pull fun bound state hdepth _ => ?_
      obtain ⟨bound, rfl⟩ := Nat.exists_eq_add_of_le' hdepth
      refine ⟨plain records, state, rfl, fun _ _ => Iff.rfl, Nat.le_refl _, ?_⟩
      rintro _ _ ⟨⟩
      exact ih state.seen

/-- `nextUnseen` for identities none of which has been seen: it finds the first one with a
record. -/
theorem nextUnseen_of_fresh {rids : List Rid} (hnodup : rids.Nodup)
    (hfresh : ∀ rid ∈ rids, rid ∉ seen) :
    (nextUnseen load seen rids).1 = (rids.filterMap load).head? ∧
      (nextUnseen load seen rids).2.1.filterMap load = (rids.filterMap load).tail ∧
      (nextUnseen load seen rids).2.1.Sublist rids ∧
      AgreeBeside rids seen (nextUnseen load seen rids).2.2 ∧
      ∀ rid ∈ (nextUnseen load seen rids).2.1, rid ∉ (nextUnseen load seen rids).2.2 := by
  induction rids generalizing seen with
  | nil => exact ⟨rfl, rfl, .refl _, fun _ _ => Iff.rfl, by simp [nextUnseen]⟩
  | cons rid rids ih =>
      obtain ⟨hrid, hnodup⟩ := List.nodup_cons.mp hnodup
      obtain ⟨hunseen, hfresh⟩ := List.forall_mem_cons.mp hfresh
      have hnext : ∀ other ∈ rids, other ∉ rid :: seen := by
        intro other hother hmem
        rcases List.mem_cons.mp hmem with rfl | hmem
        · exact hrid hother
        · exact hfresh other hother hmem
      have hnoted : AgreeBeside (rid :: rids) seen (rid :: seen) := by
        intro other hother
        have hne : other ≠ rid := fun h => hother (h ▸ List.mem_cons_self)
        simp [hne]
      rw [nextUnseen, if_neg (by simpa using hunseen)]
      -- none of the identities was seen, so only those of missing records are skipped
      cases hload : load rid with
      | some r => exact ⟨by simp [hload], by simp [hload], List.sublist_cons_self .., hnoted, hnext⟩
      | none =>
          obtain ⟨hfound, hlater, hsub, hbeside, hleft⟩ := ih hnodup hnext
          refine ⟨by simpa [hload] using hfound, by simpa [hload] using hlater,
            hsub.trans (List.sublist_cons_self ..), ?_, hleft⟩
          intro other hother
          exact (hnoted other hother).trans
            (hbeside other fun hmem => hother (List.mem_cons_of_mem _ hmem))

/-- A lookup whose identities are distinct and fresh gives their records. Identities without a
record are passed over. -/
theorem yields_lookup (order : List OrderItem) {rids seen : List Rid} (hnodup : rids.Nodup)
    (hown : rids ⊆ own) (hfresh : ∀ rid ∈ rids, rid ∉ seen) :
    Yields order load own (rids.filterMap load) seen (lookup rids) := by
  refine .of_pull fun bound state hdepth hagree => ?_
  obtain ⟨bound, rfl⟩ := Nat.exists_eq_add_of_le' hdepth
  have hunseen : ∀ rid ∈ rids, rid ∉ state.seen := fun rid hrid hseen =>
    hfresh rid hrid ((hagree rid (hown hrid)).mpr hseen)
  obtain ⟨hfound, hlater, hsub, hbeside, hleft⟩ := @nextUnseen_of_fresh load _ rids hnodup hunseen
  refine ⟨lookup (nextUnseen load state.seen rids).2.1,
    { state with seen := (nextUnseen load state.seen rids).2.2 }, ?_, hbeside.mono hown,
    Nat.le_refl _, fun r later hrecords => ?_⟩
  · rw [← hfound]
    rfl
  · have hlater : (nextUnseen load state.seen rids).2.1.filterMap load = later := by
      rw [hlater, hrecords, List.tail_cons]
    have hless : later.length < (rids.filterMap load).length := by
      rw [hrecords, List.length_cons]
      omega
    rw [← hlater] at hless ⊢
    -- the rest of the lookup has a record less
    exact yields_lookup order (hnodup.sublist hsub) (fun rid hrid => hown (hsub.subset hrid)) hleft
termination_by (rids.filterMap load).length

end

end Stream

/-! ## Merging streams

A merge of streams holds the first record of every input as a head. One pull takes the least head
and reads the next one from the same input, which is one step of `Merges` on the records. -/

/-- An input of a merge, the `records` that it still has for the merge, and the identities `own`
that it may note. -/
structure MergeInput where
  /-- The input. -/
  stream : Stream
  /-- The records of the input, the one that the merge holds as its head among them. -/
  records : List Record
  /-- The identities that the input may note. -/
  own : List Rid

namespace MergeInput

/-- The input gives its records, as `Yields` says of its stream. -/
def Gives (order : List OrderItem) (load : Rid → Option Record) (seen : List Rid)
    (input : MergeInput) : Prop :=
  Stream.Yields order load input.own input.records seen input.stream

/-- The first record of the input has been read, and the input gives the others, `later`. This is
the state of the inputs of a merge that holds heads. -/
def Led (order : List OrderItem) (load : Rid → Option Record) (seen : List Rid)
    (input : MergeInput) : Prop :=
  ∀ r later, input.records = r :: later →
    Stream.Yields order load input.own later seen input.stream

/-- No identity may be noted by two of the inputs, as their `own` are disjoint, so what one gives
does not depend on the others. -/
def Apart (inputs : List MergeInput) : Prop :=
  inputs.Pairwise fun a b => a.own.Disjoint b.own

/-- The identities that the inputs may note, all their `own`. -/
def owned (inputs : List MergeInput) : List Rid :=
  inputs.flatMap (·.own)

/-- The merge of the inputs that holds their `leading` records as heads. -/
def primed (order : List OrderItem) (load : Rid → Option Record) (inputs : List MergeInput)
    (timed : Bool) : Stream :=
  .merge (inputs.map (·.stream)) (some ((inputs.map (·.records)).map (leading order load))) timed

variable {order : List OrderItem} {load : Rid → Option Record} {seen seen' : List Rid}

/-- `Led` is kept when other identities have been given. -/
theorem Led.congr {input : MergeInput} (h : input.Led order load seen)
    (hagree : AgreeOn input.own seen seen') : input.Led order load seen' :=
  fun r later hrecords => (h r later hrecords).congr hagree

/-- Lists that agree on all `owned` identities agree on those of each input. -/
theorem agreeOn_of_mem {inputs : List MergeInput} (h : AgreeOn (owned inputs) seen seen')
    {input : MergeInput} (hinput : input ∈ inputs) : AgreeOn input.own seen seen' :=
  fun rid hrid => h rid (List.mem_flatMap.mpr ⟨input, hinput, hrid⟩)

/-- `Apart` depends only on the `own` identities of the inputs. -/
theorem Apart.congr {inputs inputs' : List MergeInput} (h : Apart inputs)
    (hown : inputs'.map (·.own) = inputs.map (·.own)) : Apart inputs' := by
  have hpairwise : (inputs.map (·.own)).Pairwise List.Disjoint := List.pairwise_map.mpr h
  rw [← hown] at hpairwise
  exact List.pairwise_map.mp hpairwise

/-- `owned` depends only on the `own` identities of the inputs. -/
theorem owned_congr {inputs inputs' : List MergeInput}
    (hown : inputs'.map (·.own) = inputs.map (·.own)) : owned inputs' = owned inputs := by
  unfold owned
  rw [List.flatMap_def, hown, ← List.flatMap_def]

/-- An input shares no identity with all that the others have `owned` together. -/
theorem disjoint_owned {input : MergeInput} {inputs : List MergeInput}
    (h : Apart (input :: inputs)) : input.own.Disjoint (owned inputs) := by
  intro rid hrid hother
  obtain ⟨other, hmem, hother⟩ := List.mem_flatMap.mp hother
  exact (List.pairwise_cons.mp h).1 other hmem hrid hother

end MergeInput

namespace Stream

open Steps MergeInput

section

variable {order : List OrderItem} {load : Rid → Option Record} {seen : List Rid} {bound : Nat}

/-- `depthOfAll` is at most `bound` exactly if the depth of each input is. -/
theorem depthOfAll_le {inputs : List Stream} :
    depthOfAll inputs ≤ bound ↔ ∀ input ∈ inputs, depth input ≤ bound := by
  induction inputs with
  | nil => simp [depthOfAll]
  | cons input inputs ih => rw [depthOfAll, Nat.max_le, ih, List.forall_mem_cons]

/-- A run of `nextHead`: the head is the record of the pull with its key. -/
theorem nextHead_run {step : PullStep} {input rest : Stream} {records : List Record}
    {state after : PullState}
    (hrun : (step input).run.run state = (.ok (records.head?, rest), after)) :
    (nextHead step order load input).run.run state =
      (.ok (leading order load records, rest), after) := by
  rw [nextHead, run_bind, hrun]
  rfl

/-- A run of `refill`: reading the next head of one of the inputs leaves the others as they are. -/
theorem refill_run {step : PullStep} {inputs : List Stream} {place : Nat} {input rest : Stream}
    {records : List Record} {state after : PullState} (hplace : inputs[place]? = some input)
    (hrun : (step input).run.run state = (.ok (records.head?, rest), after)) :
    (refill step order load place inputs).run.run state =
      (.ok (leading order load records, inputs.set place rest), after) := by
  induction inputs generalizing place with
  | nil => simp at hplace
  | cons first inputs ih =>
      cases place with
      | zero =>
          obtain rfl : first = input := by simpa using hplace
          rw [refill, run_bind, nextHead_run hrun]
          rfl
      | succ place =>
          rw [refill, run_bind, ih (by simpa using hplace)]
          rfl

/-- A run of `firstHeads`: afterwards all inputs are `Led`, and the heads are their `leading`
records. -/
theorem firstHeads_run {inputs : List MergeInput} {state : PullState}
    (hgives : ∀ input ∈ inputs, input.Gives order load seen) (hapart : Apart inputs)
    (hdepth : depthOfAll (inputs.map (·.stream)) ≤ bound)
    (hagree : AgreeOn (owned inputs) seen state.seen) :
    ∃ (led : List MergeInput) (after : PullState),
      (firstHeads (pullWithin order load bound) order load (inputs.map (·.stream))).run.run state =
        (.ok ((led.map (·.records)).map (leading order load), led.map (·.stream)), after) ∧
      led.map (·.records) = inputs.map (·.records) ∧ led.map (·.own) = inputs.map (·.own) ∧
      depthOfAll (led.map (·.stream)) ≤ depthOfAll (inputs.map (·.stream)) ∧
      AgreeBeside (owned inputs) state.seen after.seen ∧
      ∀ input ∈ led, input.Led order load after.seen := by
  induction inputs generalizing state with
  | nil => exact ⟨[], state, rfl, rfl, rfl, Nat.le_refl _, fun _ _ => Iff.rfl, by simp⟩
  | cons input inputs ih =>
      obtain ⟨hinput, hgives⟩ := List.forall_mem_cons.mp hgives
      rw [List.map_cons, depthOfAll, Nat.max_le] at hdepth
      obtain ⟨rest, mid, hrun, hbeside, hless, hrest⟩ :=
        Yields.pull hinput hdepth.1 (agreeOn_of_mem hagree List.mem_cons_self)
      have hdisjoint := disjoint_owned hapart
      -- the first input notes only identities of its own
      have hagreeOthers : AgreeOn (owned inputs) seen mid.seen := by
        refine AgreeOn.trans_beside (fun rid hrid => hagree rid ?_) hbeside
          (List.disjoint_symm hdisjoint)
        exact List.mem_append_right _ hrid
      obtain ⟨led, after, hothers, hrecords, hown, hlessOthers, hbesideOthers, hled⟩ :=
        ih hgives (List.pairwise_cons.mp hapart).2 hdepth.2 hagreeOthers
      refine ⟨⟨rest, input.records, input.own⟩ :: led, after, ?_, by simp [hrecords],
        by simp [hown], ?_, ?_, List.forall_mem_cons.mpr ⟨?_, hled⟩⟩
      · rw [List.map_cons, firstHeads, run_bind, nextHead_run hrun]
        dsimp only
        rw [run_bind, hothers]
        rfl
      · simp only [List.map_cons, depthOfAll]
        omega
      · exact (hbeside.mono (List.subset_append_left _ _)).trans
          (hbesideOthers.mono (List.subset_append_right _ _))
      · -- the heads of the other inputs were read since, which note nothing of this one
        intro r later hlater
        exact (hrest r later hlater).congr
          (AgreeOn.trans_beside (fun _ _ => Iff.rfl) hbesideOthers hdisjoint)

/-- Lists without records have no `leastHead`, so the merge ends. -/
theorem leastHead_of_nil {lists : List (List Record)} (hnil : ∀ records ∈ lists, records = []) :
    leastHead order 0 none (lists.map (leading order load)) = none := by
  cases hleast : leastHead order 0 none (lists.map (leading order load)) with
  | none => rfl
  | some found =>
      obtain ⟨rest, hplace⟩ := getElem?_of_leastHead hleast
      have hrecords := hnil _ (List.mem_of_getElem? hplace)
      cases hrecords

/-- Reading from an input does not change its `own` identities. -/
theorem map_own_set {inputs : List MergeInput} {place : Nat} {input : MergeInput}
    (hinput : inputs[place]? = some input) (left : Stream) (rest : List Record) :
    (inputs.set place ⟨left, rest, input.own⟩).map (·.own) = inputs.map (·.own) := by
  obtain ⟨before, behind, rfl, -, hset⟩ := exists_cut_of_getElem? hinput
  rw [hset, List.map_append, List.map_append, List.map_cons, List.map_cons]

/-- A `primed` merge gets no deeper when one of its inputs does not. -/
theorem depth_primed_set {inputs : List MergeInput} {place : Nat} {input next : MergeInput}
    (hinput : inputs[place]? = some input) (hless : depth next.stream ≤ depth input.stream)
    (timed : Bool) :
    depth (primed order load (inputs.set place next) timed) ≤
      depth (primed order load inputs timed) := by
  refine Nat.succ_le_succ (depthOfAll_le.mpr fun stream hstream => ?_)
  have hall := depthOfAll_le.mp (Nat.le_refl (depthOfAll (inputs.map (·.stream))))
  obtain ⟨other, hother, rfl⟩ := List.mem_map.mp hstream
  rcases List.mem_or_eq_of_mem_set hother with hother | rfl
  · exact hall _ (List.mem_map_of_mem hother)
  · exact Nat.le_trans hless (hall _ (List.mem_map_of_mem (List.mem_of_getElem? hinput)))

/-- Once the next record of one input has been read, all inputs are led: that one by `hnext`, and
the others as before, since they are apart from it. -/
theorem led_set {inputs : List MergeInput} {place : Nat} {input next : MergeInput}
    {seen' : List Rid} (hapart : Apart inputs) (hinput : inputs[place]? = some input)
    (hled : ∀ other ∈ inputs, other.Led order load seen)
    (hbeside : AgreeBeside input.own seen seen') (hnext : next.Led order load seen') :
    ∀ other ∈ inputs.set place next, other.Led order load seen' := by
  obtain ⟨before, behind, rfl, -, hset⟩ := exists_cut_of_getElem? hinput
  obtain ⟨-, hbehind, hbefore⟩ := List.pairwise_append.mp hapart
  -- the others share no identity with the input
  have hothers (other : MergeInput) (hother : other ∈ before ∨ other ∈ behind) :
      other.Led order load seen' := by
    have hdisjoint : other.own.Disjoint input.own := hother.elim
      (fun h => hbefore other h input List.mem_cons_self)
      fun h => List.disjoint_symm ((List.pairwise_cons.mp hbehind).1 other h)
    refine (hled other ?_).congr (AgreeOn.trans_beside (fun _ _ => Iff.rfl) hbeside hdisjoint)
    rcases hother with hother | hother <;> simp [hother]
  rw [hset]
  intro other hother
  rcases List.mem_append.mp hother with hother | hother
  · exact hothers other (.inl hother)
  · rcases List.mem_cons.mp hother with rfl | hother
    · exact hnext
    · exact hothers other (.inr hother)

/-- Taking the least head of a merge, when the next head comes from the input at its place. `step`
is the pull of the inputs, and its result is `hpull`. -/
theorem pullLeast_run {step : PullStep} {inputs : List MergeInput} {place : Nat} {head : Head}
    {input : MergeInput} {rest : List Record} {left : Stream} {state after : PullState}
    (hleast : leastHead order 0 none ((inputs.map (·.records)).map (leading order load)) =
      some (place, head))
    (hinput : inputs[place]? = some input)
    (hpull : (step input.stream).run.run state = (.ok (rest.head?, left), after)) (timed : Bool) :
    (pullLeast step order load (inputs.map (·.stream))
        ((inputs.map (·.records)).map (leading order load)) timed).run.run state =
      (.ok (some head.record,
        primed order load (inputs.set place ⟨left, rest, input.own⟩) timed), after) := by
  have hrefill := @refill_run order load step (inputs.map (·.stream)) place input.stream left rest
    state after (by rw [List.getElem?_map, hinput]; rfl) hpull
  rw [pullLeast, hleast]
  dsimp only
  rw [run_bind, hrefill, primed, List.map_set, List.map_set, List.map_set]
  rfl

/-- The merge that holds the heads of its inputs gives what merging the inputs gives. The induction
is on `Merges`, with `pullLeast_run` for each record. -/
theorem yields_primed {inputs : List MergeInput} {all : List Record}
    (h : Merges order load (inputs.map (·.records)) all) (hapart : Apart inputs)
    (hled : ∀ input ∈ inputs, input.Led order load seen) (timed : Bool) :
    Yields order load (owned inputs) all seen (primed order load inputs timed) := by
  -- on the merge of the lists, which pulls of the streams follow step by step
  generalize hlists : inputs.map (·.records) = lists at h
  induction h generalizing inputs seen with
  | nil hnil =>
      subst hlists
      refine .of_pull fun bound state hdepth _ => ?_
      obtain ⟨bound, rfl⟩ := Nat.exists_eq_add_of_le' (Nat.le_trans (Nat.le_add_left 1 _) hdepth)
      obtain ⟨after, htime, hseen⟩ := time_run .merge timed state
      refine ⟨primed order load inputs false, after, ?_, fun _ _ => by rw [hseen], Nat.le_refl _,
        by simp⟩
      show (pullLeast (pullWithin order load bound) order load _ _ timed).run.run state = _
      rw [pullLeast, leastHead_of_nil hnil]
      dsimp only
      rw [run_bind, htime]
      rfl
  | @cons lists place head rest all hleast hplace _ ih =>
      subst hlists
      obtain ⟨input, hinput, hrecords⟩ : ∃ input, inputs[place]? = some input ∧
          input.records = head.record :: rest := by
        simpa using hplace
      refine .of_pull fun bound state hdepth hagree => ?_
      obtain ⟨bound, rfl⟩ := Nat.exists_eq_add_of_le' (Nat.le_trans (Nat.le_add_left 1 _) hdepth)
      have hmem := List.mem_of_getElem? hinput
      have hbound := depthOfAll_le.mp (Nat.le_of_succ_le_succ hdepth)
      obtain ⟨left, after, hpull, hbeside, hless, hlater⟩ :=
        (hled input hmem head.record rest hrecords).pull
          (hbound input.stream (List.mem_map_of_mem hmem)) (agreeOn_of_mem hagree hmem)
      refine ⟨primed order load (inputs.set place ⟨left, rest, input.own⟩) timed, after,
        pullLeast_run hleast hinput hpull timed,
        hbeside.mono fun rid hrid => List.mem_flatMap.mpr ⟨input, hmem, hrid⟩,
        depth_primed_set hinput hless timed, ?_⟩
      rintro _ _ ⟨⟩
      have hown := map_own_set hinput left rest
      rw [← owned_congr hown]
      -- the input that was pulled led its records; the others see nothing of the pull
      refine ih (hapart.congr hown) ?_ List.map_set
      exact led_set hapart hinput (fun other hother =>
        (hled other hother).congr (agreeOn_of_mem hagree hother)) hbeside hlater

end

/-- A merge of any number of streams gives every record of its inputs once and keeps the order of
each input, `Interleaves`, whatever the order of their records. Where ORDER BY finds no
floating-point number and every input is in order, the merge is in order too: it is the `stableSort`
of the inputs put one behind the other. The merge is itself a stream of which its records are known,
`Yields`, so that it may be the input of another merge. -/
theorem merge_stable {order : List OrderItem} {load : Rid → Option Record} {seen : List Rid}
    {inputs : List MergeInput} (hgives : ∀ input ∈ inputs, input.Gives order load seen)
    (hapart : Apart inputs) (timed : Bool) :
    ∃ all, Yields order load (owned inputs) all seen
        (merge (inputs.map (·.stream)) none timed) ∧
      Interleaves (inputs.map (·.records)) all ∧
      ((∀ input ∈ inputs, ∀ r ∈ input.records, Value.areExact (orderKey order load r) = true) →
        (∀ input ∈ inputs, Ascending (compareRecords order load) input.records) →
        Ascending (compareRecords order load) all ∧
          all = stableSort (compareRecords order load) (inputs.map (·.records)).flatten) := by
  obtain ⟨all, hall⟩ := exists_merges order load (inputs.map (·.records))
  refine ⟨all, .of_pull fun bound state hdepth hagree => ?_, hall.interleaves,
    fun hexact hsorted => ?_⟩
  · -- the first pull reads the heads, and from there on the merge holds them
    obtain ⟨bound, rfl⟩ := Nat.exists_eq_add_of_le' (Nat.le_trans (Nat.le_add_left 1 _) hdepth)
    obtain ⟨led, mid, hfirst, hrecords, hown, hless, hbeside, hled⟩ :=
      firstHeads_run hgives hapart (Nat.le_of_succ_le_succ hdepth) hagree
    have hyields : Yields order load (owned led) all mid.seen (primed order load led timed) :=
      yields_primed (hrecords ▸ hall) (hapart.congr hown) hled timed
    have hsame : AgreeOn (owned led) mid.seen mid.seen := fun _ _ => Iff.rfl
    obtain ⟨rest, after, hpull, hbesideRest, hlessRest, hlater⟩ :=
      hyields.pull (Nat.le_trans (Nat.succ_le_succ hless) hdepth) hsame
    rw [owned_congr hown] at hbesideRest hlater
    refine ⟨rest, after, ?_, hbeside.trans hbesideRest,
      Nat.le_trans hlessRest (Nat.succ_le_succ hless), hlater⟩
    rw [← hpull]
    show (firstHeads (pullWithin order load bound) order load (inputs.map (·.stream)) >>= _).run.run
      state = _
    rw [run_bind, hfirst]
    rfl
  · have hkeys : ∀ records ∈ inputs.map (·.records), ∀ r ∈ records,
        IsSortKey order (orderKey order load r) := by
      intro records hrecords r hr
      obtain ⟨input, hinput, rfl⟩ := List.mem_map.mp hrecords
      exact ⟨List.length_map _, hexact input hinput r hr⟩
    have htotal := (compareKeys_totalOn order).comap (orderKey order load)
    have hflat : ∀ r ∈ (inputs.map (·.records)).flatten,
        IsSortKey order (orderKey order load r) := by
      intro r hr
      obtain ⟨records, hrecords, hr⟩ := List.mem_flatten.mp hr
      exact hkeys records hrecords r hr
    have hsort : all = stableSort (compareRecords order load)
        (inputs.map (·.records)).flatten := by
      rw [hall.eq_insertionSort hkeys (List.forall_mem_map.mpr hsorted), stableSort]
      exact (stableSortBy_eq_insertionSort htotal 4 hflat).symm
    exact ⟨hsort ▸ stableSortBy_ascending htotal 4 hflat, hsort⟩

/-! ### A merge with ties -/

/-- A record with values of `a` and `b` for two items of ORDER BY. -/
def tiedRecord (rid : Rid) (a b : Int64) : Record := ⟨rid, "A", [("a", .int a), ("b", .int b)]⟩

/-- The records that a lookup among `tiedInputs` finds. -/
def tiedLoad (rid : Rid) : Option Record :=
  [tiedRecord ⟨2, 0⟩ 1 2, tiedRecord ⟨2, 1⟩ 2 7].find? fun r => r.rid == rid

/-- Records as they are, and those of a lookup; the first ones of both compare equal by
`tiedOrder`. -/
def tiedInputs : List MergeInput :=
  [⟨plain [tiedRecord ⟨1, 0⟩ 1 2, tiedRecord ⟨1, 1⟩ 2 5],
      [tiedRecord ⟨1, 0⟩ 1 2, tiedRecord ⟨1, 1⟩ 2 5], []⟩,
    ⟨lookup [⟨2, 0⟩, ⟨2, 1⟩], [tiedRecord ⟨2, 0⟩ 1 2, tiedRecord ⟨2, 1⟩ 2 7], [⟨2, 0⟩, ⟨2, 1⟩]⟩]

/-- The items of ORDER BY, `a` upwards and `b` downwards. -/
def tiedOrder : List OrderItem := [⟨⟨"a", []⟩, .asc⟩, ⟨⟨"b", []⟩, .desc⟩]

/-- Of the two records that compare equal the one of the earlier input comes first, and the larger
second value comes before the smaller one. These are the records that `Draws` takes from the merge,
to its end. -/
theorem merge_of_ties :
    (∀ input ∈ tiedInputs, input.Gives tiedOrder tiedLoad []) ∧ Apart tiedInputs ∧
      ∃ all, Yields tiedOrder tiedLoad (owned tiedInputs) all []
          (merge (tiedInputs.map (·.stream)) none true) ∧
        (∃ last lastSeen last' after,
          Draws tiedOrder tiedLoad (merge (tiedInputs.map (·.stream)) none true) [] all last
            lastSeen ∧
          (pull tiedOrder tiedLoad last).run.run ⟨lastSeen, []⟩ = (.ok (none, last'), after)) ∧
        all.map (·.rid) = [⟨1, 0⟩, ⟨2, 0⟩, ⟨2, 1⟩, ⟨1, 1⟩] := by
  have hgives : ∀ input ∈ tiedInputs, input.Gives tiedOrder tiedLoad [] := by
    intro input hinput
    rcases List.mem_pair.mp hinput with rfl | rfl
    · exact yields_plain tiedOrder tiedLoad [] [] _
    · exact @yields_lookup tiedLoad _ tiedOrder [⟨2, 0⟩, ⟨2, 1⟩] [] (by decide) (fun _ h => h)
        (by simp)
  have hapart : Apart tiedInputs := by simp [Apart, tiedInputs]
  obtain ⟨all, hyields, -, hsort⟩ := merge_stable hgives hapart true
  refine ⟨hgives, hapart, all, hyields, hyields.draws fun _ _ => Iff.rfl, ?_⟩
  rw [(hsort (by decide +kernel) (by unfold Ascending; decide +kernel)).2]
  decide +kernel

end Stream

end RecordQuery
