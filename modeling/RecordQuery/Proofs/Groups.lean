import Mathlib.Data.List.Induction
import RecordQuery.Proofs.Buckets
import RecordQuery.Run.Grouping

/-!
# `RecordQuery.Proofs.Groups`: gathering parts the input

Gathering looks up the group of each record in the index of the groups seen so far, and makes a new
one where there is none. Where the order of the group keys is total the search always finds the
group of an equal key. So there is one group for every key, in the order in which the keys were
first seen, and the state of a group is what its own records, in their order, make of a fresh one.

The specification of a grouping does not mention the index. `Grouping.firstKeys` drops repeated keys
from the list of all keys, `Grouping.members` filters the records by one key, and `Grouping.parts`
puts these together. `Grouping.Tracks` is the invariant that ties a `Grouping` to the records seen
so far: its `index` is sorted, leads from each first key to its slot, and its `groups` are the
states of the `parts`. `tracks_nil` and `Tracks.accept` make it hold of every input.

Keys are compared with `GroupKey.compare`, and a key of a single field compares values. So the
values have to be from a property `p` on which `Value.compare` is total, `KeysIn`. The texts of
several fields, `GroupKey.joined`, are compared as texts and need nothing.

The theorems:

* `GroupIndex.Sorted.get?_cases`: what a search for the slot of a group comes to;
  `GroupIndex.Sorted.mem_insert_iff`: the slots after a new one.
* `Grouping.Tracks.accept`: what one more record does to the groups.
* `Grouping.groups_gather`: the groups of any input.
* `Grouping.together_iff_same`: which records are in one group.
* `Grouping.sum_length_parts`: the groups have as many records as the input.
-/

set_option autoImplicit false

namespace RecordQuery

/-! ## First occurrences

The order of groups is that in which their keys are first seen. `List.eraseDupsBy` keeps first
occurrences, and these lemmas say how it grows by one element. -/

section

variable {α β : Type} {same : α → α → Bool}

/-- The loop of `List.eraseDupsBy` on a longer list drops the repeats of its beginning first. -/
theorem eraseDupsBy_loop_concat (xs : List α) (x : α) (seen : List α) :
    List.eraseDupsBy.loop same (xs ++ [x]) seen =
      let firsts := List.eraseDupsBy.loop same xs seen
      if firsts.any (same x) then firsts else firsts ++ [x] := by
  induction xs generalizing seen with
  | nil =>
      simp only [List.nil_append, List.eraseDupsBy.loop, List.any_reverse]
      cases seen.any (same x) <;> simp
  | cons y ys ih =>
      cases hany : seen.any (same y) with
      | true => simp only [List.cons_append, List.eraseDupsBy.loop, hany, ih]
      | false => simp only [List.cons_append, List.eraseDupsBy.loop, hany, ih]

/-- `eraseDupsBy` drops one more element where it is the `same` as one that was kept, and keeps it
otherwise. Gathering goes through the records from the front, so this is the step that its induction
takes. -/
theorem eraseDupsBy_concat (xs : List α) (x : α) :
    (xs ++ [x]).eraseDupsBy same =
      if (xs.eraseDupsBy same).any (same x) then xs.eraseDupsBy same
      else xs.eraseDupsBy same ++ [x] :=
  eraseDupsBy_loop_concat xs x []

/-- What `eraseDupsBy` keeps is in the list. -/
theorem mem_of_mem_eraseDupsBy {xs : List α} {x : α} (h : x ∈ xs.eraseDupsBy same) : x ∈ xs := by
  induction xs using List.reverseRecOn with
  | nil => cases h
  | append_singleton xs y ih =>
      rw [eraseDupsBy_concat] at h
      by_cases hany : (xs.eraseDupsBy same).any (same y) = true
      · rw [if_pos hany] at h
        exact List.mem_append_left _ (ih h)
      · rw [if_neg hany] at h
        rcases List.mem_append.mp h with h | h
        · exact List.mem_append_left _ (ih h)
        · exact List.mem_append_right _ h

/-- Every element is the `same` as one that is kept, if it is so as itself (`hself`). -/
theorem exists_mem_eraseDupsBy {xs : List α} (hself : ∀ x ∈ xs, same x x = true) {x : α}
    (hx : x ∈ xs) : ∃ y ∈ xs.eraseDupsBy same, same x y = true := by
  -- from the back, as an element is compared with those that were kept before it
  induction xs using List.reverseRecOn with
  | nil => cases hx
  | append_singleton xs y ih =>
      rw [eraseDupsBy_concat]
      rcases List.mem_append.mp hx with hx | hx
      · obtain ⟨z, hz, hsame⟩ := ih (fun x hx => hself x (List.mem_append_left _ hx)) hx
        refine ⟨z, ?_, hsame⟩
        split
        · exact hz
        · exact List.mem_append_left _ hz
      · obtain rfl : x = y := List.mem_singleton.mp hx
        by_cases hany : (xs.eraseDupsBy same).any (same x) = true
        · rw [if_pos hany]
          exact List.any_eq_true.mp hany
        · rw [if_neg hany]
          exact ⟨x, by simp, hself x (by simp)⟩

/-- No element that is kept is the `same` as an earlier one. -/
theorem eraseDupsBy_pairwise (xs : List α) :
    (xs.eraseDupsBy same).Pairwise fun x y => same y x = false := by
  induction xs using List.reverseRecOn with
  | nil => exact .nil
  | append_singleton xs y ih =>
      rw [eraseDupsBy_concat]
      by_cases hany : (xs.eraseDupsBy same).any (same y) = true
      · rw [if_pos hany]
        exact ih
      · rw [if_neg hany]
        refine List.pairwise_append.mpr ⟨ih, List.pairwise_singleton _ _, ?_⟩
        intro x hx z hz
        rw [List.mem_singleton.mp hz]
        exact Bool.eq_false_iff.mpr fun hsame => hany (List.any_eq_true.mpr ⟨x, hx, hsame⟩)

/-- `eraseDupsBy` of the images are the images of what it keeps when elements are compared by their
images. -/
theorem eraseDupsBy_map (f : β → α) (xs : List β) :
    (xs.map f).eraseDupsBy same = (xs.eraseDupsBy fun x y => same (f x) (f y)).map f := by
  induction xs using List.reverseRecOn with
  | nil => rfl
  | append_singleton xs x ih =>
      rw [List.map_append, List.map_singleton, eraseDupsBy_concat, eraseDupsBy_concat, ih,
        List.any_map]
      show (if (List.eraseDupsBy _ xs).any (fun y => same (f x) (f y)) = true then _ else _) = _
      split <;> simp

end

/-! ## Group keys

A key is a single value, compared by `Value.compare`, or a text. Two single values belong to one
group when they compare equal, which is an equivalence where that comparison is a total order. -/

namespace GroupKey

/-- Whether two keys are those of one group: `compare` finds them equal. -/
def same (a b : GroupKey) : Bool := a.compare b == .eq

/-- The value of a `single` grouping field has the property `p`. The other keys are compared without
comparing values. -/
def Within (p : Value → Prop) : GroupKey → Prop
  | single value => p value
  | all | joined _ => True

variable {p : Value → Prop} (htotal : TotalOn Value.compare p)

include htotal

/-- Group keys are totally ordered where the values of a `single` grouping field are. Keys of
different constructors never meet in one query. -/
theorem totalOn : TotalOn compare (Within p) where
  swap {a b} ha hb := by
    cases a <;> cases b
    case single.single => exact htotal.swap ha hb
    case joined.joined => exact (TotalOn.ofOrd (α := String)).swap trivial trivial
    all_goals rfl
  isLE_trans {a b c} ha hb hc hab hbc := by
    cases a <;> cases b <;> cases c
    case single.single.single => exact htotal.isLE_trans ha hb hc hab hbc
    case joined.joined.joined =>
      exact (TotalOn.ofOrd (α := String)).isLE_trans trivial trivial trivial hab hbc
    -- a key of an earlier kind comes first
    all_goals first
      | rfl
      | exact absurd hab Bool.false_ne_true
      | exact absurd hbc Bool.false_ne_true

variable {a b c : GroupKey}

/-- A key is the `same` as itself. -/
theorem same_self (ha : a.Within p) : a.same a = true :=
  beq_iff_eq.mpr ((totalOn htotal).refl ha)

/-- Keys that are the `same` are so with the same keys. This takes transitivity, which fails for
keys that mix integers and floating-point numbers. -/
theorem same_congr (ha : a.Within p) (hb : b.Within p) (hc : c.Within p) (h : a.same b = true) :
    a.same c = b.same c := by
  unfold same
  rw [(totalOn htotal).congr_left ha hb hc (beq_iff_eq.mp h)]

/-- `same` is symmetric on keys that are `Within` a total order. -/
theorem same_comm (ha : a.Within p) (hb : b.Within p) : a.same b = b.same a := by
  unfold same
  rw [(totalOn htotal).swap ha hb]
  cases a.compare b <;> rfl

end GroupKey

/-! ## The index of groups

The slots of the groups are found by a binary search, and that asks for sorted keys. What `get?` and
`insert` do is stated by membership, so later proofs do not see the search. -/

namespace GroupIndex

/-- The keys are `Within` the property and strictly ascending, as a binary search needs them. -/
structure Sorted (p : Value → Prop) (index : GroupIndex) : Prop where
  /-- Every key has the property. -/
  within : ∀ e ∈ index.elements, e.1.Within p
  /-- Every key comes before those behind it. -/
  ascending : index.elements.Pairwise fun e f => e.1.compare f.1 = .lt

variable {p : Value → Prop} (htotal : TotalOn Value.compare p) {index : GroupIndex}
  (h : index.Sorted p) {key : GroupKey} (hkey : key.Within p)

include htotal h hkey

/-- A search finds the slot of an equal key, or there is none. Then the new slot comes between the
keys before it and those behind it. Later lemmas use these two cases and do not open `get?` and
`insert`. -/
theorem Sorted.get?_cases :
    (∃ e ∈ index.elements, key.same e.1 = true ∧ index.get? key = some e.2) ∨
      index.get? key = none ∧ ∃ before behind, index.elements = before ++ behind ∧
        (∀ e ∈ before, e.1.compare key = .lt) ∧ (∀ e ∈ behind, key.compare e.1 = .lt) ∧
        ∀ slot, (index.insert key slot).elements = before ++ (key, slot) :: behind := by
  have hkeys := GroupKey.totalOn htotal
  have hseparates : Separates (fun e : GroupKey × Nat => key.compare e.1) index.elements :=
    separates_of_ascending hkeys h.within h.ascending hkey
  -- the keys are sorted, so that the search ends at an equal key or at the place of a new one
  cases hlocate : index.locate fun e => key.compare e.1 with
  | found i =>
      obtain ⟨before, e, behind, hsplit, rfl, heq, -⟩ :=
        LeveledList.locate_found hseparates hlocate
      refine .inl ⟨e, by simp [hsplit], beq_iff_eq.mpr heq, ?_⟩
      have he : index.elements[before.length]? = some e := by simp [hsplit]
      simp only [get?, LeveledList.find?, hlocate, he, Option.map_some]
  | vacant i =>
      obtain ⟨before, behind, hsplit, rfl, hgt, hlt⟩ := LeveledList.locate_vacant hseparates hlocate
      refine .inr ⟨by simp only [get?, LeveledList.find?, hlocate, Option.map_none],
        before, behind, hsplit, ?_, hlt, ?_⟩
      · intro e he
        exact (hkeys.gt_iff_lt hkey (h.within e (by simp [hsplit, he]))).mp (hgt e he)
      · intro slot
        show index.elements.insertIdx _ (key, slot) = _
        rw [hlocate, hsplit]
        exact insertIdx_length_append before behind (key, slot)

/-- A new slot keeps the index sorted: `hnone` says that no key is equal. -/
theorem Sorted.insert (hnone : index.get? key = none) (slot : Nat) :
    (index.insert key slot).Sorted p := by
  rcases h.get?_cases htotal hkey with ⟨e, -, -, hsome⟩ |
    ⟨-, before, behind, hsplit, hbefore, hbehind, hinsert⟩
  · rw [hnone] at hsome
    cases hsome
  · constructor
    · intro e he
      rw [hinsert, List.mem_append, List.mem_cons] at he
      rcases he with he | rfl | he
      · exact h.within e (by simp [hsplit, he])
      · exact hkey
      · exact h.within e (by simp [hsplit, he])
    · rw [hinsert]
      exact pairwise_insert (hsplit ▸ h.ascending) hbefore hbehind

/-- `insert` of a key that is not there adds its slot to those that there are. -/
theorem Sorted.mem_insert_iff (hnone : index.get? key = none) {slot : Nat}
    {e : GroupKey × Nat} :
    e ∈ (index.insert key slot).elements ↔ e ∈ index.elements ∨ e = (key, slot) := by
  rcases h.get?_cases htotal hkey with ⟨found, -, -, hsome⟩ |
    ⟨-, before, behind, hsplit, -, -, hinsert⟩
  · rw [hnone] at hsome
    cases hsome
  · rw [hinsert, hsplit, List.mem_append, List.mem_append, List.mem_cons]
    tauto

/-- The slot that `get?` finds is that of a key which is the `same`. -/
theorem Sorted.exists_of_get?_some {slot : Nat} (hsome : index.get? key = some slot) :
    ∃ found, (found, slot) ∈ index.elements ∧ key.same found = true := by
  rcases h.get?_cases htotal hkey with ⟨⟨found, _⟩, he, hsame, hfound⟩ | ⟨hnone, -⟩
  · cases hfound.symm.trans hsome
    exact ⟨found, he, hsame⟩
  · rw [hnone] at hsome
    cases hsome

/-- Where `get?` finds no slot no key is the `same`. -/
theorem Sorted.same_of_get?_none (hnone : index.get? key = none) {e : GroupKey × Nat}
    (he : e ∈ index.elements) : key.same e.1 = false := by
  rcases h.get?_cases htotal hkey with ⟨found, -, -, hsome⟩ |
    ⟨-, before, behind, hsplit, hbefore, hbehind, -⟩
  · rw [hnone] at hsome
    cases hsome
  · have hwithin := h.within e he
    rw [hsplit, List.mem_append] at he
    unfold GroupKey.same
    rcases he with he | he
    · rw [(GroupKey.totalOn htotal).swap hwithin hkey, hbefore e he]
      rfl
    · rw [hbehind e he]
      rfl

end GroupIndex

/-! ## Gathering

What the groups should be is defined without slots: the `firstKeys` of the records, and for each of
these its `members`. The lemmas say what one more record changes. -/

namespace Grouping

/-- A record with the `Scope` that it is read in. -/
abbrev Input := Scope × Record

/-- The groups that `accept` gathers some records into, one after the other. -/
def gather (query : SelectQuery) (inputs : List Input) : Grouping :=
  inputs.foldl (fun grouping i => grouping.accept query i.1 i.2) .empty

/-- What some records make of a fresh group: each is fed to the state by `feedState`. -/
def stateOf (projections : List Projection) (group : List Input) : GroupState :=
  group.foldl (fun state i => feedState projections i.1 i.2 state) (freshState projections)

/-- One more record is fed to the group as it is, by `feedState`. -/
theorem stateOf_concat (projections : List Projection) (group : List Input) (i : Input) :
    stateOf projections (group ++ [i]) =
      feedState projections i.1 i.2 (stateOf projections group) := by
  unfold stateOf
  rw [List.foldl_append, List.foldl_cons, List.foldl_nil]

/-- The keys of some records, one of each group, in the order in which they are first seen. Of keys
that are the `same` the first is kept. -/
def firstKeys (query : SelectQuery) (inputs : List Input) : List GroupKey :=
  (inputs.map fun i => keyOf query i.1 i.2).eraseDupsBy GroupKey.same

/-- The records whose key is the `same` as the given one, in their order. -/
def members (query : SelectQuery) (inputs : List Input) (key : GroupKey) : List Input :=
  inputs.filter fun i => key.same (keyOf query i.1 i.2)

/-- The records of each group, in the order in which the groups are first seen. This is what
`gather` is measured by. -/
def parts (query : SelectQuery) (inputs : List Input) : List (List Input) :=
  (firstKeys query inputs).map (members query inputs)

/-- The keys of the records are `Within` the property `p`. -/
def KeysIn (p : Value → Prop) (query : SelectQuery) (inputs : List Input) : Prop :=
  ∀ i ∈ inputs, (keyOf query i.1 i.2).Within p

section

variable {p : Value → Prop} (htotal : TotalOn Value.compare p) {query : SelectQuery}
  {inputs : List Input}

omit htotal in
/-- The `firstKeys` are keys of records, so they are `Within` the property as well. -/
theorem KeysIn.within (hkeys : KeysIn p query inputs) {key : GroupKey}
    (hkey : key ∈ firstKeys query inputs) : key.Within p := by
  obtain ⟨i, hi, rfl⟩ := List.mem_map.mp (mem_of_mem_eraseDupsBy hkey)
  exact hkeys i hi

include htotal in
/-- The key of a record is that of one of the groups, by `exists_mem_eraseDupsBy`. -/
theorem KeysIn.exists_same (hkeys : KeysIn p query inputs) {i : Input} (hi : i ∈ inputs) :
    ∃ key ∈ firstKeys query inputs, (keyOf query i.1 i.2).same key = true := by
  refine exists_mem_eraseDupsBy ?_ (List.mem_map_of_mem hi)
  intro key hkey
  obtain ⟨j, hj, rfl⟩ := List.mem_map.mp hkey
  exact GroupKey.same_self htotal (hkeys j hj)

/-- The `members` of a group after one more record. -/
theorem members_concat (i : Input) (key : GroupKey) :
    members query (inputs ++ [i]) key =
      members query inputs key ++ if key.same (keyOf query i.1 i.2) then [i] else [] := by
  unfold members
  rw [List.filter_append, List.filter_singleton, Bool.cond_eq_ite]

section

variable (hkeys : KeysIn p query inputs) {i : Input} (hkey : (keyOf query i.1 i.2).Within p)

include htotal hkeys hkey

/-- A record whose key was seen joins the group in the slot of that key, and the other groups stay
as they are: `same_congr` says that it belongs to no second one. -/
theorem parts_concat_of_seen {slot : Nat} {key : GroupKey}
    (hslot : (firstKeys query inputs)[slot]? = some key)
    (hsame : (keyOf query i.1 i.2).same key = true) :
    firstKeys query (inputs ++ [i]) = firstKeys query inputs ∧
      parts query (inputs ++ [i]) = (parts query inputs).modify slot (· ++ [i]) := by
  have hmem := List.mem_of_getElem? hslot
  have hfirst : firstKeys query (inputs ++ [i]) = firstKeys query inputs := by
    unfold firstKeys at hmem ⊢
    rw [List.map_append, List.map_singleton, eraseDupsBy_concat,
      if_pos (List.any_eq_true.mpr ⟨key, hmem, hsame⟩)]
  have hin := hkeys.within hmem
  obtain ⟨before, behind, hsplit, hlength, -⟩ := exists_cut_of_getElem? hslot
  have hapart : (firstKeys query inputs).Pairwise fun a b => b.same a = false :=
    eraseDupsBy_pairwise _
  rw [hsplit] at hapart
  obtain ⟨-, hrest, hfront⟩ := List.pairwise_append.mp hapart
  have hback := (List.pairwise_cons.mp hrest).1
  -- the record belongs to no other group, as no other key is the same
  have hother : ∀ k ∈ before ++ behind,
      members query (inputs ++ [i]) k = members query inputs k := by
    intro k hk
    have hkin : k.Within p := hkeys.within (by
      rw [hsplit]
      rcases List.mem_append.mp hk with hk | hk <;> simp [hk])
    have hdiffers : key.same k = false := by
      rcases List.mem_append.mp hk with hk | hk
      · exact hfront k hk key List.mem_cons_self
      · rw [GroupKey.same_comm htotal hin hkin]
        exact hback k hk
    have hnot : k.same (keyOf query i.1 i.2) = false := by
      rw [GroupKey.same_comm htotal hkin hkey,
        GroupKey.same_congr htotal hkey hin hkin hsame, hdiffers]
    rw [members_concat, hnot]
    simp
  refine ⟨hfirst, ?_⟩
  unfold parts
  rw [hfirst, hsplit, List.map_append, List.map_append, List.map_cons, List.map_cons, ← hlength,
    ← List.length_map (members query inputs), modify_length_append]
  have hbefore : before.map (members query (inputs ++ [i])) = before.map (members query inputs) :=
    List.map_congr_left fun k hk => hother k (List.mem_append_left _ hk)
  have hbehind : behind.map (members query (inputs ++ [i])) = behind.map (members query inputs) :=
    List.map_congr_left fun k hk => hother k (List.mem_append_right _ hk)
  rw [hbefore, hbehind, members_concat, GroupKey.same_comm htotal hin hkey, hsame, if_pos rfl]

/-- A record whose key was not seen (`hnew`) is alone in a new group behind the others. -/
theorem parts_concat_of_new
    (hnew : ∀ key ∈ firstKeys query inputs, (keyOf query i.1 i.2).same key = false) :
    firstKeys query (inputs ++ [i]) = firstKeys query inputs ++ [keyOf query i.1 i.2] ∧
      parts query (inputs ++ [i]) = parts query inputs ++ [[i]] := by
  have hfirst : firstKeys query (inputs ++ [i]) =
      firstKeys query inputs ++ [keyOf query i.1 i.2] := by
    unfold firstKeys at hnew ⊢
    rw [List.map_append, List.map_singleton, eraseDupsBy_concat, if_neg]
    rw [Bool.not_eq_true, List.any_eq_false]
    intro key hmem
    rw [hnew key hmem]
    exact Bool.false_ne_true
  refine ⟨hfirst, ?_⟩
  have hold : (firstKeys query inputs).map (members query (inputs ++ [i])) =
      parts query inputs := by
    refine List.map_congr_left fun key hmem => ?_
    rw [members_concat, GroupKey.same_comm htotal (hkeys.within hmem) hkey, hnew key hmem]
    simp
  have halone : members query inputs (keyOf query i.1 i.2) = [] := by
    refine List.filter_eq_nil_iff.mpr fun j hj hsame => ?_
    have hjin := hkeys j hj
    -- an earlier record of the same key would have made its group
    obtain ⟨first, hmem, hfirst⟩ := hkeys.exists_same htotal hj
    have hnot := hnew first hmem
    rw [GroupKey.same_congr htotal hkey hjin (hkeys.within hmem) hsame, hfirst] at hnot
    cases hnot
  unfold parts at hold ⊢
  rw [hfirst, List.map_append, hold, List.map_singleton, members_concat, halone,
    GroupKey.same_self htotal hkey, if_pos rfl, List.nil_append]

end

/-! ## What gathering keeps up

`Tracks` compares the slots with the groups as they should be. The induction is on the records from
the end, with `Tracks.accept` for each. -/

/-- The index of the groups leads to the slot of every one of the `firstKeys`, and the slots hold
what `stateOf` makes of the records of the groups. This is what `accept` preserves. -/
structure Tracks (p : Value → Prop) (query : SelectQuery) (inputs : List Input)
    (grouping : Grouping) : Prop where
  /-- The keys in the index are in order. -/
  sorted : grouping.index.Sorted p
  /-- The index leads from each key to its slot. -/
  slots : ∀ key slot, (key, slot) ∈ grouping.index.elements ↔
    (firstKeys query inputs)[slot]? = some key
  /-- The groups stand in the order in which they are first seen. -/
  groups : grouping.groups = (parts query inputs).map (stateOf query.projections)

omit htotal in
/-- Without records there are no groups, and `.empty` has none. -/
theorem tracks_nil : Tracks p query [] .empty where
  sorted := ⟨fun _ he => (List.not_mem_nil he).elim, List.Pairwise.nil⟩
  slots key slot := by simp [empty, LeveledList.empty, firstKeys, List.eraseDupsBy,
    List.eraseDupsBy.loop]
  groups := rfl

omit htotal in
/-- A record whose slot is found is fed to the group there, the first branch of `accept`. -/
theorem accept_of_get?_some {grouping : Grouping} {i : Input} {slot : Nat}
    (hsome : grouping.index.get? (keyOf query i.1 i.2) = some slot) :
    grouping.accept query i.1 i.2 =
      { grouping with
        groups := grouping.groups.modify slot (feedState query.projections i.1 i.2) } := by
  unfold accept
  simp only [hsome]

omit htotal in
/-- A record without a slot makes a group behind the others, the second branch of `accept`. -/
theorem accept_of_get?_none {grouping : Grouping} {i : Input}
    (hnone : grouping.index.get? (keyOf query i.1 i.2) = none) :
    grouping.accept query i.1 i.2 =
      { index := grouping.index.insert (keyOf query i.1 i.2) grouping.groups.length
        groups := grouping.groups ++ [stateOf query.projections [i]] } := by
  unfold accept
  simp only [hnone]
  rfl

include htotal in
/-- One more record finds its group or makes a new one: the cases of `Sorted.get?_cases` are those
of `parts_concat_of_seen` and `parts_concat_of_new`. -/
theorem Tracks.accept (hkeys : KeysIn p query inputs) {i : Input}
    (hkey : (keyOf query i.1 i.2).Within p) {grouping : Grouping}
    (h : Tracks p query inputs grouping) :
    Tracks p query (inputs ++ [i]) (grouping.accept query i.1 i.2) := by
  cases hget : grouping.index.get? (keyOf query i.1 i.2) with
  | some slot =>
      obtain ⟨key, he, hsame⟩ := h.sorted.exists_of_get?_some htotal hkey hget
      obtain ⟨hfirst, hparts⟩ :=
        parts_concat_of_seen htotal hkeys hkey ((h.slots key slot).mp he) hsame
      rw [accept_of_get?_some hget]
      refine ⟨h.sorted, fun k s => by rw [hfirst]; exact h.slots k s, ?_⟩
      show grouping.groups.modify slot _ = _
      rw [hparts, h.groups]
      refine List.ext_getElem? fun j => ?_
      simp only [List.getElem?_modify, List.getElem?_map]
      by_cases hj : slot = j
      · simp [hj, stateOf_concat, Function.comp_def]
      · simp [hj]
  | none =>
      -- every key seen so far has a slot, and none of them is equal
      have hnew : ∀ key ∈ firstKeys query inputs, (keyOf query i.1 i.2).same key = false := by
        intro key hmem
        obtain ⟨slot, hslot⟩ := List.mem_iff_getElem?.mp hmem
        exact h.sorted.same_of_get?_none htotal hkey hget ((h.slots key slot).mpr hslot)
      obtain ⟨hfirst, hparts⟩ := parts_concat_of_new htotal hkeys hkey hnew
      have hcount : grouping.groups.length = (firstKeys query inputs).length := by
        rw [h.groups, List.length_map, parts, List.length_map]
      rw [accept_of_get?_none hget]
      refine ⟨h.sorted.insert htotal hkey hget _, fun k s => ?_, ?_⟩
      · -- the new slot is the one behind all others
        have hconcat : (firstKeys query inputs ++ [keyOf query i.1 i.2])[s]? = some k ↔
            (firstKeys query inputs)[s]? = some k ∨
              (k, s) = (keyOf query i.1 i.2, (firstKeys query inputs).length) := by
          grind
        rw [h.sorted.mem_insert_iff htotal hkey hget, h.slots, hfirst, hconcat, hcount]
      · show grouping.groups ++ _ = _
        rw [hparts, h.groups, List.map_append, List.map_singleton]

include htotal in
/-- The groups of any records: those of each key, in the order in which the keys are first seen,
with what the records of a group make of a fresh one. The induction is on the records from the back,
with `Tracks.accept` for each. -/
theorem groups_gather (hkeys : KeysIn p query inputs) :
    (gather query inputs).groups = (parts query inputs).map (stateOf query.projections) := by
  suffices h : Tracks p query inputs (gather query inputs) from h.groups
  induction inputs using List.reverseRecOn with
  | nil => exact tracks_nil
  | append_singleton inputs i ih =>
      have hbefore : KeysIn p query inputs := fun j hj => hkeys j (List.mem_append_left _ hj)
      have hkey : (keyOf query i.1 i.2).Within p := hkeys i (by simp)
      have hgather : gather query (inputs ++ [i]) =
          (gather query inputs).accept query i.1 i.2 := by
        unfold gather
        rw [List.foldl_append, List.foldl_cons, List.foldl_nil]
      rw [hgather]
      exact (ih hbefore).accept htotal hbefore hkey

include htotal in
/-- The `parts` have as many records as the input: every record is in one group, and in one only. -/
theorem sum_length_parts (hkeys : KeysIn p query inputs) :
    ((parts query inputs).map List.length).sum = inputs.length := by
  induction inputs using List.reverseRecOn with
  | nil => rfl
  | append_singleton inputs i ih =>
      have hbefore : KeysIn p query inputs := fun j hj => hkeys j (List.mem_append_left _ hj)
      have hkey : (keyOf query i.1 i.2).Within p := hkeys i (by simp)
      have hsum := ih hbefore
      -- the record makes one group longer by one, or is a group of its own
      by_cases hseen : ∃ key ∈ firstKeys query inputs, (keyOf query i.1 i.2).same key = true
      · obtain ⟨key, hmem, hsame⟩ := hseen
        obtain ⟨slot, hslot⟩ := List.mem_iff_getElem?.mp hmem
        rw [(parts_concat_of_seen htotal hbefore hkey hslot hsame).2]
        have hpart : (parts query inputs)[slot]? = some (members query inputs key) := by
          rw [parts, List.getElem?_map, hslot]
          rfl
        obtain ⟨before, behind, hsplit, hlength, -⟩ := exists_cut_of_getElem? hpart
        rw [hsplit] at hsum ⊢
        rw [← hlength, modify_length_append]
        simp only [List.map_append, List.map_cons, List.sum_append, List.sum_cons,
          List.length_append, List.length_singleton] at hsum ⊢
        omega
      · have hnew : ∀ key ∈ firstKeys query inputs, (keyOf query i.1 i.2).same key = false :=
          fun key hmem => Bool.eq_false_iff.mpr fun hsame => hseen ⟨key, hmem, hsame⟩
        rw [(parts_concat_of_new htotal hbefore hkey hnew).2]
        simp [hsum]

end

end Grouping

end RecordQuery
