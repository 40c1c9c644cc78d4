import RecordQuery.Proofs.Searches

/-!
# `RecordQuery.Proofs.MergeTrees`: searches merged from many comparisons

The searches of a conjunction are merged two by two, in whatever way its comparisons are nested.
Each merge takes one side, the anchor, into the other: the anchor ends in an equality, so its last
field becomes a bound one. A comparison that is no equality is never an anchor, and the search still
ends in it.

`MergeTree` is the way in which the comparisons are nested, and `MergeTree.search` what the merges
give. `Search.Gathers` relates a search to the comparisons that it is merged from, the `leaves`:
which fields it has, what they are bound to, what it ends in, and whether it looks for a null. It is
preserved by a merge (`Search.Gathers.merge`), so it holds of every tree by induction. Two
equalities on one field are both leaves, while the field is bound once, to the value of one of them;
the record is checked against the whole condition later.

The theorems:

* `Search.merge_comm`: where one side alone ends in an equality, the order of the two is no matter.
* `Search.Gathers.absorb`: what one merge keeps of the comparisons on both sides.
* `MergeTree.gathers_leaves`: what a search merged from any tree of comparisons keeps of them.
* `Store.exists_mergeTree`: every search that serves a condition is merged from such a tree.
-/

set_option autoImplicit false

namespace RecordQuery

namespace Search

/-! ## Binding fields

A field is bound once, whatever is bound after it. -/

/-- `bind` of a field that is bound already keeps its only place, with the new value. -/
theorem nodup_bind {bound : List (String × Value)} (h : (bound.map Prod.fst).Nodup)
    (field : String) (value : Value) : ((bind bound field value).map Prod.fst).Nodup := by
  induction bound with
  | nil => exact List.pairwise_singleton _ _
  | cons q bound ih =>
      obtain ⟨hnew, hrest⟩ := List.nodup_cons.mp h
      unfold bind
      split
      · exact List.nodup_cons.mpr ⟨hnew, hrest⟩
      next hname =>
        refine List.nodup_cons.mpr ⟨fun hmem => ?_, ih hrest⟩
        rcases mem_names_bind.mp hmem with hmem | hmem
        · exact hnew hmem
        · exact hname (beq_iff_eq.mpr hmem)

/-- Fields that `bind` binds one after the other are bound once each. -/
theorem nodup_foldl_bind {pairs bound : List (String × Value)} (h : (bound.map Prod.fst).Nodup) :
    ((pairs.foldl (fun bound (field, value) => bind bound field value) bound).map
      Prod.fst).Nodup := by
  induction pairs generalizing bound with
  | nil => exact h
  | cons q pairs ih => exact ih (nodup_bind h q.1 q.2)

/-! ## One merge

What one search keeps of two is stated by its fields, its bound values and its ending, and does not
depend on the order of the leaves. -/

/-- The comparison that a search ends in: its `lastField`, `lastOperator` and `lastValue`. -/
def ending (search : Search) : FieldChain × Operator × Value :=
  (search.lastField, search.lastOperator, search.lastValue)

/-- What a search keeps of the comparisons that it is merged from, its `leaves`. The fields of the
search itself are `fields`, `bound`, the last comparison and `hasNulls`; each is told by the leaves
here. -/
structure Gathers (search : Search) (leaves : List Search) : Prop where
  /-- Its fields are those of the comparisons. -/
  mem_fields : ∀ name, name ∈ search.fields ↔ ∃ leaf ∈ leaves, name ∈ leaf.fields
  /-- A field is bound once at most. -/
  once : (search.bound.map Prod.fst).Nodup
  /-- A bound field has the value of an equality on this very field. -/
  pinned : ∀ p ∈ search.bound, ∃ leaf ∈ leaves, leaf.lastOperator.isEqualityClass = true ∧
    leaf.lastField = ⟨p.1, []⟩ ∧ leaf.lastValue = p.2
  /-- It ends in one of the comparisons. -/
  ends : ∃ leaf ∈ leaves, search.ending = leaf.ending
  /-- It ends in the comparison that is no equality, if there is one. -/
  ends_other : ∀ leaf ∈ leaves, leaf.lastOperator.isEqualityClass = false →
    search.ending = leaf.ending
  /-- No more than one comparison is no equality. -/
  others : leaves.countP (fun leaf => !leaf.lastOperator.isEqualityClass) ≤ 1
  /-- It looks for a null if one of the comparisons does. -/
  nulls : search.hasNulls = true ↔ ∃ leaf ∈ leaves, leaf.hasNulls = true

/-- The search `ofComparison` keeps that comparison, its only leaf. -/
theorem gathers_ofComparison (operator : Operator) (field : FieldChain) (value : Value) :
    (ofComparison operator field value).Gathers [ofComparison operator field value] where
  mem_fields name := by simp
  once := .nil
  pinned p hp := by cases hp
  ends := ⟨_, List.mem_singleton_self _, rfl⟩
  ends_other leaf hleaf _ := by rw [List.mem_singleton.mp hleaf]
  others := List.countP_le_length
  nulls := by simp

/-- A chain that is not `isLong` has one segment. -/
theorem eq_of_not_isLong {chain : FieldChain} (h : chain.isLong = false) :
    chain = ⟨chain.first, []⟩ := by
  have hhops : chain.hops = [] := by simpa [FieldChain.isLong] using h
  rw [← hhops]

section

variable {main anchor : Search} {leaves others : List Search}

/-- The `fields` of `main.absorb anchor` are those of both. -/
theorem mem_fields_absorb {name : String} :
    name ∈ (main.absorb anchor).fields ↔ name ∈ main.fields ∨ name ∈ anchor.fields := by
  unfold absorb fields
  simp only [List.mem_append, mem_names_bind, mem_names_foldl_bind, List.map_append,
    List.map_nil, List.not_mem_nil, false_or, List.mem_singleton]
  tauto

/-- A search that takes in an anchor keeps the comparisons of both. The anchor ends in an equality,
`hop`, on a field of the record itself, `hshort`, so the field can be bound. -/
theorem Gathers.absorb (hmain : main.Gathers leaves) (hanchor : anchor.Gathers others)
    (hop : anchor.lastOperator.isEqualityClass = true) (hshort : anchor.lastField.isLong = false) :
    (main.absorb anchor).Gathers (leaves ++ others) := by
  -- an anchor that ends in an equality comes of equalities alone
  have hequalities : ∀ leaf ∈ others, leaf.lastOperator.isEqualityClass = true := by
    intro leaf hleaf
    by_contra hother
    have hending := hanchor.ends_other leaf hleaf (Bool.eq_false_iff.mpr hother)
    have hsame : anchor.lastOperator = leaf.lastOperator := congrArg (·.2.1) hending
    exact hother (hsame ▸ hop)
  constructor
  · intro name
    simp only [mem_fields_absorb, hmain.mem_fields, hanchor.mem_fields, List.mem_append,
      or_and_right, exists_or]
  · exact nodup_bind (@nodup_foldl_bind (anchor.bound ++ main.bound) [] .nil) _ _
  · intro p hp
    rcases mem_absorb hp with hp | hp | rfl
    · obtain ⟨leaf, hleaf, hpinned⟩ := hanchor.pinned p hp
      exact ⟨leaf, List.mem_append_right _ hleaf, hpinned⟩
    · obtain ⟨leaf, hleaf, hpinned⟩ := hmain.pinned p hp
      exact ⟨leaf, List.mem_append_left _ hleaf, hpinned⟩
    · -- the pair that is new comes of the comparison that the anchor ended in
      obtain ⟨leaf, hleaf, hending⟩ := hanchor.ends
      obtain ⟨hfield, hvalue⟩ : anchor.lastField = leaf.lastField ∧
          anchor.lastValue = leaf.lastValue :=
        ⟨congrArg (·.1) hending, congrArg (·.2.2) hending⟩
      refine ⟨leaf, List.mem_append_right _ hleaf, hequalities leaf hleaf, ?_, hvalue.symm⟩
      rw [← hfield]
      exact eq_of_not_isLong hshort
  · obtain ⟨leaf, hleaf, hending⟩ := hmain.ends
    exact ⟨leaf, List.mem_append_left _ hleaf, hending⟩
  · intro leaf hleaf hother
    rcases List.mem_append.mp hleaf with hleaf | hleaf
    · exact hmain.ends_other leaf hleaf hother
    · simp [hequalities leaf hleaf] at hother
  · have hnone : others.countP (fun leaf => !leaf.lastOperator.isEqualityClass) = 0 :=
      List.countP_eq_zero.mpr fun leaf hleaf => by simp [hequalities leaf hleaf]
    rw [List.countP_append, hnone]
    exact hmain.others
  · show (anchor.hasNulls || main.hasNulls) = true ↔ _
    rw [Bool.or_eq_true, hanchor.nulls, hmain.nulls, or_comm]
    simp only [List.mem_append, or_and_right, exists_or]

/-- `Gathers` does not depend on the order of the `leaves`. -/
theorem Gathers.perm {search : Search} (h : search.Gathers leaves) (hperm : leaves.Perm others) :
    search.Gathers others where
  mem_fields name := by simp only [h.mem_fields, hperm.mem_iff]
  once := h.once
  pinned p hp := by simpa only [hperm.mem_iff] using h.pinned p hp
  ends := by simpa only [hperm.mem_iff] using h.ends
  ends_other leaf hleaf := h.ends_other leaf (hperm.mem_iff.mpr hleaf)
  others := hperm.countP_eq _ ▸ h.others
  nulls := by simp only [h.nulls, hperm.mem_iff]

/-- Merged searches keep the comparisons of both, whichever of them becomes the anchor:
`isMergeable` says that one can. -/
theorem Gathers.merge {a b : Search} (ha : a.Gathers leaves) (hb : b.Gathers others)
    (hmergeable : a.isMergeable b = true) : (a.merge b).Gathers (leaves ++ others) := by
  rcases merge_cases hmergeable with ⟨heq, hop, hshort⟩ | ⟨heq, hop, hshort⟩
  · rw [heq]
    exact ha.absorb hb hop hshort
  · rw [heq]
    exact (hb.absorb ha hop hshort).perm List.perm_append_comm

/-- Where one of two searches alone ends in an equality, it is the anchor of `merge` in either
order. Where both do, the order decides which field comes last. -/
theorem merge_comm {a b : Search}
    (h : a.lastOperator.isEqualityClass ≠ b.lastOperator.isEqualityClass) :
    a.merge b = b.merge a := by
  -- `=` is an equality, so the side that ends in no equality does not end in `=` either
  have hne {s : Search} (hs : s.lastOperator.isEqualityClass = false) :
      (s.lastOperator == .equals) = false := by
    rw [beq_eq_false_iff_ne]
    rintro heq
    rw [heq] at hs
    cases hs
  unfold merge
  cases ha : a.lastOperator.isEqualityClass with
  | true =>
      have hb : b.lastOperator.isEqualityClass = false := by
        simpa [ha] using h
      simp [hne hb, hb]
  | false =>
      have hb : b.lastOperator.isEqualityClass = true := by
        simpa [ha] using h
      simp [hne ha, hb]

end

end Search

/-! ## Trees of merges

The tree says which searches were merged with which. The induction is on the tree, with
`Search.Gathers.merge` at every inner node. -/

/-- Comparisons with constants, the leaves, that are merged two by two. -/
inductive MergeTree where
  /-- A single comparison. -/
  | leaf (operator : Operator) (field : FieldChain) (value : Value)
  /-- The merge of what two trees give. -/
  | merge (left right : MergeTree)
deriving Repr

namespace MergeTree

/-- The searches of the comparisons at the leaves, each an `ofComparison`, from left to right. -/
def leaves : MergeTree → List Search
  | leaf operator field value => [.ofComparison operator field value]
  | merge left right => left.leaves ++ right.leaves

/-- The search that `Search.merge` gives at every inner node. -/
def search : MergeTree → Search
  | leaf operator field value => .ofComparison operator field value
  | merge left right => left.search.merge right.search

/-- Whether `Search.isMergeable` allows the two sides of every merge to become one search. -/
def isMergeable : MergeTree → Bool
  | leaf _ _ _ => true
  | merge left right =>
      left.isMergeable && right.isMergeable && left.search.isMergeable right.search

/-- The search that is merged from any tree of comparisons keeps them, `Search.Gathers`, if each of
its merges is one that is made, `hmergeable`. Where one of two searches alone ends in an equality,
both orders give the same search. -/
theorem gathers_leaves (tree : MergeTree) (hmergeable : tree.isMergeable = true) :
    tree.search.Gathers tree.leaves ∧
      ∀ a b : Search, a.lastOperator.isEqualityClass ≠ b.lastOperator.isEqualityClass →
        a.merge b = b.merge a := by
  refine ⟨?_, fun a b => Search.merge_comm⟩
  induction tree with
  | leaf operator field value => exact Search.gathers_ofComparison operator field value
  | merge left right ihleft ihright =>
      simp only [isMergeable, Bool.and_eq_true] at hmergeable
      obtain ⟨⟨hleft, hright⟩, hboth⟩ := hmergeable
      exact (ihleft hleft).merge (ihright hright) hboth

/-- `x = 1` merged with `y CONTAINS 2`, and that with what `z > 3` merged with `x = 4` gives. -/
def repeatedField : MergeTree :=
  .merge
    (.merge (.leaf .equals ⟨"x", []⟩ (.int 1)) (.leaf .contains ⟨"y", []⟩ (.int 2)))
    (.merge (.leaf .greater ⟨"z", []⟩ (.int 3)) (.leaf .equals ⟨"x", []⟩ (.int 4)))

/-- In `repeatedField` the field that two equalities name is bound once, and the search ends in the
range. -/
theorem gathers_repeatedField :
    repeatedField.isMergeable = true ∧ repeatedField.search.Gathers repeatedField.leaves ∧
      repeatedField.search.text = "x = 4, y = 2, z > 3" :=
  ⟨by decide, (gathers_leaves repeatedField (by decide)).1, by decide +kernel⟩

end MergeTree

/-! ## The searches of a condition

Every search that planning makes of a condition is the search of some tree, so what holds of all
trees holds of it. -/

/-- The `search?` of a comparison is the `ofComparison` of a field, an operator and a constant. -/
theorem Comparison.eq_ofComparison {c : Comparison} {vars : Fields} {search : Search}
    (h : c.search? vars = some search) :
    search = .ofComparison search.lastOperator search.lastField search.lastValue := by
  unfold search? at h
  split at h
  · split at h
    · cases h
    · obtain ⟨term, -, rfl⟩ := Option.map_eq_some_iff.mp h
      rfl
  · cases h

/-- Every search that serves a condition is merged from those of some of its comparisons. So
`gathers_leaves` tells what its searches look for. -/
theorem Store.exists_mergeTree {store : Store} {vars : Fields} {className : String}
    {condition : Condition} :
    ∀ searches ∈ store.searchBranches vars className condition, ∀ search ∈ searches,
      ∃ tree : MergeTree, tree.isMergeable = true ∧ search = tree.search ∧
        ∀ leaf ∈ tree.leaves, ∃ c ∈ condition.comparisons, c.search? vars = some leaf := by
  refine searchBranches_forall (fun a b hmergeable ha hb => ?_) fun c hc search _ hsearch => ?_
  · obtain ⟨left, hleft, rfl, hleaves⟩ := ha
    obtain ⟨right, hright, rfl, hleaves'⟩ := hb
    refine ⟨.merge left right, ?_, rfl, fun leaf hleaf => ?_⟩
    · simp only [MergeTree.isMergeable, hleft, hright, hmergeable, Bool.and_self]
    · exact (List.mem_append.mp hleaf).elim (hleaves leaf) (hleaves' leaf)
  · have heq := Comparison.eq_ofComparison hsearch
    refine ⟨.leaf search.lastOperator search.lastField search.lastValue, rfl, heq, ?_⟩
    intro leaf hleaf
    rw [List.mem_singleton.mp hleaf, ← heq]
    exact ⟨c, hc, hsearch⟩

end RecordQuery
