import RecordQuery.Plan.Planner
import RecordQuery.Proofs.LinkJoins
import RecordQuery.Proofs.Lookups
import RecordQuery.Proofs.Walks

/-!
# `RecordQuery.Proofs.LinkPaths`: following links forwards and backwards

A condition follows a field chain forwards, by loading the records that links lead to. A chain proxy
follows it backwards, from the records found in its last index to those that link to them. Where the
properties of the chain hold links of the declared classes, both go along the same paths of records.

Both ways are compared with `Record.Leads`, the relation of the records at the two ends of a path.
`Value.along` is the forward way as a function of values: it is what `FieldChain.resolve` computes
from a link to the record (`resolve_eq_along`). `Joins` is the backward way, from `LinkJoins`.
`Store.Hops` says which indexes serve a path, one for each property, and is what planning makes sure
of when it chooses hops (`hops_of_chainProxies`).

The schema declares the class that a property links to, and nothing checks it when a record is
written. So `Store.LinksTo` is a hypothesis on the records: the property holds null, a link or a
list of links, and leads to records of that class or to none. A path may break off, at null or at a
link to a deleted record; then it leads nowhere, while the chain reads as null. `NullChains` is
about such paths.

`holdsLinksTo` and `holdsLinksAlong` compute these conditions, so that they can be decided for a
given store.

The theorems:

* `Store.Hops.exists_end`, `Store.Hops.get_of_leads`: what a chain reaches is held by the record at
  the end of a path.
* `Store.Hops.joins`, `Store.Hops.leads`: the indexes of a path of links join the records at its
  ends, and no other live ones.
* `Store.Hops.mem_lookup_iff`: so a lookup in a chain of them gives the records from which the path
  leads to one with a selected key.
-/

set_option autoImplicit false

namespace RecordQuery

/-! ## Values of link properties

What a chain reads as is followed one name at a time by `along`, from a value that may be null, a
link or a list. -/

namespace Value

/-- Whether the value is null, a link, or a list of links: what a property of a path may hold. -/
def isLinks : Value → Bool
  | null | link _ => true
  | list items => items.all fun item => item.link?.isSome
  | _ => false

/-- The value is `item`, or has it among its items. A condition with CONTAINS or IN is true of a
chain in both cases. -/
def Offers (v item : Value) : Prop := v = item ∨ ∃ items, v = list items ∧ item ∈ items

/-- A value with a `link?` is the link itself. -/
theorem eq_of_link? {v : Value} {rid : Rid} (h : v.link? = some rid) : v = link rid := by
  cases v with
  | link other => exact congrArg link (Option.some.inj h)
  | _ => cases h

/-- The value that some names lead to from a value: `follow` goes on from what the names before have
reached. -/
def along (load : Rid → Option Record) (v : Value) (names : List String) : Value :=
  names.foldl (fun value name => follow load name value) v

section

variable {load : Rid → Option Record}

/-- From null every name leads to null. -/
@[simp]
theorem along_null (names : List String) : null.along load names = .null := by
  induction names with
  | nil => rfl
  | cons name names ih => simpa [along, follow] using ih

/-- From a link the names lead on from the record behind it, which `load` finds. -/
theorem along_link {rid : Rid} {r : Record} (h : load rid = some r) (name : String)
    (names : List String) :
    (link rid).along load (name :: names) = (r.get name).along load names := by
  simp [along, follow, h]

/-- From a link for which `load` finds no record every name leads to null, so a dangling link reads
like null. -/
theorem along_dangling {rid : Rid} (h : load rid = none) {names : List String} (hne : names ≠ []) :
    (link rid).along load names = .null := by
  cases names with
  | nil => exact absurd rfl hne
  | cons name names =>
      have hnull := @along_null load names
      simpa [along, follow, h] using hnull

/-- From a list the names lead to the list of what they lead to `along` from its items. The paths
from different items are apart from each other. -/
theorem along_list (items : List Value) (names : List String) :
    (list items).along load names = .list (items.map fun item => item.along load names) := by
  induction names generalizing items with
  | nil => simp [along]
  | cons name names ih =>
      have hitems : ∀ vs : List Value, followItems load name vs = vs.map (follow load name) := by
        intro vs
        induction vs with
        | nil => rfl
        | cons v vs ihvs => simp [followItems, ihvs]
      show ((list items).follow load name).along load names = _
      rw [follow, hitems, ih, List.map_map]
      rfl

/-- A link among the `links` of a value is one of its `components`, so an index for the property has
an entry for the link. -/
theorem mem_components_of_links {v : Value} {rid : Rid} (h : rid ∈ v.links) (part : MapPart) :
    link rid ∈ StoredIndex.components part v := by
  cases v with
  | link other => simpa [links, StoredIndex.components] using h
  | list items =>
      obtain ⟨item, hitem, hlink⟩ := List.mem_filterMap.mp h
      obtain rfl := eq_of_link? hlink
      cases items with
      | nil => cases hitem
      | cons first rest => exact hitem
  | _ => cases h

end

end Value

namespace FieldChain

/-- The `segments` of a chain are those `beforeLast`, and the `last` one. -/
theorem segments_eq (chain : FieldChain) : chain.segments = chain.beforeLast ++ [chain.last] := by
  unfold beforeLast last segments
  cases hhops : chain.hops with
  | nil => rfl
  | cons name names =>
      rw [List.getLast?_eq_some_getLast (List.cons_ne_nil name names), Option.getD_some,
        List.dropLast_cons_cons, List.cons_append, List.dropLast_append_getLast]

/-- `resolve` leads from a record to what the segments lead to `along` from a link to the record.
Starting from a link makes all steps of a path alike. -/
theorem resolve_eq_along {load : Rid → Option Record} {r : Record} (h : load r.rid = some r)
    (chain : FieldChain) :
    chain.resolve load r = (Value.link r.rid).along load (chain.beforeLast ++ [chain.last]) := by
  rw [← segments_eq, segments, Value.along_link h]
  rfl

end FieldChain

/-! ## Paths of records

`Record.Leads` is about records, and `LinksAlong` about the declarations that make every step of a
path a link to the class that it is declared for. -/

/-- Links in the properties `names` lead from one record to the other. Only records that are loaded
are on the way. -/
def Record.Leads (load : Rid → Option Record) : List String → Record → Record → Prop
  | [], r, s => r = s
  | name :: names, r, s =>
      ∃ rid ∈ (r.get name).links, ∃ t, load rid = some t ∧ Leads load names t s

namespace Store

/-- The property `name` holds null, a link or a list of links in every record of the class, and the
live records behind the links are of the class `target`. Subclasses are included on both sides. -/
structure LinksTo (store : Store) (className name target : String) : Prop where
  /-- Nothing but links is held. -/
  isLinks : ∀ r, store.Live r → store.schema.Below r.className className →
    (r.get name).isLinks = true
  /-- A link leads to a record of the target class or to none. -/
  target : ∀ r, store.Live r → store.schema.Below r.className className →
    ∀ rid ∈ (r.get name).links, ∀ s, store.load rid = some s →
      store.schema.Below s.className target

/-- The properties of a path hold links to the classes that they are declared to lead to,
`linkedClass?`. A property without such a declaration ends the path, and no hop is planned for
it. -/
def LinksAlong (store : Store) : String → List String → Prop
  | _, [] => True
  | className, name :: names =>
      ∀ target, store.schema.linkedClass? className name = some target →
        store.LinksTo className name target ∧ store.LinksAlong target names

end Store

/-- `LinksAlong` holds for the chains that the condition compares, starting from the class or from
one below it. The owner of an index may be a subclass of the class asked for. -/
def Condition.Linked (store : Store) (className : String) (condition : Condition) : Prop :=
  ∀ chain ∈ condition.chains, ∀ owner, store.schema.Below owner className →
    store.LinksAlong owner chain.beforeLast

namespace Store

/-! ## Checking links

The properties of the links of a store can be decided, by going over its classes and records.
Concrete stores are checked so. -/

/-- Whether the property holds links to the target class in every record of the class: `LinksTo` as
a computation. -/
def holdsLinksTo (store : Store) (className name target : String) : Bool :=
  store.clusters.all fun c => c.records.all fun r =>
    !store.schema.isSubclassOf r.className className ||
      ((r.get name).isLinks && (r.get name).links.all fun rid =>
        (store.load rid).all fun s => store.schema.isSubclassOf s.className target)

/-- Whether the properties of a path hold links to the classes that they are declared to lead to:
`LinksAlong` as a computation. -/
def holdsLinksAlong (store : Store) : String → List String → Bool
  | _, [] => true
  | className, name :: names =>
      (store.schema.linkedClass? className name).all fun target =>
        store.holdsLinksTo className name target && store.holdsLinksAlong target names

/-- `holdsLinksTo` decides `LinksTo`. -/
theorem Sound.holdsLinksTo_iff {store : Store} (h : store.Sound) {className name target : String} :
    store.holdsLinksTo className name target = true ↔ store.LinksTo className name target := by
  -- the check of one record says what the property asks of it
  have hrecord (r : Record) : (!store.schema.isSubclassOf r.className className ||
      ((r.get name).isLinks && (r.get name).links.all fun rid =>
        (store.load rid).all fun s => store.schema.isSubclassOf s.className target)) = true ↔
      (store.schema.Below r.className className → (r.get name).isLinks = true ∧
        ∀ rid ∈ (r.get name).links, ∀ s, store.load rid = some s →
          store.schema.Below s.className target) := by
    simp only [Bool.or_eq_true, Bool.not_eq_true', Bool.and_eq_true, List.all_eq_true,
      Option.all_eq_true, ← h.forest.isSubclassOf_iff]
    cases store.schema.isSubclassOf r.className className <;> simp
  unfold holdsLinksTo
  simp only [List.all_eq_true, hrecord]
  constructor
  · intro hall
    exact ⟨fun r ⟨c, hc, hr⟩ hbelow => (hall c hc r hr hbelow).1,
      fun r ⟨c, hc, hr⟩ hbelow => (hall c hc r hr hbelow).2⟩
  · intro hlinks c hc r hr hbelow
    exact ⟨hlinks.isLinks r ⟨c, hc, hr⟩ hbelow, hlinks.target r ⟨c, hc, hr⟩ hbelow⟩

/-- `holdsLinksAlong` decides `LinksAlong`. -/
theorem Sound.holdsLinksAlong_iff {store : Store} (h : store.Sound) {className : String}
    {names : List String} :
    store.holdsLinksAlong className names = true ↔ store.LinksAlong className names := by
  induction names generalizing className with
  | nil => simp [holdsLinksAlong, LinksAlong]
  | cons name names ih =>
      simp only [holdsLinksAlong, LinksAlong, Option.all_eq_true, Bool.and_eq_true,
        h.holdsLinksTo_iff, ih]

/-- `Condition.Linked` is decided by `holdsLinksAlong`, for all classes of the tree. -/
theorem Sound.linked_iff {store : Store} (h : store.Sound) {className : String}
    {condition : Condition} :
    condition.Linked store className ↔ (condition.chains.all fun chain =>
      (store.schema.tree className).all fun owner =>
        store.holdsLinksAlong owner chain.beforeLast) = true := by
  simp only [Condition.Linked, List.all_eq_true, h.forest.mem_tree_iff,
    h.holdsLinksAlong_iff]

/-! ## Hops

Which indexes a chain is served by. `Hops` has a constructor for the end of a path and one for a
step, so the statements about it are proved by induction. -/

/-- The indexes serve the properties of a path of links, which starts from records of the first
class and ends at records of the last one. Both inductions on paths, forwards and backwards, go by
the constructors `here` and `hop`. -/
inductive Hops (store : Store) : String → List String → List StoredIndex → String → Prop
  /-- No link is followed. -/
  | here (className : String) : Hops store className [] [] className
  /-- A link is followed, and a path from its target. -/
  | hop {className target last name : String} {names : List String} {index : StoredIndex}
      {indexes : List StoredIndex} :
      index ∈ store.indexesForProperty className name → store.LinksTo className name target →
      Hops store target names indexes last →
      Hops store className (name :: names) (index :: indexes) last

/-- The index that `bestHop?` chooses is one of the `candidates`. -/
theorem mem_of_bestHop? {candidates : List StoredIndex} {index : StoredIndex}
    (h : bestHop? candidates = some index) : index ∈ candidates := by
  -- whatever the choice is made by, it keeps the best one or takes the next one
  have hfold (choose : Option StoredIndex → StoredIndex → Option StoredIndex)
      (hchoose : ∀ best next, choose best next = best ∨ choose best next = some next)
      (best : Option StoredIndex) (hsome : candidates.foldl choose best = some index) :
      best = some index ∨ index ∈ candidates := by
    clear h
    induction candidates generalizing best with
    | nil => exact .inl hsome
    | cons next candidates ih =>
        rcases ih _ hsome with hbest | hmem
        · rcases hchoose best next with hkept | htaken
          · exact .inl (hkept ▸ hbest)
          · obtain rfl := Option.some.inj (htaken.symm.trans hbest)
            exact .inr List.mem_cons_self
        · exact .inr (List.mem_cons_of_mem _ hmem)
  refine (hfold _ (fun best next => ?_) none h).resolve_left (by simp)
  dsimp only
  split
  · exact .inl rfl
  · split
    · exact .inr rfl
    · split
      · exact .inr rfl
      · exact .inl rfl

/-- The indexes that `hopIndexes?` chooses for a path of links are those of its hops. -/
theorem hops_of_hopIndexes? {store : Store} {className last : String} {names : List String}
    {indexes : List StoredIndex} (hlinks : store.LinksAlong className names)
    (h : store.hopIndexes? className names = some (indexes, last)) :
    store.Hops className names indexes last := by
  induction names generalizing className indexes with
  | nil =>
      cases h
      exact .here _
  | cons name names ih =>
      simp only [hopIndexes?, Option.bind_eq_bind, Option.bind_eq_some_iff] at h
      obtain ⟨index, hindex, target, htarget, ⟨rest, end'⟩, hrest, hpair⟩ := h
      cases hpair
      obtain ⟨hlinksTo, hlinks⟩ := hlinks target htarget
      exact .hop (mem_of_bestHop? hindex) hlinksTo (ih hlinks hrest)

section

variable {store : Store} {className lastClass : String} {names : List String}
  {indexes : List StoredIndex}

/-- The `indexes` of a path of links are indexes of the store. -/
theorem Hops.mem_indexes (hops : store.Hops className names indexes lastClass) (h : store.Sound)
    {index : StoredIndex} (hindex : index ∈ indexes) : index ∈ store.indexes := by
  induction hops with
  | here => cases hindex
  | hop hserves _ _ ih =>
      rcases List.mem_cons.mp hindex with rfl | hindex
      · exact (h.mem_indexesCovering hserves).1
      · exact ih hindex

/-! ## Forwards

From a record along the path: what a chain reads as is held by a record at its end. -/

/-- A path of links ends at a live record of its last class, as each link is one of `LinksTo`. -/
theorem Hops.live_end (hops : store.Hops className names indexes lastClass) (h : store.Sound)
    {r s : Record} (hr : store.Live r) (hbelow : store.schema.Below r.className className)
    (hleads : r.Leads store.load names s) :
    store.Live s ∧ store.schema.Below s.className lastClass := by
  induction hops generalizing r with
  | here className =>
      obtain rfl : r = s := hleads
      exact ⟨hr, hbelow⟩
  | hop _ hlinks _ ih =>
      obtain ⟨rid, hrid, t, hload, hleads⟩ := hleads
      exact ih (h.load_eq_some_iff.mp hload).1 (hlinks.target _ hr hbelow rid hrid t hload) hleads

/-- What a chain reaches comes from the end of a path: where it is neither null nor a list, the
record there holds it; where it is a list, the record holds the list or the item asked for. `hlist`
keeps out lists as items, which could come from several records. -/
theorem Hops.exists_end (hops : store.Hops className names indexes lastClass) (h : store.Sound)
    {rid : Rid} {r : Record} (hload : store.load rid = some r)
    (hbelow : store.schema.Below r.className className) {last : String} {reached v : Value}
    (hreached : (Value.link rid).along store.load (names ++ [last]) = reached)
    (hholds : reached.Offers v) (hnull : v.isNull = false) (hlist : ∀ items, v ≠ .list items) :
    ∃ s, r.Leads store.load names s ∧ (s.get last = reached ∨ s.get last = v) := by
  induction hops generalizing rid r reached with
  | here className =>
      rw [List.nil_append, Value.along_link hload] at hreached
      exact ⟨r, rfl, .inl hreached⟩
  | @hop _ _ _ name names _ _ _ hlinks _ ih =>
      have hr := (h.load_eq_some_iff.mp hload).1
      have hisLinks := hlinks.isLinks r hr hbelow
      -- a link that reaches something leads to a record, and the path goes on from there
      have hnext {next : Rid} (hmem : next ∈ (r.get name).links) {found : Value}
          (hfound : (Value.link next).along store.load (names ++ [last]) = found)
          (hoffers : found.Offers v) :
          ∃ s, r.Leads store.load (name :: names) s ∧ (s.get last = found ∨ s.get last = v) := by
        cases hloaded : store.load next with
        | none =>
            rw [Value.along_dangling hloaded (by simp)] at hfound
            rcases hoffers with rfl | ⟨items, hitems, -⟩
            · simp [← hfound, Value.isNull] at hnull
            · cases hfound.trans hitems
        | some t =>
            obtain ⟨s, hleads, hs⟩ :=
              ih hloaded (hlinks.target r hr hbelow next hmem t hloaded) hfound hoffers
            exact ⟨s, ⟨next, hmem, t, hloaded, hleads⟩, hs⟩
      rw [List.cons_append, Value.along_link hload] at hreached
      cases hvalue : r.get name with
      | null =>
          rw [hvalue, Value.along_null] at hreached
          rcases hholds with rfl | ⟨items, hitems, -⟩
          · simp [← hreached, Value.isNull] at hnull
          · cases hreached.trans hitems
      | link next =>
          rw [hvalue] at hreached
          exact hnext (by simp [hvalue, Value.links]) hreached hholds
      | list items =>
          rw [hvalue, Value.along_list] at hreached
          rcases hholds with rfl | ⟨reachedItems, rfl, hmem⟩
          · exact absurd hreached.symm (hlist _)
          · cases hreached
            obtain ⟨item, hitem, hfound⟩ := List.mem_map.mp hmem
            rw [hvalue] at hisLinks
            obtain ⟨next, hlink⟩ := Option.isSome_iff_exists.mp (List.all_eq_true.mp hisLinks item hitem)
            obtain rfl := Value.eq_of_link? hlink
            have hlinked : next ∈ (r.get name).links := by
              rw [hvalue]
              exact List.mem_filterMap.mpr ⟨_, hitem, rfl⟩
            obtain ⟨s, hleads, hs⟩ := hnext hlinked hfound (.inl rfl)
            exact ⟨s, hleads, .inr (hs.elim id id)⟩
      | _ =>
          rw [hvalue] at hisLinks
          cases hisLinks

/-- What a chain reads as (`hreached`), unless it is a list, is what the record holds that the links
lead to. Without lists on the way there is only one such record. -/
theorem Hops.get_of_leads (hops : store.Hops className names indexes lastClass) (h : store.Sound)
    {rid : Rid} {r s : Record} (hload : store.load rid = some r)
    (hbelow : store.schema.Below r.className className) (hleads : r.Leads store.load names s)
    {last : String} {reached : Value}
    (hreached : (Value.link rid).along store.load (names ++ [last]) = reached)
    (hlist : ∀ items, reached ≠ .list items) : s.get last = reached := by
  induction hops generalizing rid r with
  | here className =>
      obtain rfl : r = s := hleads
      rwa [List.nil_append, Value.along_link hload] at hreached
  | @hop _ _ _ name names _ _ _ hlinks _ ih =>
      obtain ⟨next, hnext, t, hloaded, hleads⟩ := hleads
      have hr := (h.load_eq_some_iff.mp hload).1
      have hbelowTarget := hlinks.target _ hr hbelow next hnext t hloaded
      rw [List.cons_append, Value.along_link hload] at hreached
      -- a list of links would be read as a list
      cases hvalue : r.get name with
      | link other =>
          rw [hvalue] at hnext hreached
          obtain rfl := List.mem_singleton.mp hnext
          exact ih hloaded hbelowTarget hleads hreached
      | list items =>
          rw [hvalue, Value.along_list] at hreached
          exact absurd hreached.symm (hlist _)
      | _ =>
          rw [hvalue] at hnext
          cases hnext

end

end Store

/-! ## Backwards

From the entries of an index to the records that link to them. Both directions meet in
`Hops.mem_lookup_iff`. -/

/-- What a property that holds links contributes to keys are its links, and null. This is the
converse of `mem_components_of_links`. -/
theorem Value.mem_links_of_components {v : Value} (h : v.isLinks = true) {part : MapPart}
    {rid : Rid} (hrid : link rid ∈ StoredIndex.components part v) : rid ∈ v.links := by
  cases v with
  | link other => simpa [links, StoredIndex.components] using hrid
  | list items =>
      cases items with
      | nil => simp [StoredIndex.components] at hrid
      | cons first rest => exact List.mem_filterMap.mpr ⟨_, hrid, rfl⟩
  | null => simp [StoredIndex.components] at hrid
  | _ => cases h

/-- A record has a key that begins with `v` exactly if the leading field has it among its
`components`, whatever the fields behind it are. -/
theorem StoredIndex.exists_key_head_iff {definition : IndexDefinition} {name : String}
    (hcovers : definition.Covers [name]) {record : Record} {v : Value} :
    (∃ key, KeyOf definition record key ∧ key.head? = some v) ↔
      v ∈ components definition.mapPart (record.get name) := by
  have htake : definition.fields.take 1 = [name] := List.perm_singleton.mp hcovers.perm
  obtain ⟨rest, hfields⟩ : ∃ rest, definition.fields = name :: rest :=
    ⟨_, by rw [← List.singleton_append, ← htake, List.take_append_drop]⟩
  unfold KeyOf
  simp only [hfields, List.forall₂_cons_right_iff]
  constructor
  · rintro ⟨_, ⟨first, others, hfirst, -, rfl⟩, hhead⟩
    exact Option.some.inj hhead ▸ hfirst
  · intro hv
    obtain ⟨others, hothers⟩ : ∃ others, List.Forall₂ (fun component field =>
        component ∈ components definition.mapPart (record.get field)) others rest :=
      exists_forall₂ fun _ _ => List.exists_mem_of_ne_nil _ (components_ne_nil _ _)
    exact ⟨v :: others, ⟨v, others, hv, hothers, rfl⟩, rfl⟩

namespace Store

section

variable {p : Int64 → Prop} {q : Binary64 → Prop} (hseparated : Value.Separated p q)
  {store : Store} (h : store.Sound)
  (hreflects : ∀ index ∈ store.indexes, index.Reflects (fun key => Value.ItemsIn p q key) store)
  (hnumbers : ∀ r, store.Live r → Value.EntriesIn p q r.fields)

include hseparated h hreflects hnumbers

/-- An index for a property that holds links leads from a record to those that it links to. `hnulls`
says that it has not dropped the record for a null in another field. -/
theorem Sound.holdsLink_iff {className name target : String} {index : StoredIndex}
    (hindex : index ∈ store.indexesForProperty className name)
    (hnulls : index.definition.ignoreNulls = false)
    (hlinks : store.LinksTo className name target) {r : Record} (hr : store.Live r)
    (hbelow : store.schema.Below r.className className) {rid : Rid} :
    index.HoldsLink r.rid rid ↔ rid ∈ (r.get name).links := by
  obtain ⟨hmem, habove, hcovers⟩ := h.mem_indexesCovering hindex
  -- equal keys start with equal components, and only a link equals a link
  have hcongr : ∀ key other : Key, Value.ItemsIn p q key → Value.ItemsIn p q other →
      key.compare other = .eq → (key.head? = some (.link rid) ↔ other.head? = some (.link rid)) := by
    intro key other hkey hother heq
    have hlink : Value.ItemsIn p q [.link rid] := ⟨trivial, trivial⟩
    rw [← Key.startsWith_link_iff, ← Key.startsWith_link_iff,
      Key.startsWith_congr_left hseparated hkey hlink hother heq]
  unfold StoredIndex.HoldsLink
  rw [(hreflects index hmem).exists_holds_iff h hnulls hr
    (fun _ _ hkey => hkey.itemsIn (hnumbers r hr)) (hbelow.trans habove) hcongr,
    StoredIndex.exists_key_head_iff hcovers]
  exact ⟨Value.mem_links_of_components (hlinks.isLinks r hr hbelow),
    fun hrid => Value.mem_components_of_links hrid _⟩

variable {className lastClass : String} {names : List String} {indexes : List StoredIndex}

/-- The indexes of a path of links join the records at its ends. The induction is on `Hops`. -/
theorem Hops.joins (hops : store.Hops className names indexes lastClass)
    (hnulls : ∀ index ∈ indexes, index.definition.ignoreNulls = false) {r s : Record}
    (hr : store.Live r) (hbelow : store.schema.Below r.className className)
    (hleads : r.Leads store.load names s) : Joins indexes r.rid s.rid := by
  induction hops generalizing r with
  | here className =>
      obtain rfl : r = s := hleads
      rfl
  | hop hindex hlinks _ ih =>
      obtain ⟨hnull, hnulls⟩ := List.forall_mem_cons.mp hnulls
      obtain ⟨rid, hrid, t, hload, hleads⟩ := hleads
      have hbelowTarget := hlinks.target _ hr hbelow rid hrid t hload
      obtain ⟨ht, rfl⟩ := h.load_eq_some_iff.mp hload
      exact ⟨t.rid, (h.holdsLink_iff hseparated hreflects hnumbers hindex hnull hlinks hr
        hbelow).mpr hrid, ih hnulls ht hbelowTarget hleads⟩

/-- What the indexes of a path of links join with a live record leads to it. The records in between
are live too: an index has entries of live records only, `hreflects`. -/
theorem Hops.leads (hops : store.Hops className names indexes lastClass)
    (hnulls : ∀ index ∈ indexes, index.definition.ignoreNulls = false) {r s : Record}
    (hr : store.Live r) (hbelow : store.schema.Below r.className className) (hs : store.Live s)
    (hjoins : Joins indexes r.rid s.rid) : r.Leads store.load names s := by
  induction hops generalizing r with
  | here className => exact h.live_eq hr hs hjoins
  | @hop _ target _ _ _ _ rest hindex hlinks hops ih =>
      obtain ⟨hnull, hnulls⟩ := List.forall_mem_cons.mp hnulls
      obtain ⟨next, hlink, hjoins⟩ := hjoins
      have hrid := (h.holdsLink_iff hseparated hreflects hnumbers hindex hnull hlinks hr
        hbelow).mp hlink
      -- the record behind the link is the last one, or the next index holds it
      obtain ⟨t, ht, rfl⟩ : ∃ t, store.Live t ∧ t.rid = next := by
        cases hops with
        | here => exact ⟨s, hs, hjoins.symm⟩
        | hop hindex =>
            obtain ⟨-, ⟨key, ⟨b, hb, rfl, hheld⟩, -⟩, -⟩ := hjoins
            obtain ⟨hmem, -, -⟩ := h.mem_indexesCovering hindex
            obtain ⟨t, ht, hrid, -⟩ := ((hreflects _ hmem).finds_iff
              ((hreflects _ hmem).sorted.within b hb)).mp ⟨b, hb, Key.compare_self _, hheld⟩
            exact ⟨t, ht, hrid⟩
      have hload := h.load_eq_some_iff.mpr ⟨ht, rfl⟩
      exact ⟨t.rid, hrid, t, hload, ih hnulls ht (hlinks.target _ hr hbelow _ hrid t hload) hjoins⟩

/-- A lookup in a chain of indexes for a path of links gives a record exactly if the path leads from
it to one that has a selected key in the last index. None of the indexes may ignore nulls,
`hnulls`. -/
theorem Hops.mem_lookup_iff {proxy : ChainProxy} {property : String}
    (hops : store.Hops className names (proxy.first :: proxy.between) lastClass)
    (hlast : proxy.last ∈ store.indexesForProperty lastClass property)
    (hnulls : ∀ index ∈ proxy.hops, index.definition.ignoreNulls = false) {r : Record}
    (hr : store.Live r) (hbelow : store.schema.Below r.className className) {query : IndexQuery}
    (hquery : query.NumbersIn p q) {entries : List IndexEntry}
    (hok : proxy.lookup query = .ok entries) :
    (∃ entry ∈ entries, entry.rid = r.rid) ↔ ∃ s, r.Leads store.load names s ∧
      ∃ key, StoredIndex.KeyOf proxy.last.definition s key ∧ query.Selects key := by
  obtain ⟨hmem, habove, -⟩ := h.mem_indexesCovering hlast
  replace hnulls : ∀ index ∈ (proxy.first :: proxy.between) ++ [proxy.last],
      index.definition.ignoreNulls = false := hnulls
  obtain ⟨hnulls, hlastNulls⟩ := List.forall_mem_append.mp hnulls
  obtain ⟨found, hfound, hsources⟩ := Steps.bind_eq_ok.mp hok
  obtain ⟨rids, hback, -, hsame⟩ := ChainProxy.mem_sources hsources
  have hselected {s : Record} (hs : store.Live s)
      (hunder : store.schema.Below s.className proxy.last.definition.className) :=
    (hreflects _ hmem).mem_lookup_iff hseparated h (hlastNulls _ List.mem_cons_self) hs
      (hnumbers s hs) hunder hquery hfound
  rw [← List.mem_map, hsame, ChainProxy.mem_followBack hseparated ?_ hback]
  constructor
  · rintro ⟨target, htarget, hjoins⟩
    obtain ⟨entry, hentry, rfl⟩ := List.mem_map.mp htarget
    -- what the last index gives is a live record
    obtain ⟨⟨b, hb, hkey, hrid⟩, -⟩ := (StoredIndex.mem_matching_of_separated hseparated
      (hreflects _ hmem).sorted hquery.runs).mp ((StoredIndex.mem_of_lookup hfound).mp hentry)
    obtain ⟨s, hs, hsame, hunder, -⟩ := ((hreflects _ hmem).finds_iff
      ((hreflects _ hmem).sorted.within b hb)).mp ⟨b, hb, Key.compare_self _, hrid⟩
    rw [← hsame] at hjoins
    exact ⟨s, hops.leads hseparated h hreflects hnumbers hnulls hr hbelow hs hjoins,
      (hselected hs hunder).mp ⟨entry, hentry, hsame.symm⟩⟩
  · rintro ⟨s, hleads, hkey⟩
    obtain ⟨hs, hunder⟩ := hops.live_end h hr hbelow hleads
    exact ⟨s.rid, List.mem_map.mpr ((hselected hs (hunder.trans habove)).mpr hkey),
      hops.joins hseparated h hreflects hnumbers hnulls hr hbelow hleads⟩
  · exact fun hop hhop => (hreflects hop (hops.mem_indexes h hhop)).sorted

end

section

variable {store : Store} {className : String}

/-- The `lastHopIndexes` are among the `indexesForProperty`. -/
theorem mem_of_lastHopIndexes {property : String} {index : StoredIndex}
    (h : index ∈ store.lastHopIndexes className property) :
    index ∈ store.indexesForProperty className property := by
  have hsub (seen : List IndexFamily) (candidates : List StoredIndex)
      (hmem : index ∈ firstPerFamily seen candidates) : index ∈ candidates := by
    induction candidates generalizing seen with
    | nil => exact hmem
    | cons first candidates ih =>
        unfold firstPerFamily at hmem
        split at hmem
        · exact List.mem_cons_of_mem _ (ih _ hmem)
        · rcases List.mem_cons.mp hmem with rfl | hmem
          · exact List.mem_cons_self
          · exact List.mem_cons_of_mem _ (ih _ hmem)
  exact (stableSort_perm _ _).mem_iff.mp (hsub _ _ h)

/-- A proxy for a chain of links has an index for every hop, and one for the last property. So
`Hops` holds of every proxy that planning makes. -/
theorem hops_of_chainProxies {chain : FieldChain}
    (hlinks : store.LinksAlong className chain.beforeLast) {proxy : ChainProxy}
    (hproxy : proxy ∈ store.chainProxies className chain) :
    ∃ lastClass, store.Hops className chain.beforeLast (proxy.first :: proxy.between) lastClass ∧
      proxy.last ∈ store.indexesForProperty lastClass chain.last := by
  unfold chainProxies at hproxy
  split at hproxy
  · cases hproxy
  · split at hproxy
    · cases hproxy
    next hops lastClass hindexes =>
      obtain ⟨last, hlast, hok⟩ := List.mem_filterMap.mp hproxy
      -- a chain that could not be made is left out of the proxies
      have hproxyOk : ChainProxy.ofHops (hops ++ [last]) = .ok proxy := by
        cases hmade : ChainProxy.ofHops (hops ++ [last]) with
        | error failure => simp [hmade, Except.toOption] at hok
        | ok made => simpa [hmade, Except.toOption] using hok
      obtain ⟨rfl, rfl⟩ := ChainProxy.ofHops_concat hproxyOk
      exact ⟨lastClass, hops_of_hopIndexes? hlinks hindexes, mem_of_lastHopIndexes hlast⟩

/-- The `hops` of a proxy for a path of links are indexes of the store. -/
theorem Hops.mem_hops {lastClass : String} {names : List String} {proxy : ChainProxy}
    (hops : store.Hops className names (proxy.first :: proxy.between) lastClass) (h : store.Sound)
    {property : String} (hlast : proxy.last ∈ store.indexesForProperty lastClass property)
    {index : StoredIndex} (hindex : index ∈ proxy.hops) : index ∈ store.indexes := by
  replace hindex : index ∈ (proxy.first :: proxy.between) ++ [proxy.last] := hindex
  rcases List.mem_append.mp hindex with hindex | hindex
  · exact hops.mem_indexes h hindex
  · rw [List.mem_singleton.mp hindex]
    exact (h.mem_indexesCovering hlast).1

end

end Store

end RecordQuery
