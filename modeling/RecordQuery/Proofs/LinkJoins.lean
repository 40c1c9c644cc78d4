import RecordQuery.Index.Chain
import RecordQuery.Proofs.IndexInvariants
import RecordQuery.Proofs.Selections
import RecordQuery.Proofs.Steps

/-!
# `RecordQuery.Proofs.LinkJoins`: a chain of indexes joins its hops

Every hop of a chain but the last one holds links: an entry for a record whose key begins with a
link leads to the record behind the link. A lookup in the chain is the join of these relations with
what the last index gives, whichever way the links are looked up and however many records lead to
one.

`StoredIndex.HoldsLink` is the relation of one hop, and `Joins` composes those of several, forwards.
`ChainProxy.followBack` goes the other way, from the records found in the last index to those of the
first, so the lemmas about it have the hops in `reverse`. A hop is asked for links only if something
has been reached behind it; `Asked` says for which hops this is so, and a failing index fails the
lookup only if it is one of them.

The hops may have any entries. They do not have to be those of the live records, and entries for
records that are gone are joined like others. Only the order of the keys has to be a total one,
`SortedIn` with separated numbers or `Ordered`, as a lookup searches in it. How the joins relate to
the records of a store is the matter of `LinkPaths`.

The theorems:

* `ChainProxy.mem_lookupLinks`: a lookup of links gives the records that hold one of them, in a
  composite index and in a single-field one.
* `ChainProxy.mem_followBack`, `ChainProxy.followBack_error_iff`: following hops back gives the
  records that the hops join with the targets, unless a hop that is asked fails.
* `ChainProxy.mem_sources`, `ChainProxy.sources_error_iff`: so do the sources of what was found,
  each record once.
* `ChainProxy.exists_lookup`, `Index.exists_lookup`: indexes that are not failing answer.
* `ChainProxy.lookup_joins`: a lookup in a chain gives the records that the hops join with what the
  last index gives.
-/

set_option autoImplicit false

namespace RecordQuery

/-! ## Links in keys

A link equals nothing but itself, so looking up a link finds exactly the keys that begin with it. -/

/-- Nothing but the link itself `==` a link, as no other kind of value compares equal. -/
theorem Value.beq_link_iff {v : Value} {rid : Rid} : (v == link rid) = true ↔ v = link rid := by
  rw [beq_iff]
  constructor
  · intro heq
    have hrank := rank_eq_of_compare_eq heq
    cases v with
    | link other => exact congrArg link (Rid.compare_eq_iff.mp heq)
    | _ => simp [rank] at hrank
  · rintro rfl
    exact Rid.compare_eq_iff.mpr rfl

/-- `startsWith` for a single link: the key has it for its first component. -/
theorem Key.startsWith_link_iff {key : Key} {rid : Rid} :
    key.startsWith [.link rid] = true ↔ key.head? = some (.link rid) := by
  cases key with
  | nil => simp [startsWith]
  | cons v vs => cases vs <;> simp [startsWith, Value.beq_link_iff]

namespace StoredIndex

/-- The index holds the record under a key whose first component is the link to `target`. -/
def HoldsLink (index : StoredIndex) (rid target : Rid) : Prop :=
  ∃ key, index.buckets.Holds key rid ∧ key.head? = some (.link target)

end StoredIndex

/-- The hops join the record with `target`: each of them `HoldsLink` from one record to the next.
The recursion is on the hops from the front, that is from the record. -/
def Joins : List StoredIndex → Rid → Rid → Prop
  | [], rid, target => rid = target
  | index :: rest, rid, target => ∃ next, index.HoldsLink rid next ∧ Joins rest next target

namespace ChainProxy

/-! ## Looking links up

A hop is read with the links to all records found so far, by one lookup for each or by one for all
of them. What it gives is the same. -/

/-- The links looked up are those to the records found. `linkKeys` sorts them and drops repeats. -/
theorem mem_linkKeys {rids : List Rid} {rid : Rid} : rid ∈ linkKeys rids ↔ rid ∈ rids :=
  mem_sortDistinct (fun _ => Rid.compare_eq_iff.mpr rfl) fun _ _ _ _ => Rid.compare_eq_iff.mp

/-- `linkKeys` has links to look up unless nothing was found. -/
theorem linkKeys_eq_nil_iff {rids : List Rid} : linkKeys rids = [] ↔ rids = [] := by
  simp only [List.eq_nil_iff_forall_not_mem, mem_linkKeys]

/-- `lookupLinks` fails in a `failing` index, if there is any link to look up, and in no other. -/
theorem lookupLinks_error_iff {index : StoredIndex} {targets : List Rid} (hne : targets ≠ []) :
    (∃ failure, lookupLinks index targets = .error failure) ↔ index.failing = true := by
  constructor
  · rintro ⟨failure, hfail⟩
    by_contra hworks
    -- an index that works answers every lookup
    have hlookup := StoredIndex.exists_lookup (Bool.eq_false_iff.mpr hworks)
    unfold lookupLinks at hfail
    split at hfail
    · obtain ⟨parts, hparts⟩ : ∃ parts, targets.mapM (fun target =>
          index.lookup (.exact [.link target]) true) = .ok parts :=
        Steps.mapM_ok fun _ _ => hlookup _ _
      rw [hparts] at hfail
      cases hfail
    · obtain ⟨entries, hentries⟩ := hlookup (.oneOf (targets.map fun target => [.link target])) true
      cases hentries.symm.trans hfail
  · intro hfailing
    obtain ⟨target, rest, rfl⟩ := List.exists_cons_of_ne_nil hne
    unfold lookupLinks
    split
    · -- the lookup of the first link fails, and the others are not made
      obtain ⟨failure, hfail⟩ : ∃ failure,
          index.lookup (.exact [.link target]) true = .error failure :=
        StoredIndex.lookup_error_iff.mpr hfailing
      exact ⟨failure, by rw [List.mapM_cons, hfail]; rfl⟩
    · exact StoredIndex.lookup_error_iff.mpr hfailing

section

variable {p : Int64 → Prop} {q : Binary64 → Prop} (hseparated : Value.Separated p q)

include hseparated

/-- `lookupLinks` gives the records that hold one of them (`HoldsLink`), in a single-field index and
in a composite one. The former looks up exact keys, the latter prefixes. -/
theorem mem_lookupLinks {index : StoredIndex}
    (hsorted : index.buckets.SortedIn fun key => Value.ItemsIn p q key) {targets : List Rid}
    {entries : List IndexEntry} (hok : lookupLinks index targets = .ok entries) {rid : Rid} :
    rid ∈ entries.map (·.rid) ↔ ∃ target ∈ targets, index.HoldsLink rid target := by
  -- both strategies select the entries whose key starts with one of the links
  have hentries (entry : IndexEntry) : entry ∈ entries ↔
      index.buckets.Holds entry.key entry.rid ∧
        ∃ target ∈ targets, entry.key.startsWith [.link target] = true := by
    have hlink (target : Rid) : Value.ItemsIn p q [.link target] := ⟨trivial, trivial⟩
    unfold lookupLinks at hok
    split at hok
    · obtain ⟨parts, hparts, hok⟩ := Steps.bind_eq_ok.mp hok
      cases hok
      have hpart {target : Rid} {part : List IndexEntry}
          (hlookup : index.lookup (.exact [.link target]) true = .ok part) : entry ∈ part ↔
            index.buckets.Holds entry.key entry.rid ∧
              entry.key.startsWith [.link target] = true := by
        have hruns : ∀ leading ∈ (IndexQuery.exact [.link target]).runs,
            Value.ItemsIn p q leading := List.forall_mem_singleton.mpr (hlink target)
        exact (StoredIndex.mem_of_lookup hlookup).trans
          (StoredIndex.mem_matching_of_separated hseparated hsorted hruns)
      rw [List.mem_flatten]
      constructor
      · rintro ⟨part, hmem, hentry⟩
        obtain ⟨target, htarget, hlookup⟩ := Steps.exists_of_mapM_ok hparts hmem
        obtain ⟨hholds, hstarts⟩ := (hpart hlookup).mp hentry
        exact ⟨hholds, target, htarget, hstarts⟩
      · rintro ⟨hholds, target, htarget, hstarts⟩
        obtain ⟨part, hmem, hlookup⟩ := Steps.exists_of_mem_mapM hparts htarget
        exact ⟨part, hmem, (hpart hlookup).mpr ⟨hholds, hstarts⟩⟩
    · rw [StoredIndex.mem_of_lookup hok,
        StoredIndex.mem_matching_of_separated hseparated hsorted fun leading hleading => by
          obtain ⟨target, -, rfl⟩ := List.mem_map.mp hleading
          exact hlink target]
      simp only [IndexQuery.Selects, List.mem_map, exists_exists_and_eq_and]
  simp only [List.mem_map, hentries, Key.startsWith_link_iff, StoredIndex.HoldsLink]
  constructor
  · rintro ⟨entry, ⟨hholds, target, htarget, hhead⟩, rfl⟩
    exact ⟨target, htarget, entry.key, hholds, hhead⟩
  · rintro ⟨target, htarget, key, hholds, hhead⟩
    exact ⟨⟨key, rid⟩, ⟨hholds, target, htarget, hhead⟩, rfl⟩

end

/-! ## Following hops back

The induction is on the hops, from the last to the first. A hop of which nothing is asked is not
read, which matters only to whether it can fail. -/

/-- A hop is followed back by looking up links to the targets, if there are any. This equation is
all that the lemmas below know of `followBack`. -/
theorem followBack_cons (targets : List Rid) (index : StoredIndex) (rest : List StoredIndex) :
    followBack targets (index :: rest) =
      if linkKeys targets = [] then .ok []
      else lookupLinks index (linkKeys targets) >>= fun found =>
        followBack (found.map (·.rid)) rest := by
  rw [followBack]
  cases linkKeys targets <;> rfl

/-- From no records `followBack` reaches none, and no hop is read, failing or not. -/
theorem followBack_nil (hops : List StoredIndex) : followBack [] hops = .ok [] := by
  cases hops <;> rfl

/-- `followBack` follows hops one after another. -/
theorem followBack_append (targets : List Rid) (later earlier : List StoredIndex) :
    followBack targets (later ++ earlier) =
      followBack targets later >>= fun reached => followBack reached earlier := by
  induction later generalizing targets with
  | nil => rfl
  | cons index later ih =>
      rw [List.cons_append, followBack_cons, followBack_cons]
      split
      · exact (followBack_nil earlier).symm
      · rw [bind_assoc]
        exact congrArg _ (funext fun found => ih _)

/-- The hop is asked for links: the hops behind it, `later`, join some record with one of those
`found`. A hop with nothing behind it to ask for is passed over, failing or not. -/
def Asked (hops : List StoredIndex) (found : List Rid) (hop : StoredIndex) : Prop :=
  ∃ earlier later, hops = earlier ++ hop :: later ∧ ∃ rid, ∃ target ∈ found, Joins later rid target

/-- The first hop, `index`, is asked if the others lead to anything, and the others as before. It is
the last one that is followed back. -/
theorem asked_cons {index hop : StoredIndex} {rest : List StoredIndex} {found : List Rid} :
    Asked (index :: rest) found hop ↔
      Asked rest found hop ∨ (hop = index ∧ ∃ rid, ∃ target ∈ found, Joins rest rid target) := by
  constructor
  · rintro ⟨earlier, later, hsplit, hleads⟩
    rcases List.cons_eq_append_iff.mp hsplit with ⟨rfl, hcons⟩ | ⟨others, rfl, rfl⟩
    · cases hcons
      exact .inr ⟨rfl, hleads⟩
    · exact .inl ⟨others, later, rfl, hleads⟩
  · rintro (⟨earlier, later, rfl, hleads⟩ | ⟨rfl, hleads⟩)
    · exact ⟨index :: earlier, later, rfl, hleads⟩
    · exact ⟨[], rest, rfl, hleads⟩

section

variable {p : Int64 → Prop} {q : Binary64 → Prop} (hseparated : Value.Separated p q)

include hseparated

/-- Following hops back gives the records that the hops join with one of the targets. The induction
is on the hops from the front, and `followBack_append` takes the first hop off the end. -/
theorem mem_followBack {hops : List StoredIndex}
    (hsorted : ∀ hop ∈ hops, hop.buckets.SortedIn fun key => Value.ItemsIn p q key)
    {targets found : List Rid} (hok : followBack targets hops.reverse = .ok found) {rid : Rid} :
    rid ∈ found ↔ ∃ target ∈ targets, Joins hops rid target := by
  induction hops generalizing found rid with
  | nil =>
      cases hok
      simp [Joins]
  | cons index rest ih =>
      obtain ⟨hindex, hrest⟩ := List.forall_mem_cons.mp hsorted
      rw [List.reverse_cons, followBack_append] at hok
      obtain ⟨reached, hreached, hok⟩ := Steps.bind_eq_ok.mp hok
      replace ih := @ih hrest reached hreached
      rw [followBack_cons] at hok
      split at hok
      -- without keys to look up the index is not asked, and nothing was reached
      next hnone =>
        cases hok
        rw [linkKeys_eq_nil_iff.mp hnone] at ih
        simp only [List.not_mem_nil, false_iff, not_exists, not_and] at ih ⊢
        rintro target htarget ⟨next, -, hjoins⟩
        exact ih target htarget hjoins
      next =>
        obtain ⟨entries, hentries, hok⟩ := Steps.bind_eq_ok.mp hok
        cases hok
        rw [mem_lookupLinks hseparated hindex hentries]
        simp only [mem_linkKeys, ih, Joins]
        constructor
        · rintro ⟨next, ⟨target, htarget, hjoins⟩, hlink⟩
          exact ⟨target, htarget, next, hlink, hjoins⟩
        · rintro ⟨target, htarget, next, hlink, hjoins⟩
          exact ⟨next, ⟨target, htarget, hjoins⟩, hlink⟩

/-- Following hops back fails exactly if a hop that is `Asked` for links is failing. -/
theorem followBack_error_iff {hops : List StoredIndex}
    (hsorted : ∀ hop ∈ hops, hop.buckets.SortedIn fun key => Value.ItemsIn p q key)
    {targets : List Rid} :
    (∃ failure, followBack targets hops.reverse = .error failure) ↔
      ∃ hop, Asked hops targets hop ∧ hop.failing = true := by
  induction hops with
  | nil => simp [followBack, Asked]
  | cons index rest ih =>
      have hrest := (List.forall_mem_cons.mp hsorted).2
      replace ih := ih hrest
      rw [List.reverse_cons, followBack_append]
      simp only [asked_cons, or_and_right, exists_or]
      cases hreached : followBack targets rest.reverse with
      | error failure =>
          refine iff_of_true ⟨failure, rfl⟩ (.inl (ih.mp ⟨failure, hreached⟩))
      | ok reached =>
          -- what is asked for links further back has answered
          have hanswered : ¬∃ hop, Asked rest targets hop ∧ hop.failing = true := fun h => by
            obtain ⟨failure, hfail⟩ := ih.mpr h
            cases hreached.symm.trans hfail
          have hleads : reached ≠ [] ↔ ∃ rid, ∃ target ∈ targets, Joins rest rid target := by
            simp only [← mem_followBack hseparated hrest hreached]
            exact ⟨List.exists_mem_of_ne_nil reached, fun ⟨_, hmem⟩ => List.ne_nil_of_mem hmem⟩
          simp only [hanswered, false_or]
          show (∃ failure, followBack reached [index] = .error failure) ↔ _
          rw [followBack_cons, ← hleads]
          split
          next hnone => simp [linkKeys_eq_nil_iff.mp hnone]
          next hsome =>
            have hne : reached ≠ [] := fun hnil => hsome (linkKeys_eq_nil_iff.mpr hnil)
            simp only [hne, ne_eq, not_false_eq_true, and_true, exists_eq_left]
            rw [← lookupLinks_error_iff hsome]
            cases lookupLinks index (linkKeys reached) with
            | error failure => simp [bind, Except.bind]
            | ok entries => simp [bind, Except.bind, followBack]

end

/-! ## The sources of what was found

At the end each record is kept once, however many ways lead to it. -/

/-- The records of the entries that stay when later entries of a record are dropped: all of them but
those `seen` before. -/
theorem mem_firstPerRid {entries : List IndexEntry} {seen : List Rid} {rid : Rid} :
    rid ∈ (firstPerRid seen entries).map (·.rid) ↔ rid ∈ entries.map (·.rid) ∧ rid ∉ seen := by
  induction entries generalizing seen with
  | nil => simp [firstPerRid]
  | cons entry entries ih =>
      unfold firstPerRid
      split
      next hseen =>
        rw [List.contains_iff_mem] at hseen
        rw [ih, List.map_cons, List.mem_cons]
        grind
      next hnew =>
        rw [List.contains_iff_mem] at hnew
        rw [List.map_cons, List.mem_cons, ih, List.map_cons, List.mem_cons]
        grind

/-- No record stays twice in `firstPerRid`. -/
theorem nodup_firstPerRid (entries : List IndexEntry) (seen : List Rid) :
    ((firstPerRid seen entries).map (·.rid)).Nodup := by
  induction entries generalizing seen with
  | nil => exact List.nodup_nil
  | cons entry entries ih =>
      unfold firstPerRid
      split
      · exact ih seen
      · refine List.nodup_cons.mpr ⟨fun hmem => ?_, ih _⟩
        exact (mem_firstPerRid.mp hmem).2 List.mem_cons_self

section

variable {proxy : ChainProxy} {found : List IndexEntry}

/-- `sources` once the hops behind the first one are followed back (`hreached`): the first hop is
asked for the links to what was reached, if there are any. -/
theorem sources_of_reached {reached : List Rid}
    (hreached : followBack (found.map (·.rid)) proxy.between.reverse = .ok reached) :
    proxy.sources found =
      if linkKeys reached = [] then .ok []
      else lookupLinks proxy.first (linkKeys reached) >>= fun entries =>
        .ok (firstPerRid [] entries) := by
  simp only [sources, hreached, bind, Except.bind]
  cases linkKeys reached <;> rfl

/-- The sources of what was found are the records that the hops lead back to, each once. `sources`
gives the entries of the first hop and follows back the others. -/
theorem mem_sources {entries : List IndexEntry} (hok : proxy.sources found = .ok entries) :
    ∃ rids, followBack (found.map (·.rid)) (proxy.first :: proxy.between).reverse = .ok rids ∧
      (entries.map (·.rid)).Nodup ∧ ∀ rid, rid ∈ entries.map (·.rid) ↔ rid ∈ rids := by
  obtain ⟨reached, hreached, -⟩ := Steps.bind_eq_ok.mp hok
  -- the last step back is made by the proxy itself, which drops repeats
  rw [sources_of_reached hreached] at hok
  rw [List.reverse_cons, followBack_append, hreached]
  show ∃ rids, followBack reached [proxy.first] = .ok rids ∧ _
  rw [followBack_cons]
  split at hok
  next hnone =>
    cases hok
    rw [if_pos hnone]
    exact ⟨[], rfl, List.nodup_nil, by simp⟩
  next hsome =>
    obtain ⟨links, hlinks, hok⟩ := Steps.bind_eq_ok.mp hok
    cases hok
    rw [if_neg hsome, hlinks]
    exact ⟨links.map (·.rid), rfl, nodup_firstPerRid links [],
      fun rid => mem_firstPerRid.trans (by simp)⟩

/-- `sources` fails exactly if `followBack` fails on all hops. Dropping repeats does not fail. -/
theorem sources_error_iff :
    (∃ failure, proxy.sources found = .error failure) ↔
      ∃ failure, followBack (found.map (·.rid)) (proxy.first :: proxy.between).reverse =
        .error failure := by
  rw [List.reverse_cons, followBack_append]
  cases hreached : followBack (found.map (·.rid)) proxy.between.reverse with
  | error failure =>
      have hfail : proxy.sources found = .error failure := by
        rw [sources, hreached]
        rfl
      exact iff_of_true ⟨failure, hfail⟩ ⟨failure, rfl⟩
  | ok reached =>
      show _ ↔ ∃ failure, followBack reached [proxy.first] = .error failure
      rw [sources_of_reached hreached, followBack_cons]
      split
      · simp
      next hsome =>
        -- what the first hop answers is only freed of repetitions
        cases lookupLinks proxy.first (linkKeys reached) <;> simp [bind, Except.bind, followBack]

/-- `followBack` succeeds on hops none of which is `failing`. -/
theorem exists_followBack {hops : List StoredIndex} (hworks : ∀ hop ∈ hops, hop.failing = false)
    (targets : List Rid) : ∃ rids, followBack targets hops = .ok rids := by
  induction hops generalizing targets with
  | nil => exact ⟨targets, rfl⟩
  | cons index rest ih =>
      obtain ⟨hindex, hrest⟩ := List.forall_mem_cons.mp hworks
      rw [followBack_cons]
      split
      · exact ⟨[], rfl⟩
      next hsome =>
        cases hfound : lookupLinks index (linkKeys targets) with
        | ok found => exact ih hrest _
        | error failure =>
            rw [(lookupLinks_error_iff hsome).mp ⟨failure, hfound⟩] at hindex
            cases hindex

/-- A chain of indexes that are not failing answers every lookup, `hworks`. -/
theorem exists_lookup (hworks : ∀ hop ∈ proxy.hops, hop.failing = false) (query : IndexQuery) :
    ∃ entries, proxy.lookup query = .ok entries := by
  replace hworks : ∀ hop ∈ (proxy.first :: proxy.between) ++ [proxy.last], hop.failing = false :=
    hworks
  obtain ⟨hhops, hlast⟩ := List.forall_mem_append.mp hworks
  obtain ⟨found, hfound⟩ :=
    StoredIndex.exists_lookup (hlast _ List.mem_cons_self) query true
  show ∃ entries, (proxy.last.lookup query true >>= proxy.sources) = .ok entries
  rw [hfound]
  show ∃ entries, proxy.sources found = .ok entries
  cases hsources : proxy.sources found with
  | ok entries => exact ⟨entries, rfl⟩
  | error failure =>
      obtain ⟨failure, hfail⟩ := sources_error_iff.mp ⟨failure, hsources⟩
      obtain ⟨rids, hback⟩ :=
        exists_followBack (fun hop hhop => hhops hop (List.mem_reverse.mp hhop)) (found.map (·.rid))
      cases hback.symm.trans hfail

end

/-- A proxy that `ofHops` makes of some hops and a last one has these. -/
theorem ofHops_concat {hops : List StoredIndex} {last : StoredIndex} {proxy : ChainProxy}
    (hok : ofHops (hops ++ [last]) = .ok proxy) :
    proxy.first :: proxy.between = hops ∧ proxy.last = last := by
  cases hops with
  | nil => cases hok
  | cons first rest =>
      cases rest with
      | nil =>
          cases hok
          exact ⟨rfl, rfl⟩
      | cons second rest =>
          cases hok
          show first :: (second :: rest ++ [last]).dropLast = _ ∧ (second :: rest ++ [last]).getLast _ = _
          rw [List.dropLast_concat, List.getLast_concat]
          exact ⟨rfl, rfl⟩

/-- Of two hops and more a proxy can be made; of fewer `ofHops` makes none. -/
theorem exists_ofHops {hops : List StoredIndex} (hne : hops ≠ []) (last : StoredIndex) :
    ∃ proxy, ofHops (hops ++ [last]) = .ok proxy := by
  obtain ⟨first, rest, rfl⟩ := List.exists_cons_of_ne_nil hne
  cases rest <;> exact ⟨_, rfl⟩

/-- A lookup in a chain of indexes without floating-point keys, `Ordered`, whatever else the indexes
hold and however many fields they have, fails if the last index fails, or an index that is `Asked`
for links on the way back. Otherwise it gives each record once that the hops join with one found in
the last index, and no other. -/
theorem lookup_joins {hops : List StoredIndex} (hne : hops ≠ [])
    (hordered : ∀ hop ∈ hops, hop.buckets.Ordered) (last : StoredIndex) (query : IndexQuery)
    (ascending : Bool) :
    ∃ proxy, ofHops (hops ++ [last]) = .ok proxy ∧
      (∀ failure, last.lookup query true = .error failure →
        (Index.chained proxy).lookup query ascending = .error failure) ∧
      ∀ found, last.lookup query true = .ok found →
        ((∃ failure, (Index.chained proxy).lookup query ascending = .error failure) ↔
          ∃ hop, Asked hops (found.map (·.rid)) hop ∧ hop.failing = true) ∧
        ∀ entries, (Index.chained proxy).lookup query ascending = .ok entries →
          (entries.map (·.rid)).Nodup ∧ ∀ rid, rid ∈ entries.map (·.rid) ↔
            ∃ target ∈ found.map (·.rid), Joins hops rid target := by
  obtain ⟨proxy, hproxy⟩ := exists_ofHops hne last
  obtain ⟨hhops, hlast⟩ := ofHops_concat hproxy
  have hsorted (hop : StoredIndex) (hhop : hop ∈ hops) :=
    (hordered hop hhop).sortedIn_numbers fun _ => False
  -- the last index is looked up first, and its outcome is followed back
  have hlookup (found : Except Failure (List IndexEntry)) (h : last.lookup query true = found) :
      (Index.chained proxy).lookup query ascending = found >>= proxy.sources := by
    rw [← h, ← hlast]
    rfl
  refine ⟨proxy, hproxy, fun failure hfail => ?_, fun found hfound => ?_⟩
  · rw [hlookup _ hfail]
    rfl
  · replace hlookup : (Index.chained proxy).lookup query ascending = proxy.sources found :=
      hlookup _ hfound
    rw [hlookup]
    constructor
    · rw [sources_error_iff, hhops, followBack_error_iff Value.separated_exact hsorted]
    · intro entries hentries
      obtain ⟨rids, hback, hnodup, hsame⟩ := mem_sources hentries
      rw [hhops] at hback
      refine ⟨hnodup, fun rid => (hsame rid).trans ?_⟩
      exact mem_followBack Value.separated_exact hsorted hback

end ChainProxy

/-- The stored indexes that a lookup in the index may read. A `.chained` index reads all of its
hops. -/
def Index.parts : Index → List StoredIndex
  | .stored index => [index]
  | .chained proxy => proxy.hops

/-- An index with no `failing` part answers every lookup, be it stored or chained. -/
theorem Index.exists_lookup {index : Index} (hworks : ∀ part ∈ index.parts, part.failing = false)
    (query : IndexQuery) (ascending : Bool) :
    ∃ entries, index.lookup query ascending = .ok entries := by
  cases index with
  | stored index => exact StoredIndex.exists_lookup (hworks index List.mem_cons_self) query ascending
  | chained proxy => exact ChainProxy.exists_lookup hworks query

/-! ## Workers of companies in several cities -/

/-- Workers by their companies and their age, a composite index; the worker `#3:0` works for two
companies. -/
def workerHop : StoredIndex :=
  [.put [.link ⟨2, 0⟩, .int 40] ⟨3, 0⟩, .put [.link ⟨2, 1⟩, .int 40] ⟨3, 0⟩,
    .put [.link ⟨2, 1⟩, .int 30] ⟨3, 1⟩, .put [.link ⟨2, 2⟩, .int 50] ⟨3, 2⟩].foldl
    StoredIndex.write (.empty "Worker.company" .notUnique ⟨"Worker", ["company", "age"], false, .keys⟩)

/-- Companies by their cities; `#2:1` lies in two cities, and `#2:2` in a city that is gone. -/
def companyHop : StoredIndex :=
  [.put [.link ⟨1, 0⟩] ⟨2, 0⟩, .put [.link ⟨1, 0⟩] ⟨2, 1⟩, .put [.link ⟨1, 1⟩] ⟨2, 1⟩,
    .put [.link ⟨1, 9⟩] ⟨2, 2⟩].foldl
    StoredIndex.write (.empty "Company.city" .notUniqueHash ⟨"Company", ["city"], false, .keys⟩)

/-- Cities by their names; two of them are called Rome. -/
def cityHop : StoredIndex :=
  [.put [.string "Rome"] ⟨1, 0⟩, .put [.string "Paris"] ⟨1, 1⟩, .put [.string "Rome"] ⟨1, 2⟩].foldl
    StoredIndex.write (.empty "City.name" .notUnique ⟨"City", ["name"], false, .keys⟩)

/-- The workers of the companies in Rome, each once, through the composite `workerHop` and through
`companyHop`. -/
theorem lookup_joins_workers :
    (∀ hop ∈ [workerHop, companyHop], hop.buckets.Ordered) ∧
      ∃ proxy found entries, ChainProxy.ofHops [workerHop, companyHop, cityHop] = .ok proxy ∧
        cityHop.lookup (.exact [.string "Rome"]) true = .ok found ∧
        (Index.chained proxy).lookup (.exact [.string "Rome"]) true = .ok entries ∧
        (entries.map (·.rid)).Nodup ∧
        (∀ rid, rid ∈ entries.map (·.rid) ↔
          ∃ target ∈ found.map (·.rid), Joins [workerHop, companyHop] rid target) ∧
        entries.map (·.rid) = [⟨3, 0⟩, ⟨3, 1⟩] := by
  have hordered : ∀ hop ∈ [workerHop, companyHop], hop.buckets.Ordered := by
    simp only [List.forall_mem_cons, List.not_mem_nil, false_imp_iff, implies_true, and_true]
    constructor <;>
      exact StoredIndex.ordered_ofWrites (by simp [IndexWrite.KeyIn]; decide) _ _ _
  obtain ⟨proxy, hproxy, -, hjoins⟩ := @ChainProxy.lookup_joins [workerHop, companyHop] (by simp)
    hordered cityHop (.exact [.string "Rome"]) true
  obtain ⟨found, hfound⟩ := @StoredIndex.exists_lookup cityHop rfl (.exact [.string "Rome"]) true
  obtain rfl : ⟨workerHop, [companyHop], cityHop⟩ = proxy := Except.ok.inj hproxy
  -- the lookup itself tells that two workers are found
  have hrids : ((Index.chained ⟨workerHop, [companyHop], cityHop⟩).lookup
      (.exact [.string "Rome"]) true).toOption.map (fun entries => entries.map (·.rid)) =
        some [⟨3, 0⟩, ⟨3, 1⟩] := by decide +kernel
  cases hentries : (Index.chained ⟨workerHop, [companyHop], cityHop⟩).lookup
      (.exact [.string "Rome"]) true with
  | error failure =>
      rw [hentries] at hrids
      cases hrids
  | ok entries =>
      rw [hentries] at hrids
      obtain ⟨hnodup, hsame⟩ := (hjoins found hfound).2 entries hentries
      exact ⟨hordered, _, found, entries, rfl, hfound, hentries, hnodup, hsame,
        Option.some.inj hrids⟩

end RecordQuery
