import RecordQuery.Proofs.Reachable
import RecordQuery.Proofs.Sorting
import RecordQuery.Proofs.Steps

/-!
# `RecordQuery.Proofs.Scans`: what a scan of clusters gives

A scan visits the clusters that its range touches in the order of their numbers (`Store.scanOrder`),
and each cluster in the order of positions. So the records come in the order of their identities,
ascending or descending (`Store.follows`). `Store.recordsIn` is what a scan is to give. It is
defined by filtering, and it does not mention failures.

A cluster may be switched to failing (`Store.failingCluster`). Its scan then begins, gives a first
half of its records, and ends with a failure (`Store.shown`); the scans of the other clusters go on.
So what a scan gives is compared with `recordsIn` in three ways. It is all of it where no visited
cluster fails (`scanned_whole`). It is all but the second half of one cluster's records where one
does (`Store.BreaksOff`, `Sound.breaksOff`). In any case it is a part of it, in the same order
(`scanned_sublist`). The last is enough for everything that is said of the records that do come out.

The theorems:

* `Sound.mem_recordsIn`, `Sound.recordsIn_ordered`: a scan is to give the live records of its
  clusters within its range, in the order of their identities.
* `scanned_whole`, `Sound.breaksOff`, `scanned_sublist`: what it does give.
* `Sound.scan_nodup`: no record is scanned twice.
* `Sound.count_recordsIn`: counting clusters gives the number of records that a scan of them is to
  give.
-/

set_option autoImplicit false

namespace RecordQuery

namespace Store

/-- The records among the items of a scan, failures (`.error`) left out. -/
def scannedRecords (items : List ScanItem) : List Record := items.filterMap Except.toOption

/-- The order of identities that a scan follows: `Rid.compare`, or the other way around when
descending. -/
def follows (direction : ScanDirection) (a b : Rid) : Prop :=
  match direction with
  | .ascending => a.compare b = .lt
  | .descending => b.compare a = .lt

/-- The order of clusters that a scan follows, upwards or downwards. -/
def visits (direction : ScanDirection) (a b : ClusterId) : Prop :=
  match direction with
  | .ascending => a < b
  | .descending => b < a

/-- The records that a scan of a cluster is to give: those within `range`, in its `direction`. A
cluster that does not exist has none. -/
def recordsOf (store : Store) (direction : ScanDirection) (range : RidRange) (id : ClusterId) :
    List Record :=
  let records := ((store.cluster? id).elim [] (·.records)).filter fun r => range.contains r.rid
  match direction with
  | .ascending => records
  | .descending => records.reverse

/-- The records that a scan of clusters is to give, cluster by cluster in the `scanOrder`. -/
def recordsIn (store : Store) (ids : List ClusterId) (direction : ScanDirection)
    (range : RidRange) : List Record :=
  (scanOrder ids direction range).flatMap (store.recordsOf direction range)

/-- What the scan of a cluster makes of the records that it is to give. Where it fails
(`failingCluster`), these are a first half of them and the failure. -/
def shown (store : Store) (id : ClusterId) (records : List Record) : List ScanItem :=
  if store.failingCluster == some id then
    (records.take (records.length / 2)).map .ok ++ [.error (.corruption .scanFailed)]
  else records.map .ok

/-- No cluster that a scan visits is the `failingCluster`. A cluster outside of the range may be, as
the scan does not come to it. -/
def ScansWhole (store : Store) (ids : List ClusterId) (range : RidRange) : Prop :=
  ∀ id ∈ ids, range.touches id = true → store.failingCluster ≠ some id

/-- The items are the records, but of the records of the cluster `id` there is only a first half,
with a failure after it. The records before and behind are those of the clusters that the scan
visits before and after `id`. -/
def BreaksOff (direction : ScanDirection) (id : ClusterId) (records : List Record)
    (items : List ScanItem) : Prop :=
  ∃ before own behind, records = before ++ (own ++ behind) ∧
    (∀ r ∈ before, visits direction r.rid.cluster id) ∧
    (∀ r ∈ own, r.rid.cluster = id) ∧
    (∀ r ∈ behind, visits direction id r.rid.cluster) ∧
    items = before.map .ok ++ ((own.take (own.length / 2)).map .ok ++
      .error (.corruption .scanFailed) :: behind.map .ok)

/-- A record is among the `scannedRecords` when it is one of the items. -/
theorem mem_scannedRecords {items : List ScanItem} {r : Record} :
    r ∈ scannedRecords items ↔ .ok r ∈ items := by
  unfold scannedRecords
  rw [List.mem_filterMap]
  constructor
  · rintro ⟨item, hitem, hr⟩
    cases item with
    | error failure => cases hr
    | ok s =>
        obtain rfl := Option.some.inj hr
        exact hitem
  · exact fun hr => ⟨.ok r, hr, rfl⟩

/-- The `scannedRecords` of items that are all records. -/
theorem scannedRecords_map (records : List Record) :
    scannedRecords (records.map .ok) = records := by
  unfold scannedRecords
  rw [List.filterMap_map]
  exact List.filterMap_some

/-- A cluster that goes first by `visits` has its records first, as identities are compared by
cluster before position. -/
theorem follows_of_visits {direction : ScanDirection} {a b : Rid}
    (h : visits direction a.cluster b.cluster) : follows direction a b := by
  cases direction with
  | ascending =>
      have hlt : a.cluster < b.cluster := h
      simp [follows, Rid.compare, Nat.compare_eq_lt.mpr hlt]
  | descending =>
      have hlt : b.cluster < a.cluster := h
      simp [follows, Rid.compare, Nat.compare_eq_lt.mpr hlt]

/-! ## One cluster

The scan of a cluster gives the records within the range, in its direction, or the first half of
them and a failure. -/

section

variable {store : Store} {id : ClusterId} {direction : ScanDirection} {range : RidRange}

/-- `scanCluster` shows the records that it is to give. It fails at once only for a cluster that
does not exist. -/
theorem scanCluster_eq : store.scanCluster id direction range =
    match store.cluster? id with
    | none => .error (.query (.unknownCluster id))
    | some _ => .ok (store.shown id (store.recordsOf direction range id)) := by
  unfold scanCluster shown recordsOf
  cases store.cluster? id with
  | none => rfl
  | some c => exact (apply_ite Except.ok _ _ _).symm

/-- The inversion of `scanCluster`: a scan that begins has `shown` the records that it is to
give. -/
theorem scanCluster_ok {items : List ScanItem}
    (hok : store.scanCluster id direction range = .ok items) :
    items = store.shown id (store.recordsOf direction range id) := by
  rw [scanCluster_eq] at hok
  cases hcluster : store.cluster? id <;> rw [hcluster] at hok <;> cases hok
  rfl

/-- A cluster whose scans do not fail (`hne`) shows all of its records. -/
theorem shown_of_ne (hne : store.failingCluster ≠ some id) (records : List Record) :
    store.shown id records = records.map .ok :=
  if_neg (by simpa using hne)

/-- A `scanCluster` whose cluster does not fail gives all of its records. -/
theorem scannedCluster_whole {items : List ScanItem}
    (hok : store.scanCluster id direction range = .ok items)
    (hne : store.failingCluster ≠ some id) :
    items = (store.recordsOf direction range id).map .ok :=
  (scanCluster_ok hok).trans (shown_of_ne hne _)

/-- The records that are `shown` are some of those to give, in the same order. -/
theorem scannedRecords_shown (records : List Record) :
    (scannedRecords (store.shown id records)).Sublist records := by
  unfold shown
  split
  · unfold scannedRecords
    rw [List.filterMap_append]
    exact ((List.append_nil _).trans (scannedRecords_map _)) ▸ List.take_sublist _ _
  · rw [scannedRecords_map]

variable (h : store.Sound)

include h

/-- `recordsOf` a cluster are its live records within the range. -/
theorem Sound.mem_recordsOf {r : Record} : r ∈ store.recordsOf direction range id ↔
    store.Live r ∧ r.rid.cluster = id ∧ range.contains r.rid = true := by
  -- the direction changes the order of the records, not which they are
  have hmem : r ∈ store.recordsOf direction range id ↔
      r ∈ (store.cluster? id).elim [] (·.records) ∧ range.contains r.rid = true := by
    cases direction with
    | ascending => exact List.mem_filter
    | descending => exact List.mem_reverse.trans List.mem_filter
  rw [hmem, ← and_assoc]
  refine and_congr_left fun _ => ⟨fun hr => ?_, ?_⟩
  · cases hcluster : store.cluster? id with
    | none => simp [hcluster] at hr
    | some c =>
        rw [hcluster] at hr
        obtain ⟨hc, rfl⟩ := h.cluster?_eq_some_iff.mp hcluster
        exact ⟨⟨c, hc, hr⟩, (h.recordPlace c hc r hr).1⟩
  · rintro ⟨⟨c, hc, hr⟩, rfl⟩
    rw [h.cluster?_eq_some_iff.mpr ⟨hc, ((h.recordPlace c hc r hr).1).symm⟩]
    exact hr

/-- The records of one cluster are in the order of their identities, as `Sound.recordOrder` has them
in the order of positions. -/
theorem Sound.recordsOf_ordered :
    (store.recordsOf direction range id).Pairwise fun r s => follows direction r.rid s.rid := by
  have hascending : (store.recordsOf .ascending range id).Pairwise
      fun r s => r.rid.compare s.rid = .lt := by
    have hplaces : (store.recordsOf .ascending range id).Pairwise
        fun r s => r.rid.position < s.rid.position := by
      refine List.Pairwise.filter _ ?_
      cases hcluster : store.cluster? id with
      | none => exact .nil
      | some c => exact h.recordOrder c (h.cluster?_eq_some_iff.mp hcluster).1
    -- identities of one cluster compare by their positions
    refine hplaces.imp_of_mem fun {r s} hr hs hlt => ?_
    unfold Rid.compare
    rw [(h.mem_recordsOf.mp hr).2.1, (h.mem_recordsOf.mp hs).2.1, Nat.compare_eq_eq.mpr rfl,
      Nat.compare_eq_lt.mpr hlt]
    rfl
  cases direction with
  | ascending => exact hascending
  | descending => exact List.pairwise_reverse.mpr hascending

/-- A record among the items of `scanCluster` is a live one of the cluster, within the range. -/
theorem Sound.mem_of_scannedCluster {items : List ScanItem}
    (hok : store.scanCluster id direction range = .ok items) {r : Record} (hr : .ok r ∈ items) :
    store.Live r ∧ r.rid.cluster = id ∧ range.contains r.rid = true := by
  obtain rfl := scanCluster_ok hok
  exact h.mem_recordsOf.mp ((scannedRecords_shown _).subset (mem_scannedRecords.mpr hr))

omit direction range in
/-- The scan of a cluster that exists (`hid`) begins. -/
theorem Sound.exists_scannedCluster (hid : ∃ c ∈ store.clusters, c.id = id)
    (direction : ScanDirection) (range : RidRange) :
    ∃ items, store.scanCluster id direction range = .ok items := by
  obtain ⟨c, hc, hcid⟩ := hid
  rw [scanCluster_eq, h.cluster?_eq_some_iff.mpr ⟨hc, hcid⟩]
  exact ⟨_, rfl⟩

end

/-! ## Clusters one after the other

Several clusters are scanned in the order of their numbers, and so all records come in the order of
their identities. A failure stands behind the first half of its cluster. -/

/-- `scanOrder` has the clusters that the range `touches`, each once and in the direction of the
scan, however often and in which order they are listed. -/
theorem scanOrder_spec (ids : List ClusterId) (direction : ScanDirection) (range : RidRange) :
    (∀ id, id ∈ scanOrder ids direction range ↔ id ∈ ids ∧ range.touches id = true) ∧
    (scanOrder ids direction range).Pairwise (visits direction) := by
  let ordered := sortDistinct Ord.compare (ids.filter range.touches)
  have htotal : TotalOn (Ord.compare : Nat → Nat → Ordering) fun _ => True := .ofOrd
  have hmem (id : ClusterId) : id ∈ ordered ↔ id ∈ ids ∧ range.touches id = true := by
    rw [← List.mem_filter]
    exact mem_sortDistinct (fun _ => Nat.compare_eq_eq.mpr rfl)
      fun _ _ _ _ => Nat.compare_eq_eq.mp
  have hstrict : ordered.Pairwise fun a b => a < b :=
    (sortDistinct_strict htotal fun _ _ => trivial).imp Nat.compare_eq_lt.mp
  cases direction with
  | ascending => exact ⟨hmem, hstrict⟩
  | descending =>
      exact ⟨fun id => List.mem_reverse.trans (hmem id), List.pairwise_reverse.mpr hstrict⟩

section

variable {store : Store} {ids : List ClusterId} {direction : ScanDirection} {range : RidRange}
  {items : List ScanItem}

/-- A range that `contains` a record `touches` its cluster, so no record within the range is left
out with its cluster. -/
theorem touches_of_contains {rid : Rid} (hrange : range.contains rid = true) :
    range.touches rid.cluster = true := by
  -- identities are compared by their clusters first
  have hcluster {a b : Rid} (hle : a.le b = true) : a.cluster ≤ b.cluster := by
    unfold Rid.le Rid.compare at hle
    by_contra hlt
    rw [Nat.compare_eq_gt.mpr (Nat.lt_of_not_le hlt)] at hle
    cases hle
  obtain ⟨hlow, hhigh⟩ : range.lowest.all (fun low => low.le rid) = true ∧
      range.highest.all (fun high => rid.le high) = true := by
    simpa [RidRange.contains] using hrange
  unfold RidRange.touches
  rw [Bool.and_eq_true]
  refine ⟨?_, ?_⟩
  · cases hlowest : range.lowest with
    | none => rfl
    | some low =>
        rw [hlowest] at hlow
        simpa using hcluster hlow
  · cases hhighest : range.highest with
    | none => rfl
    | some high =>
        rw [hhighest] at hhigh
        simpa using hcluster hhigh

/-- The inversion of `scanClusters`: a scan that begins shows the records of the clusters in its
`scanOrder`. -/
theorem scanClusters_ok (hok : store.scanClusters ids direction range = .ok items) :
    items = (scanOrder ids direction range).flatMap fun id =>
      store.shown id (store.recordsOf direction range id) := by
  unfold scanClusters at hok
  cases hparts : (scanOrder ids direction range).mapM fun id =>
      store.scanCluster id direction range with
  | error failure =>
      rw [hparts] at hok
      cases hok
  | ok parts =>
      rw [hparts] at hok
      cases hok
      -- each of the clusters was scanned, and each scan shows the records of its cluster
      have hshown : List.Forall₂ (fun id part =>
          store.shown id (store.recordsOf direction range id) = part)
          (scanOrder ids direction range) parts :=
        (Steps.forall₂_of_mapM hparts).imp fun id part hpart => (scanCluster_ok hpart).symm
      have heq := List.forall₂_map_left_iff.mpr hshown
      rw [List.forall₂_eq_eq_eq] at heq
      rw [List.flatMap_def, heq]

/-- The `scannedRecords` are some of those to give, in the same order, whether a scan fails or
not. -/
theorem scanned_sublist (hok : store.scanClusters ids direction range = .ok items) :
    (scannedRecords items).Sublist (store.recordsIn ids direction range) := by
  obtain rfl := scanClusters_ok hok
  unfold scannedRecords recordsIn
  rw [List.filterMap_flatMap]
  induction scanOrder ids direction range with
  | nil => exact .slnil
  | cons id order ih => exact (scannedRecords_shown _).append ih

/-- They are all of them where no scan of a visited cluster fails, which is `ScansWhole`. -/
theorem scanned_whole (hok : store.scanClusters ids direction range = .ok items)
    (hwhole : store.ScansWhole ids range) :
    items = (store.recordsIn ids direction range).map .ok := by
  obtain rfl := scanClusters_ok hok
  rw [recordsIn, List.map_flatMap]
  refine List.flatMap_congr fun id hid => shown_of_ne ?_ _
  obtain ⟨hmem, htouches⟩ := ((scanOrder_spec ids direction range).1 id).mp hid
  exact hwhole id hmem htouches

variable (h : store.Sound)

include h

/-- `recordsIn` some clusters are their live records within the range, and nothing else. -/
theorem Sound.mem_recordsIn {r : Record} : r ∈ store.recordsIn ids direction range ↔
    store.Live r ∧ r.rid.cluster ∈ ids ∧ range.contains r.rid = true := by
  unfold recordsIn
  rw [List.mem_flatMap]
  constructor
  · rintro ⟨id, hid, hr⟩
    obtain ⟨hlive, rfl, hrange⟩ := h.mem_recordsOf.mp hr
    exact ⟨hlive, (((scanOrder_spec ids direction range).1 _).mp hid).1, hrange⟩
  · rintro ⟨hlive, hcluster, hrange⟩
    exact ⟨r.rid.cluster, ((scanOrder_spec ids direction range).1 _).mpr
      ⟨hcluster, touches_of_contains hrange⟩, h.mem_recordsOf.mpr ⟨hlive, rfl, hrange⟩⟩

/-- `recordsIn` are in the order of their identities (`follows`), across clusters too. -/
theorem Sound.recordsIn_ordered :
    (store.recordsIn ids direction range).Pairwise fun r s => follows direction r.rid s.rid := by
  refine List.pairwise_flatMap.mpr ⟨fun id _ => h.recordsOf_ordered, ?_⟩
  refine (scanOrder_spec ids direction range).2.imp fun hvisits r hr s hs => ?_
  -- records of an earlier cluster come before those of a later one
  obtain ⟨-, rfl, -⟩ := h.mem_recordsOf.mp hr
  obtain ⟨-, rfl, -⟩ := h.mem_recordsOf.mp hs
  exact follows_of_visits hvisits

/-- A scanned record is live and within the range, and its cluster is one of those scanned,
`ids`. -/
theorem Sound.mem_of_scanned (hok : store.scanClusters ids direction range = .ok items)
    {r : Record} (hr : .ok r ∈ items) :
    store.Live r ∧ r.rid.cluster ∈ ids ∧ range.contains r.rid = true :=
  h.mem_recordsIn.mp ((scanned_sublist hok).subset (mem_scannedRecords.mpr hr))

/-- A scan breaks off at the visited cluster whose scans fail. There is at most one such cluster,
and `htouches` says that the scan visits it. -/
theorem Sound.breaksOff (hok : store.scanClusters ids direction range = .ok items)
    {id : ClusterId} (hid : id ∈ ids) (htouches : range.touches id = true)
    (hfailing : store.failingCluster = some id) :
    BreaksOff direction id (store.recordsIn ids direction range) items := by
  obtain rfl := scanClusters_ok hok
  obtain ⟨hmem, hvisits⟩ := scanOrder_spec ids direction range
  unfold recordsIn
  -- the cluster is visited once, the others before or after it
  obtain ⟨before, behind, horder⟩ := List.append_of_mem ((hmem id).mpr ⟨hid, htouches⟩)
  rw [horder] at hvisits ⊢
  obtain ⟨-, hbehind, hbefore⟩ := List.pairwise_append.mp hvisits
  have hbefore : ∀ other ∈ before, visits direction other id := fun other hother =>
    hbefore other hother id List.mem_cons_self
  have hbehind : ∀ other ∈ behind, visits direction id other := (List.pairwise_cons.mp hbehind).1
  have hirrefl : ¬visits direction id id := by
    cases direction <;> exact Nat.lt_irrefl id
  have hwhole (others : List ClusterId) (hne : id ∉ others) :
      (others.flatMap fun other => store.shown other (store.recordsOf direction range other)) =
        (others.flatMap (store.recordsOf direction range)).map .ok := by
    rw [List.map_flatMap]
    refine List.flatMap_congr fun other hother => shown_of_ne ?_ _
    rw [hfailing]
    rintro ⟨⟩
    exact hne hother
  refine ⟨before.flatMap (store.recordsOf direction range), store.recordsOf direction range id,
    behind.flatMap (store.recordsOf direction range), by simp, fun r hr => ?_,
    fun r hr => (h.mem_recordsOf.mp hr).2.1, fun r hr => ?_, ?_⟩
  · obtain ⟨other, hother, hr⟩ := List.mem_flatMap.mp hr
    exact (h.mem_recordsOf.mp hr).2.1 ▸ hbefore other hother
  · obtain ⟨other, hother, hr⟩ := List.mem_flatMap.mp hr
    exact (h.mem_recordsOf.mp hr).2.1 ▸ hbehind other hother
  · rw [List.flatMap_append, List.flatMap_cons,
      hwhole before fun hmem => hirrefl (hbefore id hmem),
      hwhole behind fun hmem => hirrefl (hbehind id hmem)]
    simp [shown, hfailing]

omit h in
/-- Every scanned item is a record, as long as no scan fails (`hnone`). -/
theorem record_of_scanned (hok : store.scanClusters ids direction range = .ok items)
    (hnone : store.failingCluster = none) : ∀ item ∈ items, ∃ r, item = .ok r := by
  rw [scanned_whole hok fun id _ _ => by simp [hnone]]
  simp

/-- The `scannedRecords` come in the order of their identities, whether a scan fails or not. -/
theorem Sound.scan_rids (hok : store.scanClusters ids direction range = .ok items) :
    (scannedRecords items).Pairwise fun r s => follows direction r.rid s.rid :=
  h.recordsIn_ordered.sublist (scanned_sublist hok)

/-- No record is scanned twice, as `follows` is a strict order of identities. -/
theorem Sound.scan_nodup (hok : store.scanClusters ids direction range = .ok items) :
    ((scannedRecords items).map (·.rid)).Nodup := by
  refine List.pairwise_map.mpr ((h.scan_rids hok).imp fun {r s} hfollows heq => ?_)
  have hself : s.rid.compare s.rid = .eq := Rid.compare_eq_iff.mpr rfl
  cases direction <;> simp [follows, heq, hself] at hfollows

/-- A scan of clusters that exist (`hids`) begins. Whether it fails later is not asked. -/
theorem Sound.exists_scanned (hids : ∀ id ∈ ids, ∃ c ∈ store.clusters, c.id = id)
    (direction : ScanDirection) (range : RidRange) :
    ∃ items, store.scanClusters ids direction range = .ok items := by
  have heach : ∀ id ∈ scanOrder ids direction range,
      ∃ part, store.scanCluster id direction range = .ok part := fun id hid =>
    h.exists_scannedCluster (hids id (((scanOrder_spec ids direction range).1 id).mp hid).1)
      direction range
  obtain ⟨parts, hparts⟩ := Steps.mapM_ok heach
  refine ⟨parts.flatten, ?_⟩
  unfold scanClusters
  rw [hparts]
  rfl

/-- `Store.count` adds up the numbers of the records of clusters that exist, with repeats if a
cluster is listed twice. -/
theorem Sound.count_eq (hids : ∀ id ∈ ids, ∃ c ∈ store.clusters, c.id = id)
    (direction : ScanDirection) :
    store.count ids = .ok (ids.map fun id => (store.recordsOf direction .all id).length).sum := by
  -- on the clusters, with what was counted before them
  have hcount (start : Nat) : ids.foldlM
      (fun total id => (store.clusterCount id).map (total + ·)) start =
        .ok (start + (ids.map fun id => (store.recordsOf direction .all id).length).sum) := by
    induction ids generalizing start with
    | nil => rfl
    | cons id ids ih =>
        obtain ⟨c, hc, hcid⟩ := hids id List.mem_cons_self
        have hcluster := h.cluster?_eq_some_iff.mpr ⟨hc, hcid⟩
        have hlength : (store.recordsOf direction .all id).length = c.records.length := by
          have hall : c.records.filter (fun r => RidRange.all.contains r.rid) = c.records :=
            List.filter_eq_self.mpr fun _ _ => rfl
          unfold recordsOf
          rw [hcluster]
          cases direction <;> simp [hall]
        rw [List.foldlM_cons, clusterCount, hcluster]
        show List.foldlM _ (start + c.records.length) ids = _
        rw [ih fun id hid => hids id (List.mem_cons_of_mem _ hid), List.map_cons, List.sum_cons,
          hlength, Nat.add_assoc]
  rw [count, hcount, Nat.zero_add]

/-- Counting some clusters, each of them once (`hnodup`), gives the number of records that a scan of
them is to give. A count does not fail where a scan would. -/
theorem Sound.count_recordsIn (hids : ∀ id ∈ ids, ∃ c ∈ store.clusters, c.id = id)
    (hnodup : ids.Nodup) (direction : ScanDirection) :
    store.count ids = .ok (store.recordsIn ids direction .all).length := by
  obtain ⟨hmem, hvisits⟩ := scanOrder_spec ids direction .all
  have honce : (scanOrder ids direction .all).Nodup := by
    refine hvisits.imp fun {a b} hvisits heq => ?_
    subst heq
    cases direction <;> exact Nat.lt_irrefl a hvisits
  have hperm : (scanOrder ids direction .all).Perm ids :=
    (List.perm_ext_iff_of_nodup honce hnodup).mpr fun id =>
      (hmem id).trans (and_iff_left rfl)
  rw [h.count_eq hids direction, recordsIn, List.length_flatMap, (hperm.map _).sum_nat]

/-- Every live record of the clusters within the range is scanned, as long as no scan fails
(`hnone`). -/
theorem Sound.scanned_of_live (hok : store.scanClusters ids direction range = .ok items)
    (hnone : store.failingCluster = none) {r : Record} (hr : store.Live r)
    (hcluster : r.rid.cluster ∈ ids) (hrange : range.contains r.rid = true) : .ok r ∈ items := by
  rw [scanned_whole hok fun id _ _ => by simp [hnone]]
  exact List.mem_map_of_mem (h.mem_recordsIn.mpr ⟨hr, hcluster, hrange⟩)

end

end Store

end RecordQuery
