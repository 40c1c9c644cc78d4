import RecordQuery.Proofs.RowOrder

/-!
# `RecordQuery.Proofs.ScanHints`: a scan within the bounds of a filter

A filter that compares `@rid` with identities bounds the scan that serves it, `Condition.ridRange`:
whole clusters are passed over, and in the others the records outside the bounds. No record is lost
by it on which the filter is true, and the records come in the order of their identities, so that
ORDER BY `@rid` needs no sort.

The scan of a cluster can be switched to failing. It then breaks off with a failure after some
records, `Store.BreaksOff`, so it gives all records only where no cluster that it visits fails,
`Store.ScansWhole`. What a filter keeps is stated under that hypothesis; the bounds and the order
are not.

The store is any one that accesses lead to, `Store.ofAccesses`: changes, failed ones among them, and
direct writes to indexes.

The theorems:

* `Store.scans_within_bounds`: what a scan gives and what a filter keeps of it, on any store.
* `Store.scan_breakingOff`: of a cluster whose scans are switched to failing a part is missing.
-/

set_option autoImplicit false

namespace RecordQuery

namespace Store

/-- A scan within the bounds of a filter, in the direction of a query: it is in the order of `@rid`,
and has the records that the filter is true on. -/
theorem Sound.scan_within_bounds {store : Store} (h : store.Sound) {query : SelectQuery}
    {condition : Condition} {ids : List ClusterId} {items : List ScanItem}
    (hitems : store.scanClusters ids query.scanDirection condition.ridRange = .ok items) :
    (query.isRidOnlySort = true →
      (scannedRecords items).Pairwise (Precedes query.orderBy store.load)) ∧
    (store.ScansWhole ids condition.ridRange →
      ∀ r scope, store.Live r → r.rid.cluster ∈ ids → condition.evaluate scope r = .ok true →
        .ok r ∈ items) := by
  refine ⟨fun hrid => h.ascends_of_scan hrid hitems, fun hwhole r scope hlive hcluster htrue => ?_⟩
  rw [scanned_whole hitems hwhole]
  exact List.mem_map_of_mem
    (h.mem_recordsIn.mpr ⟨hlive, hcluster, Condition.ridRange_contains htrue⟩)

/-- Whatever a store has met with: the bounds of a filter hold every record on which it is true, and
touch its cluster; a scan of existing clusters gives exactly their live records within its range,
each once and in the order of identities, and breaks off at the cluster whose scans are switched to
failing, `BreaksOff`; so a scan within the bounds of a filter keeps what the filter keeps,
`ScansWhole` provided, in the order of `@rid`. -/
theorem scans_within_bounds (accesses : List Access) :
    (∀ (condition : Condition) (scope : Scope) (record : Record),
      condition.evaluate scope record = .ok true →
      condition.ridRange.contains record.rid = true ∧
        condition.ridRange.touches record.rid.cluster = true) ∧
    (∀ (ids : List ClusterId) (direction : ScanDirection) (range : RidRange),
      (∀ id ∈ ids, id ∈ (ofAccesses accesses).clusterIds) →
      ∃ records items, (ofAccesses accesses).scanClusters ids direction range = .ok items ∧
        (∀ r, r ∈ records ↔ (ofAccesses accesses).Live r ∧ r.rid.cluster ∈ ids ∧
          range.contains r.rid = true) ∧
        records.Pairwise (fun r s => follows direction r.rid s.rid) ∧
        ((ofAccesses accesses).ScansWhole ids range → items = records.map .ok) ∧
        ∀ id ∈ ids, range.touches id = true → (ofAccesses accesses).failingCluster = some id →
          BreaksOff direction id records items) ∧
    ∀ (query : SelectQuery) (condition : Condition) (ids : List ClusterId)
      (items : List ScanItem),
      (ofAccesses accesses).scanClusters ids query.scanDirection condition.ridRange = .ok items →
      (query.isRidOnlySort = true →
        (scannedRecords items).Pairwise (Precedes query.orderBy (ofAccesses accesses).load)) ∧
      ((ofAccesses accesses).ScansWhole ids condition.ridRange →
        ∀ r scope, (ofAccesses accesses).Live r → r.rid.cluster ∈ ids →
          condition.evaluate scope r = .ok true → .ok r ∈ items) := by
  have hsound := sound_ofAccesses accesses
  refine ⟨fun condition scope record htrue => ?_, fun ids direction range hids => ?_,
    fun query condition ids items hitems => hsound.scan_within_bounds hitems⟩
  · -- the bounds of a condition are bounds of what it can be true on
    have hcontains := Condition.ridRange_contains htrue
    exact ⟨hcontains, touches_of_contains hcontains⟩
  · obtain ⟨items, hitems⟩ :=
      hsound.exists_scanned (fun id hid => List.mem_map.mp (hids id hid)) direction range
    exact ⟨(ofAccesses accesses).recordsIn ids direction range, items, hitems,
      fun r => hsound.mem_recordsIn, hsound.recordsIn_ordered, scanned_whole hitems,
      fun id hid htouches hfailing => hsound.breaksOff hitems hid htouches hfailing⟩

/-- Records in two clusters, one of them deleted; scans of the second cluster, the `failingCluster`,
fail. -/
def halfScanned : List Access := [
  .change (.createClass "A" none 2 false),
  .change (.insert "A" [("x", .int 0)]),
  .change (.insert "A" [("x", .int 1)]),
  .change (.insert "A" [("x", .int 2)]),
  .change (.insert "A" [("x", .int 3)]),
  .change (.insert "A" [("x", .int 4)]),
  .change (.delete ⟨1, 0⟩),
  .change (.failCluster (some 2))]

/-- `@rid > #1:0 AND #2:0 > @rid`, a filter with bounds on both sides. -/
def firstCluster : Condition :=
  .and (.compare ⟨.field ⟨ridAttribute, []⟩, .greater, .literal (.link ⟨1, 0⟩)⟩)
    (.compare ⟨.literal (.link ⟨2, 0⟩), .greater, .field ⟨ridAttribute, []⟩⟩)

/-- The records on which the filter `firstCluster` is true, downwards. -/
def downwards : SelectQuery :=
  { SelectQuery.ofTarget (.ofClass "A" true) with
    filter := some firstCluster
    orderBy := [⟨⟨ridAttribute, []⟩, .desc⟩] }

/-- A scan of both clusters breaks off in the second one. A scan of the first one within the
`ridRange` of the filter keeps the record on which the filter is true, and gives its records
downwards. -/
theorem scans_within_firstCluster :
    (∃ records items, (ofAccesses halfScanned).scanClusters [2, 1, 2] .descending .all = .ok items ∧
      BreaksOff .descending 2 records items) ∧
    (firstCluster.ridRange.contains ⟨1, 1⟩ = true ∧ firstCluster.ridRange.touches 1 = true) ∧
    ∃ records : List Record, (ofAccesses halfScanned).scanClusters [1] downwards.scanDirection
        firstCluster.ridRange = .ok (records.map .ok) ∧
      records.Pairwise (Precedes downwards.orderBy (ofAccesses halfScanned).load) ∧
      ⟨⟨1, 1⟩, "A", [("x", .int 2)]⟩ ∈ records := by
  obtain ⟨hbounds, hscans, hkeeps⟩ := scans_within_bounds halfScanned
  have htrue : firstCluster.evaluate ⟨fun _ => none, [], []⟩
      ⟨⟨1, 1⟩, "A", [("x", .int 2)]⟩ = .ok true := by decide +kernel
  have hload : (ofAccesses halfScanned).load ⟨1, 1⟩ = some ⟨⟨1, 1⟩, "A", [("x", .int 2)]⟩ := rfl
  have hlive := ((sound_ofAccesses halfScanned).load_eq_some_iff.mp hload).1
  -- the cluster that fails is not within the bounds
  have hwhole : (ofAccesses halfScanned).ScansWhole [1] firstCluster.ridRange := by
    intro id hid _
    rw [List.mem_singleton.mp hid]
    decide +kernel
  refine ⟨?_, hbounds firstCluster _ _ htrue, ?_⟩
  · obtain ⟨records, items, hitems, -, -, -, hbreaks⟩ :=
      hscans [2, 1, 2] .descending .all (by decide +kernel)
    exact ⟨records, items, hitems, hbreaks 2 (by decide) rfl rfl⟩
  · obtain ⟨records, items, hitems, -, -, hall, -⟩ :=
      hscans [1] downwards.scanDirection firstCluster.ridRange (by decide +kernel)
    obtain rfl := hall hwhole
    obtain ⟨hordered, hkept⟩ := hkeeps downwards firstCluster [1] _ hitems
    refine ⟨records, hitems, ?_, ?_⟩
    · simpa [scannedRecords_map] using hordered rfl
    · simpa using hkept hwhole _ _ hlive (by decide) htrue

/-- A scan of the `failingCluster` of `halfScanned` gives the first of its two records, and a
failure in place of the second. -/
theorem scan_breakingOff :
    (ofAccesses halfScanned).scanClusters [2] .ascending .all =
      .ok [.ok ⟨⟨2, 0⟩, "A", [("x", .int 1)]⟩, .error (.corruption .scanFailed)] ∧
    (ofAccesses halfScanned).load ⟨2, 1⟩ = some ⟨⟨2, 1⟩, "A", [("x", .int 3)]⟩ :=
  ⟨rfl, rfl⟩

end Store

end RecordQuery
