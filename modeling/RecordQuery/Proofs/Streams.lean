import Mathlib.Data.List.Forall2
import Mathlib.Data.List.Perm.Basic
import RecordQuery.Proofs.Steps

/-!
# `RecordQuery.Proofs.Streams`: what pulling takes from a stream

A source is opened to a `Stream`, a tree of scans, lookups, concatenations and merges, and
`Stream.pull` takes one record off it. All streams of a run share one list of identities `seen`, and
a lookup passes over what is in it. So a pull of one part may keep another part from giving a
record.

The invariant is about what a stream still has to give, `Stream.contents`: items of scans,
identities that lookups still look at, and the records that merges hold as heads. A pull is a
`Transfer` from the contents before to the record that comes out and the contents afterwards. A
record of a scan comes once for every time that it is scanned, and the scan does not look at `seen`.
A record of a lookup comes once for the whole run. This difference is the reason for the two lists
in `Moves`.

`Transfer` does not mention order. The order in which a stream gives its records is treated in
`RecordQuery.Proofs.StreamOrder` and `RecordQuery.Proofs.Merging`.

`Stream.pullWithin` has a bound for the depth of the tree. So the specification of a pull is proved
by induction on the bound. `StepSpec step bound` is what the pieces of a pull assume of the pulls of
their inputs, and there is one lemma for each piece (`pullFirst_spec`, `firstHeads_spec`,
`pullLeast_spec` and so on). Two things have to be kept up in addition. A merge has a place for the
head of each input (`Stream.Consistent`), and the depth does not grow.

The theorems:

* `Transfer.trans`, `Transfer.gives`, `Transfer.mem_of_looked`: what follows from transfers.
* `Stream.pull_spec`: every pull is a transfer, and a stream that gives no record is empty.
* `Stream.draw_transfer`: so is any number of pulls, one after the other.
-/

set_option autoImplicit false

namespace RecordQuery

/-! ## Contents

`Stream.contents` forgets the tree of a stream and the order in which it gives its records. What is
left are the three places where a record may be: among scanned items, behind an identity, or held as
the head of a merge. -/

/-- What a stream still has to give, without the order and the tree: the heads a merge has `held`,
the items to be `scanned` and the identities to be `looked` up. -/
structure Contents where
  /-- The records that merges hold. They have been pulled off an input already, so nothing can keep
  them from coming out. -/
  held : List Record
  /-- What scans still give: records, or the failure of a cluster. -/
  scanned : List ScanItem
  /-- The identities that lookups still look at, with repeats. -/
  looked : List Rid

namespace Contents

/-- Nothing. -/
def empty : Contents := ⟨[], [], []⟩

/-- What two streams still have to give, field by field. -/
def append (c d : Contents) : Contents :=
  ⟨c.held ++ d.held, c.scanned ++ d.scanned, c.looked ++ d.looked⟩

/-- `empty` is neutral for `append`. -/
theorem empty_append (c : Contents) : empty.append c = c := rfl

/-- The number of records that some contents give at most. It bounds the rounds of a run, as
`Transfer.weight_le` makes it fall with every record. -/
def weight (c : Contents) : Nat := c.held.length + c.scanned.length + c.looked.length

/-- A record may come out of some contents. It will come out if it is held or scanned; if its
identity is `looked` at, `load` has to find it, and another lookup may have had it before. -/
def Gives (load : Rid → Option Record) (c : Contents) (r : Record) : Prop :=
  r ∈ c.held ∨ .ok r ∈ c.scanned ∨ (r.rid ∈ c.looked ∧ load r.rid = some r)

/-- What `append` may give, one of the two contents may give. -/
theorem gives_append {load : Rid → Option Record} {c d : Contents} {r : Record} :
    (c.append d).Gives load r ↔ c.Gives load r ∨ d.Gives load r := by
  simp only [Gives, append, List.mem_append]
  tauto

end Contents

namespace Stream

mutual

/-- What a stream still has to give. A merge that was not pulled yet (`none`) holds no heads. -/
def contents : Stream → Contents
  | plain records => ⟨[], records.map .ok, []⟩
  | scan items _ => ⟨[], items, []⟩
  | lookup rids => ⟨[], [], rids⟩
  | concat inputs => contentsOfAll inputs
  | merge inputs none _ => contentsOfAll inputs
  | merge inputs (some heads) _ =>
      Contents.append ⟨heads.filterMap (Option.map Head.record), [], []⟩ (contentsOfAll inputs)

/-- What some streams still have to give, their `contents` put together from left to right. -/
def contentsOfAll : List Stream → Contents
  | [] => .empty
  | input :: inputs => (contents input).append (contentsOfAll inputs)

end

mutual

/-- Every merge in the stream has a place for the head of each of its inputs (`HeadFits`), and an
input without a head is empty. So a merge without any head has nothing left. -/
def Consistent : Stream → Prop
  | concat inputs => AllConsistent inputs
  | merge inputs none _ => AllConsistent inputs
  | merge inputs (some heads) _ =>
      AllConsistent inputs ∧
        List.Forall₂ (fun head input => head = none → contents input = .empty) heads inputs
  | _ => True

/-- All of the streams are `Consistent`. -/
def AllConsistent : List Stream → Prop
  | [] => True
  | input :: inputs => Consistent input ∧ AllConsistent inputs

end

end Stream

/-! ## Transfers

The lemmas about `Transfer` without a stream come first. They are the only way in which the later
ones build transfers: three steps for single items, one after the other by `trans`, and beside what
stays by `beside` and `after`. -/

/-- Some contents become others, and some records come out. `fromScan` are the records that leave
scans, `fromLookup` those found by lookups, and `dropped` the identities that a lookup passes over,
because they were seen before or have no record. `records` says that what comes out, or is held
afterwards, was held before, scanned or looked up. -/
structure Moves (load : Rid → Option Record) (before : Contents) (seen : List Rid)
    (out : List Record) (after : Contents) (seenAfter : List Rid)
    (fromScan fromLookup : List Record) (dropped : List Rid) : Prop where
  /-- What comes out or is held was held, scanned or looked up. -/
  records : (out ++ after.held).Perm (before.held ++ fromScan ++ fromLookup)
  /-- The scanned records leave the scans. -/
  scanned : before.scanned.Perm (fromScan.map .ok ++ after.scanned)
  /-- The identities looked at leave the lookups, with a record or without. -/
  looked : before.looked.Perm (fromLookup.map (·.rid) ++ dropped ++ after.looked)
  /-- No record is found twice. -/
  nodup : (fromLookup.map (·.rid)).Nodup
  /-- A record that is found was not seen before. -/
  fresh : ∀ r ∈ fromLookup, r.rid ∉ seen
  /-- A record that is found is the live one of its identity. -/
  live : ∀ r ∈ fromLookup, load r.rid = some r
  /-- What was found or dropped is seen from then on. -/
  noted : ∀ rid ∈ fromLookup.map (·.rid) ++ dropped, rid ∈ seenAfter
  /-- What was seen stays seen. -/
  kept : ∀ rid ∈ seen, rid ∈ seenAfter
  /-- Only what was found or has no record is seen in addition. -/
  added : ∀ rid ∈ seenAfter, rid ∈ seen ∨ load rid = none ∨ ∃ r ∈ fromLookup, r.rid = rid

/-- Some contents become others, and the records `out` come out: `Moves` for some split of them into
scanned and looked up ones. -/
def Transfer (load : Rid → Option Record) (before : Contents) (seen : List Rid)
    (out : List Record) (after : Contents) (seenAfter : List Rid) : Prop :=
  ∃ fromScan fromLookup dropped,
    Moves load before seen out after seenAfter fromScan fromLookup dropped

namespace Transfer

variable {load : Rid → Option Record} {c c' c'' d : Contents} {seen seen' seen'' : List Rid}
  {out out' : List Record}

/-- Nothing happens, so `Transfer` is reflexive. -/
theorem refl (load : Rid → Option Record) (c : Contents) (seen : List Rid) :
    Transfer load c seen [] c seen :=
  ⟨[], [], [], by simp, by simp, by simp, by simp, by simp, by simp, by simp, fun _ h => h,
    fun _ h => .inl h⟩

/-- The first record of a scan comes out, whatever was `seen`. -/
theorem scanned_cons (load : Rid → Option Record) (record : Record) (items : List ScanItem)
    (seen : List Rid) :
    Transfer load ⟨[], .ok record :: items, []⟩ seen [record] ⟨[], items, []⟩ seen :=
  ⟨[record], [], [], .refl _, .refl _, .refl _, .nil, by simp, by simp, by simp, fun _ h => h,
    fun _ h => .inl h⟩

/-- The first identity of a lookup is dropped when it is among the `seen` ones. -/
theorem looked_seen {rid : Rid} (rids : List Rid) (hseen : rid ∈ seen) :
    Transfer load ⟨[], [], rid :: rids⟩ seen [] ⟨[], [], rids⟩ seen :=
  ⟨[], [], [rid], .refl _, .refl _, .refl _, .nil, by simp, by simp, by simpa using hseen,
    fun _ h => h, fun _ h => .inl h⟩

/-- The first identity of a lookup is dropped, and noted, when `load` finds no record for it. -/
theorem looked_dead {rid : Rid} (rids : List Rid) (hdead : load rid = none) :
    Transfer load ⟨[], [], rid :: rids⟩ seen [] ⟨[], [], rids⟩ (rid :: seen) := by
  refine ⟨[], [], [rid], .refl _, .refl _, .refl _, .nil, by simp, by simp, by simp,
    fun other hother => List.mem_cons_of_mem _ hother, fun other hother => ?_⟩
  rcases List.mem_cons.mp hother with rfl | hother
  · exact .inr (.inl hdead)
  · exact .inl hother

/-- The record of the first identity of a lookup comes out when it was not `seen` before, and is
seen from then on. -/
theorem looked_live {r : Record} (rids : List Rid) (hunseen : r.rid ∉ seen)
    (hlive : load r.rid = some r) :
    Transfer load ⟨[], [], r.rid :: rids⟩ seen [r] ⟨[], [], rids⟩ (r.rid :: seen) := by
  refine ⟨[], [r], [], .refl _, .refl _, .refl _, by simp, ?_, ?_, by simp,
    fun other hother => List.mem_cons_of_mem _ hother, fun other hother => ?_⟩
  · exact fun s hs => List.mem_singleton.mp hs ▸ hunseen
  · exact fun s hs => List.mem_singleton.mp hs ▸ hlive
  · rcases List.mem_cons.mp hother with rfl | hother
    · exact .inr (.inr ⟨r, List.mem_singleton_self _, rfl⟩)
    · exact .inl hother

/-- One transfer after the other. What the second one finds was not in `seen'`, which has all that
the first one found, so nothing is found twice. -/
theorem trans (h : Transfer load c seen out c' seen') (h' : Transfer load c' seen' out' c'' seen'') :
    Transfer load c seen (out ++ out') c'' seen'' := by
  obtain ⟨scan, lookup, dropped, h⟩ := h
  obtain ⟨scan', lookup', dropped', h'⟩ := h'
  refine ⟨scan ++ scan', lookup ++ lookup', dropped ++ dropped', ?_⟩
  constructor
  case records =>
    classical
    refine List.perm_iff_count.mpr fun r => ?_
    have hcount := h.records.count_eq r
    have hcount' := h'.records.count_eq r
    simp only [List.count_append] at hcount hcount' ⊢
    omega
  case scanned =>
    rw [List.map_append, List.append_assoc]
    exact h.scanned.trans (h'.scanned.append_left _)
  case looked =>
    refine List.perm_iff_count.mpr fun rid => ?_
    have hcount := h.looked.count_eq rid
    have hcount' := h'.looked.count_eq rid
    simp only [List.map_append, List.count_append] at hcount hcount' ⊢
    omega
  case nodup =>
    -- what the second transfer looks up is new to it, and the first one has noted what it took
    rw [List.map_append, List.nodup_append]
    refine ⟨h.nodup, h'.nodup, ?_⟩
    rintro x hx y hy rfl
    obtain ⟨r', hr', hrx⟩ := List.mem_map.mp hy
    exact h'.fresh r' hr' (hrx ▸ h.noted x (List.mem_append_left _ hx))
  case fresh =>
    intro r hr
    rcases List.mem_append.mp hr with hr | hr
    · exact h.fresh r hr
    · exact fun hseen => h'.fresh r hr (h.kept _ hseen)
  case live =>
    intro r hr
    rcases List.mem_append.mp hr with hr | hr
    · exact h.live r hr
    · exact h'.live r hr
  case noted =>
    intro rid hrid
    have hrid : rid ∈ lookup.map (·.rid) ++ dropped ∨ rid ∈ lookup'.map (·.rid) ++ dropped' := by
      simp only [List.map_append, List.mem_append] at hrid ⊢
      tauto
    exact hrid.elim (fun hrid => h'.kept _ (h.noted rid hrid)) (h'.noted rid)
  case kept =>
    exact fun rid hrid => h'.kept rid (h.kept rid hrid)
  case added =>
    intro rid hrid
    rcases h'.added rid hrid with hrid | hnone | ⟨r, hr, hrrid⟩
    · rcases h.added rid hrid with hrid | hnone | ⟨r, hr, hrrid⟩
      · exact .inl hrid
      · exact .inr (.inl hnone)
      · exact .inr (.inr ⟨r, List.mem_append_left _ hr, hrrid⟩)
    · exact .inr (.inl hnone)
    · exact .inr (.inr ⟨r, List.mem_append_right _ hr, hrrid⟩)

/-- A transfer of the same records between other contents, if what is held, scanned and looked at
changes by the same elements. `beside` and `after` are made from it, and a transfer of an input
becomes one of the stream around it. -/
theorem of_perm (h : Transfer load c seen out c' seen') {d d' : Contents}
    (hheld : (d'.held ++ c.held).Perm (d.held ++ c'.held))
    (hscanned : (d'.scanned ++ c.scanned).Perm (d.scanned ++ c'.scanned))
    (hlooked : (d'.looked ++ c.looked).Perm (d.looked ++ c'.looked)) :
    Transfer load d seen out d' seen' := by
  classical
  obtain ⟨scan, lookup, dropped, h⟩ := h
  -- a transfer says how often each record, item and identity occurs, so counting decides
  refine ⟨scan, lookup, dropped, { h with
    records := ?records
    scanned := ?scanned
    looked := ?looked }⟩
  case records =>
    refine List.perm_iff_count.mpr fun r => ?_
    have hcount := h.records.count_eq r
    have hcount' := hheld.count_eq r
    simp only [List.count_append] at hcount hcount' ⊢
    omega
  case scanned =>
    refine List.perm_iff_count.mpr fun item => ?_
    have hcount := h.scanned.count_eq item
    have hcount' := hscanned.count_eq item
    simp only [List.count_append] at hcount hcount' ⊢
    omega
  case looked =>
    refine List.perm_iff_count.mpr fun rid => ?_
    have hcount := h.looked.count_eq rid
    have hcount' := hlooked.count_eq rid
    simp only [List.count_append] at hcount hcount' ⊢
    omega

/-- A transfer happens also beside other contents `d`, which it leaves alone. -/
theorem beside (h : Transfer load c seen out c' seen') (d : Contents) :
    Transfer load (c.append d) seen out (c'.append d) seen' := by
  classical
  refine h.of_perm ?_ ?_ ?_ <;>
  · refine List.perm_iff_count.mpr fun x => ?_
    simp only [Contents.append, List.count_append]
    omega

/-- A transfer happens also behind other contents `d`. -/
theorem after (h : Transfer load c seen out c' seen') (d : Contents) :
    Transfer load (d.append c) seen out (d.append c') seen' := by
  refine h.of_perm ?_ ?_ ?_ <;>
  · simp only [Contents.append, List.append_assoc]
    exact (List.perm_append_comm ..).append_left _

/-- Every record that comes out takes one from the `weight` at least. -/
theorem weight_le (h : Transfer load c seen out c' seen') :
    out.length + c'.weight ≤ c.weight := by
  obtain ⟨scan, lookup, dropped, h⟩ := h
  have hrecords := h.records.length_eq
  have hscanned := h.scanned.length_eq
  have hlooked := h.looked.length_eq
  simp only [List.length_append, List.length_map] at hrecords hscanned hlooked
  simp only [Contents.weight]
  omega

/-- What comes out, or may still come out, may have come out before. So no pull makes a record up,
and `Gives` goes back along any number of pulls. -/
theorem gives (h : Transfer load c seen out c' seen') {r : Record}
    (hr : r ∈ out ∨ c'.Gives load r) : c.Gives load r := by
  obtain ⟨scan, lookup, dropped, h⟩ := h
  have hlooked : ∀ rid ∈ c'.looked, rid ∈ c.looked := fun rid hrid =>
    h.looked.mem_iff.mpr (List.mem_append_right _ hrid)
  have hscanned : ∀ item ∈ c'.scanned, item ∈ c.scanned := fun item hitem =>
    h.scanned.mem_iff.mpr (List.mem_append_right _ hitem)
  rcases hr with hr | hr | hr | ⟨hr, hload⟩
  case inr.inr.inl => exact .inr (.inl (hscanned _ hr))
  case inr.inr.inr => exact .inr (.inr ⟨hlooked _ hr, hload⟩)
  all_goals
    have hr : r ∈ c.held ++ scan ++ lookup := h.records.mem_iff.mp (by simp [hr])
    rcases List.mem_append.mp hr with hr | hr
    · rcases List.mem_append.mp hr with hr | hr
      · exact .inl hr
      · exact .inr (.inl (h.scanned.mem_iff.mpr (by simp [hr])))
    · exact .inr (.inr ⟨h.looked.mem_iff.mpr (by simpa using .inl ⟨r, hr, rfl⟩), h.live r hr⟩)

/-- Once nothing is left (`.empty`), every scanned item has come out as a record. -/
theorem mem_of_scanned (h : Transfer load c seen out .empty seen') {item : ScanItem}
    (hitem : item ∈ c.scanned) : ∃ r ∈ out, item = .ok r := by
  obtain ⟨scan, lookup, dropped, h⟩ := h
  obtain ⟨r, hr, rfl⟩ := List.mem_map.mp (by simpa [Contents.empty] using h.scanned.mem_iff.mp hitem)
  exact ⟨r, by simpa [Contents.empty] using h.records.mem_iff.mpr (by simp [hr]), rfl⟩

/-- Once nothing is left, the record of every identity looked at has come out, unless it was in
`seen` before the transfer. -/
theorem mem_of_looked (h : Transfer load c seen out .empty seen') {rid : Rid} {r : Record}
    (hrid : rid ∈ c.looked) (hload : load rid = some r) (hunseen : rid ∉ seen) : r ∈ out := by
  obtain ⟨scan, lookup, dropped, h⟩ := h
  have hnoted := h.noted rid (by simpa [Contents.empty] using h.looked.mem_iff.mp hrid)
  rcases h.added rid hnoted with hseen | hnone | ⟨s, hs, rfl⟩
  · exact absurd hseen hunseen
  · rw [hload] at hnone
    cases hnone
  · obtain rfl : s = r := Option.some.inj ((h.live s hs).symm.trans hload)
    simpa [Contents.empty] using h.records.mem_iff.mpr (by simp [hs])

end Transfer

/-! ## Pulls

The lemmas go from the inside to the outside: the inputs of a concatenation and of a merge, the
least head, the identities of a lookup, and then `Stream.pullWithin_spec`, which is the induction on
the depth. -/

namespace Stream

open Steps

section

variable (load : Rid → Option Record)

/-- What a pull of a stream does. It fails at a failure that is scanned. Otherwise it is a
`Transfer` of at most one record and leaves a `Consistent` stream that is not deeper, and an empty
one if it gives no record. -/
def PullSpec (s : Stream) (seen : List Rid) :
    Except Failure (Option Record × Stream) × PullState → Prop
  | (.error failure, _) => .error failure ∈ (contents s).scanned
  | (.ok (record, rest), after) =>
      Transfer load (contents s) seen record.toList (contents rest) after.seen ∧
        Consistent rest ∧ depth rest ≤ depth s ∧ (record = none → contents rest = .empty)

/-- The step does what a pull does, for consistent streams up to the depth `bound`. The inputs of a
stream are pulled by such a step. -/
def StepSpec (step : PullStep) (bound : Nat) : Prop :=
  ∀ (s : Stream) (state : PullState), Consistent s → depth s ≤ bound →
    PullSpec load s state.seen ((step s).run.run state)

variable {load} {step : PullStep} {bound : Nat} {order : List OrderItem}

/-- `pullFirst` takes the next record of the first input that has one, as a concatenation does. The
inputs before it give no record, so they are empty. -/
theorem pullFirst_spec (hstep : StepSpec load step bound) {inputs : List Stream}
    (state : PullState) (hconsistent : AllConsistent inputs)
    (hdepth : depthOfAll inputs ≤ bound) :
    match (pullFirst step inputs).run.run state with
    | (.error failure, _) => .error failure ∈ (contentsOfAll inputs).scanned
    | (.ok (record, rest), after) =>
        Transfer load (contentsOfAll inputs) state.seen record.toList (contentsOfAll rest)
          after.seen ∧
        AllConsistent rest ∧ depthOfAll rest ≤ depthOfAll inputs ∧
        (record = none → contentsOfAll rest = .empty) := by
  induction inputs generalizing state with
  | nil => exact ⟨.refl load _ _, trivial, Nat.le_refl _, fun _ => rfl⟩
  | cons input inputs ih =>
      rw [depthOfAll] at hdepth
      have hinput := hstep input state hconsistent.1 (by omega)
      simp only [pullFirst, run_bind]
      rcases hrun : (step input).run.run state with ⟨failure | ⟨record, rest⟩, mid⟩
      · rw [hrun] at hinput
        exact List.mem_append_left _ hinput
      · rw [hrun] at hinput
        obtain ⟨htransfer, hrest, hless, hempty⟩ := hinput
        cases record with
        | some record =>
            refine ⟨htransfer.beside _, ⟨hrest, hconsistent.2⟩, ?_, by simp⟩
            simp only [depthOfAll]
            omega
        -- an input without a next record is left out, so the others do all there is to do
        | none =>
            have hothers := ih mid hconsistent.2 (by omega)
            dsimp only
            -- the exhausted input has nothing left that its own pull did not transfer
            have hfirst := htransfer.beside (contentsOfAll inputs)
            rw [hempty rfl, Contents.empty_append] at hfirst
            rcases hrun' : (pullFirst step inputs).run.run mid with
              ⟨failure | ⟨record, others⟩, after⟩
            · rw [hrun'] at hothers
              exact List.mem_append_right _ hothers
            · rw [hrun'] at hothers
              obtain ⟨htransfer', hothers, hless', hempty'⟩ := hothers
              refine ⟨hfirst.trans htransfer', hothers, ?_, hempty'⟩
              simp only [depthOfAll]
              omega

/-- `nextHead` takes the next head of an input: the record is not given yet, but held. -/
theorem nextHead_spec (hstep : StepSpec load step bound) {input : Stream} (state : PullState)
    (hconsistent : Consistent input) (hdepth : depth input ≤ bound) :
    match (nextHead step order load input).run.run state with
    | (.error failure, _) => .error failure ∈ (contents input).scanned
    | (.ok (head, rest), after) =>
        Transfer load (contents input) state.seen (head.map Head.record).toList (contents rest)
          after.seen ∧
        Consistent rest ∧ depth rest ≤ depth input ∧ (head = none → contents rest = .empty) := by
  have hinput := hstep input state hconsistent hdepth
  simp only [nextHead, run_bind]
  rcases hrun : (step input).run.run state with ⟨failure | ⟨record, rest⟩, after⟩
  · rw [hrun] at hinput
    exact hinput
  · rw [hrun] at hinput
    obtain ⟨htransfer, hrest, hless, hempty⟩ := hinput
    cases record with
    | none => exact ⟨htransfer, hrest, hless, fun _ => hempty rfl⟩
    | some record => exact ⟨htransfer, hrest, hless, by simp⟩

/-- An input without a head is empty, as `Stream.Consistent` has it. -/
abbrev HeadFits (head : Option Head) (input : Stream) : Prop :=
  head = none → contents input = .empty

/-- `firstHeads` takes the first heads of all inputs, from left to right. A failure of one of them
fails the merge. -/
theorem firstHeads_spec (hstep : StepSpec load step bound) {inputs : List Stream}
    (state : PullState) (hconsistent : AllConsistent inputs)
    (hdepth : depthOfAll inputs ≤ bound) :
    match (firstHeads step order load inputs).run.run state with
    | (.error failure, _) => .error failure ∈ (contentsOfAll inputs).scanned
    | (.ok (heads, rest), after) =>
        Transfer load (contentsOfAll inputs) state.seen
          (heads.filterMap (Option.map Head.record)) (contentsOfAll rest) after.seen ∧
        AllConsistent rest ∧ depthOfAll rest ≤ depthOfAll inputs ∧
        List.Forall₂ HeadFits heads rest := by
  induction inputs generalizing state with
  | nil => exact ⟨.refl load _ _, trivial, Nat.le_refl _, .nil⟩
  | cons input inputs ih =>
      rw [depthOfAll] at hdepth
      have hinput := @nextHead_spec load step bound order hstep _ state hconsistent.1 (by omega)
      simp only [firstHeads, run_bind]
      rcases hrun : (nextHead step order load input).run.run state with
        ⟨failure | ⟨head, rest⟩, mid⟩
      · rw [hrun] at hinput
        exact List.mem_append_left _ hinput
      · rw [hrun] at hinput
        obtain ⟨htransfer, hrest, hless, hempty⟩ := hinput
        have hothers := ih mid hconsistent.2 (by omega)
        dsimp only
        rcases hrun' : (firstHeads step order load inputs).run.run mid with
          ⟨failure | ⟨heads, others⟩, after⟩
        · rw [hrun'] at hothers
          exact List.mem_append_right _ hothers
        · rw [hrun'] at hothers
          obtain ⟨htransfer', hothers, hless', hfits⟩ := hothers
          refine ⟨?_, ⟨hrest, hothers⟩, ?_, .cons hempty hfits⟩
          · -- the two transfers touch different inputs, so they join
            have hboth := (htransfer.beside (contentsOfAll inputs)).trans
              (htransfer'.after (contents rest))
            cases head <;> exact hboth
          · simp only [depthOfAll]
            omega

/-- `refill` takes the next head of the input at `place`, from which the least head was taken. -/
theorem refill_spec (hstep : StepSpec load step bound) {inputs : List Stream} {place : Nat}
    {heads : List (Option Head)} (state : PullState) (hconsistent : AllConsistent inputs)
    (hdepth : depthOfAll inputs ≤ bound) (hfits : List.Forall₂ HeadFits heads inputs)
    (hplace : place < heads.length) :
    match (refill step order load place inputs).run.run state with
    | (.error failure, _) => .error failure ∈ (contentsOfAll inputs).scanned
    | (.ok (head, rest), after) =>
        Transfer load (contentsOfAll inputs) state.seen (head.map Head.record).toList
          (contentsOfAll rest) after.seen ∧
        AllConsistent rest ∧ depthOfAll rest ≤ depthOfAll inputs ∧
        List.Forall₂ HeadFits (heads.set place head) rest := by
  induction hfits generalizing place state with
  | nil => simp at hplace
  | @cons first input heads inputs hfirst hfits ih =>
      rw [depthOfAll] at hdepth
      -- only the input at the place is pulled; the others stay as they are
      cases place with
      | zero =>
          have hinput := @nextHead_spec load step bound order hstep _ state hconsistent.1 (by omega)
          simp only [refill, run_bind]
          rcases hrun : (nextHead step order load input).run.run state with
            ⟨failure | ⟨head, rest⟩, after⟩
          · rw [hrun] at hinput
            exact List.mem_append_left _ hinput
          · rw [hrun] at hinput
            obtain ⟨htransfer, hrest, hless, hempty⟩ := hinput
            refine ⟨htransfer.beside _, ⟨hrest, hconsistent.2⟩, ?_, .cons hempty hfits⟩
            simp only [depthOfAll]
            omega
      | succ place =>
          have hothers := ih state hconsistent.2 (by omega) (by simpa using hplace)
          simp only [refill, run_bind]
          rcases hrun : (refill step order load place inputs).run.run state with
            ⟨failure | ⟨head, rest⟩, after⟩
          · rw [hrun] at hothers
            exact List.mem_append_right _ hothers
          · rw [hrun] at hothers
            obtain ⟨htransfer, hrest, hless, hfits'⟩ := hothers
            refine ⟨htransfer.after _, ⟨hconsistent.1, hrest⟩, ?_, .cons hfirst hfits'⟩
            simp only [depthOfAll]
            omega

/-- One step of `leastHead`: a head takes the place of the best one so far if it is smaller or there
is none yet. So of equal heads the one of the earlier input stays. -/
theorem leastHead_cons_some (order : List OrderItem) (place : Nat) (best : Option (Nat × Head))
    (first : Head) (heads : List (Option Head)) :
    (leastHead order place best (some first :: heads) =
        leastHead order (place + 1) (some (place, first)) heads ∧
      ∀ b, best = some b → compareKeys order first.key b.2.key = .lt) ∨
    ∃ b, best = some b ∧ compareKeys order first.key b.2.key ≠ .lt ∧
      leastHead order place best (some first :: heads) =
        leastHead order (place + 1) best heads := by
  cases best with
  | none => exact .inl ⟨rfl, nofun⟩
  | some best =>
      -- equal keys leave the earlier head in place: that is what makes the merge stable
      by_cases hless : compareKeys order first.key best.2.key = .lt
      · refine .inl ⟨by simp [leastHead, hless], fun b hb => ?_⟩
        obtain rfl := Option.some.inj hb
        exact hless
      · have hkeeps : (compareKeys order first.key best.2.key).isLT = false := by
          rw [Bool.eq_false_iff]
          exact fun h => hless (Ordering.isLT_iff_eq_lt.mp h)
        exact .inr ⟨best, rfl, hless, by simp [leastHead, hkeeps]⟩

/-- `leastHead` gives one of the heads with its place. It gives nothing if there is no head at
all. -/
theorem leastHead_cases (order : List OrderItem) (place : Nat) (best : Option (Nat × Head))
    (heads : List (Option Head)) :
    match leastHead order place best heads with
    | none => best = none ∧ ∀ head ∈ heads, head = none
    | some (i, head) =>
        best = some (i, head) ∨ ∃ j, i = place + j ∧ heads[j]? = some (some head) := by
  induction heads generalizing place best with
  | nil => cases best <;> simp [leastHead]
  | cons first heads ih =>
      cases first with
      | none =>
          have hrest := ih (place + 1) best
          rw [leastHead]
          rcases hleast : leastHead order (place + 1) best heads with _ | ⟨i, head⟩
          · rw [hleast] at hrest
            simpa using hrest
          · rw [hleast] at hrest
            rcases hrest with hbest | ⟨j, hi, hj⟩
            · exact .inl hbest
            · exact .inr ⟨j + 1, by omega, hj⟩
      | some first =>
          -- the first head takes the place of the best one, or the best one stays
          obtain ⟨next, hnext, hchoice⟩ : ∃ next,
              leastHead order place best (some first :: heads) =
                leastHead order (place + 1) next heads ∧
              (next = some (place, first) ∨ next = best ∧ best ≠ none) := by
            rcases leastHead_cons_some order place best first heads with
              ⟨hnext, -⟩ | ⟨b, rfl, -, hnext⟩
            · exact ⟨_, hnext, .inl rfl⟩
            · exact ⟨_, hnext, .inr ⟨rfl, by simp⟩⟩
          have hrest := ih (place + 1) next
          rw [hnext]
          rcases hleast : leastHead order (place + 1) next heads with _ | ⟨i, head⟩
          · rw [hleast] at hrest
            rcases hchoice with rfl | ⟨rfl, hbest⟩
            · simp at hrest
            · exact absurd hrest.1 hbest
          · rw [hleast] at hrest
            rcases hrest with hbest | ⟨j, hi, hj⟩
            · rcases hchoice with rfl | ⟨rfl, -⟩
              · simp only [Option.some.injEq, Prod.mk.injEq] at hbest
                exact .inr ⟨0, by omega, by simp [hbest.2]⟩
              · exact .inl hbest
            · exact .inr ⟨j + 1, by omega, hj⟩

/-- The head that `leastHead` answers stands at the place that it answers. -/
theorem getElem?_leastHead {order : List OrderItem} {heads : List (Option Head)} {place : Nat}
    {head : Head} (hleast : leastHead order 0 none heads = some (place, head)) :
    heads[place]? = some (some head) := by
  have hcases := leastHead_cases order 0 none heads
  rw [hleast] at hcases
  obtain ⟨j, hj, hhead⟩ := hcases.resolve_left (by simp)
  rw [hj, Nat.zero_add]
  exact hhead

/-- Without heads (`hnone`) the inputs of a merge are empty, so a merge that gives no record has
nothing left. -/
theorem contentsOfAll_of_no_heads {heads : List (Option Head)} {inputs : List Stream}
    (hfits : List.Forall₂ HeadFits heads inputs) (hnone : ∀ head ∈ heads, head = none) :
    heads.filterMap (Option.map Head.record) = [] ∧ contentsOfAll inputs = .empty := by
  induction hfits with
  | nil => exact ⟨rfl, rfl⟩
  | @cons head input heads inputs hfirst _ ih =>
      have hhead := hnone head (List.mem_cons_self ..)
      obtain ⟨hheads, hinputs⟩ := ih fun other hother => hnone other (List.mem_cons_of_mem _ hother)
      subst hhead
      refine ⟨hheads, ?_⟩
      rw [contentsOfAll, hfirst rfl, hinputs]
      rfl

/-- Taking a head off a merge and putting `next` in its place, as a rearrangement of the records
held. -/
theorem heads_set_perm {heads : List (Option Head)} {place : Nat} {head : Head}
    (hhead : heads[place]? = some (some head)) (next : Option Head) :
    (head.record :: (heads.set place next).filterMap (Option.map Head.record)).Perm
      ((next.map Head.record).toList ++ heads.filterMap (Option.map Head.record)) := by
  induction heads generalizing place with
  | nil => simp at hhead
  | cons first heads ih =>
      cases place with
      | zero =>
          have hfirst : first = some head := by simpa using hhead
          subst hfirst
          cases next with
          | none => exact .refl _
          | some next => exact .swap next.record head.record _
      | succ place =>
          have hrest := @ih place (by simpa using hhead)
          cases first with
          | none => exact hrest
          | some first =>
              -- the record taken moves past the head in front, and the next one to where it was
              refine (List.Perm.swap first.record head.record _).trans ?_
              exact (hrest.cons first.record).trans List.perm_middle.symm

/-- `Pull.time` leaves what was `seen` as it is. -/
theorem time_run (timer : Timer) (timed : Bool) (state : PullState) :
    ∃ after, (Pull.time timer timed).run.run state = (.ok ⟨⟩, after) ∧
      after.seen = state.seen := by
  refine ⟨_, rfl, ?_⟩
  split <;> rfl

/-- `pullLeast` takes the least head of a merge: the record comes out, and the next head of its
input takes its place. -/
theorem pullLeast_spec (hstep : StepSpec load step bound) {inputs : List Stream}
    {heads : List (Option Head)} (timed : Bool) (state : PullState)
    (hconsistent : AllConsistent inputs) (hdepth : depthOfAll inputs ≤ bound)
    (hfits : List.Forall₂ HeadFits heads inputs) :
    PullSpec load (merge inputs (some heads) timed) state.seen
      ((pullLeast step order load inputs heads timed).run.run state) := by
  unfold pullLeast
  split
  next hnone =>
    have hleast := leastHead_cases order 0 none heads
    rw [hnone] at hleast
    -- no head is left, and an input without a head is empty
    obtain ⟨hheads, hinputs⟩ := contentsOfAll_of_no_heads hfits hleast.2
    obtain ⟨after, htime, hseen⟩ := time_run .merge timed state
    rw [run_bind, htime]
    show PullSpec load _ state.seen (.ok (none, merge inputs (some heads) false), after)
    refine ⟨?_, ⟨hconsistent, hfits⟩, Nat.le_refl _, fun _ => ?_⟩
    · rw [hseen]
      exact .refl load _ _
    · rw [contents, hheads, hinputs]
      rfl
  next place head hsome =>
    have hhead := getElem?_leastHead hsome
    have hplace : place < heads.length := (List.getElem?_eq_some_iff.mp hhead).1
    have hrefill := @refill_spec load step bound order hstep _ _ _ state hconsistent hdepth hfits
      hplace
    rw [run_bind]
    rcases hrun : (refill step order load place inputs).run.run state with
      ⟨failure | ⟨next, rest⟩, after⟩
    · rw [hrun] at hrefill
      exact List.mem_append_right _ hrefill
    · rw [hrun] at hrefill
      obtain ⟨htransfer, hrest, hless, hfits'⟩ := hrefill
      refine ⟨?_, ⟨hrest, hfits'⟩, Nat.succ_le_succ hless, by simp⟩
      -- the record comes from the heads, and what the refill takes from the inputs replaces it
      -- there
      have hheads := heads_set_perm hhead next
      obtain ⟨scan, lookup, dropped, hmoves⟩ :=
        htransfer.after ⟨heads.filterMap (Option.map Head.record), [], []⟩
      refine ⟨scan, lookup, dropped, { hmoves with records := ?_ }⟩
      refine List.Perm.trans ?_ hmoves.records
      simp only [contents, Contents.append, Option.toList_some]
      rw [← List.append_assoc, ← List.append_assoc]
      exact hheads.append_right _

/-- The first pull of a merge takes a head off every input (`firstHeads`) before it takes the least
of them (`pullLeast`). -/
theorem startMerge_spec (hstep : StepSpec load step bound) {inputs : List Stream} (timed : Bool)
    (state : PullState) (hconsistent : AllConsistent inputs) (hdepth : depthOfAll inputs ≤ bound) :
    PullSpec load (merge inputs none timed) state.seen ((do
      let (heads, rest) ← firstHeads step order load inputs
      pullLeast step order load rest heads timed : Pull (Option Record × Stream)).run.run
        state) := by
  have hheads := @firstHeads_spec load step bound order hstep inputs state hconsistent hdepth
  rw [run_bind]
  rcases hrun : (firstHeads step order load inputs).run.run state with
    ⟨failure | ⟨heads, rest⟩, mid⟩
  · rw [hrun] at hheads
    exact hheads
  · rw [hrun] at hheads
    obtain ⟨htransfer, hrest, hless, hfits⟩ := hheads
    dsimp only
    have hleast := @pullLeast_spec load step bound order hstep rest heads timed mid hrest
      (by omega) hfits
    -- the first heads are held from now on
    have hhold : Transfer load (contentsOfAll inputs) state.seen []
        (contents (merge rest (some heads) timed)) mid.seen := by
      obtain ⟨scan, lookup, dropped, hmoves⟩ := htransfer
      exact ⟨scan, lookup, dropped, { hmoves with }⟩
    rcases hrun' : (pullLeast step order load rest heads timed).run.run mid with
      ⟨failure | ⟨record, after⟩, last⟩
    · rw [hrun'] at hleast
      obtain ⟨scan, lookup, dropped, hmoves⟩ := hhold
      exact hmoves.scanned.mem_iff.mpr (List.mem_append_right _ hleast)
    · rw [hrun'] at hleast
      obtain ⟨htransfer', hafter, hless', hempty⟩ := hleast
      refine ⟨hhold.trans htransfer', hafter, ?_, hempty⟩
      simp only [depth] at hless' ⊢
      omega

/-- A lookup looks for the next identity that was not seen and has a record. `hload`: the record
found has the identity looked for. -/
theorem nextUnseen_spec (hload : ∀ rid r, load rid = some r → r.rid = rid) (rids : List Rid)
    (seen : List Rid) :
    Transfer load ⟨[], [], rids⟩ seen (nextUnseen load seen rids).1.toList
      ⟨[], [], (nextUnseen load seen rids).2.1⟩ (nextUnseen load seen rids).2.2 ∧
    ((nextUnseen load seen rids).1 = none → (nextUnseen load seen rids).2.1 = []) := by
  induction rids generalizing seen with
  | nil => exact ⟨.refl load _ _, fun _ => rfl⟩
  | cons rid rids ih =>
      simp only [nextUnseen]
      -- an identity is skipped when it was seen or when nothing is stored under it
      split
      next hseen =>
        obtain ⟨htransfer, hnone⟩ := ih seen
        exact ⟨(Transfer.looked_seen rids (List.contains_iff_mem.mp hseen)).trans htransfer, hnone⟩
      next hunseen =>
        have hunseen : rid ∉ seen := fun h => hunseen (List.contains_iff_mem.mpr h)
        split
        next record hrecord =>
          obtain rfl := hload _ _ hrecord
          exact ⟨Transfer.looked_live rids hunseen hrecord, by simp⟩
        next hdead =>
          obtain ⟨htransfer, hnone⟩ := ih (rid :: seen)
          exact ⟨(Transfer.looked_dead rids hdead).trans htransfer, hnone⟩

end

/-- Every pull with enough depth does what `PullSpec` says. The induction is on the bound, and the
cases are those of the stream. -/
theorem pullWithin_spec {load : Rid → Option Record}
    (hload : ∀ rid r, load rid = some r → r.rid = rid) (order : List OrderItem) (bound : Nat) :
    StepSpec load (pullWithin order load bound) bound := by
  -- the inputs of a stream are less deep than it is, so the induction is on the depth
  induction bound with
  | zero =>
      intro s state _ hdepth
      cases s <;> simp [depth] at hdepth
  | succ bound ih =>
      intro s state hconsistent hdepth
      match s with
      | plain [] => exact ⟨.refl load _ _, trivial, Nat.le_refl _, fun _ => rfl⟩
      | plain (record :: records) =>
          exact ⟨.scanned_cons load record (records.map .ok) state.seen, trivial, Nat.le_refl _,
            by simp⟩
      | scan [] timed =>
          obtain ⟨after, htime, hseen⟩ := time_run .scan timed state
          simp only [pullWithin]
          rw [run_bind, htime]
          show PullSpec load _ state.seen (.ok (none, scan [] false), after)
          refine ⟨?_, trivial, Nat.le_refl _, fun _ => rfl⟩
          rw [hseen]
          exact .refl load _ _
      | scan (.ok record :: items) timed =>
          exact ⟨.scanned_cons load record items state.seen, trivial, Nat.le_refl _, by simp⟩
      | scan (.error failure :: items) timed => exact List.mem_cons_self ..
      | lookup rids =>
          obtain ⟨htransfer, hnone⟩ := nextUnseen_spec hload rids state.seen
          refine ⟨htransfer, trivial, Nat.le_refl _, fun h => ?_⟩
          simp only [contents, hnone h]
          rfl
      | concat inputs =>
          simp only [depth] at hdepth
          have hfirst := pullFirst_spec ih state hconsistent (by omega)
          simp only [pullWithin, run_bind]
          rcases hrun : (pullFirst (pullWithin order load bound) inputs).run.run state with
            ⟨failure | ⟨record, rest⟩, after⟩
          · rw [hrun] at hfirst
            exact hfirst
          · rw [hrun] at hfirst
            obtain ⟨htransfer, hrest, hless, hempty⟩ := hfirst
            exact ⟨htransfer, hrest, Nat.succ_le_succ hless, hempty⟩
      | merge inputs (some heads) timed =>
          simp only [depth] at hdepth
          exact pullLeast_spec ih timed state hconsistent.1 (by omega) hconsistent.2
      | merge inputs none timed =>
          simp only [depth] at hdepth
          exact startMerge_spec ih timed state hconsistent (by omega)

/-- Every pull of a consistent stream is a transfer, and a stream that gives no record is empty.
`Stream.pull` bounds the depth by that of the stream itself, so the bound is always large enough. -/
theorem pull_spec {load : Rid → Option Record}
    (hload : ∀ rid r, load rid = some r → r.rid = rid) (order : List OrderItem) {s : Stream}
    (hconsistent : Consistent s) (state : PullState) :
    PullSpec load s state.seen ((pull order load s).run.run state) :=
  pullWithin_spec hload order s.depth s state hconsistent (Nat.le_refl _)

/-! ## Draws

A loop pulls until it has enough or the stream ends. `Stream.Draws` is the list of what it has
pulled, and all that later modules know of a sequence of pulls. -/

/-- The records that come off a stream, one pull after the other, with the stream and the identities
seen at the end. The times that pulls note are left out, so every pull starts with a `PullState`
without any. -/
inductive Draws (order : List OrderItem) (load : Rid → Option Record) :
    Stream → List Rid → List Record → Stream → List Rid → Prop
  | nil (s : Stream) (seen : List Rid) : Draws order load s seen [] s seen
  | cons {s next last : Stream} {seen lastSeen : List Rid} {after : PullState} {r : Record}
      {out : List Record}
      (hpull : (pull order load s).run.run ⟨seen, []⟩ = (.ok (some r, next), after))
      (hrest : Draws order load next after.seen out last lastSeen) :
      Draws order load s seen (r :: out) last lastSeen

variable {order : List OrderItem} {load : Rid → Option Record} {s t : Stream}
  {seen seen' : List Rid} {out : List Record}

/-- Any number of pulls is a `Transfer`, and it leaves the stream `Consistent`. The induction is on
`Draws`, pull by pull. -/
theorem draw_transfer (hload : ∀ rid r, load rid = some r → r.rid = rid)
    (hconsistent : Consistent s) (h : Draws order load s seen out t seen') :
    Transfer load (contents s) seen out (contents t) seen' ∧ Consistent t := by
  induction h with
  | nil s seen => exact ⟨.refl load _ _, hconsistent⟩
  | @cons s next last seen lastSeen after r out hpull _ ih =>
      have hspec := pull_spec hload order hconsistent ⟨seen, []⟩
      rw [hpull] at hspec
      obtain ⟨htransfer, hnext, -, -⟩ := hspec
      obtain ⟨hrest, hlast⟩ := ih hnext
      exact ⟨htransfer.trans hrest, hlast⟩

end Stream

end RecordQuery
