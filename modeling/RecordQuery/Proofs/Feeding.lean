import RecordQuery.Proofs.Columns
import RecordQuery.Proofs.ExactRecords
import RecordQuery.Proofs.SerialRun

/-!
# `RecordQuery.Proofs.Feeding`: what a pipeline makes of the records it is fed

SKIP and LIMIT are applied in five places: while records stream to the sink, when a sort buffer is
cut back, at the end of a pipeline, and where records are only counted. All of them give the same
page of one sequence, the rows that the query has without either, `PipelineSetup.allRows`.

`Fed` is the invariant of a pipeline. It says, for the records `items` that it was fed, what each of
its parts holds: `delivered` and `skipped` count while rows stream, `grouping` is the one that
gathers `items`, and `buffer` stands for all that was kept. The last is the difficult part, as a
sort buffer that is full is sorted and cut back to `keep?` records. `Buffered` says what it still
stands for: however the input goes on, the first records of the sorted buffer are those of all that
was kept. That is why `Buffered` speaks of `later` records. It holds where ORDER BY is total on the
keys, `TotalOn`, because a stable sort may be cut back only then.

A loop feeds its pipeline until it has enough. `drawItems` is the loop without the pipeline: what it
would hand over if nothing ended it. So `serialLoop_feeds` splits those records into the ones
`taken` and the `others`, and says that the `others` are none or the limit is reached.

The theorems:

* `Buffered.add`, `Buffered.cut`: a sort buffer that is cut back stands for all that was kept.
* `Accepted.fed`, `finish_fed`: what a pipeline has done with the records it was fed, and what it
  delivers of their rows.
* `serialLoop_feeds`: a loop feeds its pipeline until enough rows were delivered.
-/

set_option autoImplicit false

namespace RecordQuery

open Steps

/-! ## Pages

Two lists of rows have the same page when they agree as far as the page reaches, so a buffer may
lose what lies beyond. -/

/-- Rows that agree as far as a page can reach, `limit` and the rows skipped, have the same page.
The sort buffer keeps one more than that. -/
theorem page_eq_of_take {query : SelectQuery} {limit : Nat} (hlimit : query.limitCount? = some limit)
    {rows others : List Row}
    (h : rows.take (limit + 1 + query.skipCount) = others.take (limit + 1 + query.skipCount)) :
    Pipeline.page query rows = Pipeline.page query others := by
  have hreach (rows : List Row) : Pipeline.page query rows =
      ((rows.take (limit + 1 + query.skipCount)).drop query.skipCount).take limit := by
    have hmin : min limit (limit + 1 + query.skipCount - query.skipCount) = limit := by omega
    unfold Pipeline.page
    rw [hlimit, List.drop_take, List.take_take, hmin]
  rw [hreach rows, hreach others, h]

/-- The first `count` rows of lists with one row each are those of the first lists, which is why a
buffer that is expanded or unwound is never cut back. -/
theorem take_flatMap {α : Type} {rowsOf : α → List Row} (count : Nat) {xs : List α}
    (h : ∀ x ∈ xs, ∃ row, rowsOf x = [row]) :
    (xs.flatMap rowsOf).take count = (xs.take count).flatMap rowsOf := by
  induction xs generalizing count with
  | nil => simp
  | cons x xs ih =>
      obtain ⟨row, hrow⟩ := h x List.mem_cons_self
      cases count with
      | zero => rfl
      | succ count =>
          rw [List.flatMap_cons, hrow, List.take_succ_cons, List.flatMap_cons, hrow,
            ← ih count fun y hy => h y (List.mem_cons_of_mem _ hy)]
          rfl

/-! ## The sort buffer

A sort buffer that is cut back has fewer records than were kept, and still has the same page.
`Buffered` is the reason: it compares the first `keep?` records of both, sorted, for every way in
which the input may go on. -/

section

variable {env : Env} {setup : PipelineSetup} {evaluator : Evaluator} {p : Pending → Prop}

/-- The buffer stands for all records that were kept: it holds them, or, where it is cut back to
`keep?`, gives the same first records however it goes on. -/
def Buffered (setup : PipelineSetup) (p : Pending → Prop) (buffer kept : List Pending) : Prop :=
  match setup.keep? with
  | none => buffer = kept
  | some count => (∀ x ∈ buffer, p x) ∧ ∀ later : List Pending, (∀ x ∈ later, p x) →
      (Pipeline.sortPending setup.query.orderBy (buffer ++ later)).take count =
        (Pipeline.sortPending setup.query.orderBy (kept ++ later)).take count

/-- An empty buffer is `Buffered` for nothing kept. -/
theorem Buffered.nil : Buffered setup p [] [] := by
  unfold Buffered
  cases setup.keep? with
  | none => rfl
  | some count => exact ⟨by simp, fun _ _ => rfl⟩

/-- One more record at the end of both. It is one of the `later` records that `Buffered` speaks
of. -/
theorem Buffered.add {buffer kept : List Pending} (h : Buffered setup p buffer kept)
    {pending : Pending} (hpending : setup.keep?.isSome = true → p pending) :
    Buffered setup p (buffer ++ [pending]) (kept ++ [pending]) := by
  unfold Buffered at h ⊢
  cases hkeep : setup.keep? with
  | none =>
      rw [hkeep] at h
      dsimp only at h ⊢
      rw [h]
  | some count =>
      rw [hkeep] at h
      have hpending := hpending (by simp [hkeep])
      refine ⟨fun x hx => ?_, fun later hlater => ?_⟩
      · rcases List.mem_append.mp hx with hx | hx
        · exact h.1 x hx
        · obtain rfl := List.mem_singleton.mp hx
          exact hpending
      · rw [List.append_assoc, List.append_assoc]
        exact h.2 (pending :: later) (List.forall_mem_cons.mpr ⟨hpending, hlater⟩)

/-- A buffer that is cut back stands for as much as before. The first `count` of a stable sort
depend on the first `count` of what came before only. -/
theorem Buffered.cut
    (htotal : TotalOn (fun a b : Pending => compareKeys setup.query.orderBy a.key b.key) p)
    {buffer kept : List Pending} (h : Buffered setup p buffer kept) {count : Nat}
    (hkeep : setup.keep? = some count) :
    Buffered setup p ((Pipeline.sortPending setup.query.orderBy buffer).take count) kept := by
  unfold Buffered at h ⊢
  rw [hkeep] at h ⊢
  obtain ⟨hp, hfirst⟩ := h
  refine ⟨fun x hx => hp x ?_, fun later hlater => ?_⟩
  · exact (stableSort_perm _ _).mem_iff.mp (List.mem_of_mem_take hx)
  · rw [← hfirst later hlater]
    exact take_stableSortBy htotal 4 count hp hlater

/-- Extending the buffer keeps it standing for all that was kept: `PipelineSetup.extend` adds the
record, and cuts the buffer back when it is full. -/
theorem Buffered.extend
    (htotal : TotalOn (fun a b : Pending => compareKeys setup.query.orderBy a.key b.key) p)
    {buffer kept : List Pending} (h : Buffered setup p buffer.reverse kept) {pending : Pending}
    (hpending : setup.keep?.isSome = true → p pending) :
    Buffered setup p (setup.extend buffer pending).reverse (kept ++ [pending]) := by
  have hadded : Buffered setup p (pending :: buffer).reverse (kept ++ [pending]) := by
    rw [List.reverse_cons]
    exact h.add hpending
  unfold PipelineSetup.extend
  cases hkeep : setup.keep? with
  | none => exact hadded
  | some count =>
      dsimp only
      split
      · rw [List.reverse_reverse]
        exact hadded.cut htotal hkeep
      · exact hadded

/-- Where the buffer is cut back, the rows are sorted, and none is expanded or unwound: there is a
LIMIT, and `count` is the number of rows up to it and one more. -/
theorem keep?_eq_some {count : Nat} (h : setup.keep? = some count) :
    ∃ limit, setup.query.limitCount? = some limit ∧ count = limit + 1 + setup.query.skipCount ∧
      setup.sorts = true ∧ setup.query.expand = none ∧ setup.query.unwind = [] := by
  unfold PipelineSetup.keep? at h
  split at h
  next limit hlimit =>
    split at h
    next hcuts =>
      cases h
      simp only [PipelineSetup.reshapes, Bool.and_eq_true, Bool.not_eq_true', Bool.or_eq_false_iff,
        Option.isSome_eq_false_iff, Option.isNone_iff_eq_none, Bool.not_eq_false',
        List.isEmpty_iff] at hcuts
      exact ⟨limit, hlimit, rfl, hcuts.1.1, hcuts.2.1, hcuts.2.2⟩
    · cases h
  · cases h

/-- The page of what is kept can be read off the buffer, cut back or not. `hsingle` says that each
kept record makes one row. -/
theorem Buffered.page {load : Rid → Option Record}
    (hsingle : ∀ x, p x → ∃ row, Pending.rows load x = [row]) {buffer kept : List Pending}
    (h : Buffered setup p buffer kept) (hkept : setup.keep?.isSome = true → ∀ x ∈ kept, p x) :
    Pipeline.page setup.query
        (unwindRows setup.query.unwind ((setup.ordered buffer).flatMap (Pending.rows load))) =
      Pipeline.page setup.query
        (unwindRows setup.query.unwind ((setup.ordered kept).flatMap (Pending.rows load))) := by
  unfold Buffered at h
  cases hkeep : setup.keep? with
  | none =>
      rw [hkeep] at h
      dsimp only at h
      rw [h]
  | some count =>
      rw [hkeep] at h
      obtain ⟨hp, hfirst⟩ := h
      obtain ⟨limit, hlimit, rfl, hsorts, -, hunwind⟩ := keep?_eq_some hkeep
      have hkept := hkept (by simp [hkeep])
      have hrow (xs : List Pending) (hxs : ∀ x ∈ xs, p x) :
          ∀ x ∈ Pipeline.sortPending setup.query.orderBy xs, ∃ row, Pending.rows load x = [row] :=
        fun x hx => hsingle x (hxs x ((stableSort_perm _ _).mem_iff.mp hx))
      -- the page reads the first rows only, and these are the same after a cut
      have hsame := hfirst [] (by simp)
      rw [List.append_nil, List.append_nil] at hsame
      refine page_eq_of_take hlimit ?_
      rw [hunwind]
      unfold PipelineSetup.ordered
      rw [if_pos hsorts, if_pos hsorts]
      show List.take _ (List.flatMap _ _) = List.take _ (List.flatMap _ _)
      rw [take_flatMap _ (hrow _ hp), take_flatMap _ (hrow _ hkept), hsame]

/-! ## The pipeline

`Fed` has one lemma for each way of accepting a record: `Fed.skip` and `Fed.deliver` while rows
stream, `Fed.gather` for groups, `Fed.keep` for the sort buffer. `Accepted.fed` is the case split
over them. -/

/-- The groups of accepted records, from `Grouping.accept` of one after the other. -/
def PipelineSetup.gathered (setup : PipelineSetup) (evaluator : Evaluator)
    (items : List WorkItem) : Grouping :=
  items.foldl (fun grouping item =>
    grouping.accept setup.query (evaluator.scope item.lets) item.record) .empty

/-- The rows that accepted records make, before SKIP and LIMIT: those of their groups, or those of
the `ordered` records. This is the sequence that all pages are pages of. -/
def PipelineSetup.allRows (setup : PipelineSetup) (env : Env) (evaluator : Evaluator)
    (items : List WorkItem) : List Row :=
  unwindRows setup.query.unwind
    (if setup.query.isGrouping then setup.groupedRows (setup.gathered evaluator items)
      else (setup.ordered (items.map (setup.kept env evaluator))).flatMap
        (Pending.rows env.store.load))

/-- A pipeline that `streams` has one row for every accepted record, in the order in which they
come. -/
theorem allRows_of_streams (hstreams : setup.streams = true) (items : List WorkItem) :
    setup.allRows env evaluator items = items.map (setup.row evaluator) := by
  simp only [PipelineSetup.streams, PipelineSetup.reshapes, Bool.and_eq_true, Bool.not_eq_true',
    Bool.or_eq_false_iff, Option.isSome_eq_false_iff, Option.isNone_iff_eq_none,
    Bool.not_eq_false', List.isEmpty_iff] at hstreams
  obtain ⟨⟨hsorts, hgrouping⟩, hexpand, hunwind⟩ := hstreams
  have hrows (item : WorkItem) :
      Pending.rows env.store.load (setup.kept env evaluator item) = [setup.row evaluator item] := by
    unfold PipelineSetup.kept
    rw [hexpand]
    rfl
  unfold PipelineSetup.allRows PipelineSetup.ordered
  rw [hunwind, if_neg (by simp [hgrouping]), if_neg (by simp [hsorts]), List.flatMap_map,
    funext hrows, ← List.map_eq_flatMap]
  rfl

/-- What a pipeline has done with the records `items` that it was fed, and with the rows that it has
delivered. The three ways of a pipeline, streaming, grouping and keeping, have fields of their
own. -/
structure Fed (env : Env) (setup : PipelineSetup) (evaluator : Evaluator) (p : Pending → Prop)
    (items : List WorkItem) (pipeline : Pipeline) (rows : List Row) : Prop where
  /-- While streaming, the rows behind those skipped are delivered; otherwise none is. -/
  delivered : pipeline.delivered =
    if setup.streams then items.length - setup.query.skipCount else 0
  /-- The rows delivered are those of the records behind those skipped. -/
  rows : rows =
    if setup.streams then (items.drop setup.query.skipCount).map (setup.row evaluator) else []
  /-- While streaming, records are skipped first. -/
  skipped : setup.streams = true → pipeline.skipped = min items.length setup.query.skipCount
  /-- Records are gathered into groups. -/
  grouping : setup.query.isGrouping = true → pipeline.grouping = setup.gathered evaluator items
  /-- Records are kept in the buffer. -/
  buffer : setup.streams = false → setup.query.isGrouping = false →
    Buffered setup p pipeline.buffer.reverse (items.map (setup.kept env evaluator))

/-- A pipeline starts `Fed` with nothing. -/
theorem fed_start : Fed env setup evaluator p [] .start [] where
  delivered := by split <;> simp [Pipeline.start]
  rows := by split <;> simp
  skipped _ := by simp [Pipeline.start]
  grouping _ := rfl
  buffer _ _ := .nil

section

variable {items : List WorkItem} {pipeline : Pipeline} {rows : List Row} (item : WorkItem)
  (hfed : Fed env setup evaluator p items pipeline rows)

include hfed

/-- A record is skipped while streaming, as fewer than `skipCount` are skipped so far. -/
theorem Fed.skip (hstreams : setup.streams = true)
    (hskip : pipeline.skipped < setup.query.skipCount) :
    Fed env setup evaluator p (items ++ [item])
      { pipeline with skipped := pipeline.skipped + 1 } rows := by
  have hskipped := hfed.skipped hstreams
  -- with this record there are still no more than are to be skipped, so nothing is delivered
  have hshort : items.length + 1 ≤ setup.query.skipCount := by omega
  have hnot := isGrouping_of_streams hstreams
  have hdelivered := hfed.delivered
  have hrows := hfed.rows
  rw [if_pos hstreams] at hdelivered hrows
  constructor
  · rw [if_pos hstreams, List.length_append, List.length_singleton, Nat.sub_eq_zero_of_le hshort]
    show pipeline.delivered = 0
    omega
  · rw [if_pos hstreams, hrows, List.drop_eq_nil_of_le (by omega), List.drop_eq_nil_of_le]
    simpa using hshort
  · intro _
    show pipeline.skipped + 1 = _
    rw [List.length_append, List.length_singleton]
    omega
  · intro hgroups
    simp [hnot] at hgroups
  · intro hnone
    simp [hstreams] at hnone

/-- The row of a record is delivered while streaming, once `skipCount` records are skipped. -/
theorem Fed.deliver (hstreams : setup.streams = true)
    (hskip : ¬pipeline.skipped < setup.query.skipCount) (hinted : Bool) {after : List Row}
    (hafter : after = rows ++ [setup.row evaluator item]) :
    Fed env setup evaluator p (items ++ [item])
      { pipeline with delivered := pipeline.delivered + 1, hinted } after := by
  have hskipped := hfed.skipped hstreams
  -- all that is to be skipped has been, so the row is the next one of the page
  have hlong : setup.query.skipCount ≤ items.length := by omega
  have hnot := isGrouping_of_streams hstreams
  have hdelivered := hfed.delivered
  have hbefore := hfed.rows
  rw [if_pos hstreams] at hdelivered hbefore
  constructor
  · rw [if_pos hstreams, List.length_append, List.length_singleton]
    show pipeline.delivered + 1 = _
    omega
  · rw [if_pos hstreams, hafter, hbefore, List.drop_append_of_le_length hlong, List.map_append]
    rfl
  · intro _
    show pipeline.skipped = _
    rw [List.length_append, List.length_singleton]
    omega
  · intro hgroups
    simp [hnot] at hgroups
  · intro hnone
    simp [hstreams] at hnone

/-- A record is gathered into its group: `gathered` of one more item. -/
theorem Fed.gather (hgroups : setup.query.isGrouping = true) (hstreams : setup.streams = false) :
    Fed env setup evaluator p (items ++ [item])
      { pipeline with
        grouping := pipeline.grouping.accept setup.query (evaluator.scope item.lets) item.record }
      rows := by
  have hdelivered := hfed.delivered
  have hrows := hfed.rows
  rw [if_neg (by simp [hstreams])] at hdelivered hrows
  constructor
  · rwa [if_neg (by simp [hstreams])]
  · rwa [if_neg (by simp [hstreams])]
  · intro hnone
    simp [hstreams] at hnone
  · intro _
    show pipeline.grouping.accept _ _ _ = _
    rw [hfed.grouping hgroups, PipelineSetup.gathered, PipelineSetup.gathered, List.foldl_append]
    rfl
  · intro _ hnone
    simp [hgroups] at hnone

/-- A record is kept: the buffer is `extend`ed, and stays `Buffered`. -/
theorem Fed.keep
    (htotal : TotalOn (fun a b : Pending => compareKeys setup.query.orderBy a.key b.key) p)
    (hgroups : setup.query.isGrouping = false) (hstreams : setup.streams = false)
    (hitem : setup.keep?.isSome = true → p (setup.kept env evaluator item)) :
    Fed env setup evaluator p (items ++ [item])
      { pipeline with buffer := setup.extend pipeline.buffer (setup.kept env evaluator item) }
      rows := by
  have hdelivered := hfed.delivered
  have hrows := hfed.rows
  rw [if_neg (by simp [hstreams])] at hdelivered hrows
  constructor
  · rwa [if_neg (by simp [hstreams])]
  · rwa [if_neg (by simp [hstreams])]
  · intro hnone
    simp [hstreams] at hnone
  · intro hnone
    simp [hgroups] at hnone
  · intro _ _
    rw [List.map_append]
    exact (hfed.buffer hstreams hgroups).extend htotal hitem

/-- A pipeline wants records as long as none is delivered: a pipeline that does not stream delivers
only at the end, and a LIMIT is positive (`hlimit`). -/
theorem Fed.wantsMore (hlimit : setup.query.limitCount?.all (0 < ·) = true)
    (hnone : setup.streams = false ∨ items.length ≤ setup.query.skipCount) :
    setup.query.limitCount?.all (pipeline.delivered < ·) = true := by
  have hdelivered : pipeline.delivered = 0 := by
    rw [hfed.delivered]
    split
    next hstreams =>
      have hshort := hnone.resolve_left (by simp [hstreams])
      omega
    · rfl
  rw [hdelivered]
  exact hlimit

end

/-- One more record that is `Accepted` keeps the pipeline `Fed`, in a run that nothing ends early.
It wants more until the limit is reached. -/
theorem Accepted.fed
    (htotal : TotalOn (fun a b : Pending => compareKeys setup.query.orderBy a.key b.key) p)
    (hlimit : setup.query.limitCount?.all (0 < ·) = true) {items : List WorkItem}
    {item : WorkItem} {pipeline next : Pipeline} {run after : Run} {more : Bool}
    (h : Accepted env setup evaluator item pipeline run more next after) (hidle : run.Idle env)
    (hfed : Fed env setup evaluator p items pipeline run.rows)
    (hitem : setup.keep?.isSome = true → p (setup.kept env evaluator item)) :
    more = setup.query.limitCount?.all (next.delivered < ·) ∧
      Fed env setup evaluator p (items ++ [item]) next after.rows := by
  -- only a row that is delivered counts for the limit
  cases h with
  | gathered hgroups =>
      have hstreams : setup.streams = false := by simp [PipelineSetup.streams, hgroups]
      have hnext := hfed.gather item hgroups hstreams
      exact ⟨(hnext.wantsMore hlimit (.inl hstreams)).symm, hnext⟩
  | skipped hstreams hskip =>
      have hskipped := hfed.skipped hstreams
      exact ⟨(hfed.wantsMore hlimit (.inr (by omega))).symm, hfed.skip item hstreams hskip⟩
  | delivered hstreams hskip hcalls =>
      refine ⟨?_, hfed.deliver item hstreams hskip _ (Run.rows_of_push hcalls)⟩
      rw [hidle.wantsMore, Bool.true_and]
  | kept hgroups hstreams hkeeps =>
      have hnext := hfed.keep item htotal hgroups hstreams hitem
      exact ⟨(hnext.wantsMore hlimit (.inl hstreams)).symm, hkeeps.rows ▸ hnext⟩

/-- The page of `rowsAtEnd` of a pipeline that does not stream is that of `allRows`. -/
theorem Fed.page_atEnd (hsingle : ∀ x, p x → ∃ row, Pending.rows env.store.load x = [row])
    {items : List WorkItem} {pipeline : Pipeline} {rows : List Row}
    (hfed : Fed env setup evaluator p items pipeline rows) (hstreams : setup.streams = false)
    (hitems : setup.keep?.isSome = true → ∀ item ∈ items, p (setup.kept env evaluator item)) :
    Pipeline.page setup.query (setup.rowsAtEnd env pipeline) =
      Pipeline.page setup.query (setup.allRows env evaluator items) := by
  unfold PipelineSetup.rowsAtEnd PipelineSetup.allRows
  cases hgroups : setup.query.isGrouping with
  | true =>
      rw [hfed.grouping hgroups]
      rfl
  | false =>
      refine (hfed.buffer hstreams hgroups).page hsingle fun hcuts x hx => ?_
      obtain ⟨item, hitem, rfl⟩ := List.mem_map.mp hx
      exact hitems hcuts item hitem

/-- A pipeline that was fed some records, all there are or as many as the limit allows, has
delivered the page of all rows in the end. `hends` says so: there are no `others`, or the limit is
reached. -/
theorem finish_fed (hsingle : ∀ x, p x → ∃ row, Pending.rows env.store.load x = [row])
    {items others : List WorkItem} {pipeline : Pipeline} {run : Run} (hidle : run.Idle env)
    (hfed : Fed env setup evaluator p items pipeline run.rows)
    (hitems : setup.keep?.isSome = true → ∀ item ∈ items, p (setup.kept env evaluator item))
    (hmost : setup.query.limitCount?.all (pipeline.delivered ≤ ·) = true)
    (hends : others = [] ∨ setup.query.limitCount? = some pipeline.delivered)
    (hlimit : setup.query.limitCount?.all (0 < ·) = true) :
    ∃ count after, (pipeline.finish env setup).run.run run = (.ok count, after) ∧
      after.rows = Pipeline.page setup.query (setup.allRows env evaluator (items ++ others)) := by
  have hdelivered := hfed.delivered
  have hrows := hfed.rows
  cases hstreams : setup.streams with
  | true =>
      rw [if_pos hstreams] at hdelivered hrows
      obtain ⟨after, hrun, hafter⟩ := finish_streams pipeline run hstreams
      refine ⟨_, after, hrun, ?_⟩
      rw [hafter.rows, hrows, allRows_of_streams hstreams]
      have hlength : ((items.drop setup.query.skipCount).map (setup.row evaluator)).length =
          pipeline.delivered := by
        rw [List.length_map, List.length_drop, hdelivered]
      unfold Pipeline.page
      cases hcount : setup.query.limitCount? with
      | none =>
          obtain rfl : others = [] := hends.resolve_right (by simp [hcount])
          rw [List.append_nil, List.map_drop]
      | some limit =>
          dsimp only
          rcases hends with rfl | hreached
          · have hmost : pipeline.delivered ≤ limit := by simpa [hcount] using hmost
            rw [List.append_nil, ← List.map_drop, List.take_of_length_le (by omega)]
          · -- the rows up to the limit are delivered already, and the others are cut off
            obtain rfl : limit = pipeline.delivered := by simpa [hcount] using hreached
            have hpositive : 0 < pipeline.delivered := by simpa [hcount] using hlimit
            rw [← List.map_drop, List.drop_append_of_le_length (by omega), List.map_append,
              List.take_append_of_le_length (by omega), List.take_of_length_le (by omega)]
  | false =>
      rw [if_neg (by simp [hstreams])] at hdelivered hrows
      -- nothing is delivered before the end, so no limit has cut anything off
      obtain rfl : others = [] := hends.resolve_right fun hreached => by
        rw [hreached, hdelivered] at hlimit
        cases hlimit
      obtain ⟨count, handed, after, hrun, hafter, -, hpage⟩ :=
        @finish_rows env setup pipeline run hstreams
      refine ⟨count, after, hrun, ?_⟩
      rw [hafter, hrows, List.nil_append, hpage hidle (.inr hdelivered), List.append_nil]
      exact hfed.page_atEnd hsingle hstreams hitems

/-! ## The loop

A loop ends when its stream does, or when the pipeline has enough. `drawItems` gives the records
without a pipeline, so the same list of records is behind every SKIP and LIMIT. -/

/-- The records that a loop hands to its pipeline where nothing ends it early, or the failure that
ends it. It has the rounds of `serialLoop` and no pipeline, so it does not depend on SKIP and
LIMIT. -/
def drawItems (load : Rid → Option Record) (order : List OrderItem) (evaluator : Evaluator) :
    Nat → Stream → List Rid → Except Failure (List WorkItem)
  | 0, _, _ => .ok []
  | rounds + 1, stream, seen =>
      match (stream.pull order load).run.run ⟨seen, []⟩ with
      | (.error failure, _) => .error failure
      | (.ok (none, _), _) => .ok []
      | (.ok (some record, rest), pulled) =>
          match evaluator.qualify record with
          | .error failure => .error failure
          | .ok none => drawItems load order evaluator rounds rest pulled.seen
          | .ok (some lets) =>
              (drawItems load order evaluator rounds rest pulled.seen).map (⟨record, lets⟩ :: ·)

/-- A record that qualifies does so with its LET bindings, `evaluator.bindings`. -/
theorem Evaluator.lets_of_qualify {record : Record} {lets : Fields}
    (h : evaluator.qualify record = .ok (some lets)) : lets = evaluator.bindings record := by
  unfold Evaluator.qualify Evaluator.evaluate at h
  dsimp only at h
  split at h
  · cases h
  · split at h
    · cases h
      rfl
    · split at h
      · cases h
      next keep _ =>
        cases keep with
        | true =>
            cases h
            rfl
        | false => cases h

/-- What `drawItems` hands over are records that the stream gives, with their LET bindings. The
induction is on the rounds. -/
theorem gives_of_drawItems {load : Rid → Option Record}
    (hload : ∀ rid r, load rid = some r → r.rid = rid) {order : List OrderItem} {rounds : Nat}
    {stream : Stream} {seen : List Rid} {items : List WorkItem} (hconsistent : stream.Consistent)
    (h : drawItems load order evaluator rounds stream seen = .ok items) :
    ∀ item ∈ items, stream.contents.Gives load item.record ∧
      item.lets = evaluator.bindings item.record := by
  induction rounds generalizing stream seen items with
  | zero =>
      cases h
      simp
  | succ rounds ih =>
      unfold drawItems at h
      have hspec := Stream.pull_spec hload order hconsistent ⟨seen, []⟩
      rcases hpull : (stream.pull order load).run.run ⟨seen, []⟩ with
        ⟨failure | ⟨record, rest⟩, pulled⟩
      · rw [hpull] at h
        cases h
      rw [hpull] at h hspec
      cases record with
      | none =>
          cases h
          simp
      | some record =>
          obtain ⟨htransfer, hrest, -, -⟩ := hspec
          -- what the rest gives is given by the stream, as the pull says
          have hlater {others : List WorkItem}
              (hothers : drawItems load order evaluator rounds rest pulled.seen = .ok others) :
              ∀ item ∈ others, stream.contents.Gives load item.record ∧
                item.lets = evaluator.bindings item.record := by
            intro item hitem
            obtain ⟨hgives, hlets⟩ := ih hrest hothers item hitem
            exact ⟨htransfer.gives (.inr hgives), hlets⟩
          dsimp only at h
          rcases hqualify : evaluator.qualify record with failure | _ | lets
          · rw [hqualify] at h
            cases h
          · rw [hqualify] at h
            exact hlater h
          · rw [hqualify] at h
            obtain ⟨others, hothers, rfl⟩ := map_ok h
            refine List.forall_mem_cons.mpr ⟨⟨?_, Evaluator.lets_of_qualify hqualify⟩, hlater hothers⟩
            exact htransfer.gives (.inl (by simp))

/-- A record that nothing is asked of, no condition and no class, qualifies. -/
theorem Evaluator.qualify_unchecked (hfilter : evaluator.filter = none)
    (hclass : evaluator.classFilter = none) (record : Record) :
    evaluator.qualify record = .ok (some (evaluator.bindings record)) := by
  unfold Evaluator.qualify Evaluator.evaluate Evaluator.acceptsClass
  rw [hfilter, hclass]
  rfl

/-- A loop over records that nothing is asked of hands over all of them, if the stream gives them
one after the other: `hnext` and `hend` are its pulls. -/
theorem drawItems_unchecked {load : Rid → Option Record} {order : List OrderItem}
    (hfilter : evaluator.filter = none) (hclass : evaluator.classFilter = none)
    {streamOf : List Record → Stream} {seen : List Rid}
    (hnext : ∀ r records, ((streamOf (r :: records)).pull order load).run.run ⟨seen, []⟩ =
      (.ok (some r, streamOf records), ⟨seen, []⟩))
    (hend : ∃ rest pulled, ((streamOf []).pull order load).run.run ⟨seen, []⟩ =
      (.ok (none, rest), pulled)) (records : List Record) :
    drawItems load order evaluator (records.length + 1) (streamOf records) seen =
      .ok (records.map fun r => ⟨r, evaluator.bindings r⟩) := by
  induction records with
  | nil =>
      obtain ⟨rest, pulled, hpull⟩ := hend
      unfold drawItems
      rw [hpull]
      rfl
  | cons r records ih =>
      unfold drawItems
      rw [hnext]
      dsimp only
      rw [Evaluator.qualify_unchecked hfilter hclass]
      dsimp only
      rw [List.length_cons, ih]
      rfl

/-- A loop that nothing ends early and no limit stops hands over what there is, unless it fails. So
`drawItems` does not fail where the loop succeeds. -/
theorem serialLoop_draws (hlimit : setup.query.limitCount? = none) {rounds : Nat}
    {state : SerialState} {run after : Run} {pipeline : Pipeline} (hidle : run.Idle env)
    (hrun : (serialLoop env setup evaluator rounds state).run.run run = (.ok pipeline, after)) :
    ∃ more, drawItems env.store.load setup.query.orderBy evaluator rounds state.stream state.seen =
      .ok more := by
  induction rounds generalizing state run with
  | zero => exact ⟨[], rfl⟩
  | succ rounds ih =>
      unfold drawItems
      cases serialLoop_round hrun with
      | halted hbusy _ _ => exact absurd hidle hbusy
      | ended hpull _ =>
          rw [hpull]
          exact ⟨[], rfl⟩
      | @skipped record stream pulled mid _ _ hpull hqualify hkeeps hrest =>
          obtain ⟨more, hmore⟩ := ih (hkeeps.2 hidle) hrest
          rw [hpull]
          dsimp only
          rw [hqualify]
          exact ⟨more, hmore⟩
      | @accepted record stream pulled lets wanted taken mid accepted _ _ hpull hqualify hkeeps
          haccept hrest =>
          -- without a limit an accepted record always asks for more
          obtain ⟨hcontinues, hmore⟩ :=
            (accepted_of_run ⟨record, lets⟩ haccept).continues (hkeeps.2 hidle)
          rw [if_pos (hmore hlimit)] at hrest
          obtain ⟨more, hmore⟩ := ih hcontinues.idle hrest
          rw [hpull]
          dsimp only
          rw [hqualify]
          dsimp only
          rw [hmore]
          exact ⟨_, rfl⟩

/-- A pipeline that had room for a row, `hroom`, and wants no more after one more record, `hfull`,
has reached the limit with that record. It never delivers two rows at once. -/
theorem Fed.reaches {items : List WorkItem} {item : WorkItem} {before after : Pipeline}
    {rows rows' : List Row} (hbefore : Fed env setup evaluator p items before rows)
    (hafter : Fed env setup evaluator p (items ++ [item]) after rows')
    (hroom : setup.query.limitCount?.all (before.delivered < ·) = true)
    (hfull : setup.query.limitCount?.all (after.delivered < ·) = false) :
    setup.query.limitCount? = some after.delivered := by
  cases hcount : setup.query.limitCount? with
  | none => simp [hcount] at hfull
  | some limit =>
      rw [hcount] at hroom hfull
      have hless : before.delivered < limit := of_decide_eq_true hroom
      have hnot : ¬after.delivered < limit := of_decide_eq_false hfull
      -- a record delivers one row at most
      have hstep : after.delivered ≤ before.delivered + 1 := by
        rw [hafter.delivered, hbefore.delivered, List.length_append, List.length_singleton]
        split <;> omega
      congr 1
      omega

/-- What is below a `limit` does not exceed it, and without one nothing does. -/
theorem all_le_of_all_lt {limit : Option Nat} {n : Nat} (h : limit.all (n < ·) = true) :
    limit.all (n ≤ ·) = true := by
  cases limit with
  | none => rfl
  | some limit => exact decide_eq_true (Nat.le_of_lt (of_decide_eq_true h))

/-- A loop that nothing ends early feeds its pipeline with all there is, or with as much of it as
the limit allows. The induction is on the rounds, and `Fed` is what it carries. -/
theorem serialLoop_feeds
    (htotal : TotalOn (fun a b : Pending => compareKeys setup.query.orderBy a.key b.key) p)
    (hlimit : setup.query.limitCount?.all (0 < ·) = true) {rounds : Nat} {state : SerialState}
    {items more : List WorkItem} {run : Run} (hidle : run.Idle env)
    (hfed : Fed env setup evaluator p items state.pipeline run.rows)
    (hroom : setup.query.limitCount?.all (state.pipeline.delivered < ·) = true)
    (hdraw : drawItems env.store.load setup.query.orderBy evaluator rounds state.stream state.seen =
      .ok more)
    (hitems : setup.keep?.isSome = true → ∀ item ∈ more, p (setup.kept env evaluator item)) :
    ∃ pipeline after taken others,
      (serialLoop env setup evaluator rounds state).run.run run = (.ok pipeline, after) ∧
      after.Idle env ∧ more = taken ++ others ∧
      Fed env setup evaluator p (items ++ taken) pipeline after.rows ∧
      setup.query.limitCount?.all (pipeline.delivered ≤ ·) = true ∧
      (others = [] ∨ setup.query.limitCount? = some pipeline.delivered) := by
  -- the loop and `drawItems` pull the same stream, so each round of the one is a round of the other
  induction rounds generalizing state items more run with
  | zero =>
      cases hdraw
      exact ⟨_, run, [], [], rfl, hidle, rfl, by simpa using hfed, all_le_of_all_lt hroom, .inl rfl⟩
  | succ rounds ih =>
      rcases hrun : (serialLoop env setup evaluator (rounds + 1) state).run.run run with
        ⟨result, after⟩
      unfold drawItems at hdraw
      cases serialLoop_round hrun with
      | halted hbusy _ _ => exact absurd hidle hbusy
      | broken hpull _ =>
          rw [hpull] at hdraw
          cases hdraw
      | ended hpull hkeeps =>
          rw [hpull] at hdraw
          cases hdraw
          refine ⟨_, after, [], [], rfl, hkeeps.2 hidle, rfl, ?_, all_le_of_all_lt hroom, .inl rfl⟩
          rw [hkeeps.1]
          simpa using hfed
      | failed hpull hqualify _ =>
          rw [hpull] at hdraw
          dsimp only at hdraw
          rw [hqualify] at hdraw
          cases hdraw
      | @skipped record stream pulled mid _ _ hpull hqualify hkeeps hrest =>
          rw [hpull] at hdraw
          dsimp only at hdraw
          rw [hqualify] at hdraw
          dsimp only at hdraw
          obtain ⟨pipeline, last, taken, others, hrun', hgoes⟩ :=
            @ih ⟨stream, pulled.seen, state.pipeline⟩ items more mid (hkeeps.2 hidle)
              (hkeeps.1 ▸ hfed) hroom hdraw hitems
          rw [hrest] at hrun'
          cases hrun'
          exact ⟨pipeline, after, taken, others, rfl, hgoes⟩
      | @accepted record stream pulled lets wanted accepted mid fed _ _ hpull hqualify hkeeps
          haccept hrest =>
          rw [hpull] at hdraw
          dsimp only at hdraw
          rw [hqualify] at hdraw
          obtain ⟨rest, hdrawn, rfl⟩ := map_ok hdraw
          have haccepted := accepted_of_run ⟨record, lets⟩ haccept
          have hidle' := (haccepted.continues (hkeeps.2 hidle)).1.idle
          obtain ⟨rfl, hfed'⟩ := haccepted.fed htotal hlimit (hkeeps.2 hidle) (hkeeps.1 ▸ hfed)
            fun hcuts => hitems hcuts _ List.mem_cons_self
          cases hwants : setup.query.limitCount?.all (accepted.delivered < ·) with
          | false =>
              -- the record has filled the page, so the loop ends before the stream does
              rw [hwants, if_neg (by simp)] at hrest
              cases hrest
              have hreached := hfed.reaches hfed' hroom hwants
              refine ⟨accepted, after, [⟨record, lets⟩], rest, rfl, hidle', rfl, hfed', ?_,
                .inr hreached⟩
              rw [hreached]
              exact decide_eq_true (Nat.le_refl _)
          | true =>
              rw [hwants, if_pos rfl] at hrest
              obtain ⟨pipeline, last, taken, others, hrun', hlast, rfl, hfed'', hends⟩ :=
                @ih ⟨stream, pulled.seen, accepted⟩ _ _ _ hidle' hfed' hwants hdrawn
                  (fun hcuts item hitem => hitems hcuts item (List.mem_cons_of_mem _ hitem))
              rw [hrest] at hrun'
              cases hrun'
              refine ⟨pipeline, after, ⟨record, lets⟩ :: taken, others, rfl, hlast, rfl, ?_, hends⟩
              simpa using hfed''

end

end RecordQuery
