import RecordQuery.Proofs.Paging

/-!
# `RecordQuery.Proofs.SortedInput`: a pipeline that need not sort

A pipeline that is told that records come in the order asked for skips and delivers them one by one
and asks for no more once LIMIT is reached. One that is not told so keeps them, cuts its buffer back
time and again, and sorts and pages what is left at the end. Any sink receives the same of both, as
it does of every pipeline: what it takes of the page of all rows.

`Pipeline.process` is a pipeline without the run around it: it is fed some records and finished.
`Sink.taken` is what a sink takes of some rows, which depends on what it answers. So `process_run`
describes both kinds of pipeline by one sequence, the page of `PipelineSetup.allRows`, and
`allRows_of_ascending` says that this sequence is the same for both if the records are in order.

The order is that of `SelectQuery.compareItems`, by the values that ORDER BY means, columns
included. The records are exact, so that it is a total order. There is no grouping, expanding or
unwinding, as no pipeline is told of an order then.

The theorems:

* `deliverAll_takes`: what a sink receives when rows are delivered to it.
* `process_run`: what it receives of any pipeline that is fed records.
* `allRows_of_ascending`: sorting records that are in order changes nothing.
* `process_ascending`: so both kinds of pipeline deliver the same.
-/

set_option autoImplicit false

namespace RecordQuery

open Steps

/-! ## What a sink takes

A sink may refuse rows, and a limit may stop them before. `Sink.taken` and `within` say how far
either of them lets the rows through. -/

/-- The rows that a sink takes, one after the other, until it wants no more. `received` are the rows
that it has received before, the latest one first. -/
def Sink.taken (sink : Sink) : List Row → List Row → List Row
  | _, [] => []
  | received, row :: rows =>
      row :: if sink.wantsMore (row :: received) then sink.taken (row :: received) rows else []

/-- The first rows, as many as a limit leaves. `page_eq_within` says that a page is this after
skipping. -/
def within (limit : Option Nat) (rows : List Row) : List Row :=
  match limit with
  | some most => rows.take most
  | none => rows

/-- The `rows` were handed to the sink, one after the other, and nothing else was. -/
def Run.Hands (run after : Run) (rows : List Row) : Prop :=
  after.calls = (rows.map .push).reverse ++ run.calls

/-- Handing over a row (`hfirst`) and then others. -/
theorem Run.Hands.cons {run mid after : Run} {row : Row} {rows : List Row}
    (hfirst : mid.calls = .push row :: run.calls) (h : mid.Hands after rows) :
    run.Hands after (row :: rows) := by
  unfold Run.Hands at h ⊢
  rw [h, hfirst, List.map_cons, List.reverse_cons, List.append_assoc]
  rfl

/-- A part of a run that only counts and notes (`Keeps`) hands over nothing, before rows are handed
over or after. -/
theorem Run.Hands.keeps {run begun delivered after : Run} {rows : List Row}
    (hbegun : run.Keeps begun) (h : begun.Hands delivered rows) (hafter : delivered.Keeps after) :
    run.Hands after rows := by
  unfold Run.Hands at h ⊢
  rw [hafter.calls, h, hbegun.calls]

section

variable {env : Env} {setup : PipelineSetup} {evaluator : Evaluator}

/-- `Pipeline.page` is what the limit leaves of the rows that are not skipped, `within` the
limit. -/
theorem page_eq_within (query : SelectQuery) (rows : List Row) :
    Pipeline.page query rows = within query.limitCount? (rows.drop query.skipCount) := rfl

/-- `within` is idempotent: a limit leaves all of what it has left before. -/
theorem within_within (limit : Option Nat) (rows : List Row) :
    within limit (within limit rows) = within limit rows := by
  cases limit with
  | none => rfl
  | some most => simp [within, List.take_take]

/-- A limit that leaves a row leaves it and those that the limit leaves after it. `delivered` rows
have come before. -/
theorem within_cons {limit : Option Nat} {delivered : Nat} (hroom : limit.all (delivered < ·) = true)
    (row : Row) (rows : List Row) :
    within (limit.map (· - delivered)) (row :: rows) =
      row :: within (limit.map (· - (delivered + 1))) rows := by
  cases limit with
  | none => rfl
  | some most =>
      have hless : delivered < most := of_decide_eq_true hroom
      have hnext : most - delivered = most - (delivered + 1) + 1 := by omega
      show (row :: rows).take (most - delivered) = row :: rows.take (most - (delivered + 1))
      rw [hnext, List.take_succ_cons]

/-- A limit that is reached (`hreached`) leaves nothing. -/
theorem within_reached {limit : Option Nat} {delivered : Nat}
    (hreached : limit.all (delivered < ·) = false) (rows : List Row) :
    within (limit.map (· - delivered)) rows = [] := by
  cases limit with
  | none => cases hreached
  | some most =>
      have hnot : ¬delivered < most := of_decide_eq_false hreached
      show rows.take (most - delivered) = []
      rw [Nat.sub_eq_zero_of_le (by omega), List.take_zero]

/-- `deliverAll` hands the sink what it takes (`taken`) of the rows, as many as the limit leaves.
The induction is on the rows. -/
theorem deliverAll_takes {pipeline : Pipeline} {rows handed : List Row} {run : Run}
    (hroom : setup.query.limitCount?.all (pipeline.delivered < ·) = true)
    (hhanded : env.sink.taken run.received
      (within (setup.query.limitCount?.map (· - pipeline.delivered)) rows) = handed) :
    ∃ done after, (pipeline.deliverAll env setup rows).run.run run = (.ok done, after) ∧
      done.delivered = pipeline.delivered + handed.length ∧ run.Hands after handed := by
  induction rows generalizing pipeline run handed with
  | nil =>
      obtain rfl : [] = handed := by
        rw [← hhanded]
        cases setup.query.limitCount? <;> simp [within, Sink.taken]
      exact ⟨pipeline, run, rfl, rfl, rfl⟩
  | cons row rows ih =>
      obtain ⟨hinted, mid, hrun, hcalls, -⟩ := deliver_calls env setup pipeline row run
      have hreceived := Run.received_of_push hcalls
      rw [within_cons hroom, Sink.taken] at hhanded
      subst hhanded
      rw [Pipeline.deliverAll, run_bind, hrun]
      dsimp only
      -- the row is the last one when the sink wants no more, or when the limit is reached
      cases hwants : env.sink.wantsMore (row :: run.received) with
      | false => exact ⟨_, mid, rfl, rfl, .cons hcalls rfl⟩
      | true =>
          cases hmore : setup.query.limitCount?.all (pipeline.delivered + 1 < ·) with
          | false =>
              rw [within_reached hmore]
              exact ⟨_, mid, rfl, rfl, .cons hcalls rfl⟩
          | true =>
              obtain ⟨done, after, hdone, hcount, hhands⟩ :=
                @ih { pipeline with delivered := pipeline.delivered + 1, hinted }
                  (env.sink.taken (row :: run.received) (within (setup.query.limitCount?.map
                    (· - (pipeline.delivered + 1))) rows)) mid hmore (by rw [hreceived])
              refine ⟨done, after, hdone, ?_, .cons hcalls hhands⟩
              rw [hcount, if_pos rfl, List.length_cons]
              show pipeline.delivered + 1 + _ = _
              omega

/-- `deliverAll` from a pipeline that has delivered nothing: the sink receives what it takes of the
first rows, as many as the limit allows. -/
theorem deliverAll_fresh {pipeline : Pipeline} (hfresh : pipeline.delivered = 0)
    (hlimit : setup.query.limitCount?.all (0 < ·) = true) {rows handed : List Row} {run : Run}
    (hhanded : env.sink.taken run.received (within setup.query.limitCount? rows) = handed) :
    ∃ done after, (pipeline.deliverAll env setup rows).run.run run = (.ok done, after) ∧
      done.delivered = handed.length ∧ run.Hands after handed := by
  have hwhole : setup.query.limitCount?.map (· - pipeline.delivered) =
      setup.query.limitCount? := by
    rw [hfresh]
    exact Option.map_id'
  rw [← hwhole] at hhanded
  obtain ⟨done, after, hrun, hcount, hhands⟩ := deliverAll_takes (by rwa [hfresh]) hhanded
  exact ⟨done, after, hrun, by rw [hcount, hfresh, Nat.zero_add], hhands⟩

/-! ## Feeding a pipeline

`Pipeline.process` feeds a pipeline without a stream or a loop, which is all that matters here. A
pipeline that streams delivers as it is fed, the others at the end. -/

/-- Hands records to a pipeline, one after the other, until `accept` asks for no more. -/
def Pipeline.feed (env : Env) (setup : PipelineSetup) (evaluator : Evaluator)
    (pipeline : Pipeline) : List WorkItem → Exec Pipeline
  | [] => return pipeline
  | item :: items => do
      let (more, pipeline) ← pipeline.accept env setup (evaluator.scope item.lets) item.record
      if more then feed env setup evaluator pipeline items else return pipeline

/-- Feeds a new pipeline with records (`feed`) and finishes it; gives the number of rows delivered.
A serial run does this with the records that it draws. -/
def Pipeline.process (env : Env) (setup : PipelineSetup) (evaluator : Evaluator)
    (items : List WorkItem) : Exec Nat := do
  let pipeline ← Pipeline.start.feed env setup evaluator items
  pipeline.finish env setup

/-- A pipeline that `streams` and has skipped enough (`hskipped`) delivers one row after the
other. -/
theorem feed_of_skipped (hstreams : setup.streams = true) {pipeline : Pipeline}
    (hskipped : setup.query.skipCount ≤ pipeline.skipped) (items : List WorkItem) (run : Run) :
    (pipeline.feed env setup evaluator items).run.run run =
      (pipeline.deliverAll env setup (items.map (setup.row evaluator))).run.run run := by
  induction items generalizing pipeline run with
  | nil => rfl
  | cons item items ih =>
      obtain ⟨hinted, mid, hrun, -, -⟩ :=
        deliver_calls env setup pipeline (setup.row evaluator item) run
      -- with enough records skipped, accepting one is delivering its row
      have haccept : pipeline.accept env setup (evaluator.scope item.lets) item.record =
          pipeline.deliver env setup (setup.row evaluator item) := by
        unfold Pipeline.accept
        rw [if_neg (by simp [isGrouping_of_streams hstreams]), if_pos hstreams,
          if_neg (by omega)]
        rfl
      rw [Pipeline.feed, List.map_cons, Pipeline.deliverAll, haccept, run_bind, run_bind, hrun]
      dsimp only
      split
      · exact @ih { pipeline with delivered := pipeline.delivered + 1, hinted } hskipped mid
      · rfl

/-- A pipeline that streams skips records first and then delivers one row after the other: it is a
`deliverAll` of the rows behind those skipped. -/
theorem feed_streams (hstreams : setup.streams = true) {pipeline : Pipeline}
    (hskipped : pipeline.skipped ≤ setup.query.skipCount) (items : List WorkItem) (run : Run) :
    (pipeline.feed env setup evaluator items).run.run run =
      (({ pipeline with skipped := min setup.query.skipCount (pipeline.skipped + items.length) } :
        Pipeline).deliverAll env setup
          ((items.drop (setup.query.skipCount - pipeline.skipped)).map
            (setup.row evaluator))).run.run run := by
  induction items generalizing pipeline with
  | nil =>
      rw [List.length_nil, Nat.add_zero, Nat.min_eq_right hskipped, List.drop_nil]
      rfl
  | cons item items ih =>
      -- the records are skipped one by one, and then none of the others is
      by_cases hskip : pipeline.skipped < setup.query.skipCount
      · have hfed := @ih { pipeline with skipped := pipeline.skipped + 1 } hskip
        have hdrop : setup.query.skipCount - pipeline.skipped =
            setup.query.skipCount - (pipeline.skipped + 1) + 1 := by omega
        rw [Pipeline.feed, Pipeline.accept, if_neg (by simp [isGrouping_of_streams hstreams]),
          if_pos hstreams, if_pos hskip, pure_bind]
        dsimp only
        rw [if_pos rfl, hfed, hdrop, List.drop_succ_cons]
        simp only [List.length_cons, Nat.add_assoc, Nat.add_comm 1]
      · have hfull : pipeline.skipped = setup.query.skipCount := by omega
        rw [feed_of_skipped hstreams (by omega), hfull, Nat.sub_self, List.drop_zero,
          Nat.min_eq_left (by omega), ← hfull]

/-- A pipeline that does not stream gathers or keeps one more record, and wants more. `Fed` is the
invariant of `Feeding`. -/
theorem accept_gathers {p : Pending → Prop}
    (htotal : TotalOn (fun a b : Pending => compareKeys setup.query.orderBy a.key b.key) p)
    {items : List WorkItem} {pipeline : Pipeline} {rows : List Row}
    (hfed : Fed env setup evaluator p items pipeline rows) (hstreams : setup.streams = false)
    {item : WorkItem} (hitem : setup.keep?.isSome = true → p (setup.kept env evaluator item)) :
    ∃ next,
      Exec.Gives (pipeline.accept env setup (evaluator.scope item.lets) item.record)
        (.ok (true, next)) ∧
      Fed env setup evaluator p (items ++ [item]) next rows := by
  unfold Pipeline.accept
  cases hgroups : setup.query.isGrouping with
  | true => exact ⟨_, Exec.gives_pure _, hfed.gather item hgroups hstreams⟩
  | false =>
      rw [if_neg (by simp), if_neg (by simp [hstreams])]
      exact ⟨_, (keep_gives pipeline item).bind (Exec.gives_pure _),
        hfed.keep item htotal hgroups hstreams hitem⟩

/-- A pipeline that does not stream takes all records before it delivers any, and stays `Fed` with
them. The induction is on the records. -/
theorem feed_gathers {p : Pending → Prop}
    (htotal : TotalOn (fun a b : Pending => compareKeys setup.query.orderBy a.key b.key) p)
    (hstreams : setup.streams = false) {taken : List WorkItem} {pipeline : Pipeline}
    {rows : List Row} (hfed : Fed env setup evaluator p taken pipeline rows)
    {items : List WorkItem}
    (hitems : setup.keep?.isSome = true → ∀ item ∈ items, p (setup.kept env evaluator item)) :
    ∃ fed, Exec.Gives (pipeline.feed env setup evaluator items) (.ok fed) ∧
      Fed env setup evaluator p (taken ++ items) fed rows := by
  induction items generalizing taken pipeline with
  | nil => exact ⟨pipeline, Exec.gives_pure _, by rwa [List.append_nil]⟩
  | cons item items ih =>
      obtain ⟨next, hgives, hnext⟩ := accept_gathers htotal hfed hstreams
        fun hcuts => hitems hcuts item List.mem_cons_self
      obtain ⟨fed, hrest, hfed⟩ := ih hnext
        fun hcuts other hother => hitems hcuts other (List.mem_cons_of_mem _ hother)
      exact ⟨fed, hgives.bind hrest, by simpa using hfed⟩

/-- A sink receives of a pipeline that is fed records what it takes of the page of all rows,
`handed`. The hypotheses on `p` are those of the sort buffer. -/
theorem process_run {p : Pending → Prop}
    (htotal : TotalOn (fun a b : Pending => compareKeys setup.query.orderBy a.key b.key) p)
    (hsingle : ∀ x, p x → ∃ row, Pending.rows env.store.load x = [row])
    (hlimit : setup.query.limitCount?.all (0 < ·) = true) {items : List WorkItem}
    (hitems : setup.keep?.isSome = true → ∀ item ∈ items, p (setup.kept env evaluator item))
    {run : Run} {handed : List Row}
    (hhanded : env.sink.taken run.received
      (Pipeline.page setup.query (setup.allRows env evaluator items)) = handed) :
    ∃ after, (Pipeline.process env setup evaluator items).run.run run =
      (.ok handed.length, after) ∧ run.Hands after handed := by
  unfold Pipeline.process
  cases hstreams : setup.streams with
  | true =>
      rw [allRows_of_streams hstreams, page_eq_within, ← List.map_drop] at hhanded
      let skipping : Pipeline :=
        { Pipeline.start with skipped := min setup.query.skipCount (0 + items.length) }
      obtain ⟨done, delivered, hdone, hcount, hhands⟩ :=
        @deliverAll_fresh env setup skipping rfl hlimit _ _ _ hhanded
      obtain ⟨after, hfinish, hkeeps⟩ := @finish_streams env setup done delivered hstreams
      refine ⟨after, ?_, .keeps (.refl run) hhands hkeeps⟩
      have hfed : (Pipeline.start.feed env setup evaluator items).run.run run =
          (.ok done, delivered) := (feed_streams hstreams (Nat.zero_le _) items run).trans hdone
      rw [run_bind, hfed]
      exact hcount ▸ hfinish
  | false =>
      obtain ⟨fed, hgives, hfed⟩ := feed_gathers htotal hstreams fed_start hitems
      rw [List.nil_append] at hfed
      obtain ⟨gathered, hgathered, hrun⟩ := hgives.step run
      obtain ⟨begun, hbegun, hfinish⟩ := @finish_run env setup fed gathered hstreams
      have hpage := hfed.page_atEnd hsingle hstreams hitems
      have hnone : fed.delivered = 0 := by
        rw [hfed.delivered, if_neg (by simp [hstreams])]
      -- a page is within the limit already
      have hwithin : within setup.query.limitCount?
          (Pipeline.page setup.query (setup.rowsAtEnd env fed)) =
            Pipeline.page setup.query (setup.rowsAtEnd env fed) := by
        rw [page_eq_within, within_within]
      obtain ⟨done, delivered, hdone, hcount, hhands⟩ :=
        @deliverAll_fresh env setup fed hnone hlimit _ handed begun
          (by rw [hwithin, hpage, (hgathered.trans hbegun).received]; exact hhanded)
      obtain ⟨after, hafter, hkeeps⟩ := hfinish done delivered hdone
      refine ⟨after, ?_, .keeps (hgathered.trans hbegun) hhands hkeeps⟩
      rw [hrun, ← hcount, hafter]

/-! ## Records in order

The pipelines compared have the same query, and differ in whether they are told that the input is
sorted. One streams then, the other keeps the records and sorts them. -/

/-- Records in the order asked for, `hsorted`, give the same rows whether they are sorted or not: a
stable sort leaves them as they are. -/
theorem allRows_of_ascending {q : List Value → Prop}
    (htotal : TotalOn (compareKeys setup.query.orderBy) q) {items : List WorkItem}
    (hkeys : ∀ item ∈ items, q (setup.sortKey env evaluator item))
    (hsorted : Ascending (fun a b => compareKeys setup.query.orderBy
      (setup.sortKey env evaluator a) (setup.sortKey env evaluator b)) items)
    (hgrouping : setup.query.isGrouping = false) (hexpand : setup.query.expand = none)
    (hunwind : setup.query.unwind = []) :
    setup.allRows env evaluator items = items.map (setup.row evaluator) := by
  have hpending : setup.kept env evaluator = setup.pending env evaluator := by
    funext item
    unfold PipelineSetup.kept
    rw [hexpand]
  have hordered : setup.ordered (items.map (setup.pending env evaluator)) =
      items.map (setup.pending env evaluator) := by
    unfold PipelineSetup.ordered
    cases hsorts : setup.sorts with
    | false => rfl
    | true =>
        have hkey (item : WorkItem) :
            (setup.pending env evaluator item).key = setup.sortKey env evaluator item := by
          simp [PipelineSetup.pending, hsorts]
        rw [if_pos rfl]
        -- a stable sort leaves what is in order as it is
        refine stableSortBy_of_ascending (htotal.comap Pending.key) 4 ?_ ?_
        · intro pending hmem
          obtain ⟨item, hitem, rfl⟩ := List.mem_map.mp hmem
          rw [hkey]
          exact hkeys item hitem
        · refine List.pairwise_map.mpr (hsorted.imp fun {a b} hle => ?_)
          dsimp only
          rwa [hkey, hkey]
  unfold PipelineSetup.allRows
  rw [hunwind, if_neg (by simp [hgrouping]), hpending, hordered, List.flatMap_map,
    List.map_eq_flatMap]
  rfl

end

/-- Records compared by their ORDER BY values (`sortKey`), those of the columns of the query among
them. -/
def SelectQuery.compareItems (query : SelectQuery) (env : Env) (evaluator : Evaluator)
    (a b : WorkItem) : Ordering :=
  compareKeys query.orderBy ((env.setup query false).sortKey env evaluator a)
    ((env.setup query false).sortKey env evaluator b)

/-- Where nothing is grouped, expanded or unwound, and records without floating-point numbers come
in the order asked for, `hsorted`, it does not matter whether a pipeline knows this: with any SKIP,
LIMIT and slack of the sort buffer, and whatever the sink answers, the sink receives the same rows
in the same order, and the same number is reported. LIMIT 0 is refused before a pipeline is set up,
by `SelectQuery.validate`. -/
theorem process_ascending {env : Env} {query : SelectQuery} {evaluator : Evaluator}
    (hstore : evaluator.store = env.store)
    (hload : ∀ rid r, env.store.load rid = some r → r.isExact = true)
    (hgrouping : query.isGrouping = false) (hexpand : query.expand = none)
    (hunwind : query.unwind = []) (hlimit : query.limit ≠ 0) {items : List WorkItem}
    (hitems : ∀ item ∈ items, item.record.isExact = true ∧
      item.lets = evaluator.bindings item.record)
    (hsorted : Ascending (query.compareItems env evaluator) items) (run : Run) :
    ∃ (handed : List Row) (streamed sorted : Run),
      handed = env.sink.taken run.received (Pipeline.page query
        (items.map fun item => query.project (evaluator.scope item.lets) item.record)) ∧
      (Pipeline.process env (env.setup query true) evaluator items).run.run run =
        (.ok handed.length, streamed) ∧ run.Hands streamed handed ∧
      (Pipeline.process env (env.setup query false) evaluator items).run.run run =
        (.ok handed.length, sorted) ∧ run.Hands sorted handed := by
  have hcount : query.limitCount?.all (0 < ·) = true := by
    unfold SelectQuery.limitCount?
    split
    · rfl
    · exact decide_eq_true (by omega)
  obtain ⟨handed, hhanded⟩ : ∃ handed, handed = env.sink.taken run.received (Pipeline.page query
      (items.map fun item => query.project (evaluator.scope item.lets) item.record)) := ⟨_, rfl⟩
  -- with the order known or not, the rows are those of the records as they come
  have hrun (ordered : Bool) : ∃ after,
      (Pipeline.process env (env.setup query ordered) evaluator items).run.run run =
        (.ok handed.length, after) ∧ run.Hands after handed := by
    obtain ⟨q, htotal, hkeys⟩ := (env.setup query ordered).exists_totalOn env evaluator hstore hload
    obtain ⟨p, hpending, hsingle, hkept⟩ :=
      (env.setup query ordered).exists_sortable env evaluator hstore hload
    have hq : ∀ item ∈ items, q ((env.setup query ordered).sortKey env evaluator item) := by
      intro item hitem
      obtain ⟨hexact, hlets⟩ := hitems item hitem
      have hbound : item = ⟨item.record, evaluator.bindings item.record⟩ := by rw [← hlets]
      rw [hbound]
      exact hkeys item.record hexact
    have hrows := @allRows_of_ascending env (env.setup query ordered) evaluator q htotal items hq
      hsorted hgrouping hexpand hunwind
    refine process_run hpending hsingle hcount
      (fun hcuts item hitem => hkept item (hitems item hitem).1 (hitems item hitem).2 hcuts) ?_
    rw [hrows, hhanded]
    rfl
  obtain ⟨streamed, hstreamed, hhands⟩ := hrun true
  obtain ⟨sorted, hsorted, hhands'⟩ := hrun false
  exact ⟨handed, streamed, sorted, hhanded, hstreamed, hhands, hsorted, hhands'⟩

/-! ### Ties on a page -/

/-- A sink that takes two rows, over a store without records, with a sort buffer without slack,
which is cut back after every record. -/
def pageEnv : Env := ⟨.empty, { Options.default with sortSlack := 0 }, fun _ => 0,
  ⟨fun received => received.length < 2, fun _ => false⟩⟩

/-- `SELECT FROM A ORDER BY x SKIP 1 LIMIT 3`. -/
def pageQuery : SelectQuery :=
  { SelectQuery.ofTarget (.ofClass "A" true) with
    orderBy := [⟨⟨"x", []⟩, .asc⟩]
    limit := 3
    skip := 1 }

/-- Five records in order, with ties, as both pipelines of `process_tiedItems` are fed. -/
def tiedItems : List WorkItem :=
  [1, 1, 2, 2, 3].zipIdx.map fun (x, i) => ⟨⟨⟨1, i⟩, "A", [("x", .int x)]⟩, []⟩

/-- The second and the third record are delivered, by a pipeline that streams and by one that sorts
`tiedItems` once more, since the sink then wants no more. -/
theorem process_tiedItems :
    ∃ (handed : List Row) (streamed sorted : Run),
      handed.map Row.rid = [some ⟨1, 1⟩, some ⟨1, 2⟩] ∧
      (Pipeline.process pageEnv (pageEnv.setup pageQuery true)
        ⟨.empty, [], [], none, none⟩ tiedItems).run.run (.start .empty []) = (.ok 2, streamed) ∧
      (Pipeline.process pageEnv (pageEnv.setup pageQuery false)
        ⟨.empty, [], [], none, none⟩ tiedItems).run.run (.start .empty []) = (.ok 2, sorted) ∧
      (Run.start .empty []).Hands streamed handed ∧ (Run.start .empty []).Hands sorted handed := by
  have hitems : ∀ item ∈ tiedItems, item.record.isExact = true ∧
      item.lets = (⟨.empty, [], [], none, none⟩ : Evaluator).bindings item.record := by
    intro item hitem
    obtain ⟨_, _, rfl⟩ := List.mem_map.mp hitem
    exact ⟨rfl, rfl⟩
  obtain ⟨handed, streamed, sorted, hhanded, hstreamed, hhands, hsorted, hhands'⟩ :=
    @process_ascending pageEnv pageQuery ⟨.empty, [], [], none, none⟩ rfl
      (fun rid r hr => by cases hr) rfl rfl rfl (by decide) tiedItems hitems
      (by unfold Ascending; decide +kernel) (.start .empty [])
  have hrids : handed.map Row.rid = [some ⟨1, 1⟩, some ⟨1, 2⟩] := by
    rw [hhanded]
    decide +kernel
  have hlength : handed.length = 2 := by
    rw [← List.length_map Row.rid, hrids]
    rfl
  rw [hlength] at hstreamed hsorted
  exact ⟨handed, streamed, sorted, hrids, hstreamed, hsorted, hhands, hhands'⟩

end RecordQuery
