import RecordQuery.Proofs.Distinct
import RecordQuery.Proofs.Feeding

/-!
# `RecordQuery.Proofs.Paging`: SKIP and LIMIT of a query

A query is planned and its records are drawn in the same way whatever SKIP and LIMIT say. So the
rows that it delivers are a page of the rows that it delivers without them: the ones from SKIP on,
as many as LIMIT says, ties included, however often the sort buffer is cut back.

`SelectQuery.paged` is the query with another LIMIT and SKIP, and `Env.withSlack` the environment
with another `sortSlack`, which says how far the sort buffer may grow before it is cut back. The
plan of the paged query is the plan of the query (`plan_paged`), the records that it draws are the
same `drawItems`, and `Feeding` says what the pipeline makes of them.

The results are for serial plans, as a parallel run delivers its rows in the order in which workers
find them, and a page of that is no function of the query. The query without SKIP and LIMIT has to
succeed: with a LIMIT it may succeed where without one it fails, because it stops before the failing
record.

The theorems:

* `plan_paged`: SKIP, LIMIT and the slack of the sort buffer do not matter to the plan.
* `runSerial_page`: a serial run delivers the page of the rows of what it draws.
* `collect_page`: a query delivers the page of its rows.
-/

set_option autoImplicit false

namespace RecordQuery

open Steps

/-! ## The plan

The planner does not look at LIMIT and SKIP, so the paged query reads the same source as the query.
Only `validate` does, and it rejects those that make no sense. -/

/-- The query with another `limit` and `skip`, and all else the same. -/
def SelectQuery.paged (query : SelectQuery) (limit skip : Int) : SelectQuery :=
  { query with limit, skip }

/-- The environment with another `slack` of the sort buffer: how many records it may hold beyond
those it keeps. -/
def Env.withSlack (env : Env) (slack : Nat) : Env :=
  { env with options := { env.options with sortSlack := slack } }

namespace Store

variable (store : Store) (vars : Fields) (query : SelectQuery) (limit skip : Int)

/-- SKIP and LIMIT do not matter to `fanOutWithin`, so the parts of a fan-out stay. -/
theorem fanOutWithin_paged (condition : Condition) (range : RidRange) (steps : Nat) :
    store.fanOutWithin vars condition (query.paged limit skip) range steps =
      store.fanOutWithin vars condition query range steps := by
  induction steps with
  | zero => rfl
  | succ steps ih =>
      funext className
      show List.foldlM (store.extendFanOut vars condition (query.paged limit skip)
        (store.fanOutWithin vars condition (query.paged limit skip) range steps)) _ _ = _
      rw [ih]
      rfl

/-- SKIP and LIMIT do not matter to `planTarget`: no plan is made for a page. -/
theorem planTarget_paged (filter : Option Condition) :
    store.planTarget vars filter (query.paged limit skip) =
      store.planTarget vars filter query := by
  have hfan (className : String) (condition : Condition) (range : RidRange) :
      store.fanOut? vars className condition (query.paged limit skip) range =
        store.fanOut? vars className condition query range := by
    unfold fanOut?
    rw [fanOutWithin_paged]
  have hlookups (className : String) (polymorphic : Bool) (condition : Condition)
      (scan : ScanPlan) :
      store.classLookups? vars className polymorphic condition (query.paged limit skip) scan =
        store.classLookups? vars className polymorphic condition query scan := by
    unfold classLookups?
    rw [hfan]
    rfl
  -- only lookups look at the query beyond its target, and not at these two
  have htarget : (query.paged limit skip).target = query.target := rfl
  unfold planTarget
  rw [htarget]
  cases query.target with
  | ofClass name polymorphic =>
      show store.planClass .. = store.planClass ..
      unfold planClass
      simp only [hlookups]
      rfl
  | clusters ids => rfl
  | index name => rfl
  | records rids => rfl
  | linked name => rfl

end Store

/-- A SKIP and a LIMIT that make sense (`hskip`, `hlimit`) make no valid query invalid. -/
theorem SelectQuery.validate_paged {query : SelectQuery} (hvalid : query.validate = .ok ⟨⟩)
    {limit skip : Int} (hlimit : limit = -1 ∨ 1 ≤ limit) (hskip : 0 ≤ skip) :
    (query.paged limit skip).validate = .ok ⟨⟩ := by
  unfold validate at hvalid ⊢
  have hpage : (limit == 0 || limit < -1) = false := by
    rw [Bool.or_eq_false_iff, beq_eq_false_iff_ne, decide_eq_false_iff_not]
    omega
  have hlate : ¬skip < 0 := by omega
  -- what is left to check is said by the other clauses
  split at hvalid
  · cases hvalid
  · split at hvalid
    · cases hvalid
    · show (if (limit == 0 || limit < -1) = true then _ else if skip < 0 then _ else _) = _
      rw [hpage, if_neg (by simp), if_neg hlate]
      exact hvalid

/-- SKIP, LIMIT and the slack of the sort buffer do not matter to the plan: `Store.plan` reads them
in `validate` only. -/
theorem plan_paged {env : Env} {query : SelectQuery} {context : Context} {plan : Plan}
    (hplan : env.plan query context = .ok plan) {limit skip : Int}
    (hlimit : limit = -1 ∨ 1 ≤ limit) (hskip : 0 ≤ skip) (slack : Nat) :
    (env.withSlack slack).plan (query.paged limit skip) context = .ok plan := by
  unfold Env.plan Store.plan at hplan ⊢
  obtain ⟨⟨⟩, hvalid, hplan⟩ := Steps.bind_eq_ok.mp hplan
  rw [SelectQuery.validate_paged hvalid hlimit hskip]
  simp only [Store.planTarget_paged]
  exact hplan

/-- LIMIT is no limit or a positive one, as `validate` rejects a LIMIT of zero. -/
theorem SelectQuery.limitCount?_paged (query : SelectQuery) {limit : Int}
    (hlimit : limit = -1 ∨ 1 ≤ limit) (skip : Int) :
    (query.paged limit skip).limitCount?.all (0 < ·) = true := by
  have hpositive : 0 ≤ limit → 0 < limit.toNat := by omega
  show Option.all _ (if limit < 0 then none else some limit.toNat) = true
  split
  · rfl
  · exact decide_eq_true (hpositive (by omega))

/-! ## The run

Both runs draw from the same `drawItems`, one of them perhaps not to the end. What the pipeline
makes of the records it is fed is the page of their rows by `Fed`. -/

/-- ORDER BY orders what is kept of exact records totally, as far as the buffer is cut back, and one
row comes of each. The property `p` is the one that `Buffered` is used with. -/
theorem PipelineSetup.exists_sortable (setup : PipelineSetup) (env : Env) (evaluator : Evaluator)
    (hstore : evaluator.store = env.store)
    (hload : ∀ rid r, env.store.load rid = some r → r.isExact = true) :
    ∃ p : Pending → Prop,
      TotalOn (fun a b : Pending => compareKeys setup.query.orderBy a.key b.key) p ∧
      (∀ x, p x → ∃ row, Pending.rows env.store.load x = [row]) ∧
      ∀ item : WorkItem, item.record.isExact = true →
        item.lets = evaluator.bindings item.record → setup.keep?.isSome = true →
        p (setup.kept env evaluator item) := by
  obtain ⟨p, htotal, hkeys⟩ := setup.exists_totalOn env evaluator hstore hload
  refine ⟨fun x => p x.key ∧ ∃ row, Pending.rows env.store.load x = [row],
    (htotal.comap Pending.key).mono And.left, fun _ => And.right, ?_⟩
  intro item hexact hlets hcuts
  obtain ⟨count, hkeep⟩ := Option.isSome_iff_exists.mp hcuts
  obtain ⟨limit, -, -, hsorts, hexpand, -⟩ := keep?_eq_some hkeep
  -- what can be cut back is a row with its sort key, without EXPAND
  have hkept : setup.kept env evaluator item =
      ⟨setup.sortKey env evaluator item, .row (setup.row evaluator item)⟩ := by
    unfold PipelineSetup.kept PipelineSetup.pending
    rw [hexpand]
    dsimp only
    rw [if_pos hsorts]
  have hitem : item = ⟨item.record, evaluator.bindings item.record⟩ := by
    rw [← hlets]
  rw [hkept]
  refine ⟨?_, _, rfl⟩
  rw [hitem]
  exact hkeys item.record hexact

section

variable {env : Env} {query : SelectQuery} {plan : Plan} {source : Source} {run : Run}

/-- A serial run that nothing ends early, `hidle`, delivers the page of the rows of what it draws.
The records drawn have to be exact, `hitems`, for the sort buffer. -/
theorem runSerial_page (hidle : run.Idle env) (hrows : run.rows = [])
    (hlimit : query.limitCount?.all (0 < ·) = true)
    (hload : ∀ rid r, env.store.load rid = some r → r.isExact = true) {stream : Stream}
    {ordered : Bool} (hopened : plan.opened env.store query source = .ok (stream, ordered))
    {items : List WorkItem}
    (hdraw : drawItems env.store.load query.orderBy
      (.ofPlan env.store run.context.vars query plan) (stream.size + 1) stream [] = .ok items)
    (hitems : ∀ item ∈ items, item.record.isExact = true ∧
      item.lets = (Evaluator.ofPlan env.store run.context.vars query plan).bindings item.record) :
    ∃ count after, (runSerial env query plan source).run.run run = (.ok count, after) ∧
      after.rows = Pipeline.page query ((env.setup query ordered).allRows env
        (.ofPlan env.store run.context.vars query plan) items) := by
  obtain ⟨p, htotal, hsingle, hkept⟩ := (env.setup query ordered).exists_sortable env
    (.ofPlan env.store run.context.vars query plan) rfl hload
  obtain ⟨opened, hkeeps, hrun⟩ := runSerial_run env query plan source run
  rw [hrun, hopened]
  dsimp only
  rw [run_bind]
  -- the loop feeds the pipeline, whose page is that of all rows
  have hfed : Fed env (env.setup query ordered)
      (.ofPlan env.store run.context.vars query plan) p [] .start opened.rows := by
    rw [hkeeps.rows, hrows]
    exact fed_start
  have hfits : (env.setup query ordered).keep?.isSome = true → ∀ item ∈ items,
      p ((env.setup query ordered).kept env (.ofPlan env.store run.context.vars query plan) item) :=
    fun hcuts item hitem => hkept item (hitems item hitem).1 (hitems item hitem).2 hcuts
  obtain ⟨pipeline, after, taken, others, hloop, hafter, rfl, hfed, hmost, hends⟩ :=
    @serialLoop_feeds env (env.setup query ordered) _ p htotal hlimit (stream.size + 1)
      ⟨stream, [], .start⟩ [] items opened (hidle.keeps hkeeps) hfed hlimit hdraw hfits
  rw [hloop]
  exact finish_fed hsingle hafter (by simpa using hfed)
    (fun hcuts item hitem => hfits hcuts item (List.mem_append_left _ hitem)) hmost hends hlimit

/-- A serial run without LIMIT that is `Idle` and does not fail has opened its plan and drawn all
that its stream gives. A run of the query with LIMIT then draws the same. -/
theorem runSerial_draws (hidle : run.Idle env)
    (hlimit : query.limitCount? = none) {count : Nat} {after : Run}
    (hrun : (runSerial env query plan source).run.run run = (.ok count, after)) :
    ∃ stream ordered items, plan.opened env.store query source = .ok (stream, ordered) ∧
      drawItems env.store.load query.orderBy (.ofPlan env.store run.context.vars query plan)
        (stream.size + 1) stream [] = .ok items := by
  obtain ⟨opened, hkeeps, heq⟩ := runSerial_run env query plan source run
  rw [heq] at hrun
  rcases hopened : plan.opened env.store query source with failure | ⟨stream, ordered⟩
  · rw [hopened] at hrun
    cases hrun
  · rw [hopened] at hrun
    obtain ⟨pipeline, mid, hloop, -⟩ := bind_ok hrun
    obtain ⟨items, hdraw⟩ := @serialLoop_draws env (env.setup query ordered) _ hlimit
      (stream.size + 1) ⟨stream, [], .start⟩ opened mid pipeline (hidle.keeps hkeeps) hloop
    exact ⟨stream, ordered, items, rfl, hdraw⟩

end

/-! ## The query

A count is treated apart, as it has no loop: its only row is skipped or delivered. All other serial
plans come down to `runSerial_page`. -/

/-- Neither a deadline nor a token nor the sink ends a query early. `Run.Idle` says so of the run,
and the two other fields that `execute` sets no deadline. -/
structure Env.Undisturbed (env : Env) (query : SelectQuery) (context : Context)
    (signals : Signals) : Prop where
  /-- The query has no deadline. -/
  timeout : query.timeout = none
  /-- The settings have no deadline. -/
  defaultTimeout : env.options.defaultTimeoutMs = none
  /-- The context has no deadline, its token is not raised, and the sink takes every row. -/
  idle : (Run.start context signals).Idle env

section

variable {env : Env} {query : SelectQuery} {context : Context} {signals : Signals}

/-- `Pipeline.page` of a single row is this row, unless it is skipped. -/
theorem page_singleton (hlimit : query.limitCount?.all (0 < ·) = true) (row : Row) :
    Pipeline.page query [row] = if query.skipCount = 0 then [row] else [] := by
  have hskipped : [row].drop query.skipCount = if query.skipCount = 0 then [row] else [] := by
    cases query.skipCount <;> simp
  have hshort : ([row].drop query.skipCount).length ≤ 1 := (List.drop_sublist _ _).length_le
  unfold Pipeline.page
  rw [← hskipped]
  cases hmost : query.limitCount? with
  | none => rfl
  | some most =>
      -- one row is within every limit
      rw [hmost] at hlimit
      have hpositive : 0 < most := of_decide_eq_true hlimit
      exact List.take_of_length_le (Nat.le_trans hshort hpositive)

/-- A count without SKIP delivers its number as the only row, and with LIMIT and SKIP it delivers
the page of this row. `deliverCount` has no pipeline, and applies SKIP itself. -/
theorem deliverCount_page {clusters : List ClusterId} {name : String} {begun : Run}
    (hbegun : begun.rows = []) (hskip : query.skipCount = 0) {count : Nat} {after : Run}
    (hrun : (deliverCount env query clusters name).run.run begun = (.ok count, after))
    {limit skip : Int} (hlimit : (query.paged limit skip).limitCount?.all (0 < ·) = true)
    (slack : Nat) {begun' : Run} (hbegun' : begun'.rows = []) :
    ∃ count' after',
      (deliverCount (env.withSlack slack) (query.paged limit skip) clusters name).run.run begun' =
        (.ok count', after') ∧
      after'.rows = Pipeline.page (query.paged limit skip) after.rows := by
  obtain ⟨last, hcount, hrows⟩ := deliverCount_run env query clusters name begun
  obtain ⟨last', hcount', hrows'⟩ :=
    deliverCount_run (env.withSlack slack) (query.paged limit skip) clusters name begun'
  obtain ⟨hfound, rfl⟩ := Prod.mk.inj (hcount.symm.trans hrun)
  obtain ⟨records, hrecords, -⟩ := map_ok hfound
  have hrecords' : (env.withSlack slack).store.count clusters = .ok records := hrecords
  rw [hrecords'] at hcount' hrows'
  refine ⟨_, last', hcount', ?_⟩
  rw [hrows', hrows, hbegun, hbegun', hrecords]
  simp only [Except.toOption, Option.toList_some, List.flatMap_cons, List.flatMap_nil,
    List.append_nil, List.nil_append, if_pos hskip]
  -- the page of a single row is the row, unless it is skipped
  rw [page_singleton hlimit]

/-- A serial plan without LIMIT and SKIP that does not fail delivers some rows, and with them it
delivers the page of these rows. The cases are the plan that counts (`deliverCount_page`) and the
plan that reads records. -/
theorem runPlan_page (hsound : env.store.Sound) (hexact : env.store.IsExact)
    (hlimit : query.limit = -1) (hskip : query.skip = 0) {plan : Plan}
    (hplan : env.plan query context = .ok plan) (hserial : plan.parallel = false) {begun : Run}
    (hvars : begun.context.vars = context.vars) (hidle : begun.Idle env) (hbegun : begun.rows = [])
    {count : Nat} {after : Run} (hrun : (runPlan env query plan).run.run begun = (.ok count, after))
    {limit skip : Int} (hlimit' : limit = -1 ∨ 1 ≤ limit) (slack : Nat) {begun' : Run}
    (hvars' : begun'.context.vars = context.vars) (hidle' : begun'.Idle (env.withSlack slack))
    (hbegun' : begun'.rows = []) :
    ∃ count' after',
      (runPlan (env.withSlack slack) (query.paged limit skip) plan).run.run begun' =
        (.ok count', after') ∧
      after'.rows = Pipeline.page (query.paged limit skip) after.rows := by
  have hnone : query.limitCount? = none := by simp [SelectQuery.limitCount?, hlimit]
  have hzero : query.skipCount = 0 := by simp [SelectQuery.skipCount, hskip]
  have hpositive := query.limitCount?_paged hlimit' skip
  unfold runPlan at hrun ⊢
  cases hsource : plan.source with
  | count clusters name =>
      rw [hsource] at hrun
      exact deliverCount_page hbegun hzero hrun hpositive slack hbegun'
  | rows source =>
      rw [hsource, hserial] at hrun
      dsimp only at hrun ⊢
      rw [hserial]
      have hloads : ∀ rid r, env.store.load rid = some r → r.rid = rid :=
        fun rid r hr => (hsound.load_eq_some_iff.mp hr).2
      have hload : ∀ rid r, env.store.load rid = some r → r.isExact = true :=
        fun rid r hr => hexact.load hsound hr
      obtain ⟨stream, ordered, items, hopened, hdraw⟩ := runSerial_draws hidle hnone hrun
      have hgives := gives_of_drawItems hloads (Plan.opened_isFresh hopened).1 hdraw
      have hrecords := hexact.givesExact_of_plan hsound hplan hsource hopened
      have hitems : ∀ item ∈ items, item.record.isExact = true ∧ item.lets =
          (Evaluator.ofPlan env.store begun.context.vars query plan).bindings item.record :=
        fun item hitem => ⟨hrecords _ (hgives item hitem).1, (hgives item hitem).2⟩
      -- without LIMIT and SKIP the page is all there is
      obtain ⟨_, last, hlast, hrows⟩ := runSerial_page hidle hbegun (by simp [hnone]) hload hopened
        hdraw hitems
      rw [hrun] at hlast
      cases hlast
      rw [(page_sublist query _).2 hnone hzero] at hrows
      rw [hvars] at hdraw hitems hrows
      rw [← hvars'] at hdraw hitems hrows
      obtain ⟨count', after', hrun', hrows'⟩ := @runSerial_page (env.withSlack slack)
        (query.paged limit skip) plan source begun' hidle' hbegun' hpositive hload stream ordered
        hopened items hdraw hitems
      refine ⟨count', after', hrun', ?_⟩
      rw [hrows', hrows]
      rfl

/-- SKIP and LIMIT page one sequence of rows. If a serial query without them, which nothing ends
early, succeeds in a reachable store without floating-point numbers, `Store.IsExact`, then with them
it succeeds too, and delivers the rows from SKIP on, as many as LIMIT says, whatever the slack of
the sort buffer. -/
theorem collect_page (hreach : env.store.Reachable fun _ => True) (hexact : env.store.IsExact)
    (hundisturbed : { env with sink := .collecting : Env }.Undisturbed query context signals)
    (hserial : ∀ plan, env.plan query context = .ok plan → plan.parallel = false)
    (hlimit : query.limit = -1) (hskip : query.skip = 0) {rows : List Row}
    (hrows : (collect env query context signals).1 = .ok rows) {limit skip : Int}
    (hlimit' : limit = -1 ∨ 1 ≤ limit) (hskip' : 0 ≤ skip) (slack : Nat) :
    (collect (env.withSlack slack) (query.paged limit skip) context signals).1 =
      .ok (if limit = -1 then rows.drop skip.toNat
        else (rows.drop skip.toNat).take limit.toNat) := by
  let collecting : Env := { env with sink := .collecting }
  have hpage : Pipeline.page (query.paged limit skip) rows =
      if limit = -1 then rows.drop skip.toNat else (rows.drop skip.toNat).take limit.toNat := by
    unfold Pipeline.page
    have hcount : (query.paged limit skip).limitCount? =
        if limit < 0 then none else some limit.toNat := rfl
    rcases hlimit' with rfl | hpositive
    · rfl
    · rw [hcount, if_neg (by omega), if_neg (by omega)]
      rfl
  rw [← hpage]
  obtain ⟨outcome, houtcome, rfl⟩ := map_ok hrows
  rcases runQuery_cases collecting query context signals with
    ⟨failure, -, herror, -⟩ | ⟨plan, begun, hplan, hbegun, hvars, hidle, hdelivered, hok⟩
  · cases houtcome.symm.trans herror
  · obtain ⟨count, hcount⟩ := hok.mp ⟨outcome, houtcome⟩
    rcases hrun : (runPlan collecting query plan).run.run begun with ⟨result, after⟩
    rw [hrun] at hcount hdelivered
    obtain rfl : result = .ok count := hcount
    -- both queries have the same plan
    have hplan' := plan_paged hplan hlimit' hskip' slack
    rcases runQuery_cases (collecting.withSlack slack) (query.paged limit skip) context signals with
      ⟨failure, herror, -, -⟩ | ⟨plan', begun', hplanned, hbegun', hvars', hidle', hdelivered', hok'⟩
    · cases hplan'.symm.trans herror
    · obtain rfl : plan' = plan := Except.ok.inj (hplanned.symm.trans hplan')
      have hstill : (Run.start context signals).Idle (collecting.withSlack slack) :=
        ⟨hundisturbed.idle.sink, hundisturbed.idle.deadline, hundisturbed.idle.timedOut,
          hundisturbed.idle.cancelled⟩
      obtain ⟨count', after', hrun', hafter'⟩ := @runPlan_page collecting query context
        hreach.sound hexact hlimit hskip plan' hplan (hserial plan' hplan) begun hvars
        (hidle hundisturbed.timeout hundisturbed.defaultTimeout hundisturbed.idle) hbegun count after
        hrun limit skip hlimit' slack begun' hvars'
        (hidle' hundisturbed.timeout hundisturbed.defaultTimeout hstill) hbegun'
      rw [hrun'] at hdelivered' hok'
      obtain ⟨outcome', houtcome'⟩ := hok'.mpr ⟨count', rfl⟩
      show (Except.map _ (runQuery (collecting.withSlack slack) _ context signals).1) = _
      rw [houtcome']
      show Except.ok (runQuery (collecting.withSlack slack) _ context signals).2.rows = _
      rw [hdelivered', hafter', ← hdelivered]
      rfl

end

/-! ## A page of ties -/

/-- Five records with ties in the field `x`. -/
def tiesStore : Store := .ofChanges [
  .createClass "A" none 1 false,
  .insert "A" [("x", .int 2)],
  .insert "A" [("x", .int 1)],
  .insert "A" [("x", .int 2)],
  .insert "A" [("x", .int 1)],
  .insert "A" [("x", .int 1)]]

/-- An executor over `tiesStore`. -/
def tiesEnv : Env := ⟨tiesStore, .default, fun _ => 0, .collecting⟩

/-- All records in the order of `x`. -/
def tiesQuery : SelectQuery :=
  { SelectQuery.ofTarget (.ofClass "A" true) with orderBy := [⟨⟨"x", []⟩, .asc⟩] }

/-- The second and the third record in the order of the field, from a sort buffer without slack,
which is cut back after every record. -/
theorem collect_page_ties :
    ∃ rows, tiesEnv.store.Reachable (fun _ => True) ∧
      (collect tiesEnv tiesQuery .empty []).1 = .ok rows ∧
      rowRids rows = [⟨1, 1⟩, ⟨1, 3⟩, ⟨1, 4⟩, ⟨1, 0⟩, ⟨1, 2⟩] ∧
      (collect (tiesEnv.withSlack 0) (tiesQuery.paged 2 1) .empty []).1 =
        .ok ((rows.drop 1).take 2) := by
  have hreach : tiesStore.Reachable fun _ => True :=
    Store.reachable_ofChanges fun change _ => by cases change <;> trivial
  have hadmitted : tiesStore.Reachable fun fields => Value.entriesExact fields = true :=
    Store.reachable_ofChanges (by decide +kernel)
  -- a query with ORDER BY has no workers
  have hserial : ((tiesEnv.plan tiesQuery .empty).toOption.map Plan.parallel) = some false := by
    decide +kernel
  have hrids : ((collect tiesEnv tiesQuery .empty []).1.toOption.map rowRids) =
      some [⟨1, 1⟩, ⟨1, 3⟩, ⟨1, 4⟩, ⟨1, 0⟩, ⟨1, 2⟩] := by
    decide +kernel
  rcases hrows : (collect tiesEnv tiesQuery .empty []).1 with failure | rows
  · rw [hrows] at hrids
    cases hrids
  rw [hrows] at hrids
  refine ⟨rows, hreach, rfl, Option.some.inj hrids, ?_⟩
  refine collect_page hreach (hadmitted.isExact fun _ h => h) ⟨rfl, rfl, rfl, rfl, rfl, rfl⟩
    (fun plan hplan => ?_) rfl rfl hrows (.inr (by decide)) (by decide) 0
  rw [hplan] at hserial
  exact Option.some.inj hserial

end RecordQuery
