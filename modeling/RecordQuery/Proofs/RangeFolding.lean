import RecordQuery.Proofs.Conditions

/-!
# `RecordQuery.Proofs.RangeFolding`: two bounds become one BETWEEN

`Condition.foldRanges` takes every conjunction of a condition as the list of its members
(`conjuncts`), folds inside the members, and then pairs the bounds among them. `pairBounds` takes a
bound, looks behind it for one on the same field from the other side (`Opposes`), and puts a BETWEEN
in its place. What is no conjunction counts as one with a single member. The conjunctions of a
condition, inside and out, are `andChains`.

Three questions are answered. Does the condition keep its value? A bound always has a value, so
moving one past other members makes no failure come earlier, and the answer is yes, with one
exception. The BETWEEN names its field as a path (`Operand.field`), so a name with a dot in it no
longer means the field of the record at hand. `PairsDotFree` excludes this for pairs of opposite
bounds, and for nothing else. The converse is not claimed. A condition that fails may get a value,
when folding moves a bound in front of the failure.

Is the result normal? `Settled` is what becomes of a member of a conjunction, and `Folded` of a
whole condition. Both are proved in one induction over the condition (`folded_foldRanges`), as
folding a conjunction needs the members settled, and folding under OR and NOT needs the whole
folded.

What becomes of the comparisons? `forall_comparisons_folded` carries a property of comparisons over
to the folded condition, which is how the statements about plans deal with folding.

The theorems:

* `evaluate_foldRanges_undotted`: a condition that has a value keeps it, unless opposite bounds are
  on a field whose name has a dot in it.
* `evaluate_dottedRange`: a record where such a condition does not keep it.
* `forall_comparisons_folded`: what holds of all comparisons, and of pairs of them, holds of the
  comparisons of the folded condition.
* `foldRanges_normal`: no opposite bounds are left, each pair takes one comparison away, and a
  folded condition stays as it is.
-/

set_option autoImplicit false

namespace RecordQuery

/-- `FieldChain.parse` splits at dots, so a name without dots is a path of its own. -/
theorem FieldChain.parse_of_no_dot {name : String} (h : '.' ∉ name.toList) :
    FieldChain.parse name = ⟨name, []⟩ := by
  have hsplit : ∀ cs : List Char, '.' ∉ cs → splitDots cs = [cs] := by
    intro cs hcs
    induction cs with
    | nil => rfl
    | cons c cs ih =>
        obtain ⟨hc, hcs⟩ := not_or.mp (List.mem_cons.not.mp hcs)
        have hdot : (c == '.') = false := by simpa using Ne.symm hc
        rw [splitDots, hdot, ih hcs]
        rfl
  unfold parse
  rw [hsplit _ h]
  simp [ofSegments]

/-! ## Folding ranges

A bound is described by its operator and its field (`rangeBound?`), and a pair of opposite ones by
the BETWEEN that both make. `pairBounds_induction` has the three cases of `pairBounds`, and both the
value of a condition and its comparisons are followed through them. -/

/-- Whether a bound holds for a record. It is false where the field and the constant are not
comparable, as `Operator.apply` is for the order operators. -/
def RangeBound.holds (bound : RangeBound) (record : Record) : Bool :=
  (Operator.ordered? (record.get bound.field) bound.value).any fun o =>
    match bound.operator with
    | .less => o.isLT
    | .lessOrEquals => o.isLE
    | .greater => o.isGT
    | _ => o.isGE

/-- Whether the operator makes a bound of a comparison: it is one of the four order operators `<`,
`<=`, `>` and `>=`. -/
def Operator.isBound (op : Operator) : Bool := op.isLowerBound || op.isUpperBound

/-- An order operator holds where the one that `inverted?` names holds between the operands turned
round. Order operators have no exception of the kind that IN and CONTAINS have. -/
theorem Operator.apply_of_inverted {op inverted : Operator}
    (hinverted : op.inverted? = some inverted) (hbound : inverted.isBound = true) (a b : Value) :
    op.apply a b = inverted.apply b a := by
  refine ((Operator.apply_inverted_iff hinverted a b).mpr fun hmeets => ?_).symm
  -- no operator that is turned into an order operator looks for items
  rcases hmeets.1 with rfl | rfl <;> cases hinverted <;> cases hbound

/-- `holds` is what the bound's operator answers for the field, and it never fails. -/
theorem RangeBound.apply_eq (bound : RangeBound) (hbound : bound.operator.isBound = true)
    (record : Record) :
    bound.operator.apply (record.get bound.field) bound.value = .ok (bound.holds record) := by
  obtain ⟨field, op, value⟩ := bound
  cases op with
  | less | lessOrEquals | greater | greaterOrEquals => rfl
  | _ => cases hbound

namespace Condition

/-- Every field of the record at hand is named without a dot, so that `FieldChain` reads it as the
path of one step that it is. -/
def DotFree (condition : Condition) : Prop :=
  ∀ chain ∈ condition.chains, chain.isLong = false → FieldChain.parse chain.first = chain

/-- The field that the condition bounds, if it bounds any, is a path of its own. So the BETWEEN that
`ofBounds` makes is about the same field. -/
def BoundDotFree (condition : Condition) : Prop :=
  ∀ bound, condition.rangeBound? = some bound → FieldChain.parse bound.field = ⟨bound.field, []⟩

/-- Both conditions are bounds (`rangeBound?`), of one field and from opposite sides, one from below
and one from above. -/
def Opposes (c d : Condition) : Prop :=
  ∃ first second, c.rangeBound? = some first ∧ d.rangeBound? = some second ∧
    second.field = first.field ∧ second.operator.isLowerBound ≠ first.operator.isLowerBound

/-- Conditions that `Opposes` relates are `BoundDotFree`: they bound fields that are named without a
dot. Other fields may have dots in their names. -/
def PairsDotFree (cs : List Condition) : Prop :=
  ∀ c ∈ cs, ∀ d ∈ cs, c.Opposes d → c.BoundDotFree

/-- The conjunctions inside the members of a condition, as the lists of their members. A conjunction
itself is not listed here, as it may be part of a longer one. -/
def chainsInside : Condition → List (List Condition)
  | and left right => left.chainsInside ++ right.chainsInside
  | or left right =>
      (left.conjuncts :: left.chainsInside) ++ (right.conjuncts :: right.chainsInside)
  | not inner => inner.conjuncts :: inner.chainsInside
  | compare _ => []

/-- All conjunctions of a condition, as the lists of their members: its own one, and those inside
its members. -/
def andChains (condition : Condition) : List (List Condition) :=
  condition.conjuncts :: condition.chainsInside

section

variable {scope : Scope} {record : Record}

/-- The inversion of `rangeBound?`: a bound comes from a comparison of a field of the record at hand
with a literal, from whichever side, by an order operator. -/
theorem rangeBound?_some {c : Comparison} {bound : RangeBound}
    (h : (compare c).rangeBound? = some bound) :
    ∃ chain, c.fieldOnLeft? = some ⟨.field chain, bound.operator, .literal bound.value⟩ ∧
      chain.isLong = false ∧ bound.field = chain.first ∧ bound.operator.isBound = true := by
  simp only [rangeBound?] at h
  split at h
  next chain op value hleft =>
    simp only [Option.ite_none_left_eq_some, Option.some.injEq, Bool.or_eq_true, not_or,
      Bool.not_eq_true] at h
    obtain ⟨⟨hlong, -⟩, hop, -, rfl⟩ := h
    exact ⟨chain, hleft, hlong, rfl, by rwa [Bool.not_eq_false'] at hop⟩
  · cases h

/-- Only comparisons bound fields: what has a `rangeBound?` is a `compare`. -/
theorem compare_of_rangeBound {c : Condition} {bound : RangeBound}
    (h : c.rangeBound? = some bound) : ∃ d, c = compare d := by
  cases c with
  | compare d => exact ⟨d, rfl⟩
  | _ => cases h

/-- The operator of a `rangeBound?` is one of the order operators. -/
theorem isBound_of_rangeBound {c : Condition} {bound : RangeBound}
    (h : c.rangeBound? = some bound) : bound.operator.isBound = true := by
  obtain ⟨c, rfl⟩ := compare_of_rangeBound h
  obtain ⟨-, -, -, -, hbound⟩ := rangeBound?_some h
  exact hbound

/-- A `rangeBound?` holds where the condition is true that it comes from, and this never fails. -/
theorem evaluate_of_rangeBound {c : Condition} {bound : RangeBound}
    (h : c.rangeBound? = some bound) : c.evaluate scope record = .ok (bound.holds record) := by
  obtain ⟨c, rfl⟩ := compare_of_rangeBound h
  obtain ⟨chain, hleft, hshort, hfield, hbound⟩ := rangeBound?_some h
  have hhops : chain.hops = [] := by simpa [FieldChain.isLong] using hshort
  have hresolve : (Operand.field chain).resolve scope record = record.get bound.field := by
    simp [Operand.resolve, FieldChain.resolve, hhops, hfield]
  rcases (Comparison.fieldOnLeft?_cases hleft).2 with rfl | ⟨hinverted, hright, hconstant⟩
  · rw [evaluate, Comparison.evaluate, hresolve]
    exact bound.apply_eq hbound record
  · -- the field is on the right, so both sides are turned round
    rw [evaluate, Comparison.evaluate, ← hright, ← hconstant, hresolve,
      Operator.apply_of_inverted hinverted hbound]
    exact bound.apply_eq hbound record

/-- Where every field is named without a dot, which is `hdots`, so is the one that a condition
bounds. -/
theorem DotFree.bound {c : Condition} (hdots : c.DotFree) : c.BoundDotFree := by
  intro bound h
  obtain ⟨c, rfl⟩ := compare_of_rangeBound h
  obtain ⟨chain, hleft, hshort, hfield, -⟩ := rangeBound?_some h
  have hhops : chain.hops = [] := by simpa [FieldChain.isLong] using hshort
  have hchain : chain ∈ (compare c).chains := mem_chains_iff.mpr
    ⟨c, List.mem_singleton.mpr rfl, Comparison.side_of_fieldOnLeft? hleft⟩
  rw [hfield, hdots chain hchain hshort, ← hhops]

/-- A lower and an upper bound on a field make a BETWEEN that holds where both do. `hparse`: the
name is a path of its own. `ofBounds` puts the lower bound first, in whichever order it gets
them. -/
theorem evaluate_ofBounds {lower upper : RangeBound} (hlower : lower.operator.isLowerBound = true)
    (hupper : upper.operator.isUpperBound = true) (hfield : upper.field = lower.field)
    (hparse : FieldChain.parse lower.field = ⟨lower.field, []⟩) :
    (ofBounds lower upper).evaluate scope record =
        .ok (lower.holds record && upper.holds record) ∧
      ofBounds upper lower = ofBounds lower upper := by
  have hnot : upper.operator.isLowerBound = false := by
    cases hop : upper.operator <;> rw [hop] at hupper <;> first | rfl | cases hupper
  refine ⟨?_, by simp [ofBounds, hlower, hnot]⟩
  obtain ⟨field, op, value⟩ := lower
  obtain ⟨field', op', value'⟩ := upper
  obtain rfl : field' = field := hfield
  have hparse : FieldChain.parse field' = ⟨field', []⟩ := hparse
  -- of all pairs of operators only a lower bound with an upper one is left
  cases op with
  | greater | greaterOrEquals =>
      cases op' with
      | less | lessOrEquals =>
          simp [ofBounds, evaluate, Comparison.evaluate, Operator.apply, Operator.betweenBounds,
            Operator.isLowerBound, RangeBound.holds, Operand.resolve, FieldChain.resolve, hparse]
      | _ => cases hupper
  | _ => cases hlower

/-- The inversion of `takePartner?`: the partner stands among the conditions and bounds the field
from the other side, and the others keep their order. -/
theorem takePartner?_some {first second : RangeBound} {cs others : List Condition}
    (h : takePartner? first cs = some (second, others)) :
    ∃ before c behind, cs = before ++ c :: behind ∧ others = before ++ behind ∧
      c.rangeBound? = some second ∧ second.field = first.field ∧
      second.operator.isLowerBound ≠ first.operator.isLowerBound := by
  -- the first partner is taken, so the conditions before it are passed by one after the other
  induction cs generalizing others with
  | nil => cases h
  | cons c cs ih =>
      unfold takePartner? at h
      split at h
      next hpartner =>
        obtain ⟨bound, hbound, heq⟩ := Option.map_eq_some_iff.mp h
        cases heq
        unfold isPartnerOf at hpartner
        rw [hbound] at hpartner
        exact ⟨[], c, cs, rfl, rfl, hbound, by simp_all⟩
      · obtain ⟨⟨bound, rest⟩, hrest, heq⟩ := Option.map_eq_some_iff.mp h
        cases heq
        obtain ⟨before, d, behind, rfl, rfl, hd⟩ := ih hrest
        exact ⟨c :: before, d, behind, rfl, rfl, hd⟩

/-- A bound for which `takePartner?` finds nothing has no bound on its field from the other side
among the conditions behind it. -/
theorem takePartner?_none {first second : RangeBound} {cs : List Condition}
    (h : takePartner? first cs = none) {d : Condition} (hd : d ∈ cs)
    (hsecond : d.rangeBound? = some second) (hfield : second.field = first.field) :
    ¬second.operator.isLowerBound ≠ first.operator.isLowerBound := by
  intro hopposite
  induction cs with
  | nil => cases hd
  | cons c cs ih =>
      unfold takePartner? at h
      split at h
      next hpartner =>
        unfold isPartnerOf at hpartner
        split at hpartner
        next bound hbound =>
          rw [hbound] at h
          cases h
        · cases hpartner
      next hpartner =>
        rcases List.mem_cons.mp hd with rfl | hd
        · simp [isPartnerOf, hsecond, hfield, hopposite] at hpartner
        · exact ih (Option.map_eq_none_iff.mp h) hd

/-- The BETWEEN that `ofBounds` makes of a pair holds where both bounds do, whichever of them comes
first. `hdots` is what the rebuilt field needs. -/
theorem evaluate_pair {c d : Condition} {first second : RangeBound}
    (hfirst : c.rangeBound? = some first) (hsecond : d.rangeBound? = some second)
    (hfield : second.field = first.field)
    (hopposite : second.operator.isLowerBound ≠ first.operator.isLowerBound)
    (hdots : c.BoundDotFree) :
    (ofBounds first second).evaluate scope record =
      .ok (first.holds record && second.holds record) := by
  have hside := isBound_of_rangeBound hfirst
  have hside' := isBound_of_rangeBound hsecond
  have hparse := hdots first hfirst
  -- the order of the two bounds does not matter to the BETWEEN
  cases hlower : first.operator.isLowerBound with
  | true =>
      have hupper : second.operator.isUpperBound = true := by simp_all [Operator.isBound]
      exact (evaluate_ofBounds hlower hupper hfield hparse).1
  | false =>
      have hlower' : second.operator.isLowerBound = true := by simp_all
      have hupper : first.operator.isUpperBound = true := by simp_all [Operator.isBound]
      obtain ⟨hevaluate, hsame⟩ := @evaluate_ofBounds scope record second first hlower' hupper
        hfield.symm (hfield ▸ hparse)
      rw [hsame, hevaluate, Bool.and_comm]

/-- One step of `pairBounds`: a member stays where it stands when it is no bound, or a bound without
a partner. -/
theorem pairBounds_cons_alone {c : Condition} {cs : List Condition}
    (halone : ∀ first, c.rangeBound? = some first → takePartner? first cs = none) :
    pairBounds (c :: cs) = (c :: (pairBounds cs).1, (pairBounds cs).2) := by
  rw [pairBounds]
  split
  · rfl
  next first hfirst =>
    split
    · rfl
    next second others hpartner =>
      rw [halone first hfirst] at hpartner
      cases hpartner

/-- The other step of `pairBounds`: a bound that has a partner makes a BETWEEN in its place, and the
partner is gone. -/
theorem pairBounds_cons_pair {c : Condition} {cs others : List Condition}
    {first second : RangeBound} (hfirst : c.rangeBound? = some first)
    (hpartner : takePartner? first cs = some (second, others)) :
    pairBounds (c :: cs) =
      (ofBounds first second :: (pairBounds others).1, (pairBounds others).2 + 1) := by
  rw [pairBounds]
  split
  next hnone =>
    rw [hfirst] at hnone
    cases hnone
  next hbound =>
    cases hfirst.symm.trans hbound
    split
    next hnone =>
      rw [hpartner] at hnone
      cases hnone
    next hsome =>
      cases hpartner.symm.trans hsome
      rfl

/-- Induction along `pairBounds`, with what it does in each case. The first member stays as it is
(`alone`), or it is a bound whose partner stands among the rest and leaves them with it (`pair`).
The recursion goes on with a list that is shorter by two then, so the induction is on the length. -/
theorem pairBounds_induction {motive : List Condition → Prop} (nil : motive [])
    (alone : ∀ c cs, (∀ d ∈ cs, ¬c.Opposes d) →
      pairBounds (c :: cs) = (c :: (pairBounds cs).1, (pairBounds cs).2) → motive cs →
      motive (c :: cs))
    (pair : ∀ c before d behind first second, c.rangeBound? = some first →
      d.rangeBound? = some second → second.field = first.field →
      second.operator.isLowerBound ≠ first.operator.isLowerBound →
      pairBounds (c :: (before ++ d :: behind)) =
        (ofBounds first second :: (pairBounds (before ++ behind)).1,
          (pairBounds (before ++ behind)).2 + 1) →
      motive (before ++ behind) → motive (c :: (before ++ d :: behind)))
    (cs : List Condition) : motive cs := by
  -- a pair takes a member out of the rest, so the induction is on the length
  induction hlength : cs.length using Nat.strongRecOn generalizing cs with
  | ind n ih =>
  cases cs with
  | nil => exact nil
  | cons c cs =>
      by_cases hpair : ∃ first second others, c.rangeBound? = some first ∧
          takePartner? first cs = some (second, others)
      · obtain ⟨first, second, others, hfirst, hpartner⟩ := hpair
        have hpairs := pairBounds_cons_pair hfirst hpartner
        obtain ⟨before, d, behind, rfl, rfl, hsecond, hfield, hopposite⟩ :=
          takePartner?_some hpartner
        have hshorter : (before ++ behind).length < n := by
          rw [← hlength]
          simp only [List.length_cons, List.length_append]
          omega
        exact pair c before d behind first second hfirst hsecond hfield hopposite hpairs
          (ih _ hshorter _ rfl)
      · have halone : ∀ first, c.rangeBound? = some first → takePartner? first cs = none := by
          intro first hfirst
          cases hpartner : takePartner? first cs with
          | none => rfl
          | some found => exact absurd ⟨first, found.1, found.2, hfirst, hpartner⟩ hpair
        have hshorter : cs.length < n := by
          rw [← hlength]
          exact Nat.lt_succ_self _
        refine alone c cs ?_ (pairBounds_cons_alone halone) (ih _ hshorter _ rfl)
        rintro d hd ⟨first, second, hfirst, hsecond, hfield, hopposite⟩
        exact takePartner?_none (halone first hfirst) hd hsecond hfield hopposite

/-- Fewer conditions have fewer opposite bounds, so `PairsDotFree` passes to any part of them. -/
theorem PairsDotFree.mono {cs ds : List Condition} (h : PairsDotFree cs)
    (hsub : ∀ c ∈ ds, c ∈ cs) : PairsDotFree ds :=
  fun c hc d hd => h c (hsub c hc) d (hsub d hd)

/-- Conditions that have a value together keep it under `pairBounds`. The partner of a bound is
evaluated earlier than before. It has a value, and if it is false the conjunction is false in any
case, since none of the members before it fails. -/
theorem evaluateAll_pairBounds {cs : List Condition} (hdots : PairsDotFree cs) {b : Bool}
    (h : evaluateAll scope record cs = .ok b) :
    evaluateAll scope record (pairBounds cs).1 = .ok b := by
  induction cs using pairBounds_induction generalizing b with
  | nil => simpa [pairBounds] using h
  | alone c cs _ hpairs ih =>
      have hcs := hdots.mono fun e he => List.mem_cons_of_mem c he
      rw [hpairs]
      simp only [evaluateAll] at h ⊢
      split at h
      · cases h
      · exact h
      · exact ih hcs h
  | pair c before d behind first second hfirst hsecond hfield hopposite hpairs ih =>
      have hc : c.BoundDotFree := hdots c List.mem_cons_self d
        (List.mem_cons_of_mem _ (List.mem_append_right _ List.mem_cons_self))
        ⟨first, second, hfirst, hsecond, hfield, hopposite⟩
      have hothers : PairsDotFree (before ++ behind) := hdots.mono fun e he =>
        List.mem_cons_of_mem _ (((List.sublist_cons_self d behind).append_left before).subset he)
      have hrest {b : Bool} := @ih hothers b
      rw [hpairs]
      simp only [evaluateAll, evaluate_pair hfirst hsecond hfield hopposite hc]
      simp only [evaluateAll, evaluateAll_append, evaluate_of_rangeBound hfirst,
        evaluate_of_rangeBound hsecond] at h hrest
      -- where the first bound fails nothing else is evaluated, before the pairing or after it
      cases hholds : first.holds record with
      | false => simpa [hholds] using h
      | true =>
          rw [hholds] at h
          cases hholds' : second.holds record with
          | false =>
              -- the second bound now comes before the members that stood between
              rw [hholds'] at h
              dsimp only at h
              rw [Bool.and_false]
              split at h
              · cases h
              · exact h
              · exact h
          | true =>
              rw [hholds'] at h
              exact hrest h

/-- What `foldConjuncts` lists are members of the conjunction, or no bounds: only comparisons bound
fields, and folding leaves these as they are. -/
theorem mem_foldConjuncts {condition c : Condition} (hc : c ∈ condition.foldConjuncts.1) :
    c ∈ condition.conjuncts ∨ c.rangeBound? = none := by
  induction condition with
  | and left right ihl ihr =>
      rcases List.mem_append.mp hc with hc | hc
      · exact (ihl hc).imp_left (List.mem_append_left _)
      · exact (ihr hc).imp_left (List.mem_append_right _)
  | or left right =>
      rw [List.mem_singleton.mp hc]
      exact .inr rfl
  | not inner =>
      rw [List.mem_singleton.mp hc]
      exact .inr rfl
  | compare c => exact .inl hc

/-- Folding inside the members of a conjunction makes no new bounds, so `PairsDotFree` holds of the
folded members too. -/
theorem pairsDotFree_foldConjuncts {condition : Condition}
    (h : PairsDotFree condition.conjuncts) : PairsDotFree condition.foldConjuncts.1 := by
  rintro c hc d hd ⟨first, second, hfirst, hsecond, hopposite⟩
  rcases mem_foldConjuncts hc with hc | hnone
  · rcases mem_foldConjuncts hd with hd | hnone
    · exact h c hc d hd ⟨first, second, hfirst, hsecond, hopposite⟩
    · rw [hsecond] at hnone
      cases hnone
  · rw [hfirst] at hnone
    cases hnone

/-- A condition has members, also folded, so `conjunction` can be rebuilt from them. -/
theorem foldConjuncts_ne_nil (condition : Condition) : condition.foldConjuncts.1 ≠ [] := by
  induction condition with
  | and left right ihl _ => exact List.append_ne_nil_of_left_ne_nil ihl _
  | _ => exact List.cons_ne_nil _ _

/-- `pairBounds` leaves a member: each BETWEEN stands for its pair. -/
theorem pairBounds_ne_nil {cs : List Condition} (h : cs ≠ []) : (pairBounds cs).1 ≠ [] := by
  cases cs using pairBounds_induction with
  | nil => exact absurd rfl h
  | alone c cs _ hpairs _ =>
      rw [hpairs]
      exact List.cons_ne_nil _ _
  | pair c before d behind first second _ _ _ _ hpairs _ =>
      rw [hpairs]
      exact List.cons_ne_nil _ _

/-- The equation of `foldRanges` for a conjunction: it pairs the bounds among the folded members and
puts the result together again. -/
theorem foldRanges_and (left right : Condition) :
    ∃ first rest, (pairBounds (and left right).foldConjuncts.1).1 = first :: rest ∧
      (and left right).foldRanges = (conjunction first rest,
        (and left right).foldConjuncts.2 + (pairBounds (and left right).foldConjuncts.1).2) := by
  obtain ⟨first, rest, hmembers⟩ := List.exists_cons_of_ne_nil
    (pairBounds_ne_nil (foldConjuncts_ne_nil (and left right)))
  refine ⟨first, rest, hmembers, ?_⟩
  have hmembers : (pairBounds (left.foldConjuncts.1 ++ right.foldConjuncts.1)).1 = first :: rest :=
    hmembers
  unfold foldRanges
  dsimp only
  rw [hmembers]
  rfl

/-- A condition that has a value keeps it under `foldRanges`, and so do the members that
`foldConjuncts` lists. The two are proved together by induction on the condition, since a
conjunction is folded by its members, and the members of AND inside AND belong to the outer one. -/
theorem evaluate_folded {condition : Condition}
    (hinside : ∀ chain ∈ condition.chainsInside, PairsDotFree chain) {b : Bool}
    (h : condition.evaluate scope record = .ok b) :
    (PairsDotFree condition.conjuncts → condition.foldRanges.1.evaluate scope record = .ok b) ∧
      evaluateAll scope record condition.foldConjuncts.1 = .ok b := by
  induction condition generalizing b with
  | and left right ihl ihr =>
      have hleft := fun chain hchain => hinside chain (List.mem_append_left _ hchain)
      have hright := fun chain hchain => hinside chain (List.mem_append_right _ hchain)
      -- the right side is evaluated only where the left side holds, as among the members
      have hmembers : evaluateAll scope record (and left right).foldConjuncts.1 = .ok b := by
        show evaluateAll scope record (left.foldConjuncts.1 ++ right.foldConjuncts.1) = .ok b
        rw [evaluateAll_append]
        simp only [evaluate] at h
        split at h
        · cases h
        next hfalse =>
          rw [(ihl hleft hfalse).2]
          exact h
        next htrue =>
          rw [(ihl hleft htrue).2]
          exact (ihr hright h).2
      refine ⟨fun hdots => ?_, hmembers⟩
      obtain ⟨first, rest, hpairs, hfolded⟩ := foldRanges_and left right
      rw [hfolded, evaluate_conjunction, ← hpairs]
      exact evaluateAll_pairBounds (pairsDotFree_foldConjuncts hdots) hmembers
  | or left right ihl ihr =>
      obtain ⟨⟨hleft, hleftInside⟩, hright, hrightInside⟩ :
          (PairsDotFree left.conjuncts ∧ ∀ chain ∈ left.chainsInside, PairsDotFree chain) ∧
            PairsDotFree right.conjuncts ∧ ∀ chain ∈ right.chainsInside, PairsDotFree chain := by
        simpa only [chainsInside, List.forall_mem_append, List.forall_mem_cons] using hinside
      have hfolded : (or left right).foldRanges.1.evaluate scope record = .ok b := by
        unfold foldRanges
        simp only [evaluate] at h ⊢
        split at h
        · cases h
        next htrue =>
          rw [(ihl hleftInside htrue).1 hleft]
          exact h
        next hfalse =>
          rw [(ihl hleftInside hfalse).1 hleft]
          exact (ihr hrightInside h).1 hright
      exact ⟨fun _ => hfolded, (evaluateAll_singleton _).trans hfolded⟩
  | not inner ih =>
      obtain ⟨hinner, hinnerInside⟩ := List.forall_mem_cons.mp hinside
      have hfolded : (not inner).foldRanges.1.evaluate scope record = .ok b := by
        unfold foldRanges
        simp only [evaluate] at h ⊢
        split at h
        · cases h
        next hvalue =>
          rw [(ih hinnerInside hvalue).1 hinner]
          exact h
      exact ⟨fun _ => hfolded, (evaluateAll_singleton _).trans hfolded⟩
  | compare c => exact ⟨fun _ => h, (evaluateAll_singleton _).trans h⟩

/-- The fields that the members of one of the `andChains` name are fields of the condition. -/
theorem mem_chains_of_mem_andChains {condition c : Condition} {chain : List Condition}
    (hchain : chain ∈ condition.andChains) (hc : c ∈ chain) {field : FieldChain}
    (hfield : field ∈ c.chains) : field ∈ condition.chains := by
  induction condition generalizing chain with
  -- a conjunction has a chain of its own, which joins the first chains of its two sides
  | and left right ihl ihr =>
      have hleft (h : chain ∈ left.andChains) : field ∈ (and left right).chains :=
        List.mem_append_left _ (ihl h hc)
      have hright (h : chain ∈ right.andChains) : field ∈ (and left right).chains :=
        List.mem_append_right _ (ihr h hc)
      rcases List.mem_cons.mp hchain with rfl | hchain
      · rcases List.mem_append.mp hc with hc | hc
        · exact List.mem_append_left _ (ihl List.mem_cons_self hc)
        · exact List.mem_append_right _ (ihr List.mem_cons_self hc)
      · rcases List.mem_append.mp hchain with hchain | hchain
        · exact hleft (List.mem_cons_of_mem _ hchain)
        · exact hright (List.mem_cons_of_mem _ hchain)
  | or left right ihl ihr =>
      rcases List.mem_cons.mp hchain with rfl | hchain
      · rwa [List.mem_singleton.mp hc] at hfield
      · rcases List.mem_append.mp hchain with hchain | hchain
        · exact List.mem_append_left _ (ihl hchain hc)
        · exact List.mem_append_right _ (ihr hchain hc)
  | not inner ih =>
      rcases List.mem_cons.mp hchain with rfl | hchain
      · rwa [List.mem_singleton.mp hc] at hfield
      · exact ih hchain hc
  | compare d =>
      rw [List.mem_singleton.mp hchain] at hc
      rwa [List.mem_singleton.mp hc] at hfield

/-- `DotFree` gives `PairsDotFree` for every conjunction of the condition. -/
theorem DotFree.pairs {condition : Condition} (h : condition.DotFree) :
    ∀ chain ∈ condition.andChains, PairsDotFree chain := by
  intro chain hchain c hc d _ _
  exact DotFree.bound fun field hfield => h field (mem_chains_of_mem_andChains hchain hc hfield)

/-- A `DotFree` condition keeps its value under `foldRanges`. -/
theorem evaluate_foldRanges {condition : Condition} (hdots : condition.DotFree) {b : Bool}
    (h : condition.evaluate scope record = .ok b) :
    condition.foldRanges.1.evaluate scope record = .ok b := by
  obtain ⟨hown, hinside⟩ := List.forall_mem_cons.mp hdots.pairs
  exact (evaluate_folded hinside h).1 hown

/-- A condition that has a value keeps it when its ranges are folded, as long as no conjunction in
it has opposite bounds on a field whose name has a dot in it. `hdots` asks this of pairs with
`c.Opposes d` only. A name with a dot may occur anywhere else. -/
theorem evaluate_foldRanges_undotted {condition : Condition}
    (hdots : ∀ chain ∈ condition.andChains, ∀ c ∈ chain, ∀ d ∈ chain, c.Opposes d →
      ∀ bound, c.rangeBound? = some bound → '.' ∉ bound.field.toList)
    {b : Bool} (h : condition.evaluate scope record = .ok b) :
    condition.foldRanges.1.evaluate scope record = .ok b := by
  have hpairs : ∀ chain ∈ condition.andChains, PairsDotFree chain :=
    fun chain hchain c hc d hd hopposes bound hbound =>
      FieldChain.parse_of_no_dot (hdots chain hchain c hc d hd hopposes bound hbound)
  obtain ⟨hown, hinside⟩ := List.forall_mem_cons.mp hpairs
  exact (evaluate_folded hinside h).1 hown

end

/-- Two ranges: `x > 1 AND (NOT (y >= 5 AND 7 > y) OR z LIKE "a") AND 10 >= x`. -/
def nestedRanges : Condition :=
  and (compare ⟨.field ⟨"x", []⟩, .greater, .literal (.int 1)⟩)
    (and
      (or
        (not (and (compare ⟨.field ⟨"y", []⟩, .greaterOrEquals, .literal (.int 5)⟩)
          (compare ⟨.literal (.int 7), .greater, .field ⟨"y", []⟩⟩)))
        (compare ⟨.field ⟨"z", []⟩, .like, .literal (.string "a")⟩))
      (compare ⟨.literal (.int 10), .greaterOrEquals, .field ⟨"x", []⟩⟩))

/-- Both ranges are folded, the one under NOT as well, and the condition is still true where `x` is
3 and `y` is 9. -/
theorem evaluate_nestedRanges :
    let record : Record := ⟨⟨1, 0⟩, "A", [("x", .int 3), ("y", .int 9)]⟩
    nestedRanges.evaluate ⟨fun _ => none, [], []⟩ record = .ok true ∧
      nestedRanges.foldRanges.1.evaluate ⟨fun _ => none, [], []⟩ record = .ok true := by
  have hvalue : nestedRanges.evaluate ⟨fun _ => none, [], []⟩
      ⟨⟨1, 0⟩, "A", [("x", .int 3), ("y", .int 9)]⟩ = .ok true := by decide +kernel
  refine ⟨hvalue, evaluate_foldRanges_undotted ?_ hvalue⟩
  -- no bound at all is on a field whose name has a dot in it
  have hundotted : ∀ chain ∈ nestedRanges.andChains, ∀ c ∈ chain,
      c.rangeBound?.all (fun bound => !bound.field.toList.contains '.') = true := by
    decide +kernel
  intro chain hchain c hc d _ _ bound hbound
  have hname := hundotted chain hchain c hc
  rw [hbound] at hname
  simpa using hname

/-- A field whose name has a dot in it, bounded from both sides: `Opposes` without
`BoundDotFree`. -/
def dottedRange : Condition :=
  and (compare ⟨.field ⟨"a.b", []⟩, .greater, .literal (.int 1)⟩)
    (compare ⟨.field ⟨"a.b", []⟩, .less, .literal (.int 10)⟩)

/-- The condition is true of the record, and the folded one is not. The BETWEEN reads the name as a
path, and finds nothing at its end. -/
theorem evaluate_dottedRange :
    let record : Record := ⟨⟨1, 0⟩, "A", [("a.b", .int 5)]⟩
    dottedRange.evaluate ⟨fun _ => none, [], []⟩ record = .ok true ∧
      dottedRange.foldRanges.1.evaluate ⟨fun _ => none, [], []⟩ record = .ok false := by
  decide +kernel

/-- What `pairBounds` lists are members from before, and BETWEENs made with `ofBounds` of two
opposite bounds among them. -/
theorem mem_pairBounds {cs : List Condition} {member : Condition}
    (h : member ∈ (pairBounds cs).1) :
    member ∈ cs ∨ ∃ c ∈ cs, ∃ d ∈ cs, ∃ first second, c.rangeBound? = some first ∧
      d.rangeBound? = some second ∧ second.field = first.field ∧
      second.operator.isLowerBound ≠ first.operator.isLowerBound ∧
      member = ofBounds first second := by
  -- what is paired stands anywhere among the members, so the rest is a sublist and not a tail
  induction cs using pairBounds_induction with
  | nil => simp [pairBounds] at h
  | alone c cs _ hpairs ih =>
      rw [hpairs] at h
      rcases List.mem_cons.mp h with rfl | h
      · exact .inl List.mem_cons_self
      · rcases ih h with h | ⟨e, he, f, hf, hrest⟩
        · exact .inl (List.mem_cons_of_mem _ h)
        · exact .inr ⟨e, List.mem_cons_of_mem _ he, f, List.mem_cons_of_mem _ hf, hrest⟩
  | pair c before d behind first second hfirst hsecond hfield hopposite hpairs ih =>
      have hmem {e : Condition} (he : e ∈ before ++ behind) : e ∈ c :: (before ++ d :: behind) :=
        List.mem_cons_of_mem _ (((List.sublist_cons_self d behind).append_left before).subset he)
      rw [hpairs] at h
      rcases List.mem_cons.mp h with rfl | h
      · have hd : d ∈ c :: (before ++ d :: behind) :=
          List.mem_cons_of_mem _ (List.mem_append_right _ List.mem_cons_self)
        exact .inr ⟨c, List.mem_cons_self, d, hd, first, second, hfirst, hsecond, hfield,
          hopposite, rfl⟩
      · rcases ih h with h | ⟨e, he, f, hf, hrest⟩
        · exact .inl (hmem h)
        · exact .inr ⟨e, hmem he, f, hmem hf, hrest⟩

/-- The comparisons of several conditions, from left to right. -/
def allComparisons (cs : List Condition) : List Comparison := cs.flatMap comparisons

/-- The `comparisons` of a conjunction are those of its members, in order. -/
theorem comparisons_conjunction (first : Condition) (rest : List Condition) :
    (conjunction first rest).comparisons = allComparisons (first :: rest) := by
  unfold conjunction
  induction rest generalizing first with
  | nil => simp [allComparisons]
  | cons c cs ih =>
      rw [List.foldl_cons, ih]
      simp [allComparisons, comparisons]

/-- What holds of the comparisons of a condition (`h`), and of the BETWEENs that opposite bounds
among them make (`hpair`), holds of the comparisons of the folded condition and of the folded
members of a conjunction. -/
theorem forall_comparisons_folded {P : Comparison → Prop} {condition : Condition}
    (h : ∀ c ∈ condition.comparisons, P c)
    (hpair : ∀ c d first second, P c → P d → (compare c).rangeBound? = some first →
      (compare d).rangeBound? = some second → second.field = first.field →
      second.operator.isLowerBound ≠ first.operator.isLowerBound →
      ∀ e ∈ (ofBounds first second).comparisons, P e) :
    (∀ c ∈ condition.foldRanges.1.comparisons, P c) ∧
      ∀ member ∈ condition.foldConjuncts.1, ∀ c ∈ member.comparisons, P c := by
  -- the folded members are carried along: only the outermost conjunction pairs its bounds
  induction condition with
  | and left right ihl ihr =>
      obtain ⟨-, hleft⟩ := ihl fun c hc => h c (List.mem_append_left _ hc)
      obtain ⟨-, hright⟩ := ihr fun c hc => h c (List.mem_append_right _ hc)
      have hmembers : ∀ member ∈ left.foldConjuncts.1 ++ right.foldConjuncts.1,
          ∀ c ∈ member.comparisons, P c := fun member hmember =>
        (List.mem_append.mp hmember).elim (hleft member) (hright member)
      have hpaired : ∀ member ∈ (pairBounds (left.foldConjuncts.1 ++ right.foldConjuncts.1)).1,
          ∀ c ∈ member.comparisons, P c := by
        intro member hmember
        rcases mem_pairBounds hmember with hmember |
          ⟨c, hc, d, hd, first, second, hfirst, hsecond, hfield, hopposite, rfl⟩
        · exact hmembers member hmember
        · obtain ⟨c, rfl⟩ := compare_of_rangeBound hfirst
          obtain ⟨d, rfl⟩ := compare_of_rangeBound hsecond
          exact hpair c d first second (hmembers _ hc c List.mem_cons_self)
            (hmembers _ hd d List.mem_cons_self) hfirst hsecond hfield hopposite
      obtain ⟨first, rest, hpairs, hfolded⟩ := foldRanges_and left right
      refine ⟨fun c hc => ?_, hmembers⟩
      rw [hfolded, comparisons_conjunction] at hc
      obtain ⟨member, hmember, hc⟩ := List.mem_flatMap.mp hc
      exact hpaired member (hpairs ▸ hmember) c hc
  | or left right ihl ihr =>
      obtain ⟨hleft, -⟩ := ihl fun c hc => h c (List.mem_append_left _ hc)
      obtain ⟨hright, -⟩ := ihr fun c hc => h c (List.mem_append_right _ hc)
      have hfolded : ∀ c ∈ (or left right).foldRanges.1.comparisons, P c := fun c hc =>
        (List.mem_append.mp hc).elim (hleft c) (hright c)
      exact ⟨hfolded, fun member hmember => List.mem_singleton.mp hmember ▸ hfolded⟩
  | not inner ih =>
      obtain ⟨hinner, -⟩ := ih h
      exact ⟨hinner, fun member hmember => List.mem_singleton.mp hmember ▸ hinner⟩
  | compare c => exact ⟨h, fun member hmember => List.mem_singleton.mp hmember ▸ h⟩

/-! ## Folded conditions

What folding leaves has no opposite bounds in any conjunction, and folding such a condition changes
nothing. `Unopposed` says the first of a list of members, `Settled` and `Folded` of a condition. -/

/-- `Opposes` is symmetric: the one is a lower bound where the other one is not. -/
theorem Opposes.symm {c d : Condition} (h : c.Opposes d) : d.Opposes c := by
  obtain ⟨first, second, hfirst, hsecond, hfield, hopposite⟩ := h
  exact ⟨second, first, hsecond, hfirst, hfield.symm, hopposite.symm⟩

/-- No condition opposes itself. -/
theorem not_opposes_self (c : Condition) : ¬c.Opposes c := by
  rintro ⟨first, second, hfirst, hsecond, -, hopposite⟩
  cases hfirst.symm.trans hsecond
  exact hopposite rfl

/-- What has no `rangeBound?` has no opposite. -/
theorem not_opposes_of_none {c : Condition} (h : c.rangeBound? = none) (d : Condition) :
    ¬c.Opposes d := by
  rintro ⟨first, -, hfirst, -⟩
  rw [h] at hfirst
  cases hfirst

/-- The BETWEEN of a pair is no bound, so `pairBounds` does not pair it again. -/
theorem rangeBound?_ofBounds (first second : RangeBound) :
    (ofBounds first second).rangeBound? = none := by
  unfold ofBounds
  split
  simp only [rangeBound?, Comparison.fieldOnLeft?]
  split <;> rfl

/-- No two of the conditions are related by `Opposes`. -/
def Unopposed (cs : List Condition) : Prop := ∀ c ∈ cs, ∀ d ∈ cs, ¬c.Opposes d

/-- A condition that opposes none of the others can be put before them. -/
theorem Unopposed.cons {c : Condition} {cs : List Condition} (h : Unopposed cs)
    (hc : ∀ d ∈ cs, ¬c.Opposes d) : Unopposed (c :: cs) := by
  intro d hd e he
  rcases List.mem_cons.mp hd with heq | hd
  · rw [heq]
    rcases List.mem_cons.mp he with rfl | he
    · exact not_opposes_self _
    · exact hc e he
  · rcases List.mem_cons.mp he with heq | he
    · rw [heq]
      exact fun hopposes => hc d hd hopposes.symm
    · exact h d hd e he

/-- A single condition is unopposed. -/
theorem unopposed_singleton (c : Condition) : Unopposed [c] :=
  Unopposed.cons (fun _ hd => by cases hd) fun _ hd => by cases hd

/-- What `pairBounds` leaves is `Unopposed`. A bound that stays has found no partner behind it, and
those before it have not found it. -/
theorem unopposed_pairBounds (cs : List Condition) : Unopposed (pairBounds cs).1 := by
  induction cs using pairBounds_induction with
  | nil =>
      intro c hc
      simp [pairBounds] at hc
  | alone c cs halone hpairs ih =>
      rw [hpairs]
      refine ih.cons fun d hd => ?_
      -- what stands behind the bound was there before, or it is a BETWEEN
      rcases mem_pairBounds hd with hd | ⟨e, -, f, -, first, second, -, -, -, -, rfl⟩
      · exact halone d hd
      · exact fun hopposes => not_opposes_of_none (rangeBound?_ofBounds _ _) c hopposes.symm
  | pair c before d behind first second _ _ _ _ hpairs ih =>
      rw [hpairs]
      exact ih.cons fun d _ => not_opposes_of_none (rangeBound?_ofBounds _ _) d

/-- Unopposed conditions stay as they are under `pairBounds`, and no pair is counted. -/
theorem pairBounds_of_unopposed {cs : List Condition} (h : Unopposed cs) :
    pairBounds cs = (cs, 0) := by
  induction cs using pairBounds_induction with
  | nil => simp [pairBounds]
  | alone c cs _ hpairs ih =>
      rw [hpairs, ih fun d hd e he => h d (List.mem_cons_of_mem c hd) e (List.mem_cons_of_mem c he)]
  | pair c before d behind first second hfirst hsecond hfield hopposite _ _ =>
      refine absurd ⟨first, second, hfirst, hsecond, hfield, hopposite⟩ (h c List.mem_cons_self d ?_)
      exact List.mem_cons_of_mem _ (List.mem_append_right _ List.mem_cons_self)

/-- A member of a folded conjunction: it is no conjunction, those inside it are `Unopposed`, and
`foldRanges` leaves it as it is. -/
structure Settled (member : Condition) : Prop where
  /-- It is no conjunction. -/
  alone : ∀ left right, member ≠ and left right
  /-- No conjunction inside it has opposite bounds. -/
  inside : ∀ chain ∈ member.chainsInside, Unopposed chain
  /-- Folding leaves it as it is. -/
  stable : member.foldRanges = (member, 0)

/-- A comparison is `Settled`, whether it is a bound or not. -/
theorem settled_compare (c : Comparison) : (compare c).Settled where
  alone _ _ heq := by cases heq
  inside _ hchain := by cases hchain
  stable := rfl

/-- A settled member is its own conjunction, as it is no AND. -/
theorem Settled.conjuncts {member : Condition} (h : member.Settled) :
    member.conjuncts = [member] := by
  cases member with
  | and left right => exact absurd rfl (h.alone left right)
  | _ => rfl

/-- `foldConjuncts` leaves a settled member as it is. -/
theorem Settled.foldConjuncts {member : Condition} (h : member.Settled) :
    member.foldConjuncts = ([member], 0) := by
  have hmember : member.foldConjuncts = ([member.foldRanges.1], member.foldRanges.2) := by
    cases member with
    | and left right => exact absurd rfl (h.alone left right)
    | _ => rfl
  rw [hmember, h.stable]

/-- A folded condition: all its `andChains` are `Unopposed`, and `foldRanges` leaves it as it is. -/
structure Folded (condition : Condition) : Prop where
  /-- No conjunction has opposite bounds. -/
  unopposed : ∀ chain ∈ condition.andChains, Unopposed chain
  /-- Folding leaves it as it is. -/
  stable : condition.foldRanges = (condition, 0)

/-- A settled member is a `Folded` condition of its own. -/
theorem Settled.folded {member : Condition} (h : member.Settled) : member.Folded := by
  refine ⟨List.forall_mem_cons.mpr ⟨?_, h.inside⟩, h.stable⟩
  rw [h.conjuncts]
  exact unopposed_singleton member

section

variable {first : Condition} {rest : List Condition}

/-- `conjuncts` of a conjunction are those of its first member and then the others, as none of these
is a conjunction. -/
theorem conjuncts_conjunction (h : ∀ member ∈ rest, member.Settled) :
    (conjunction first rest).conjuncts = first.conjuncts ++ rest := by
  unfold conjunction
  induction rest generalizing first with
  | nil => simp
  | cons c cs ih =>
      obtain ⟨hc, hcs⟩ := List.forall_mem_cons.mp h
      rw [List.foldl_cons, ih hcs, Condition.conjuncts, hc.conjuncts, List.append_assoc]
      rfl

/-- The `chainsInside` of a condition with others behind it are those of each. -/
theorem chainsInside_conjunction :
    (conjunction first rest).chainsInside = first.chainsInside ++ rest.flatMap chainsInside := by
  unfold conjunction
  induction rest generalizing first with
  | nil => simp
  | cons c cs ih =>
      rw [List.foldl_cons, ih, chainsInside, List.flatMap_cons, List.append_assoc]

/-- Folding leaves settled members as they are behind a condition whose members it leaves as they
are (`hfirst`). -/
theorem foldConjuncts_conjunction (h : ∀ member ∈ rest, member.Settled)
    {members : List Condition} (hfirst : first.foldConjuncts = (members, 0)) :
    (conjunction first rest).foldConjuncts = (members ++ rest, 0) := by
  unfold conjunction
  induction rest generalizing first members with
  | nil => rw [List.foldl_nil, hfirst, List.append_nil]
  | cons c cs ih =>
      obtain ⟨hc, hcs⟩ := List.forall_mem_cons.mp h
      have hboth : (and first c).foldConjuncts = (members ++ [c], 0) := by
        rw [Condition.foldConjuncts, hfirst, hc.foldConjuncts]
      rw [List.foldl_cons, ih hcs hboth, List.append_assoc]
      rfl

/-- Folding leaves a conjunction of unopposed settled members as it is. -/
theorem foldRanges_conjunction (h : ∀ member ∈ first :: rest, member.Settled)
    (hunopposed : Unopposed (first :: rest)) :
    (conjunction first rest).foldRanges = (conjunction first rest, 0) := by
  obtain ⟨hfirst, hrest⟩ := List.forall_mem_cons.mp h
  have hmembers := foldConjuncts_conjunction hrest hfirst.foldConjuncts
  rcases List.eq_nil_or_concat rest with rfl | ⟨init, last, rfl⟩
  · exact hfirst.stable
  · -- with two members at least the conjunction is an AND
    have hand : conjunction first (init.concat last) = and (conjunction first init) last := by
      unfold conjunction
      rw [List.concat_eq_append, List.foldl_append]
      rfl
    obtain ⟨head, tail, hpairs, hfolded⟩ := foldRanges_and (conjunction first init) last
    rw [← hand, hmembers, List.singleton_append, pairBounds_of_unopposed hunopposed] at hpairs hfolded
    cases hpairs
    exact hfolded

/-- Settled members without opposite bounds make a `Folded` condition. -/
theorem folded_conjunction (h : ∀ member ∈ first :: rest, member.Settled)
    (hunopposed : Unopposed (first :: rest)) : (conjunction first rest).Folded := by
  obtain ⟨hfirst, hrest⟩ := List.forall_mem_cons.mp h
  refine ⟨List.forall_mem_cons.mpr ⟨?_, ?_⟩, foldRanges_conjunction h hunopposed⟩
  · rw [conjuncts_conjunction hrest, hfirst.conjuncts]
    exact hunopposed
  · rw [chainsInside_conjunction]
    intro chain hchain
    rcases List.mem_append.mp hchain with hchain | hchain
    · exact hfirst.inside chain hchain
    · obtain ⟨member, hmember, hchain⟩ := List.mem_flatMap.mp hchain
      exact (hrest member hmember).inside chain hchain

end

/-- `foldRanges` gives a `Folded` condition, and `foldConjuncts` members that are `Settled`. The
induction is on the condition. For a conjunction its members are settled by induction, and pairing
their bounds keeps them so and leaves them unopposed. -/
theorem folded_foldRanges (condition : Condition) :
    condition.foldRanges.1.Folded ∧ ∀ member ∈ condition.foldConjuncts.1, member.Settled := by
  -- a conjunction is folded by its settled members; every other condition is settled itself
  induction condition with
  | and left right ihl ihr =>
      have hmembers : ∀ member ∈ (and left right).foldConjuncts.1, member.Settled := by
        intro member hmember
        exact (List.mem_append.mp hmember).elim (ihl.2 member) (ihr.2 member)
      refine ⟨?_, hmembers⟩
      obtain ⟨first, rest, hpairs, hfolded⟩ := foldRanges_and left right
      rw [hfolded]
      refine folded_conjunction (fun member hmember => ?_) (hpairs ▸ unopposed_pairBounds _)
      rcases mem_pairBounds (hpairs ▸ hmember) with
        hmember | ⟨c, -, d, -, lower, upper, -, -, -, -, rfl⟩
      · exact hmembers member hmember
      · exact settled_compare _
  | or left right ihl ihr =>
      have hsettled : (or left.foldRanges.1 right.foldRanges.1).Settled := by
        refine ⟨fun _ _ heq => (by cases heq), ?_, ?_⟩
        · intro chain hchain
          exact (List.mem_append.mp hchain).elim (ihl.1.unopposed chain) (ihr.1.unopposed chain)
        · rw [foldRanges, ihl.1.stable, ihr.1.stable]
      exact ⟨hsettled.folded, fun member hmember => List.mem_singleton.mp hmember ▸ hsettled⟩
  | not inner ih =>
      have hsettled : (not inner.foldRanges.1).Settled := by
        refine ⟨fun _ _ heq => (by cases heq), ih.1.unopposed, ?_⟩
        rw [foldRanges, ih.1.stable]
      exact ⟨hsettled.folded, fun member hmember => List.mem_singleton.mp hmember ▸ hsettled⟩
  | compare c =>
      exact ⟨(settled_compare c).folded,
        fun member hmember => List.mem_singleton.mp hmember ▸ settled_compare c⟩

/-! ## Counting comparisons

A BETWEEN stands for two comparisons, so the number of folded pairs is the number of comparisons
that are gone. -/

/-- Each pair that `pairBounds` counts takes one comparison away: two bounds become one BETWEEN. -/
theorem length_pairBounds (cs : List Condition) :
    (allComparisons (pairBounds cs).1).length + (pairBounds cs).2 = (allComparisons cs).length := by
  induction cs using pairBounds_induction with
  | nil => simp [pairBounds, allComparisons]
  | alone c cs _ hpairs ih =>
      rw [hpairs]
      simp only [allComparisons, List.flatMap_cons, List.length_append] at ih ⊢
      omega
  | pair c before d behind first second hfirst hsecond _ _ hpairs ih =>
      rw [hpairs]
      obtain ⟨c, rfl⟩ := compare_of_rangeBound hfirst
      obtain ⟨d, rfl⟩ := compare_of_rangeBound hsecond
      have hbetween : (ofBounds first second).comparisons.length = 1 := rfl
      simp only [allComparisons, List.flatMap_cons, List.flatMap_append, List.length_append,
        hbetween, comparisons, List.length_singleton] at ih ⊢
      omega

/-- Each folded pair takes one comparison away, from a condition under `foldRanges` and from its
members under `foldConjuncts`. -/
theorem length_comparisons_folded (condition : Condition) :
    condition.foldRanges.1.comparisons.length + condition.foldRanges.2 =
        condition.comparisons.length ∧
      (allComparisons condition.foldConjuncts.1).length + condition.foldConjuncts.2 =
        condition.comparisons.length := by
  -- both sums are needed for a conjunction, whose pairs are counted over the members of its sides
  induction condition with
  | and left right ihl ihr =>
      have hmembers : (allComparisons (and left right).foldConjuncts.1).length +
          (and left right).foldConjuncts.2 = (and left right).comparisons.length := by
        simp only [Condition.foldConjuncts, allComparisons, List.flatMap_append,
          List.length_append, comparisons] at ihl ihr ⊢
        omega
      refine ⟨?_, hmembers⟩
      obtain ⟨first, rest, hpairs, hfolded⟩ := foldRanges_and left right
      have hlength := length_pairBounds (and left right).foldConjuncts.1
      rw [hfolded, comparisons_conjunction, ← hpairs, ← hmembers, ← hlength]
      omega
  | or left right ihl ihr =>
      have hfolded : (or left right).foldRanges.1.comparisons.length + (or left right).foldRanges.2 =
          (or left right).comparisons.length := by
        simp only [foldRanges, comparisons, List.length_append]
        omega
      refine ⟨hfolded, ?_⟩
      simpa [allComparisons, Condition.foldConjuncts, foldRanges] using hfolded
  | not inner ih =>
      refine ⟨ih.1, ?_⟩
      simpa [allComparisons, Condition.foldConjuncts, comparisons] using ih.1
  | compare c => exact ⟨rfl, rfl⟩

/-- Of a folded condition no conjunction has two members that bound one field from opposite sides.
Every folded pair has taken one comparison away, so the number of pairs that `foldRanges` reports is
right. Folding again changes nothing. There is no hypothesis: names with dots are folded like
others. -/
theorem foldRanges_normal (condition : Condition) :
    (∀ chain ∈ condition.foldRanges.1.andChains, ∀ c ∈ chain, ∀ d ∈ chain, ¬c.Opposes d) ∧
    condition.foldRanges.1.comparisons.length + condition.foldRanges.2 =
      condition.comparisons.length ∧
    condition.foldRanges.1.foldRanges = (condition.foldRanges.1, 0) :=
  have hfolded := (folded_foldRanges condition).1
  ⟨hfolded.unopposed, (length_comparisons_folded condition).1, hfolded.stable⟩

end Condition

end RecordQuery
