import Mathlib.Data.List.Forall2
import RecordQuery.Condition.Operator

/-!
# `RecordQuery.Proofs.Wildcards`: LIKE decides what its pattern means

`Wildcard.accepts` goes over the text once and keeps the latest `%` only. On a mismatch it gives
that `%` one character more, and never comes back to an earlier one. It need not: what the earlier
`%` were given ends where the latest one starts, and if another choice for them leads to a match,
the latest `%` can take up the difference.

`Wildcard.Matches` is the meaning of a pattern, with one rule for each kind of character. Since the
latest `%` the pass has laid some characters of the pattern over some of the text,
`Wildcard.LaidOver`, and this is all that it knows. `matches_run_of_run` and
`matches_run_of_mismatch` are the two facts about `Matches` that make the pass right; they are
stated for what is laid over, and do not mention the pass.

`Wildcard.acceptsAfter` is written over lists, and its recursion ends as it is written.
`Wildcard.Cursors` is the same pass by two cursors in the pattern and in the text, both of which go
back at a mismatch. That it ends needs a measure, `Cursors.left`, which counts what is left to the
latest `%` first, and then the cursors. A step keeps the answer and makes the measure smaller
(`step_leads`), so the pass ends with the answer of `accepts`, after a number of steps that the
lengths bound.

The theorems:

* `Wildcard.acceptsAfter_iff_matches`: the pass behind a `%` accepts what the `%` and the pattern
  behind it match.
* `Wildcard.accepts_iff_matches`: the whole pass accepts exactly what the pattern matches.
* `Wildcard.Cursors.ends`: the same pass by two cursors ends, with the same answer.
* `Operator.like_decides`: LIKE gives an answer for every text and every pattern, and says yes
  exactly if the pattern matches.
-/

set_option autoImplicit false

namespace RecordQuery

namespace Wildcard

/-! ## What a pattern matches

`Matches` is defined by splitting the text. These are its equations for a pattern that begins with
`%` and for one that does not. -/

section

variable {p c : Char} {ps cs text : List Char}

/-- `Matches` for a pattern without characters: no text but the empty one is matched. -/
theorem matches_nil_iff : Matches [] text ↔ text = [] := by
  constructor
  · intro h
    cases h
    rfl
  · rintro rfl
    exact .nil

/-- A `%` leaves some end of the text to the pattern behind it. -/
theorem matches_run_iff : Matches ('%' :: ps) text ↔ ∃ count, Matches ps (text.drop count) := by
  constructor
  · intro h
    generalize hpattern : '%' :: ps = pattern at h
    cases h with
    | nil => simp at hpattern
    | run taken hrest =>
        obtain ⟨-, rfl⟩ := List.cons.inj hpattern
        exact ⟨taken.length, by simpa using hrest⟩
    | single c hrest => simp at hpattern
    | literal c hrun _ _ => exact absurd (List.cons.inj hpattern).1.symm hrun
  · rintro ⟨count, h⟩
    have hmatches := Matches.run (text.take count) h
    rwa [List.take_append_drop] at hmatches

/-- Another character stands for the first one of the text, `standsFor`: `_` for every character,
and each other one for itself. -/
theorem matches_cons_iff (hp : p ≠ '%') :
    Matches (p :: ps) text ↔ ∃ c cs, text = c :: cs ∧ standsFor p c = true ∧ Matches ps cs := by
  constructor
  · intro h
    -- the character is no `%`, so the match takes one character of the text
    generalize hpattern : p :: ps = pattern at h
    cases h with
    | nil => simp at hpattern
    | run taken hrest => exact absurd (List.cons.inj hpattern).1 hp
    | @single _ c cs hrest =>
        obtain ⟨rfl, rfl⟩ := List.cons.inj hpattern
        exact ⟨c, cs, rfl, by simp [standsFor], hrest⟩
    | @literal _ c cs _ _ hrest =>
        obtain ⟨rfl, rfl⟩ := List.cons.inj hpattern
        exact ⟨p, cs, rfl, by simp [standsFor], hrest⟩
  · rintro ⟨c, cs, rfl, hstands, hrest⟩
    by_cases hsingle : p = '_'
    · subst hsingle
      exact .single c hrest
    · have hpc : p = c := by simpa [standsFor, hsingle] using hstands
      subst hpc
      exact .literal p hp hsingle hrest

/-- `Matches` for first characters that are no `'%'`: the one stands for the other, and then the
others decide. -/
theorem matches_cons_cons_iff (hp : p ≠ '%') :
    Matches (p :: ps) (c :: cs) ↔ standsFor p c = true ∧ Matches ps cs := by
  rw [matches_cons_iff hp]
  simp [and_assoc]

/-- The empty text is matched by the patterns that are made of `%` alone. -/
theorem matches_empty_iff : Matches ps [] ↔ ps.all (· == '%') = true := by
  induction ps with
  | nil => simp [matches_nil_iff]
  | cons p ps ih =>
      by_cases hp : p = '%'
      · subst hp
        simpa [matches_run_iff] using ih
      · simp [matches_cons_iff hp, hp]

/-- The parts of a pattern that are not `%` need a character each. -/
theorem Matches.length_le (h : Matches ps text) :
    (ps.filter (· != '%')).length ≤ text.length := by
  induction h with
  | nil => simp
  | run taken _ ih => simp; omega
  | single c _ ih => simpa using ih
  | literal c hrun _ _ ih => simpa [hrun] using ih

end

/-! ## Patterns laid over a text

Between two `%` a pattern is laid over the text character by character, so it takes as many
characters as it has. -/

/-- The characters of the pattern, none of them `%`, stand for those of the text one by one. This is
what has been passed since the latest `%`. -/
def LaidOver (done taken : List Char) : Prop :=
  List.Forall₂ (fun p c => p ≠ '%' ∧ standsFor p c = true) done taken

/-- Before the first character nothing is `LaidOver` anything. -/
theorem laidOver_nil : LaidOver [] [] := .nil

namespace LaidOver

variable {done taken ps text : List Char}

/-- One more character is `LaidOver` the text, if it stands for the next one there. -/
theorem concat (h : LaidOver done taken) {p c : Char} (hp : p ≠ '%')
    (hstands : standsFor p c = true) : LaidOver (done ++ [p]) (taken ++ [c]) :=
  List.rel_append h (.cons ⟨hp, hstands⟩ .nil)

/-- Behind what is `LaidOver` each other the rest of pattern and text decide whether they match. -/
theorem matches_append_iff (h : LaidOver done taken) :
    Matches (done ++ ps) (taken ++ text) ↔ Matches ps text := by
  induction h with
  | nil => rfl
  | cons hfirst _ ih =>
      obtain ⟨hp, hstands⟩ := hfirst
      rw [List.cons_append, List.cons_append, matches_cons_cons_iff hp, ih]
      simp [hstands]

/-- What is `LaidOver` a text takes `taken.length` characters off every text that it begins to
match, whichever text this is. -/
theorem matches_drop (h : LaidOver done taken) (hmatches : Matches (done ++ ps) text) :
    Matches ps (text.drop taken.length) := by
  induction h generalizing text with
  | nil => exact hmatches
  | cons hfirst _ ih =>
      obtain ⟨c, cs, rfl, -, hrest⟩ := (matches_cons_iff hfirst.1).mp hmatches
      exact ih hrest

/-- There is no `%` in it. -/
theorem filter_eq (h : LaidOver done taken) : done.filter (· != '%') = done := by
  induction h with
  | nil => rfl
  | cons hfirst _ ih => simp [hfirst.1, ih]

end LaidOver

/-! ## The pass

The pass tries the latest `%` with ever more characters, and never goes back to an earlier one. This
is enough: what stands behind an earlier `%` was found as early as possible. -/

section

variable {resume start ps cs : List Char} {p c : Char}

/-- Behind a `%` the pass begins anew. -/
theorem acceptsAfter_run (fits : (c :: cs).length ≤ start.length) :
    acceptsAfter resume start ('%' :: ps) (c :: cs) fits =
      acceptsAfter ps (c :: cs) ps (c :: cs) (Nat.le_refl _) := by
  rw [acceptsAfter.eq_def]
  exact if_pos (beq_self_eq_true _)

/-- `acceptsAfter` passes a character that stands for the next one of the text together with it. -/
theorem acceptsAfter_stands (hp : p ≠ '%') (hstands : standsFor p c = true)
    (fits : (c :: cs).length ≤ start.length) (fits' : cs.length ≤ start.length) :
    acceptsAfter resume start (p :: ps) (c :: cs) fits = acceptsAfter resume start ps cs fits' := by
  rw [acceptsAfter.eq_def]
  dsimp only
  rw [if_neg (by simpa using hp), if_pos hstands]

/-- At a mismatch the `%` takes one character more, and the pattern behind it is tried anew. `ps`
may have ended while the text has not. -/
theorem acceptsAfter_mismatch {first : Char} {rest : List Char}
    (h : ∀ p ∈ ps.head?, p ≠ '%' ∧ standsFor p c = false)
    (fits : (c :: cs).length ≤ (first :: rest).length) :
    acceptsAfter resume (first :: rest) ps (c :: cs) fits =
      acceptsAfter resume rest resume rest (Nat.le_refl _) := by
  cases ps with
  | nil => rw [acceptsAfter]
  | cons p ps =>
      obtain ⟨hp, hstands⟩ := h p rfl
      rw [acceptsAfter, if_neg (by simpa using hp), if_neg (by simp [hstands])]

end

section

variable {resume start pattern text done taken : List Char}

/-- At the end of the text the rest of the pattern decides: the latest `%` cannot take more, as
what was laid over the text would no longer fit. -/
theorem matches_run_of_end (h : LaidOver done taken) :
    Matches ('%' :: (done ++ pattern)) taken ↔ pattern.all (· == '%') = true := by
  have hlaid : Matches (done ++ pattern) taken ↔ Matches pattern [] := by
    simpa using @LaidOver.matches_append_iff done taken pattern [] h
  rw [← matches_empty_iff, ← hlaid, matches_run_iff]
  constructor
  · rintro ⟨count, hmatches⟩
    have hlength := hmatches.length_le
    rw [List.filter_append, h.filter_eq, List.length_append, List.length_drop,
      List.Forall₂.length_eq h] at hlength
    rcases Nat.eq_zero_or_pos count with rfl | hpos
    · exact hmatches
    · -- with nothing laid over the text, there is nothing to take either
      have hnone : taken = [] := List.length_eq_zero_iff.mp (by omega)
      subst hnone
      simpa using hmatches
  · exact fun hmatches => ⟨0, hmatches⟩

/-- At another `%` the earlier one is done with: whatever it would take more, the new one can take.
This is why the pass never comes back to an earlier `%`. -/
theorem matches_run_of_run (h : LaidOver done taken) :
    Matches ('%' :: (done ++ '%' :: pattern)) (taken ++ text) ↔ Matches ('%' :: pattern) text := by
  constructor
  · intro hmatches
    obtain ⟨count, hmatches⟩ := matches_run_iff.mp hmatches
    obtain ⟨more, hrest⟩ := matches_run_iff.mp (h.matches_drop hmatches)
    refine matches_run_iff.mpr ⟨count + more, ?_⟩
    have hdrop : ((taken ++ text).drop count).drop taken.length = text.drop count := by
      rw [List.drop_drop, Nat.add_comm, ← List.drop_drop, List.drop_left]
    rwa [hdrop, List.drop_drop] at hrest
  · intro hmatches
    exact matches_run_iff.mpr ⟨0, h.matches_append_iff.mpr hmatches⟩

/-- At a mismatch the `%` has to take one character more, as taking none leads to no match, `h`. -/
theorem matches_run_of_mismatch {c : Char} (h : ¬Matches pattern (c :: text)) :
    Matches ('%' :: pattern) (c :: text) ↔ Matches ('%' :: pattern) text := by
  rw [matches_run_iff, matches_run_iff]
  constructor
  · rintro ⟨count, hmatches⟩
    cases count with
    | zero => exact absurd hmatches h
    | succ count => exact ⟨count, hmatches⟩
  · rintro ⟨count, hmatches⟩
    exact ⟨count + 1, hmatches⟩

/-- The pass behind a `%` accepts what the `%` and the pattern behind it match. The induction is
that of `acceptsAfter`; `done` and `taken` are what has been passed since the `%`. -/
theorem acceptsAfter_iff_matches (fits : text.length ≤ start.length)
    (hresume : resume = done ++ pattern) (hstart : start = taken ++ text)
    (h : LaidOver done taken) :
    acceptsAfter resume start pattern text fits = true ↔ Matches ('%' :: resume) start := by
  -- `done` is laid over `taken`, which is what the pass has done since the latest `%`
  fun_induction acceptsAfter resume start pattern text fits generalizing done taken with
  | case1 resume start ps fits =>
      rw [List.append_nil] at hstart
      rw [hstart, hresume, matches_run_of_end h]
  | case2 resume start c cs p ps fits hp _ ih =>
      obtain rfl : p = '%' := by simpa using hp
      rw [ih (List.nil_append ps).symm rfl laidOver_nil, hstart, hresume, matches_run_of_run h]
  | case3 resume start c cs p ps fits hp hstands _ ih =>
      exact ih (by simp [hresume]) (by simp [hstart]) (h.concat (by simpa using hp) hstands)
  | case4 resume c cs p ps hp hstands fits => simp at fits
  | case5 resume c cs p ps hp hstands first rest fits _ ih =>
      have hmismatch : ¬Matches resume (first :: rest) := by
        rw [hresume, hstart, h.matches_append_iff, matches_cons_cons_iff (by simpa using hp)]
        simp [hstands]
      rw [ih (List.nil_append resume).symm rfl laidOver_nil, matches_run_of_mismatch hmismatch]
  | case6 resume c cs fits => simp at fits
  | case7 resume c cs first rest fits _ ih =>
      have hmismatch : ¬Matches resume (first :: rest) := by
        rw [hresume, hstart, h.matches_append_iff, matches_nil_iff]
        simp
      rw [ih (List.nil_append resume).symm rfl laidOver_nil, matches_run_of_mismatch hmismatch]

end

/-- The pass accepts exactly what the pattern matches. Before the first `%` there is nothing to come
back to. -/
theorem accepts_iff_matches (pattern text : List Char) :
    accepts pattern text = true ↔ Matches pattern text := by
  fun_induction accepts pattern text with
  | case1 ps => exact matches_empty_iff.symm
  | case2 c cs => simp [matches_nil_iff]
  | case3 p ps c cs hp =>
      obtain rfl : p = '%' := by simpa using hp
      exact acceptsAfter_iff_matches (Nat.le_refl _) (List.nil_append ps).symm rfl laidOver_nil
  | case4 p ps c cs hp ih =>
      rw [Bool.and_eq_true, ih, matches_cons_cons_iff (by simpa using hp)]

instance (pattern text : List Char) : Decidable (Matches pattern text) :=
  decidable_of_iff _ (accepts_iff_matches pattern text)

/-! ## The pass by two cursors

A step moves the cursors or gives an answer. `Cursors.left` falls with every step, and
`Cursors.Answers` stays the same, so the pass ends with the answer of `accepts`. -/

/-- Where a pass over a text stands, with its two cursors and the latest `%`. -/
structure Cursors where
  /-- The place in the text. -/
  text : Nat
  /-- The place in the pattern. -/
  pattern : Nat
  /-- Where the pattern goes on behind the latest `%`, and where the text behind what that `%`
  stands for begins. -/
  latest : Option (Nat × Nat)
deriving DecidableEq, Repr

namespace Cursors

/-- Both cursors at the beginning, before any `%`. -/
def start : Cursors := ⟨0, 0, none⟩

/-- Back to the latest `%`, which stands for one character more. Without one the pass has
failed. -/
def back (here : Cursors) : Cursors ⊕ Bool :=
  match here.latest with
  | none => .inr false
  | some (resume, behind) => .inl ⟨behind + 1, resume, some (resume, behind + 1)⟩

/-- One step of the pass from the `Cursors`, or its answer. -/
def step (pattern text : List Char) (here : Cursors) : Cursors ⊕ Bool :=
  match text[here.text]? with
  | none => .inr ((pattern.drop here.pattern).all (· == '%'))
  | some c =>
      match pattern[here.pattern]? with
      | none => here.back
      | some p =>
          if p == '%' then
            .inl ⟨here.text, here.pattern + 1, some (here.pattern + 1, here.text)⟩
          else if standsFor p c then .inl ⟨here.text + 1, here.pattern + 1, here.latest⟩
          else here.back

/-- The answer after at most the given number of applications of `step`. -/
def run (pattern text : List Char) : Nat → Cursors → Option Bool
  | 0, _ => none
  | steps + 1, here =>
      match here.step pattern text with
      | .inr answer => some answer
      | .inl next => run pattern text steps next

/-- The answer that is still to come, by the pass over what is left. This ties the cursors to
`accepts` and `acceptsAfter`. -/
def Answers (pattern text : List Char) (here : Cursors) (answer : Bool) : Prop :=
  match here.latest with
  | none => accepts (pattern.drop here.pattern) (text.drop here.text) = answer
  | some (resume, behind) => ∃ fits, acceptsAfter (pattern.drop resume) (text.drop behind)
      (pattern.drop here.pattern) (text.drop here.text) fits = answer

/-- How many characters the latest `%` can still take; one more before the first `%`. -/
def runsLeft (text : List Char) : Option (Nat × Nat) → Nat
  | none => text.length + 1
  | some (_, behind) => text.length - behind

/-- How far the pass can still go: first by what the latest `%` can take, then by the cursors. The
factor is more than the cursors can ever have left. -/
def left (pattern text : List Char) (here : Cursors) : Nat :=
  runsLeft text here.latest * (pattern.length + text.length + 1) +
    ((pattern.length - here.pattern) + (text.length - here.text))

section

variable {pattern text : List Char} {t p : Nat} {latest : Option (Nat × Nat)} {answer : Bool}

/-- A step that takes a character from the latest `%` leaves less, wherever the cursors go: both may
go back. -/
theorem left_lt_of_runs {runs runs' rest rest' size : Nat} (hruns : runs' < runs)
    (hrest : rest' < size) : runs' * size + rest' < runs * size + rest := by
  have hmul : (runs' + 1) * size ≤ runs * size := Nat.mul_le_mul_right size hruns
  rw [Nat.succ_mul] at hmul
  omega

/-- What a step that does not come to an end has to do: it keeps the answer that is to come,
`Answers`, and leaves less to go, `left`. -/
def Advances (pattern text : List Char) (answer : Bool) (here next : Cursors) : Prop :=
  next.Answers pattern text answer ∧ next.left pattern text < here.left pattern text

/-- What a step has to do: it gives the `answer` that is to come, or `Advances` towards it. -/
def Leads (pattern text : List Char) (answer : Bool) (here : Cursors) : Cursors ⊕ Bool → Prop
  | .inr given => given = answer
  | .inl next => Advances pattern text answer here next

/-- At the end of the text the pass answers, and the answer is that of `Answers`. -/
theorem answers_of_end (htext : text.drop t = [])
    (h : Answers pattern text ⟨t, p, latest⟩ answer) :
    (pattern.drop p).all (· == '%') = answer := by
  cases latest with
  | none =>
      have hend : accepts (pattern.drop p) (text.drop t) = answer := h
      rwa [htext, accepts] at hend
  | some last =>
      obtain ⟨fits, hend⟩ := h
      simpa only [htext, acceptsAfter] using hend

/-- A `%` becomes the latest one. -/
theorem advances_of_run {c : Char} (htext : text.drop t = c :: text.drop (t + 1))
    (hmore : t < text.length) (hrest : p < pattern.length)
    (hpattern : pattern.drop p = '%' :: pattern.drop (p + 1))
    (h : Answers pattern text ⟨t, p, latest⟩ answer) :
    Advances pattern text answer ⟨t, p, latest⟩ ⟨t, p + 1, some (p + 1, t)⟩ := by
  constructor
  · refine ⟨Nat.le_refl _, ?_⟩
    show acceptsAfter (pattern.drop (p + 1)) (text.drop t) (pattern.drop (p + 1)) (text.drop t) _ =
      answer
    -- what the pattern before the `%` could still match does not matter any more
    cases latest with
    | none =>
        have hrun : accepts (pattern.drop p) (text.drop t) = answer := h
        rw [hpattern, htext, accepts, if_pos (beq_self_eq_true _)] at hrun
        simpa only [htext] using hrun
    | some last =>
        obtain ⟨fits, hrun⟩ := h
        simpa only [htext, hpattern, acceptsAfter_run] using hrun
  · -- the new `%` begins no earlier than the one before it
    have hruns : runsLeft text (some (p + 1, t)) ≤ runsLeft text latest := by
      cases latest with
      | none => simp only [runsLeft]; omega
      | some last =>
          obtain ⟨fits, -⟩ := h
          simp only [List.length_drop] at fits
          exact fits
    have hmul := Nat.mul_le_mul_right (pattern.length + text.length + 1) hruns
    simp only [left]
    omega

/-- A character that stands for the next one of the text is passed together with it, and this
`Advances`. -/
theorem advances_of_stands {c q : Char} (htext : text.drop t = c :: text.drop (t + 1))
    (hmore : t < text.length) (hpattern : pattern.drop p = q :: pattern.drop (p + 1))
    (hq : q ≠ '%') (hstands : standsFor q c = true)
    (h : Answers pattern text ⟨t, p, latest⟩ answer) :
    Advances pattern text answer ⟨t, p, latest⟩ ⟨t + 1, p + 1, latest⟩ := by
  constructor
  · cases latest with
    | none =>
        show accepts (pattern.drop (p + 1)) (text.drop (t + 1)) = answer
        have hone : accepts (pattern.drop p) (text.drop t) = answer := h
        rw [hpattern, htext, accepts, if_neg (by simpa using hq), hstands, Bool.true_and] at hone
        exact hone
    | some last =>
        obtain ⟨fits, hone⟩ := h
        have fits' : (text.drop (t + 1)).length ≤ (text.drop last.2).length := by
          simp only [List.length_drop] at fits ⊢
          omega
        refine ⟨fits', ?_⟩
        simpa only [htext, hpattern, acceptsAfter_stands hq hstands _ fits'] using hone
  · simp only [left]
    omega

/-- At a mismatch the latest `%` takes one character more; without one the answer is no. -/
theorem leads_of_mismatch {c : Char} (htext : text.drop t = c :: text.drop (t + 1))
    (hmore : t < text.length)
    (hmismatch : ∀ q ∈ (pattern.drop p).head?, q ≠ '%' ∧ standsFor q c = false)
    (h : Answers pattern text ⟨t, p, latest⟩ answer) :
    Leads pattern text answer ⟨t, p, latest⟩ (back ⟨t, p, latest⟩) := by
  cases latest with
  | none =>
      show false = answer
      have hone : accepts (pattern.drop p) (text.drop t) = answer := h
      rw [← hone, htext]
      cases hrest : pattern.drop p with
      | nil => rfl
      | cons q rest =>
          obtain ⟨hq, hstands⟩ := hmismatch q (by simp [hrest])
          rw [accepts, if_neg (by simpa using hq), hstands, Bool.false_and]
  | some last =>
      obtain ⟨resume, behind⟩ := last
      obtain ⟨fits, hone⟩ := h
      -- the run of the latest `%` ends where the cursor of the text is, or before
      have hbehind : behind ≤ t := by
        simp only [List.length_drop] at fits
        omega
      have hfirst : text.drop behind = text[behind] :: text.drop (behind + 1) :=
        List.drop_eq_getElem_cons (by omega)
      constructor
      · refine ⟨Nat.le_refl _, ?_⟩
        simpa only [htext, hfirst, acceptsAfter_mismatch hmismatch] using hone
      · refine left_lt_of_runs ?_ ?_
        · show text.length - (behind + 1) < text.length - behind
          omega
        · omega

/-- What one step does: it gives the answer that is to come, or it `Advances`. The cases are those
of `Cursors.step`. -/
theorem step_leads {here : Cursors} (h : here.Answers pattern text answer) :
    Leads pattern text answer here (here.step pattern text) := by
  obtain ⟨t, p, latest⟩ := here
  unfold step
  dsimp only
  cases htext : text[t]? with
  | none =>
      exact answers_of_end (List.drop_eq_nil_of_le (List.getElem?_eq_none_iff.mp htext)) h
  | some c =>
      obtain ⟨hmore, rfl⟩ := List.getElem?_eq_some_iff.mp htext
      have htext : text.drop t = text[t] :: text.drop (t + 1) := List.drop_eq_getElem_cons hmore
      cases hpattern : pattern[p]? with
      | none =>
          have hend : pattern.drop p = [] :=
            List.drop_eq_nil_of_le (List.getElem?_eq_none_iff.mp hpattern)
          exact leads_of_mismatch htext hmore (by simp [hend]) h
      | some q =>
          obtain ⟨hrest, rfl⟩ := List.getElem?_eq_some_iff.mp hpattern
          have hpattern : pattern.drop p = pattern[p] :: pattern.drop (p + 1) :=
            List.drop_eq_getElem_cons hrest
          dsimp only
          -- the step asks for these in turn: a `%`, a character that fits, a mismatch
          by_cases hrun : pattern[p] = '%'
          · rw [if_pos (by simpa using hrun)]
            exact advances_of_run htext hmore hrest (hrun ▸ hpattern) h
          · rw [if_neg (by simpa using hrun)]
            by_cases hstands : standsFor pattern[p] text[t] = true
            · rw [if_pos hstands]
              exact advances_of_stands htext hmore hpattern hrun hstands h
            · rw [if_neg hstands]
              refine leads_of_mismatch htext hmore ?_ h
              intro q hq
              rw [hpattern] at hq
              obtain rfl : pattern[p] = q := Option.some.inj hq
              exact ⟨hrun, Bool.eq_false_iff.mpr hstands⟩

/-- The pass ends with the answer that was to come, after as many steps at most as are `left`. The
induction is on the steps. -/
theorem run_of_answers (steps : Nat) {here : Cursors} (h : here.Answers pattern text answer)
    (hsteps : here.left pattern text < steps) : run pattern text steps here = some answer := by
  induction steps generalizing here with
  | zero => omega
  | succ steps ih =>
      have hstep := step_leads h
      unfold run
      cases hnext : here.step pattern text with
      | inr given =>
          rw [hnext] at hstep
          exact congrArg some hstep
      | inl next =>
          rw [hnext] at hstep
          obtain ⟨hanswers, hless⟩ := hstep
          exact ih hanswers (by omega)

end

/-- The pass by two cursors ends, and gives the answer of `accepts`. -/
theorem ends (pattern text : List Char) :
    run pattern text ((text.length + 2) * (pattern.length + text.length + 1)) start =
      some (accepts pattern text) := by
  refine run_of_answers _ (show accepts (pattern.drop 0) (text.drop 0) = _ from rfl) ?_
  show (text.length + 1) * _ + ((pattern.length - 0) + (text.length - 0)) < (text.length + 2) * _
  rw [Nat.succ_mul (text.length + 1)]
  omega

end Cursors

end Wildcard

/-- LIKE answers for every text and every pattern. The pass by two cursors, `Wildcard.Cursors.run`,
comes to the answer within a number of steps that the lengths bound, and the answer is yes exactly
if the pattern can be laid over the whole text, `Wildcard.Matches`: each `%` over some run of
characters, each `_` over one character, and every other character over itself. -/
theorem Operator.like_decides (text pattern : String) :
    ∃ answer,
      Wildcard.Cursors.run pattern.toList text.toList
          ((text.length + 2) * (pattern.length + text.length + 1)) .start = some answer ∧
        Operator.like.apply (.string text) (.string pattern) = .ok answer ∧
        (answer = true ↔ Wildcard.Matches pattern.toList text.toList) :=
  ⟨_, Wildcard.Cursors.ends _ _, rfl, Wildcard.accepts_iff_matches _ _⟩

/-- The pass comes back only to the `%` before the `b`, as often as the text has another `a`. -/
example : Operator.like.apply (.string "aaaaaaaabbc") (.string "%a%a%b_") = .ok true := by cbv

end RecordQuery
