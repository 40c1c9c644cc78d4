/-!
# `RecordQuery.Condition.Wildcard`: patterns with `%` and `_`

`Matches` is the meaning of a pattern: `%` stands for any run of characters, `_` for exactly
one, every other character for itself. `accepts` decides it in one pass that, on a mismatch,
goes back to the latest `%` only and lets it take one character more.
-/

set_option autoImplicit false

namespace RecordQuery.Wildcard

/-- `Matches pattern text`: the pattern can be laid over the whole text. -/
inductive Matches : List Char → List Char → Prop
  | nil : Matches [] []
  | run {ps : List Char} (taken : List Char) {rest : List Char} :
      Matches ps rest → Matches ('%' :: ps) (taken ++ rest)
  | single {ps : List Char} (c : Char) {cs : List Char} :
      Matches ps cs → Matches ('_' :: ps) (c :: cs)
  | literal {ps : List Char} (c : Char) {cs : List Char} :
      c ≠ '%' → c ≠ '_' → Matches ps cs → Matches (c :: ps) (c :: cs)

/-- Whether a pattern character other than `%` stands for the text character. -/
def standsFor (p c : Char) : Bool := p == '_' || p == c

/-- The pass after a `%`. The latest `%` is followed by `resume` and has left `start` of the
text to it; `text` and `pattern` are what is still to be matched. On a mismatch the `%` takes
one character more of `start`. -/
def acceptsAfter (resume start pattern text : List Char) (fits : text.length ≤ start.length) :
    Bool :=
  match text, pattern with
  | [], ps => ps.all (· == '%')
  | c :: cs, p :: ps =>
      if p == '%' then acceptsAfter ps (c :: cs) ps (c :: cs) (Nat.le_refl _)
      else if standsFor p c then
        acceptsAfter resume start ps cs (by simp only [List.length_cons] at fits; omega)
      else
        match start with
        | [] => false
        | _ :: rest => acceptsAfter resume rest resume rest (Nat.le_refl _)
  | _ :: _, [] =>
      match start with
      | [] => false
      | _ :: rest => acceptsAfter resume rest resume rest (Nat.le_refl _)
termination_by (start.length, pattern.length + text.length)
decreasing_by
  · simp only [List.length_cons] at fits ⊢
    by_cases h : cs.length + 1 = start.length
    · rw [h]; exact Prod.Lex.right _ (by omega)
    · exact Prod.Lex.left _ _ (by omega)
  · exact Prod.Lex.right _ (by simp only [List.length_cons]; omega)
  · exact Prod.Lex.left _ _ (by simp only [List.length_cons]; omega)
  · exact Prod.Lex.left _ _ (by simp only [List.length_cons]; omega)

/-- Whether the pattern matches the whole text. -/
def accepts : List Char → List Char → Bool
  | ps, [] => ps.all (· == '%')
  | [], _ :: _ => false
  | p :: ps, c :: cs =>
      if p == '%' then acceptsAfter ps (c :: cs) ps (c :: cs) (Nat.le_refl _)
      else standsFor p c && accepts ps cs

end RecordQuery.Wildcard
