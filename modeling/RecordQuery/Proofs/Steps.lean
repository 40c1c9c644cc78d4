import Mathlib.Data.List.Forall2
import RecordQuery.Run.Stream

/-!
# `RecordQuery.Proofs.Steps`: running steps that can fail

Pulls, writes and runs of a query are steps in `ExceptT ε (StateM σ)`: they start from a state, and
they end with a result or a failure and with a state in both cases. A failure does not undo what the
state went through. The lemmas say what the pieces of such a step do, one equation for each, so that
a step is run by rewriting with `run_bind`, `run_get`, `run_set` and `run_modify`, and never by
unfolding the monad.

The inversion lemmas go the other way. From a result of a sequence, `bind_ok` and `bind_eq_ok` give
the results of its parts. The last section does the same for lists of steps: `mapM` gives the
results of its members (`forall₂_of_mapM`), and what each step of a fold keeps is kept by the whole
fold (`foldlM_keeps`).
-/

set_option autoImplicit false

namespace RecordQuery

namespace Steps

variable {ε σ α β : Type}

/-- `run` of one step after the other: the state after a step that gave a result is where the next
step starts. A failure ends the sequence and leaves the state where it is. -/
theorem run_bind (x : ExceptT ε (StateM σ) α) (f : α → ExceptT ε (StateM σ) β) (s : σ) :
    (x >>= f).run.run s = match x.run.run s with
      | (.ok a, after) => (f a).run.run after
      | (.error e, after) => (.error e, after) := by
  show StateT.run (ExceptT.run (x >>= f)) s = _
  rw [ExceptT.run_bind, StateT.run_bind]
  show (match x.run.run s with | (a, after) => _) = _
  rcases x.run.run s with ⟨a | a, after⟩ <;> rfl

/-- The result that `pure` gives is the one that comes out, and the state stays as it is. -/
theorem pure_ok {a b : α} {s after : σ}
    (h : (pure a : ExceptT ε (StateM σ) α).run.run s = (.ok b, after)) : a = b ∧ s = after := by
  cases h
  exact ⟨rfl, rfl⟩

/-- `getThe` gives the state and changes nothing. -/
theorem run_get (s : σ) : (getThe σ : ExceptT ε (StateM σ) σ).run.run s = (.ok s, s) := rfl

/-- `set` replaces the state. -/
theorem run_set (s after : σ) :
    (set after : ExceptT ε (StateM σ) PUnit).run.run s = (.ok ⟨⟩, after) := rfl

/-- `modifyThe` changes the state. -/
theorem run_modify (change : σ → σ) (s : σ) :
    (modifyThe σ change : ExceptT ε (StateM σ) PUnit).run.run s = (.ok ⟨⟩, change s) := rfl

/-- The inversion of `>>=`: a sequence gives a result only when both of its steps do, the second one
from the state that the first one left. -/
theorem bind_ok {x : ExceptT ε (StateM σ) α} {f : α → ExceptT ε (StateM σ) β} {s after : σ}
    {b : β} (h : (x >>= f).run.run s = (.ok b, after)) :
    ∃ a mid, x.run.run s = (.ok a, mid) ∧ (f a).run.run mid = (.ok b, after) := by
  rw [run_bind] at h
  rcases hx : x.run.run s with ⟨a | a, mid⟩
  · rw [hx] at h
    cases h
  · rw [hx] at h
    exact ⟨a, mid, rfl, h⟩

/-- The inversion of `Except.map`: a changed result comes from a result. -/
theorem map_ok {f : α → β} {x : Except ε α} {b : β} (h : x.map f = .ok b) :
    ∃ a, x = .ok a ∧ f a = b := by
  cases x with
  | error e => cases h
  | ok a => exact ⟨a, rfl, Except.ok.inj h⟩

/-- The inversion of `>>=` for steps without a state. -/
theorem bind_eq_ok {x : Except ε α} {f : α → Except ε β} {b : β} :
    (x >>= f) = .ok b ↔ ∃ a, x = .ok a ∧ f a = .ok b := by
  cases x <;> simp [bind, Except.bind]

/-! ## Lists of steps -/

/-- The results of `mapM` are those of the members, in the order of the list. -/
theorem forall₂_of_mapM {f : α → Except ε β} {xs : List α} {ys : List β}
    (h : xs.mapM f = .ok ys) : List.Forall₂ (fun x y => f x = .ok y) xs ys := by
  induction xs generalizing ys with
  | nil =>
      cases h
      exact .nil
  | cons x xs ih =>
      rw [List.mapM_cons] at h
      obtain ⟨y, hy, h⟩ := bind_eq_ok.mp h
      obtain ⟨rest, hrest, h⟩ := bind_eq_ok.mp h
      cases h
      exact .cons hy (ih hrest)

/-- Every member of the list has its result among those of `mapM`. -/
theorem exists_of_mem_mapM {f : α → Except ε β} {xs : List α} {ys : List β}
    (h : xs.mapM f = .ok ys) {x : α} (hx : x ∈ xs) : ∃ y ∈ ys, f x = .ok y := by
  have hresults := forall₂_of_mapM h
  clear h
  induction hresults with
  | nil => cases hx
  | @cons _ y xs ys hstep _ ih =>
      rcases List.mem_cons.mp hx with rfl | hx
      · exact ⟨y, List.mem_cons_self, hstep⟩
      · obtain ⟨found, hfound, heq⟩ := ih hx
        exact ⟨found, List.mem_cons_of_mem _ hfound, heq⟩

/-- Every result of `mapM` is that of some member of the list. -/
theorem exists_of_mapM_ok {f : α → Except ε β} {xs : List α} {ys : List β}
    (h : xs.mapM f = .ok ys) {y : β} (hy : y ∈ ys) : ∃ x ∈ xs, f x = .ok y := by
  have hresults := forall₂_of_mapM h
  clear h
  induction hresults with
  | nil => cases hy
  | @cons x _ xs ys hstep _ ih =>
      rcases List.mem_cons.mp hy with rfl | hy
      · exact ⟨x, List.mem_cons_self, hstep⟩
      · obtain ⟨found, hfound, heq⟩ := ih hy
        exact ⟨found, List.mem_cons_of_mem _ hfound, heq⟩

/-- Steps that give the values of a function `g` give them for a whole list. -/
theorem mapM_eq_map {f : α → Except ε β} {g : α → β} {xs : List α}
    (h : ∀ x ∈ xs, f x = .ok (g x)) : xs.mapM f = .ok (xs.map g) := by
  induction xs with
  | nil => rfl
  | cons x xs ih =>
      rw [List.mapM_cons, h x List.mem_cons_self, ih fun x hx => h x (List.mem_cons_of_mem _ hx)]
      rfl

/-- `mapM` gives results when each step does: there is no state through which a step could hinder a
later one. -/
theorem mapM_ok {f : α → Except ε β} {xs : List α} (h : ∀ x ∈ xs, ∃ y, f x = .ok y) :
    ∃ ys, xs.mapM f = .ok ys := by
  induction xs with
  | nil => exact ⟨[], rfl⟩
  | cons x xs ih =>
      obtain ⟨y, hy⟩ := h x (List.mem_cons_self ..)
      obtain ⟨ys, hys⟩ := ih fun x hx => h x (List.mem_cons_of_mem _ hx)
      exact ⟨y :: ys, by rw [List.mapM_cons, hy, hys]; rfl⟩

/-- What every step of a fold keeps is kept by the whole fold. `hstep` may use that the element is
one of the list. -/
theorem foldlM_keeps {P : β → Prop} {f : β → α → Except ε β} {xs : List α} {start last : β}
    (hstep : ∀ x ∈ xs, ∀ b next, P b → f b x = .ok next → P next) (hstart : P start)
    (hok : xs.foldlM f start = .ok last) : P last := by
  induction xs generalizing start with
  | nil =>
      cases hok
      exact hstart
  | cons x xs ih =>
      rw [List.foldlM_cons] at hok
      obtain ⟨next, hx, hok⟩ := bind_eq_ok.mp hok
      exact ih (fun y hy => hstep y (List.mem_cons_of_mem _ hy))
        (hstep x List.mem_cons_self start next hstart hx) hok

end Steps

end RecordQuery
