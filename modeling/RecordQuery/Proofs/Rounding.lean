import Mathlib.Algebra.Ring.Nat
import Mathlib.Data.Nat.Log
import RecordQuery.Number.Binary64
import RecordQuery.Proofs.Order

/-!
# `RecordQuery.Proofs.Rounding`: integers as floating-point numbers

`Value.compare` compares an integer with a floating-point number after `Binary64.ofInt` has rounded
the integer. So the laws of the order of values rest on two facts about `ofInt`, which are proved
here: it keeps the order of integers, and it keeps integers apart as long as their digits fit into
the 53 bits of a significand.

Floating-point numbers are bit patterns, and `Binary64.orderKey` is the place of a pattern in the
total order of all patterns, NaNs and both zeros included. `Binary64.magnitudeOfNat` computes the
magnitude bits of a natural number by shifting and rounding its digits. The proof takes the
magnitude before overflow, `unboundedMagnitude`, as the sum of an exponent part and
`significandOfNat`. Each part is monotone, and a carry out of the significand
(`significandOfNat_le`) only reaches the smallest magnitude of the next exponent. This is why
rounding is monotone across powers of two.

The theorems:

* `Binary64.compare_eq_iff`: patterns that compare equal are the same pattern, NaNs included.
* `Binary64.orderKey_ofInt_mono`: rounding keeps the order of integers. It need not keep it
  strictly.
* `Binary64.ofInt_inj`: integers of magnitude at most `2 ^ 53` are rounded to different numbers. The
  next integer is rounded to `2 ^ 53` itself, so the bound is the largest one.
-/

set_option autoImplicit false

namespace RecordQuery

namespace Binary64

/-! ## The order of patterns

A pattern of bits is compared by its `orderKey`, so that every pattern has a place of its own, those
that are no numbers among them. -/

/-- A pattern is determined by its place in the order. `orderKey` places negative patterns below
zero by their magnitude, and the others above it, so the sign bit and the magnitude can be read off
the place. -/
theorem orderKey_inj {x y : Binary64} (h : x.orderKey = y.orderKey) : x = y := by
  have hx := x.bits.toNat_lt
  have hy := y.bits.toNat_lt
  suffices hbits : x.bits.toNat = y.bits.toNat by
    cases x
    cases y
    exact congrArg _ (UInt64.toNat_inj.mp hbits)
  -- the sign of the place is the sign bit, and the rest of the bits is the magnitude
  unfold orderKey isNegative magnitude signUnit at h
  by_cases hxneg : 0x8000000000000000 ≤ x.bits.toNat <;>
    by_cases hyneg : 0x8000000000000000 ≤ y.bits.toNat <;>
    simp only [hxneg, hyneg, decide_true, decide_false, if_true, Bool.false_eq_true,
      if_false] at h <;> omega

/-- Patterns that compare equal are the same pattern. This holds of NaNs and of the two zeros too,
as `Binary64.compare` compares places and not numbers. -/
theorem compare_eq_iff {x y : Binary64} : x.compare y = .eq ↔ x = y := by
  unfold compare
  rw [Std.compare_eq_iff_eq]
  exact ⟨orderKey_inj, congrArg _⟩

/-- A pattern put together by `ofParts` has its place by sign and magnitude, when the magnitude `m`
does not reach the sign bit. -/
theorem orderKey_ofParts {negative : Bool} {m : Nat} (hm : m < signUnit) :
    (ofParts negative m).orderKey = if negative then -(m : Int) - 1 else m := by
  have hbits : (ofParts negative m).bits.toNat = m + if negative then signUnit else 0 := by
    unfold ofParts
    rw [Nat.mod_eq_of_lt hm, UInt64.toNat_ofNat', Nat.mod_eq_of_lt]
    unfold signUnit at hm ⊢
    split <;> omega
  unfold orderKey isNegative magnitude
  rw [hbits]
  unfold signUnit at hm ⊢
  cases negative <;> simp <;> omega

/-! ## Rounding the significand

`roundShift` drops bits and rounds to the nearest, a tie to the even neighbour. Here it is enough
that it keeps the order and goes up by one at most. -/

/-- `roundShift` drops the last `shift` bits and does not go below the quotient. -/
theorem div_le_roundShift (n shift : Nat) : n / 2 ^ shift ≤ roundShift n shift := by
  unfold roundShift
  simp only [Nat.pow_eq]
  split
  · omega
  · split <;> omega

/-- `roundShift` goes to the next integer at most. -/
theorem roundShift_le (n shift : Nat) : roundShift n shift ≤ n / 2 ^ shift + 1 := by
  unfold roundShift
  simp only [Nat.pow_eq]
  split
  · omega
  · split <;> omega

/-- `roundShift` keeps the order. Where the quotients of `m` and `n` are equal, the remainders
decide, and the larger one is not rounded down if the smaller one is rounded up. -/
theorem roundShift_mono {m n shift : Nat} (h : m ≤ n) : roundShift m shift ≤ roundShift n shift := by
  rcases Nat.lt_or_ge (m / 2 ^ shift) (n / 2 ^ shift) with hlt | hge
  · have hm := roundShift_le m shift
    have hn := div_le_roundShift n shift
    omega
  · -- with the same quotient, the larger number has the larger rest
    have hquotient : m / 2 ^ shift = n / 2 ^ shift :=
      Nat.le_antisymm (Nat.div_le_div_right h) hge
    have hrest : m % 2 ^ shift ≤ n % 2 ^ shift := by
      have hm := Nat.div_add_mod m (2 ^ shift)
      have hn := Nat.div_add_mod n (2 ^ shift)
      rw [hquotient] at hm
      omega
    unfold roundShift
    simp only [Nat.pow_eq, hquotient, Bool.and_eq_true, beq_iff_eq]
    split
    · rw [if_pos (by omega)]
    · split
      · split
        · omega
        · rw [if_pos (by omega)]
      · split
        · omega
        · split <;> omega

/-! ## Rounding integers

An integer is rounded by its number of bits and its significand. A larger one has more bits, or as
many and no smaller significand, and a carry leads to the next number of bits. -/

/-- A larger number has no fewer bits: `Nat.log2` is monotone. -/
theorem log2_mono {m n : Nat} (h : m ≤ n) : m.log2 ≤ n.log2 := by
  rw [Nat.log2_eq_log_two, Nat.log2_eq_log_two]
  exact Nat.log_mono_right h

/-- The significand of a positive integer, its highest bit of weight `2 ^ 52`. An integer of at most
53 bits is shifted up and kept as it is, a longer one is rounded by `roundShift`. -/
def significandOfNat (n : Nat) : Nat :=
  if n.log2 ≤ 52 then n * 2 ^ (52 - n.log2) else roundShift n (n.log2 - 52)

/-- The magnitude of a positive integer before overflow: the exponent in units of `fieldUnit`, and
the significand added to it. The highest bit of the significand counts as one unit, so `1022` stands
where the bias of the format has `1023`. -/
def unboundedMagnitude (n : Nat) : Nat := (n.log2 + 1022) * fieldUnit + significandOfNat n

/-- `magnitudeOfNat` is `unboundedMagnitude`, bounded by the magnitude of infinity. No integer of 64
bits meets the bound; it is part of the definition for integers of any size. -/
theorem magnitudeOfNat_eq {n : Nat} (hn : n ≠ 0) :
    magnitudeOfNat n = min (unboundedMagnitude n) infinityMagnitude := by
  unfold magnitudeOfNat
  rw [if_neg hn]
  rfl

/-- No integer has a magnitude that reaches the sign bit, `signUnit`. -/
theorem magnitudeOfNat_lt (n : Nat) : magnitudeOfNat n < signUnit := by
  by_cases hn : n = 0
  · subst hn
    decide
  · rw [magnitudeOfNat_eq hn]
    exact Nat.lt_of_le_of_lt (Nat.min_le_right _ _) (by decide)

/-- `significandOfNat` has its highest bit, `fieldUnit`, set. -/
theorem le_significandOfNat {n : Nat} (hn : n ≠ 0) : fieldUnit ≤ significandOfNat n := by
  have hlow := Nat.log2_self_le hn
  unfold significandOfNat
  split
  next hshort =>
    calc fieldUnit = 2 ^ n.log2 * 2 ^ (52 - n.log2) := by
          rw [← Nat.pow_add, Nat.add_sub_cancel' hshort]
          rfl
      _ ≤ n * 2 ^ (52 - n.log2) := Nat.mul_le_mul_right _ hlow
  next hlong =>
    refine Nat.le_trans ?_ (div_le_roundShift _ _)
    rw [Nat.le_div_iff_mul_le (Nat.two_pow_pos _)]
    calc fieldUnit * 2 ^ (n.log2 - 52) = 2 ^ n.log2 := by
          show 2 ^ 52 * _ = _
          rw [← Nat.pow_add, Nat.add_sub_cancel' (by omega)]
      _ ≤ n := hlow

/-- `significandOfNat` of a number that is not rounded (`hshort`) has no higher bit. -/
theorem significandOfNat_lt {n : Nat} (hshort : n.log2 ≤ 52) :
    significandOfNat n < 2 * fieldUnit := by
  unfold significandOfNat
  rw [if_pos hshort]
  calc n * 2 ^ (52 - n.log2) < 2 ^ (n.log2 + 1) * 2 ^ (52 - n.log2) :=
        Nat.mul_lt_mul_of_pos_right Nat.lt_log2_self (Nat.two_pow_pos _)
    _ = 2 ^ 53 := by rw [← Nat.pow_add, show n.log2 + 1 + (52 - n.log2) = 53 by omega]

/-- Rounding a significand carries into the next bit at most. A significand of `2 * fieldUnit`
stands for the smallest one of the next exponent. -/
theorem significandOfNat_le (n : Nat) : significandOfNat n ≤ 2 * fieldUnit := by
  by_cases hshort : n.log2 ≤ 52
  · exact Nat.le_of_lt (significandOfNat_lt hshort)
  · unfold significandOfNat
    rw [if_neg hshort]
    refine Nat.le_trans (roundShift_le _ _) (Nat.div_lt_of_lt_mul ?_)
    calc n < 2 ^ (n.log2 + 1) := Nat.lt_log2_self
      _ = 2 ^ (n.log2 - 52) * 2 ^ 53 := by
          rw [← Nat.pow_add, show n.log2 - 52 + 53 = n.log2 + 1 by omega]

/-- Of two numbers with equally many bits (`hlog`), the larger one has no smaller
`significandOfNat`. -/
theorem significandOfNat_mono {m n : Nat} (hlog : m.log2 = n.log2) (h : m ≤ n) :
    significandOfNat m ≤ significandOfNat n := by
  unfold significandOfNat
  rw [hlog]
  split
  · exact Nat.mul_le_mul_right _ h
  · exact roundShift_mono h

/-- The magnitude before overflow keeps the order of positive integers. With equally many bits the
significands decide. With fewer bits the exponent of `m` is smaller, and its significand makes up
for one unit at most. -/
theorem unboundedMagnitude_mono {m n : Nat} (hn : n ≠ 0) (h : m ≤ n) :
    unboundedMagnitude m ≤ unboundedMagnitude n := by
  unfold unboundedMagnitude
  rcases Nat.lt_or_eq_of_le (log2_mono h) with hlt | heq
  · -- the number with fewer bits carries into the exponent of the other one at most
    have hm := significandOfNat_le m
    have hle := le_significandOfNat hn
    have hexponent : (m.log2 + 1 + 1022) * fieldUnit ≤ (n.log2 + 1022) * fieldUnit :=
      Nat.mul_le_mul_right _ (by omega)
    rw [Nat.add_right_comm, Nat.add_mul (m.log2 + 1022)] at hexponent
    omega
  · have hsignificand := significandOfNat_mono heq h
    rw [heq]
    omega

/-- `magnitudeOfNat` keeps the order of natural numbers: rounding is monotone. -/
theorem magnitudeOfNat_mono {m n : Nat} (h : m ≤ n) : magnitudeOfNat m ≤ magnitudeOfNat n := by
  by_cases hm : m = 0
  · subst hm
    exact Nat.zero_le _
  · have hn : n ≠ 0 := by omega
    rw [magnitudeOfNat_eq hm, magnitudeOfNat_eq hn]
    have hmono := unboundedMagnitude_mono hn h
    omega

/-- The `orderKey` of a rounded integer, its place in the order: the magnitude of its absolute
value, on the side of its sign. -/
theorem orderKey_ofInt (n : Int) :
    (ofInt n).orderKey =
      if n < 0 then -(magnitudeOfNat n.natAbs : Int) - 1 else magnitudeOfNat n.natAbs := by
  unfold ofInt
  rw [orderKey_ofParts (magnitudeOfNat_lt _)]
  simp only [decide_eq_true_eq]

/-- Rounding by `ofInt` keeps the order of integers. Two integers may be rounded to one number, so
the order need not be kept strictly. -/
theorem orderKey_ofInt_mono {m n : Int} (h : m ≤ n) :
    (ofInt m).orderKey ≤ (ofInt n).orderKey := by
  rw [orderKey_ofInt, orderKey_ofInt]
  split
  next hm =>
    split
    next hn =>
      have hmono := magnitudeOfNat_mono (show n.natAbs ≤ m.natAbs by omega)
      omega
    next => omega
  next hm =>
    have hmono := magnitudeOfNat_mono (show m.natAbs ≤ n.natAbs by omega)
    rw [if_neg (by omega)]
    omega

/-! ## Integers that are not rounded

Up to `2 ^ 53` no bit is dropped, so no two of these integers are rounded to one number. -/

/-- The magnitude before overflow keeps integers below `2 ^ 53` apart from larger ones. The digits
of `m` all fit into its significand, so nothing of `m` is rounded away; `n` may be rounded, but not
below the power of two that it reaches. -/
theorem unboundedMagnitude_strict {m n : Nat} (hm : m < 2 ^ 53) (h : m < n) :
    unboundedMagnitude m < unboundedMagnitude n := by
  have hshort : m.log2 ≤ 52 := by
    by_cases hzero : m = 0
    · subst hzero
      decide
    · exact Nat.le_of_lt_succ ((Nat.log2_lt hzero).mpr hm)
  unfold unboundedMagnitude
  -- a larger exponent outweighs any significand; with one exponent the significands decide
  rcases Nat.lt_or_eq_of_le (log2_mono (Nat.le_of_lt h)) with hlt | heq
  · have hlow := significandOfNat_lt hshort
    have hle := le_significandOfNat (show n ≠ 0 by omega)
    have hexponent : (m.log2 + 1 + 1022) * fieldUnit ≤ (n.log2 + 1022) * fieldUnit :=
      Nat.mul_le_mul_right _ (by omega)
    rw [Nat.add_right_comm, Nat.add_mul (m.log2 + 1022)] at hexponent
    omega
  · have hsignificand : significandOfNat m < significandOfNat n := by
      unfold significandOfNat
      rw [heq, if_pos (heq ▸ hshort), if_pos (heq ▸ hshort)]
      exact Nat.mul_lt_mul_of_pos_right h (Nat.two_pow_pos _)
    rw [heq]
    omega

/-- Natural numbers up to `2 ^ 53` have different magnitudes. -/
theorem magnitudeOfNat_strict {m n : Nat} (h : m < n) (hn : n ≤ 2 ^ 53) :
    magnitudeOfNat m < magnitudeOfNat n := by
  have hstrict := unboundedMagnitude_strict (by omega : m < 2 ^ 53) h
  have hbound : unboundedMagnitude n ≤ unboundedMagnitude (2 ^ 53) :=
    unboundedMagnitude_mono (by decide) hn
  have hfinite : unboundedMagnitude (2 ^ 53) < infinityMagnitude := by decide +kernel
  have hpositive : 0 < unboundedMagnitude m := by
    unfold unboundedMagnitude fieldUnit
    omega
  rw [magnitudeOfNat_eq (by omega : n ≠ 0)]
  by_cases hm : m = 0
  · subst hm
    rw [show magnitudeOfNat 0 = 0 from rfl]
    omega
  · rw [magnitudeOfNat_eq hm]
    omega

/-- Integers of magnitude at most `2 ^ 53` are rounded to different numbers. `orderKey_ofInt`
reduces it to `magnitudeOfNat_strict` on each side of zero. -/
theorem ofInt_inj {m n : Int} (hm : m.natAbs ≤ 2 ^ 53) (hn : n.natAbs ≤ 2 ^ 53)
    (h : ofInt m = ofInt n) : m = n := by
  have hkey : (ofInt m).orderKey = (ofInt n).orderKey := congrArg _ h
  rw [orderKey_ofInt, orderKey_ofInt] at hkey
  have hmagnitude : magnitudeOfNat m.natAbs = magnitudeOfNat n.natAbs := by
    split at hkey <;> split at hkey <;> omega
  have habs : m.natAbs = n.natAbs := by
    rcases Nat.lt_trichotomy m.natAbs n.natAbs with hlt | heq | hgt
    · exact absurd hmagnitude (Nat.ne_of_lt (magnitudeOfNat_strict hlt hn))
    · exact heq
    · exact absurd hmagnitude.symm (Nat.ne_of_lt (magnitudeOfNat_strict hgt hm))
  split at hkey <;> split at hkey <;> omega

end Binary64

end RecordQuery
