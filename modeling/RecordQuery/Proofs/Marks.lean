import RecordQuery.Plan.Fingerprint
import RecordQuery.Proofs.GroupTexts
import Mathlib.Data.List.Infix

/-!
# `RecordQuery.Proofs.Marks`: texts that end at a mark

Where texts are written one behind the other with nothing between them, a text is read back if it is
known by what comes next that it has ended. A mark says so, if it does not occur in the text and
does not overlap with another mark.

`Separate` is the condition on the marks, and it can be decided. `Separate.cut` reads a text back up
to the mark behind it. `counted_inj` is for a number in digits, which has no mark behind it: the
same number follows once more in eight bytes, `countBytes`, and the highest of these is no digit.
The lists of bytes are arbitrary here; which texts and marks a plan is written with is the matter of
`Fingerprints`.

The theorems:

* `mem_textBytes`: a text of ASCII characters is written in the codes of its characters.
* `Separate.cut`: texts in which no mark occurs are read back up to the mark behind them.
* `counted_inj`: a number in digits is read back if the same number follows in eight bytes.
-/

set_option autoImplicit false

namespace RecordQuery

/-! ## The bytes of texts and counts

Texts are written in UTF-8 and counts in eight bytes. Both can be read back, and the marks 0 and 1
occur in no text of digits. -/

/-- The bytes that the loop of `ByteArray.toList` still adds are those from `place` on. -/
theorem toList_loop_eq_drop (bytes : ByteArray) (place : Nat) (taken : List UInt8) :
    ByteArray.toList.loop bytes place taken = taken.reverse ++ bytes.data.toList.drop place := by
  induction place, taken using ByteArray.toList.loop.induct bytes with
  | case1 place taken hplace ih =>
      have hlength : place < bytes.data.toList.length := by
        rwa [Array.length_toList, ByteArray.size_data]
      have hbyte : bytes.get! place = bytes.data.toList[place] := by
        rw [Array.getElem_toList]
        exact getElem!_pos bytes.data place hplace
      rw [ByteArray.toList.loop, if_pos hplace, ih, List.drop_eq_getElem_cons hlength, hbyte,
        List.reverse_cons, List.append_assoc, List.singleton_append]
  | case2 place taken hplace =>
      have hend : bytes.data.toList.drop place = [] := by
        refine List.drop_of_length_le ?_
        rw [Array.length_toList, ByteArray.size_data]
        omega
      rw [ByteArray.toList.loop, if_neg hplace, hend, List.append_nil]

/-- `ByteArray.toList` is the list of its `data`. -/
theorem toList_eq_data (bytes : ByteArray) : bytes.toList = bytes.data.toList :=
  toList_loop_eq_drop bytes 0 []

/-- `textBytes` writes a text character by character. -/
theorem textBytes_eq_flatMap (s : String) :
    textBytes s = s.toList.flatMap String.utf8EncodeChar := by
  have h : s.toByteArray = (s.toList.flatMap String.utf8EncodeChar).toByteArray :=
    String.utf8Encode_toList.symm
  rw [textBytes, toList_eq_data, String.toUTF8, h, List.data_toByteArray]

/-- `textBytes` is injective, as UTF-8 can be read back. -/
theorem textBytes_inj {s t : String} (h : textBytes s = textBytes t) : s = t := by
  rw [textBytes, textBytes, toList_eq_data, toList_eq_data] at h
  exact String.toByteArray_inj.mp (ByteArray.ext (Array.toList_inj.mp h))

/-- `textBytes` of ASCII characters (`hs`) are the codes of these. -/
theorem mem_textBytes {s : String} (hs : ∀ c ∈ s.toList, c.toNat < 128) {b : UInt8}
    (hb : b ∈ textBytes s) : ∃ c ∈ s.toList, b.toNat = c.toNat := by
  rw [textBytes_eq_flatMap, List.mem_flatMap] at hb
  obtain ⟨c, hc, hb⟩ := hb
  have hsmall : c.val.toNat < 128 := hs c hc
  refine ⟨c, hc, ?_⟩
  rw [String.utf8EncodeChar, if_pos (by omega), List.mem_singleton] at hb
  rw [hb, UInt8.toNat_ofNat']
  exact Nat.mod_eq_of_lt (by omega)

/-- The codes of digits are 48 to 57, so above the marks 0 and 1. -/
theorem digitCode {c : Char} (h : c.isDigit = true) : 48 ≤ c.toNat ∧ c.toNat ≤ 57 := by
  simp only [Char.isDigit, Bool.and_eq_true, decide_eq_true_eq] at h
  exact h

/-- `textBytes` of a number are codes of digits. -/
theorem mem_textBytes_natText {n : Nat} {b : UInt8} (hb : b ∈ textBytes (toString n)) :
    48 ≤ b.toNat ∧ b.toNat ≤ 57 := by
  have hdigit {c : Char} (hc : c ∈ (toString n).toList) := digitCode (isDigit_of_mem_natText hc)
  obtain ⟨c, hc, hcode⟩ := mem_textBytes (fun c hc => by have := hdigit hc; omega) hb
  rw [hcode]
  exact hdigit hc

/-- A count is written in eight bytes. -/
@[simp] theorem length_countBytes (n : Nat) : (countBytes n).length = 8 := by simp [countBytes]

/-- `countBytes` of 0 starts with the byte that closes the properties of a leaf. -/
theorem countBytes_zero : countBytes 0 = [0] ++ List.replicate 7 0 := rfl

/-- `countBytes` of 1 starts with the byte that closes the properties of a plan. -/
theorem countBytes_one : countBytes 1 = [1] ++ List.replicate 7 0 := rfl

/-- The last byte of a count is the highest one. It is zero for counts below `2 ^ 56`. -/
theorem countBytes_last (n : Nat) : (countBytes n)[7]? = some (UInt8.ofNat (n >>> 56)) := rfl

/-- The eight bytes of a count below `2 ^ 64` tell it. -/
theorem countBytes_inj {m n : Nat} (hm : m < 2 ^ 64) (hn : n < 2 ^ 64)
    (h : countBytes m = countBytes n) : m = n := by
  have hbyte (i : Nat) (hi : i < 8) : m / 256 ^ i % 256 = n / 256 ^ i % 256 := by
    have hget := congrArg (fun bytes => bytes[i]?) h
    simp only [countBytes, List.getElem?_map, List.getElem?_range hi, Option.map_some,
      Option.some.injEq, Nat.shiftRight_eq_div_pow, Nat.pow_mul] at hget
    simpa using congrArg UInt8.toNat hget
  -- the lowest bytes together give the number up to a power of `256`
  have hmod (i : Nat) (hi : i ≤ 8) : m % 256 ^ i = n % 256 ^ i := by
    induction i with
    | zero => rw [Nat.pow_zero, Nat.mod_one, Nat.mod_one]
    | succ i ih => rw [Nat.pow_succ, Nat.mod_mul, Nat.mod_mul, ih (by omega), hbyte i (by omega)]
  have hall : m % 2 ^ 64 = n % 2 ^ 64 := hmod 8 (Nat.le_refl 8)
  rwa [Nat.mod_eq_of_lt hm, Nat.mod_eq_of_lt hn] at hall

/-! ## Marks

A text is read back up to the mark behind it, if it holds no mark itself and marks do not overlap.
-/

/-- Marks that do not overlap. Where the end of one of them, a tail `t`, and another one start
alike, they are the same mark from its start. -/
def Separate (marks : List (List UInt8)) : Prop :=
  ∀ m ∈ marks, ∀ m' ∈ marks, ∀ t ∈ m.tails, t ≠ [] → t <+: m' ∨ m' <+: t → t = m ∧ m = m'

instance (marks : List (List UInt8)) : Decidable (Separate marks) :=
  inferInstanceAs (Decidable (∀ m ∈ marks, ∀ m' ∈ marks, ∀ t ∈ m.tails, t ≠ [] →
    t <+: m' ∨ m' <+: t → t = m ∧ m = m'))

namespace Separate

variable {marks : List (List UInt8)} {m m' u u' r r' : List UInt8}

/-- Where a mark starts, none starts with bytes before it that hold no mark, `hu`: the two marks
would overlap. -/
theorem eq_nil_of_append_eq (h : Separate marks) (hm : m ∈ marks) (hm' : m' ∈ marks)
    (hu : ¬ m <:+: u) (heq : m ++ r = u ++ (m' ++ r')) : u = [] := by
  rcases List.append_eq_append_iff.mp heq with ⟨t, rfl, -⟩ | ⟨t, rfl, ht⟩
  · exact absurd (List.infix_append' [] m t) hu
  · rcases eq_or_ne t [] with rfl | hne
    · simp at hu
    · have hprefix : t <+: m' ∨ m' <+: t :=
        List.prefix_or_prefix_of_prefix (ht ▸ List.prefix_append t r) (List.prefix_append m' r')
      have hwhole := h _ hm m' hm' t (by simp) hne hprefix
      simpa using hwhole.1

/-- Texts in which no mark occurs are read back up to the mark behind them. The marks `m` and `m'`
may be different ones. -/
theorem cut (h : Separate marks) (hm : m ∈ marks) (hm' : m' ∈ marks)
    (hu : ∀ k ∈ marks, ¬ k <:+: u) (hu' : ∀ k ∈ marks, ¬ k <:+: u')
    (heq : u ++ (m ++ r) = u' ++ (m' ++ r')) : u = u' ∧ m ++ r = m' ++ r' := by
  rcases List.append_eq_append_iff.mp heq with ⟨a, rfl, ha⟩ | ⟨a, rfl, ha⟩
  · have hnil : a = [] := h.eq_nil_of_append_eq hm hm'
      (fun hin => hu' m hm (hin.trans (List.suffix_append u a).isInfix)) ha
    subst hnil
    exact ⟨(List.append_nil u).symm, ha⟩
  · have hnil : a = [] := h.eq_nil_of_append_eq hm' hm
      (fun hin => hu m' hm' (hin.trans (List.suffix_append u' a).isInfix)) ha
    subst hnil
    exact ⟨List.append_nil u', ha.symm⟩

end Separate

/-! ## Counted lists

A number in digits is followed by the same number in eight bytes. Where its digits end can be told
from what may stand behind them. -/

/-- Digits in front of a count and letters are not continued by digits of a longer number. The
highest byte of either count is no digit and no letter, as the counts are below `2 ^ 60`, and one of
them would have to be. -/
theorem digits_end {m n : Nat} (hm : m < 2 ^ 60) (hn : n < 2 ^ 60) {digits r r' : List UInt8}
    (hdigits : ∀ b ∈ digits, 48 ≤ b.toNat)
    (hr : m ≠ 0 → ∃ letters, letters <+: r ∧ 8 ≤ letters.length ∧ ∀ b ∈ letters, 48 ≤ b.toNat)
    (heq : countBytes m ++ r = digits ++ (countBytes n ++ r')) : digits = [] := by
  have htop {k : Nat} (hk : k < 2 ^ 60) : (UInt8.ofNat (k >>> 56)).toNat < 48 := by
    rw [UInt8.toNat_ofNat', Nat.shiftRight_eq_div_pow]
    omega
  by_contra hne
  have hpos : 0 < digits.length := List.length_pos_iff.mpr hne
  -- the highest byte of the first count lies behind the digits
  have hshort : digits.length ≤ 7 := by
    by_contra hlong
    have hat := congrArg (fun bytes => bytes[7]?) heq
    beta_reduce at hat
    rw [List.getElem?_append_left (by simp), countBytes_last,
      List.getElem?_append_left (by omega)] at hat
    have := hdigits _ (List.mem_of_getElem? hat.symm)
    have := htop hm
    omega
  have hzero : m ≠ 0 := by
    rintro rfl
    have hat := congrArg (fun bytes => bytes[0]?) heq
    beta_reduce at hat
    rw [List.getElem?_append_left (by simp), List.getElem?_append_left hpos] at hat
    have := hdigits _ (List.mem_of_getElem? (hat.symm.trans rfl))
    simp at this
  -- the highest byte of the second count lies among the letters
  obtain ⟨letters, ⟨rest, rfl⟩, hlength, hletters⟩ := hr hzero
  have hleft : (countBytes m ++ (letters ++ rest))[digits.length + 7]? =
      letters[digits.length - 1]? := by
    rw [List.getElem?_append_right (by simp; omega), length_countBytes,
      List.getElem?_append_left (by omega)]
    congr 1
  have hright : (digits ++ (countBytes n ++ r'))[digits.length + 7]? =
      some (UInt8.ofNat (n >>> 56)) := by
    rw [List.getElem?_append_right (by omega), Nat.add_sub_cancel_left,
      List.getElem?_append_left (by simp), countBytes_last]
  rw [heq, hright] at hleft
  have := hletters _ (List.mem_of_getElem? hleft.symm)
  have := htop hn
  omega

/-- A number in digits is read back if the same number follows in eight bytes, and letters behind
them unless it is zero, `hr` and `hr'`. The digits of the longer number would go on into the count
of the other one, which `digits_end` excludes. -/
theorem counted_inj {m n : Nat} (hm : m < 2 ^ 60) (hn : n < 2 ^ 60) {r r' : List UInt8}
    (hr : m ≠ 0 → ∃ letters, letters <+: r ∧ 8 ≤ letters.length ∧ ∀ b ∈ letters, 48 ≤ b.toNat)
    (hr' : n ≠ 0 → ∃ letters, letters <+: r' ∧ 8 ≤ letters.length ∧ ∀ b ∈ letters, 48 ≤ b.toNat)
    (heq : textBytes (toString m) ++ (countBytes m ++ r) =
      textBytes (toString n) ++ (countBytes n ++ r')) : m = n ∧ r = r' := by
  have hsame : textBytes (toString m) = textBytes (toString n) := by
    rcases List.append_eq_append_iff.mp heq with ⟨digits, hlong, ha⟩ | ⟨digits, hlong, ha⟩
    · have hnil := digits_end hm hn (fun b hb => (mem_textBytes_natText (n := n)
        (hlong ▸ List.mem_append_right _ hb)).1) hr ha
      rw [hlong, hnil, List.append_nil]
    · have hnil := digits_end hn hm (fun b hb => (mem_textBytes_natText (n := m)
        (hlong ▸ List.mem_append_right _ hb)).1) hr' ha
      rw [hlong, hnil, List.append_nil]
  have hnumber : m = n := natText_inj (textBytes_inj hsame)
  subst hnumber
  exact ⟨rfl, List.append_cancel_left (List.append_cancel_left heq)⟩

end RecordQuery
