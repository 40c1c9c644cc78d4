import Mathlib.Tactic.TFAE
import RecordQuery.Index.Query
import RecordQuery.Proofs.Rounding

/-!
# `RecordQuery.Proofs.ValueOrder`: where the order of values is a total order

`Value.compare` rounds an integer before it compares it with a floating-point number. So it is not
transitive on all values: two integers may both equal the number that they are rounded to. What
fails is transitivity alone. `Value.compare_swap` holds for all values.

The order is described by the numbers that occur in values, however deep. `Value.NumbersIn p q` says
that the integers in a value have the property `p` and the floating-point numbers the property `q`,
and `Value.Separated p q` that no number with `q` is what two different integers with `p` are
rounded to. `Value.ordered_iff_separated` shows that this is exactly the condition for a total
order.

Two cases of it are used elsewhere. *Exact* values (`Value.isExact`) have no floating-point number
in them; keys and rows are mostly stated for them, because exact values that compare equal are the
same value. *Sharp* values (`Value.IsSharp`) may have floating-point numbers, but none that two
integers are rounded to. Every exact value is sharp.

The theorems:

* `Value.compare_swap`: exchanging the values turns the order around, for all values.
* `Value.ordered_iff_separated`: the other laws of a total order hold exactly where the numbers are
  `Value.Separated`, as all integers up to `2 ^ 53` are.
* `Value.not_ordered_nextInteger`: the three values at which the laws fail.
* `Value.eq_of_compare_eq`: exact values that compare equal are the same value.
* `Value.totalOn_sharp`, `Key.totalOn_sharp`: sharp values are totally ordered, and so are sharp
  keys.
-/

set_option autoImplicit false

namespace RecordQuery

namespace Value

/-! ## Exact values

A value without floating-point numbers, however deep. Two such values that compare equal are the
same, which fails as soon as an integer may be compared with a rounded one. -/

mutual

/-- Whether there is no floating-point number (`float`) in the value. -/
def isExact : Value → Bool
  | float _ => false
  | list items => areExact items
  | map entries => entriesExact entries
  | _ => true

/-- Whether there is no floating-point number in any item. -/
def areExact : List Value → Bool
  | [] => true
  | v :: vs => v.isExact && areExact vs

/-- Whether there is no floating-point number under any name. -/
def entriesExact : List (String × Value) → Bool
  | [] => true
  | (_, v) :: rest => v.isExact && entriesExact rest

end

/-- `areExact` as a statement about the members of the list. -/
theorem areExact_iff {items : List Value} :
    areExact items = true ↔ ∀ v ∈ items, v.isExact = true := by
  induction items with
  | nil => simp [areExact]
  | cons v vs ih => simp [areExact, ih]

/-- `entriesExact` as a statement about the members of the list. -/
theorem entriesExact_iff {entries : List (String × Value)} :
    entriesExact entries = true ↔ ∀ e ∈ entries, e.2.isExact = true := by
  induction entries with
  | nil => simp [entriesExact]
  | cons e rest ih =>
      obtain ⟨name, v⟩ := e
      simp [entriesExact, ih]

/-- Values of different kinds are ordered by `Value.rank`, with null first. Integers and
floating-point numbers are of one kind. -/
theorem compare_of_rank_ne {a b : Value} (h : a.rank ≠ b.rank) :
    a.compare b = Ord.compare a.rank b.rank := by
  cases a <;> cases b <;> first | (exact absurd rfl h) | rfl

/-- A value that does not come after another one by `compare` has no higher `rank`. -/
theorem rank_le_of_isLE {a b : Value} (h : (a.compare b).isLE = true) : a.rank ≤ b.rank := by
  by_cases hrank : a.rank = b.rank
  · omega
  · rw [compare_of_rank_ne hrank, Nat.isLE_compare] at h
    exact h

/-- Values that compare `.eq` have one `rank`. An integer and a floating-point number are, so they
may compare equal. -/
theorem rank_eq_of_compare_eq {a b : Value} (h : a.compare b = .eq) : a.rank = b.rank := by
  by_contra hrank
  rw [compare_of_rank_ne hrank, Nat.compare_eq_eq] at h
  exact hrank h

/-- Only null compares `.eq` to null. -/
theorem isNull_congr {a b : Value} (h : a.compare b = .eq) : a.isNull = b.isNull := by
  have hrank := rank_eq_of_compare_eq h
  cases a <;> cases b <;> first | rfl | simp [rank] at hrank

mutual

/-- Exchanging two values turns the order around, whatever numbers are in them: rounding is a
function, and `Binary64.compare` is a total order of patterns. -/
theorem compare_swap (a b : Value) : b.compare a = (a.compare b).swap := by
  by_cases hrank : a.rank = b.rank
  · cases a <;> cases b <;>
      first
      | (simp [rank] at hrank; done)
      | simp only [compare, Binary64.compare, Ordering.swap]
    case bool.bool => exact Std.OrientedOrd.eq_swap
    case int.int => exact Std.OrientedOrd.eq_swap
    case int.float => exact Std.OrientedOrd.eq_swap
    case float.int => exact Std.OrientedOrd.eq_swap
    case float.float => exact Std.OrientedOrd.eq_swap
    case string.string => exact Std.OrientedOrd.eq_swap
    case link.link a b => exact Rid.totalOn.swap trivial trivial
    case list.list as bs => exact compareItems_swap as bs
    case map.map as bs => exact compareEntries_swap as bs
  · rw [compare_of_rank_ne hrank, compare_of_rank_ne (Ne.symm hrank)]
    exact Std.OrientedOrd.eq_swap

/-- Exchanging two lists of items turns `compareItems` around. -/
theorem compareItems_swap : ∀ as bs : List Value,
    compareItems bs as = (compareItems as bs).swap
  | [], [] => rfl
  | [], _ :: _ => rfl
  | _ :: _, [] => rfl
  | a :: as, b :: bs => by
      simp only [compareItems, swap_then, ← compare_swap a b, ← compareItems_swap as bs]

/-- Exchanging two lists of entries turns `compareEntries` around. -/
theorem compareEntries_swap : ∀ as bs : List (String × Value),
    compareEntries bs as = (compareEntries as bs).swap
  | [], [] => rfl
  | [], _ :: _ => rfl
  | _ :: _, [] => rfl
  | (k, a) :: as, (l, b) :: bs => by
      simp only [compareEntries, swap_then, ← compare_swap a b, ← compareEntries_swap as bs,
        ← Std.OrientedOrd.eq_swap]

end

mutual

/-- Values that `isExact` and compare `.eq` are the same value. Within a kind the comparison tells
any two values apart, except for an integer and the number that it is rounded to. -/
theorem eq_of_compare_eq : ∀ {a b : Value}, a.isExact = true → b.isExact = true →
    a.compare b = .eq → a = b := by
  intro a b ha hb h
  have hrank := rank_eq_of_compare_eq h
  cases a <;> cases b <;>
    first
    | (simp [rank] at hrank; done)
    | simp only [isExact, Bool.false_eq_true] at ha hb
  all_goals simp only [compare, Std.compare_eq_iff_eq, Rid.compare_eq_iff] at h
  case null.null => rfl
  case bool.bool => rw [h]
  case int.int => rw [Int64.toInt_inj.mp h]
  case string.string => rw [h]
  case link.link => rw [h]
  case list.list as bs => rw [eq_of_compareItems_eq ha hb h]
  case map.map as bs => rw [eq_of_compareEntries_eq ha hb h]

/-- Items that are exact and compare `.eq` are the same items. -/
theorem eq_of_compareItems_eq : ∀ {as bs : List Value}, areExact as = true →
    areExact bs = true → compareItems as bs = .eq → as = bs
  | [], [], _, _, _ => rfl
  | [], _ :: _, _, _, h => by simp [compareItems] at h
  | _ :: _, [], _, _, h => by simp [compareItems] at h
  | a :: as, b :: bs, ha, hb, h => by
      simp only [areExact, Bool.and_eq_true] at ha hb
      simp only [compareItems, Ordering.then_eq_eq] at h
      rw [eq_of_compare_eq ha.1 hb.1 h.1, eq_of_compareItems_eq ha.2 hb.2 h.2]

/-- Entries that are exact and compare `.eq` are the same entries. -/
theorem eq_of_compareEntries_eq : ∀ {as bs : List (String × Value)},
    entriesExact as = true → entriesExact bs = true → compareEntries as bs = .eq → as = bs
  | [], [], _, _, _ => rfl
  | [], _ :: _, _, _, h => by simp [compareEntries] at h
  | _ :: _, [], _, _, h => by simp [compareEntries] at h
  | (k, a) :: as, (l, b) :: bs, ha, hb, h => by
      simp only [entriesExact, Bool.and_eq_true] at ha hb
      simp only [compareEntries, Ordering.then_eq_eq, Std.compare_eq_iff_eq] at h
      rw [h.1, eq_of_compare_eq ha.1 hb.1 h.2.1, eq_of_compareEntries_eq ha.2 hb.2 h.2.2]

end

/-! ## Lists and maps

The order of lists and maps is lexicographic, so the laws are carried over from the values in them.
-/

/-- Items are totally ordered, the first difference deciding, where the values are.
`TotalOn.isLE_then` is the step. -/
theorem totalOn_items {p : Value → Prop} (h : TotalOn compare p) :
    TotalOn compareItems fun items => ∀ v ∈ items, p v where
  swap {as bs} _ _ := compareItems_swap as bs
  isLE_trans {as bs cs} := by
    intro ha hb hc hab hbc
    induction as generalizing bs cs with
    | nil => cases cs <;> rfl
    | cons a as ih =>
        -- a shorter list comes first, so that the one in between cannot end before the others do
        cases bs with
        | nil => simp [compareItems] at hab
        | cons b bs =>
            cases cs with
            | nil => simp [compareItems] at hbc
            | cons c cs =>
                obtain ⟨ha, has⟩ := List.forall_mem_cons.mp ha
                obtain ⟨hb, hbs⟩ := List.forall_mem_cons.mp hb
                obtain ⟨hc, hcs⟩ := List.forall_mem_cons.mp hc
                exact h.isLE_then ha hb hc (ih has hbs hcs) hab hbc

/-- Entries are totally ordered, by the first name and then by the value under it, where the values
under their names are (`h`). -/
theorem totalOn_entries {p : Value → Prop} (h : TotalOn compare p) :
    TotalOn compareEntries fun entries => ∀ e ∈ entries, p e.2 where
  swap {as bs} _ _ := compareEntries_swap as bs
  isLE_trans {as bs cs} := by
    intro ha hb hc hab hbc
    induction as generalizing bs cs with
    | nil => cases cs <;> rfl
    | cons a as ih =>
        cases bs with
        | nil => simp [compareEntries] at hab
        | cons b bs =>
            cases cs with
            | nil => simp [compareEntries] at hbc
            | cons c cs =>
                obtain ⟨ha, has⟩ := List.forall_mem_cons.mp ha
                obtain ⟨hb, hbs⟩ := List.forall_mem_cons.mp hb
                obtain ⟨hc, hcs⟩ := List.forall_mem_cons.mp hc
                -- names first, then values, then the other entries
                exact TotalOn.ofOrd.isLE_then trivial trivial trivial
                  (h.isLE_then ha hb hc (ih has hbs hcs)) hab hbc

/-! ## Numbers in values

`NumbersIn p q` says of a value that its integers have the property `p` and its floating-point
numbers the property `q`. Whether the order is total depends on these two properties alone, and
`Separated` is the condition. -/

mutual

/-- The numbers in the value, however deep, are among the given ones: its integers have the property
`p`, and its floating-point numbers the property `q`. -/
def NumbersIn (p : Int64 → Prop) (q : Binary64 → Prop) : Value → Prop
  | int n => p n
  | float x => q x
  | list items => ItemsIn p q items
  | map entries => EntriesIn p q entries
  | _ => True

/-- The numbers in the items are among those that `p` and `q` allow. -/
def ItemsIn (p : Int64 → Prop) (q : Binary64 → Prop) : List Value → Prop
  | [] => True
  | v :: vs => v.NumbersIn p q ∧ ItemsIn p q vs

/-- The numbers under the names are among those that `p` and `q` allow. -/
def EntriesIn (p : Int64 → Prop) (q : Binary64 → Prop) : List (String × Value) → Prop
  | [] => True
  | (_, v) :: rest => v.NumbersIn p q ∧ EntriesIn p q rest

end

section

variable {p : Int64 → Prop} {q : Binary64 → Prop}

/-- `ItemsIn` as a statement about the members of the list. -/
theorem itemsIn_iff {items : List Value} :
    ItemsIn p q items ↔ ∀ v ∈ items, v.NumbersIn p q := by
  induction items with
  | nil => simp [ItemsIn]
  | cons v vs ih => simp [ItemsIn, ih]

/-- `EntriesIn` as a statement about the members of the list. -/
theorem entriesIn_iff {entries : List (String × Value)} :
    EntriesIn p q entries ↔ ∀ e ∈ entries, e.2.NumbersIn p q := by
  induction entries with
  | nil => simp [EntriesIn]
  | cons e rest ih => simp [EntriesIn, ih]

mutual

/-- An exact value has integers only, so it has no number without the property `q`, whatever `q`
is. -/
theorem numbersIn_of_isExact : ∀ {v : Value}, v.isExact = true → v.NumbersIn (fun _ => True) q
  | null, _ | bool _, _ | int _, _ | string _, _ | link _, _ => trivial
  | list _, h => itemsIn_of_areExact h
  | map _, h => entriesIn_of_entriesExact h

/-- Items that `areExact` have integers only, so `q` may be anything. -/
theorem itemsIn_of_areExact : ∀ {items : List Value}, areExact items = true →
    ItemsIn (fun _ => True) q items
  | [], _ => trivial
  | v :: vs, h => by
      rw [areExact, Bool.and_eq_true] at h
      exact ⟨numbersIn_of_isExact h.1, itemsIn_of_areExact h.2⟩

/-- Entries that are exact have integers only, so `q` may be anything. -/
theorem entriesIn_of_entriesExact : ∀ {entries : List (String × Value)},
    entriesExact entries = true → EntriesIn (fun _ => True) q entries
  | [], _ => trivial
  | (_, v) :: rest, h => by
      rw [entriesExact, Bool.and_eq_true] at h
      exact ⟨numbersIn_of_isExact h.1, entriesIn_of_entriesExact h.2⟩

end

mutual

/-- A value that may have no floating-point number (`fun _ => False`) `isExact`. -/
theorem isExact_of_numbersIn : ∀ {v : Value}, v.NumbersIn p (fun _ => False) → v.isExact = true
  | null, _ | bool _, _ | int _, _ | string _, _ | link _, _ => rfl
  | list _, h => areExact_of_itemsIn h
  | map _, h => entriesExact_of_entriesIn h

/-- Items that may have no floating-point numbers `areExact`. -/
theorem areExact_of_itemsIn : ∀ {items : List Value}, ItemsIn p (fun _ => False) items →
    areExact items = true
  | [], _ => rfl
  | v :: vs, h => by rw [areExact, isExact_of_numbersIn h.1, areExact_of_itemsIn h.2]; rfl

/-- Entries that may have no floating-point numbers are exact. -/
theorem entriesExact_of_entriesIn : ∀ {entries : List (String × Value)},
    EntriesIn p (fun _ => False) entries → entriesExact entries = true
  | [], _ => rfl
  | (_, v) :: rest, h => by
      rw [entriesExact, isExact_of_numbersIn h.1, entriesExact_of_entriesIn h.2]
      rfl

end

/-- No floating-point number with the property `q` is what two different integers with the property
`p` are rounded to. Two integers may well be rounded to one number, as long as that number does not
occur. -/
def Separated (p : Int64 → Prop) (q : Binary64 → Prop) : Prop :=
  ∀ {m n : Int64}, p m → p n → Binary64.ofInt m.toInt = Binary64.ofInt n.toInt →
    q (Binary64.ofInt m.toInt) → m = n

/-- Integers whose digits fit into a significand are separated by all numbers, by
`Binary64.ofInt_inj`. -/
theorem separated_of_natAbs_le (h : ∀ n, p n → n.toInt.natAbs ≤ 2 ^ 53) : Separated p q :=
  fun {m n} hm hn heq _ => Int64.toInt_inj.mp (Binary64.ofInt_inj (h m hm) (h n hn) heq)

/-- Rounding keeps the order, and separated numbers make it strict enough: if `x` lies between two
rounded integers, the integers are in the same order, unless both are rounded to `x`. Then
`Separated` says that they are the same. -/
theorem Separated.le_of_between (h : Separated p q) {m n : Int64} {x : Binary64} (hm : p m)
    (hn : p n) (hx : q x) (hmx : (Binary64.ofInt m.toInt).orderKey ≤ x.orderKey)
    (hxn : x.orderKey ≤ (Binary64.ofInt n.toInt).orderKey) : m.toInt ≤ n.toInt := by
  by_contra hgt
  have hmono := Binary64.orderKey_ofInt_mono (Int.le_of_lt (Int.not_le.mp hgt))
  have hmeq : Binary64.ofInt m.toInt = x := Binary64.orderKey_inj (by omega)
  have hneq : Binary64.ofInt n.toInt = x := Binary64.orderKey_inj (by omega)
  have heq := h hm hn (hmeq.trans hneq.symm) (hmeq ▸ hx)
  exact hgt (heq ▸ Int.le_refl _)

/-- Separated numbers are in order along a chain. There are eight cases, of integers and
floating-point numbers at the three places. An integer on both sides of a floating-point number is
the one that needs `Separated.le_of_between`. -/
theorem Separated.number_trans (h : Separated p q) {a b c : Value} (ha : a.NumbersIn p q)
    (hb : b.NumbersIn p q) (hc : c.NumbersIn p q) (hra : a.rank = 2) (hrb : b.rank = 2)
    (hrc : c.rank = 2) (hab : (a.compare b).isLE = true) (hbc : (b.compare c).isLE = true) :
    (a.compare c).isLE = true := by
  cases a <;> first
    | (simp [rank] at hra; done)
    | cases b <;> first
      | (simp [rank] at hrb; done)
      | cases c <;> first
        | (simp [rank] at hrc; done)
        | simp only [compare, Binary64.compare, Int.isLE_compare] at hab hbc ⊢
  case int.int.int => omega
  case int.int.float => exact Int.le_trans (Binary64.orderKey_ofInt_mono hab) hbc
  -- the one case that needs the numbers to be separated: two integers around what they are rounded
  -- to
  case int.float.int => exact h.le_of_between ha hc hb hab hbc
  case int.float.float => omega
  case float.int.int => exact Int.le_trans hab (Binary64.orderKey_ofInt_mono hbc)
  case float.int.float => omega
  case float.float.int => omega
  case float.float.float => omega

/-- The items of a list are smaller than the list by `sizeOf`. -/
theorem items_below {items : List Value} {size : Nat}
    (h : (list items).NumbersIn p q ∧ sizeOf (list items) < size + 1) :
    ∀ v ∈ items, v.NumbersIn p q ∧ sizeOf v < size := by
  intro v hv
  have hsize := List.sizeOf_lt_of_mem hv
  have hlist := h.2
  simp only [list.sizeOf_spec] at hlist
  exact ⟨itemsIn_iff.mp h.1 v hv, by omega⟩

/-- The values in a map are smaller than the map by `sizeOf`. -/
theorem entries_below {entries : List (String × Value)} {size : Nat}
    (h : (map entries).NumbersIn p q ∧ sizeOf (map entries) < size + 1) :
    ∀ e ∈ entries, e.2.NumbersIn p q ∧ sizeOf e.2 < size := by
  intro e he
  have hsize := List.sizeOf_lt_of_mem he
  have hmap := h.2
  obtain ⟨name, v⟩ := e
  simp only [map.sizeOf_spec, Prod.mk.sizeOf_spec] at hmap hsize
  exact ⟨entriesIn_iff.mp h.1 _ he, by dsimp only; omega⟩

/-- Values below a size are totally ordered when their numbers are separated. The induction is on
the size, because the order of lists and maps is derived from that of the values in them, which
`items_below` and `entries_below` find to be smaller. -/
theorem Separated.totalOn_below (h : Separated p q) (size : Nat) :
    TotalOn compare fun v => v.NumbersIn p q ∧ sizeOf v < size := by
  induction size with
  | zero =>
      exact ⟨fun ha => absurd ha.2 (Nat.not_lt_zero _), fun ha => absurd ha.2 (Nat.not_lt_zero _)⟩
  | succ size ih =>
      refine ⟨fun {a b} _ _ => compare_swap a b, fun {a b c} ha hb hc hab hbc => ?_⟩
      have hrab := rank_le_of_isLE hab
      have hrbc := rank_le_of_isLE hbc
      -- values of different kinds are ordered by their kinds
      by_cases hrac : a.rank = c.rank
      · by_cases hnumber : a.rank = 2
        · exact h.number_trans ha.1 hb.1 hc.1 hnumber (by omega) (by omega) hab hbc
        · have hrab' : a.rank = b.rank := by omega
          cases a <;> first
            | exact absurd rfl hnumber
            | cases b <;> first
              | (simp [rank] at hrab'; done)
              | cases c <;> first
                | (simp [rank] at hrac; done)
                | simp only [compare] at hab hbc ⊢
          case null.null.null => rfl
          case bool.bool.bool => exact Std.TransOrd.isLE_trans hab hbc
          case string.string.string => exact Std.TransOrd.isLE_trans hab hbc
          case link.link.link => exact Rid.totalOn.isLE_trans trivial trivial trivial hab hbc
          case list.list.list =>
            exact (totalOn_items ih).isLE_trans (items_below ha) (items_below hb) (items_below hc)
              hab hbc
          case map.map.map =>
            exact (totalOn_entries ih).isLE_trans (entries_below ha) (entries_below hb)
              (entries_below hc) hab hbc
      · rw [compare_of_rank_ne hrac, Nat.isLE_compare]
        omega

/-- Values are totally ordered when their numbers are `Separated`: three values are all below some
size, so `totalOn_below` applies. -/
theorem Separated.totalOn (h : Separated p q) : TotalOn compare (NumbersIn p q) where
  swap {a b} _ _ := compare_swap a b
  isLE_trans {a b c} ha hb hc :=
    (h.totalOn_below (sizeOf a + sizeOf b + sizeOf c + 1)).isLE_trans ⟨ha, by omega⟩ ⟨hb, by omega⟩
      ⟨hc, by omega⟩

end

/-- `==` is `compare` being `.eq`. -/
theorem beq_iff {a b : Value} : (a == b) = true ↔ a.compare b = .eq := by
  show (a.compare b == .eq) = true ↔ _
  rw [beq_iff_eq]

/-- Every value `==` itself. -/
theorem beq_self (v : Value) : (v == v) = true :=
  show (v.compare v == .eq) = true from beq_of_eq (eq_of_eq_swap (compare_swap v v))

/-- An integer equals the number `x` that it is rounded to, and this is how equality fails to be
transitive. -/
theorem compare_ofInt {n : Int64} {x : Binary64} (h : Binary64.ofInt n.toInt = x) :
    (int n).compare (float x) = .eq ∧ (float x).compare (int n) = .eq :=
  ⟨Binary64.compare_eq_iff.mpr h, Binary64.compare_eq_iff.mpr h.symm⟩

/-- Integers that compare `.eq` are the same, as two integers are compared without rounding. -/
theorem int_inj_of_compare {m n : Int64} (h : (int m).compare (int n) = .eq) : m = n := by
  simp only [compare, Std.compare_eq_iff_eq] at h
  exact Int64.toInt_inj.mp h

/-- Exchanging two values turns their order around, whatever numbers are in them. The four
statements of the list are equivalent. Where no number with `q` is what two different integers with
`p` are rounded to, equality is transitive, the order is transitive, and equal values compare alike
to every third one. Where two integers `m` and `n` are rounded to such a number `x`, the values `m`,
`x` and `n` break each of the three laws. Integers up to `2 ^ 53` are rounded to different numbers,
so on them all laws hold. -/
theorem ordered_iff_separated (p : Int64 → Prop) (q : Binary64 → Prop) :
    (∀ a b : Value, b.compare a = (a.compare b).swap) ∧
    List.TFAE [
      Separated p q,
      ∀ a b c : Value, a.NumbersIn p q → b.NumbersIn p q → c.NumbersIn p q →
        (a == b) = true → (b == c) = true → (a == c) = true,
      ∀ a b c : Value, a.NumbersIn p q → b.NumbersIn p q → c.NumbersIn p q →
        (a.compare b).isLE = true → (b.compare c).isLE = true → (a.compare c).isLE = true,
      ∀ a b c : Value, a.NumbersIn p q → b.NumbersIn p q → c.NumbersIn p q →
        (a == b) = true → a.compare c = b.compare c] ∧
    ((∀ n, p n → n.toInt.natAbs ≤ 2 ^ 53) → Separated p q) := by
  refine ⟨compare_swap, ?_, separated_of_natAbs_le⟩
  simp only [beq_iff]
  tfae_have 1 → 4 := fun h a b c ha hb hc hab => h.totalOn.congr_left ha hb hc hab
  tfae_have 1 → 3 := fun h a b c ha hb hc => h.totalOn.isLE_trans ha hb hc
  tfae_have 4 → 2 := fun h a b c ha hb hc hab hbc => (h a b c ha hb hc hab).trans hbc
  -- two integers and the number that both are rounded to
  tfae_have 2 → 1 := fun h m n hm hn hmn hx =>
    int_inj_of_compare (h (int m) (float _) (int n) hm hx hn (compare_ofInt rfl).1
      (compare_ofInt hmn.symm).2)
  tfae_have 3 → 1 := fun h m n hm hn hmn hx => by
    have hle : ∀ {m n : Int64}, p m → p n → Binary64.ofInt m.toInt = Binary64.ofInt n.toInt →
        q (Binary64.ofInt m.toInt) → m.toInt ≤ n.toInt := by
      intro m n hm hn hmn hx
      refine Int.isLE_compare.mp (h (int m) (float _) (int n) hm hx hn ?_ ?_)
      · rw [(compare_ofInt rfl).1]
        rfl
      · rw [(compare_ofInt hmn.symm).2]
        rfl
    exact Int64.toInt_inj.mp (Int.le_antisymm (hle hm hn hmn hx) (hle hn hm hmn.symm (hmn ▸ hx)))
  tfae_finish

/-- `2 ^ 53` and the next integer both equal the number `2 ^ 53`, and are not equal. So equality is
not transitive, neither is the order, and equal values compare differently to a third one. -/
theorem not_ordered_nextInteger :
    let small := int 9007199254740992
    let rounded := float ⟨0x4340000000000000⟩
    let large := int 9007199254740993
    ((large == rounded) = true ∧ (rounded == small) = true ∧ (large == small) = false) ∧
    ((large.compare rounded).isLE = true ∧ (rounded.compare small).isLE = true ∧
      (large.compare small).isLE = false) ∧
    large.compare small ≠ rounded.compare small := by
  decide +kernel

end Value

/-! ## Numbers that no two integers are rounded to

The largest `q` for which all integers are separated. Keys and values with such numbers only are
totally ordered with no bound for the integers. -/

/-- At most one integer is rounded to the number, as to every number that is not an integer and to
every number below `2 ^ 53`. -/
def Binary64.IsSharp (x : Binary64) : Prop :=
  ∀ m n : Int64, ofInt m.toInt = x → ofInt n.toInt = x → m = n

namespace Value

/-- No two integers are rounded to a floating-point number in the value. -/
abbrev IsSharp (v : Value) : Prop := v.NumbersIn (fun _ => True) Binary64.IsSharp

/-- Sharp numbers separate all integers: `Binary64.IsSharp` is `Separated` with all integers. -/
theorem separated_sharp : Separated (fun _ => True) Binary64.IsSharp :=
  fun _ _ heq hsharp => hsharp _ _ rfl heq.symm

/-- Without floating-point numbers all integers are `Separated`. -/
theorem separated_exact : Separated (fun _ => True) fun _ => False :=
  fun _ _ _ => False.elim

/-- Values that are `IsSharp`, without a number that two integers are rounded to, are totally
ordered. This is the widest set of values that can be named without saying which integers occur. -/
theorem totalOn_sharp : TotalOn compare IsSharp :=
  separated_sharp.totalOn

/-- Values that are `isExact` are totally ordered. -/
theorem totalOn_exact : TotalOn compare fun v => v.isExact = true :=
  totalOn_sharp.mono numbersIn_of_isExact

end Value

namespace Key

/-- Whether there is no floating-point number in any component. -/
abbrev isExact (key : Key) : Bool := Value.areExact key

/-- Every key compares `.eq` to itself. -/
theorem compare_self (key : Key) : key.compare key = .eq :=
  eq_of_eq_swap (Value.compareItems_swap key key)

/-- Keys that are `isExact` are totally ordered. -/
theorem totalOn_exact : TotalOn compare fun key => key.isExact = true :=
  (Value.totalOn_items Value.totalOn_exact).mono Value.areExact_iff.mp

/-- Keys are totally ordered when the numbers in them are `Separated`. -/
theorem totalOn_separated {p : Int64 → Prop} {q : Binary64 → Prop} (h : Value.Separated p q) :
    TotalOn compare fun key : Key => Value.ItemsIn p q key :=
  (Value.totalOn_items h.totalOn).mono Value.itemsIn_iff.mp

/-- No two integers are rounded to a floating-point number in any component. -/
abbrev IsSharp (key : Key) : Prop := Value.ItemsIn (fun _ => True) Binary64.IsSharp key

/-- A key that `isExact` has no number that two integers are rounded to. -/
theorem IsSharp.of_isExact {key : Key} (h : key.isExact = true) : key.IsSharp :=
  Value.itemsIn_of_areExact h

/-- Keys that are `IsSharp` are totally ordered. -/
theorem totalOn_sharp : TotalOn compare IsSharp :=
  totalOn_separated Value.separated_sharp

/-- Keys that are `isExact` and compare `.eq` are the same key. -/
theorem compare_eq_iff {a b : Key} (ha : a.isExact = true) (hb : b.isExact = true) :
    a.compare b = .eq ↔ a = b := by
  constructor
  · exact Value.eq_of_compareItems_eq ha hb
  · rintro rfl
    exact totalOn_exact.refl ha

end Key

end RecordQuery
