import Mathlib.Algebra.Group.Int.Defs
import Mathlib.Algebra.Group.Nat.Defs
import Mathlib.Data.List.Basic

/-!
# Decimal integers as texts

The integer that a text denotes is the value of its digits, with a sign before them or not
(`Denotes`). A conversion to an unsigned type reads the digits behind the sign into the type, and a
minus sign negates modulo the size of the type (`Unsigned`). So what it gives is small for small
integers, and for negative ones that are just above a negated size (`exists_unsigned_le_iff`).
-/

namespace Decimal

/-! ## The integer of a text -/

/-- A numeral is a text of one or more decimal digits and nothing else, leading zeros included. -/
def IsNumeral (ds : List Char) : Prop := ds ≠ [] ∧ ∀ c ∈ ds, c.isDigit = true

instance (ds : List Char) : Decidable (IsNumeral ds) :=
  @instDecidableAnd _ _ _ (List.decidableBAll (fun c : Char => c.isDigit = true) ds)

/-- The value of digits, read from the most significant one on; characters that are no digits are
not treated apart. -/
def value (ds : List Char) : Nat := Nat.ofDigitChars 10 ds 0

/-- The text is an integer in decimal, with a sign or without one. -/
inductive Denotes : List Char → Int → Prop where
  | digits {ds : List Char} (h : IsNumeral ds) : Denotes ds (value ds)
  | plus {ds : List Char} (h : IsNumeral ds) : Denotes ('+' :: ds) (value ds)
  | minus {ds : List Char} (h : IsNumeral ds) : Denotes ('-' :: ds) (-value ds)

/-- The value of a numeral, and nothing for a text that is none. -/
def numeral (ds : List Char) : Option Int := if IsNumeral ds then some (value ds) else none

/-- The integer that a text denotes, computed from its first character: a sign with a numeral behind
it, or a numeral. -/
def parse : List Char → Option Int
  | [] => none
  | c :: ds =>
    if c = '+' then numeral ds
    else if c = '-' then (numeral ds).map (- ·)
    else numeral (c :: ds)

theorem numeral_eq_some_iff {ds : List Char} {z : Int} :
    numeral ds = some z ↔ IsNumeral ds ∧ z = value ds := by
  unfold numeral
  split
  · next h => simp [h, eq_comm]
  · next h => simp [h]

/-- A numeral starts with a digit, and not with a sign. -/
theorem IsNumeral.head_ne {c : Char} {ds : List Char} (h : IsNumeral (c :: ds)) :
    c ≠ '+' ∧ c ≠ '-' := by
  have hc := h.2 c List.mem_cons_self
  constructor
  · intro heq
    rw [heq] at hc
    exact absurd hc (by decide)
  · intro heq
    rw [heq] at hc
    exact absurd hc (by decide)

/-- `parse` computes the relation `Denotes`: it finds the integer that a text denotes, and fails for
a text that denotes none. -/
theorem parse_eq_some_iff {s : List Char} {z : Int} : parse s = some z ↔ Denotes s z := by
  constructor
  · intro h
    cases s with
    | nil => cases h
    | cons c ds =>
      rw [parse] at h
      split at h
      · next hc =>
        obtain ⟨hds, rfl⟩ := numeral_eq_some_iff.1 h
        rw [hc]
        exact .plus hds
      · split at h
        · next hc =>
          obtain ⟨_, hnum, rfl⟩ := Option.map_eq_some_iff.1 h
          obtain ⟨hds, rfl⟩ := numeral_eq_some_iff.1 hnum
          rw [hc]
          exact .minus hds
        · obtain ⟨hds, rfl⟩ := numeral_eq_some_iff.1 h
          exact .digits hds
  · intro h
    cases h with
    | digits hds =>
      cases s with
      | nil => exact absurd rfl hds.1
      | cons c ds =>
        rw [parse, if_neg hds.head_ne.1, if_neg hds.head_ne.2]
        exact numeral_eq_some_iff.2 ⟨hds, rfl⟩
    | plus hds =>
      rw [parse, if_pos rfl]
      exact numeral_eq_some_iff.2 ⟨hds, rfl⟩
    | minus hds =>
      rw [parse, if_neg (by decide), if_pos rfl, numeral_eq_some_iff.2 ⟨hds, rfl⟩]
      rfl

/-- A text denotes one integer at most, as `parse` can return only one. -/
theorem Denotes.unique {s : List Char} {z z' : Int} (h : Denotes s z) (h' : Denotes s z') :
    z = z' :=
  Option.some.inj ((parse_eq_some_iff.2 h).symm.trans (parse_eq_some_iff.2 h'))

/-! ## Conversion to an unsigned type -/

/-- The text is read as `v` into an unsigned type of `w` bits: the digits behind the sign fit the
type, and a minus sign negates modulo its size. -/
def Unsigned (w : Nat) (s : List Char) (v : Nat) : Prop :=
  ∃ z, Denotes s z ∧ z.natAbs < 2 ^ w ∧ (v : Int) = z % 2 ^ w

/-- What a text is read as into an unsigned type of `w` bits. -/
def toUnsigned (w : Nat) (s : List Char) : Option Nat :=
  (parse s).bind fun z => if z.natAbs < 2 ^ w then some (z % 2 ^ w).toNat else none

/-- The negative integer is read as one of at most `max` into an unsigned type of `w` bits. -/
def Wraps (w max : Nat) (z : Int) : Prop := -2 ^ w < z ∧ z ≤ max - 2 ^ w

instance (w max : Nat) (z : Int) : Decidable (Wraps w max z) :=
  inferInstanceAs (Decidable (-2 ^ w < z ∧ z ≤ max - 2 ^ w))

section
variable {w : Nat} {s : List Char} {v : Nat}

/-- `toUnsigned` computes the relation `Unsigned`: it returns what a text is read as, and fails when
the digits do not fit. -/
theorem toUnsigned_eq_some_iff : toUnsigned w s = some v ↔ Unsigned w s v := by
  have hpos : (0 : Int) < 2 ^ w := Int.pow_pos (by decide)
  simp only [toUnsigned, Option.bind_eq_some_iff, parse_eq_some_iff, Unsigned]
  refine exists_congr fun z => and_congr_right fun _ => ?_
  have hmod := Int.emod_nonneg z (Int.ne_of_gt hpos)
  split
  · next hz =>
    simp only [Option.some.injEq, hz, true_and]
    omega
  · next hz => simp [hz]

/-- What a text is read as fits the type, also behind a minus sign, where the magnitude is negated
modulo its size. -/
theorem Unsigned.lt (h : Unsigned w s v) : v < 2 ^ w := by
  obtain ⟨z, -, -, hv⟩ := h
  have hpos : (0 : Int) < 2 ^ w := Int.pow_pos (by decide)
  have hlt := Int.emod_lt_of_pos z hpos
  have hcast : ((2 ^ w : Nat) : Int) = 2 ^ w := by simp
  omega

/-- An integer that is a number of the type is read as this number. -/
theorem Unsigned.of_denotes (h : Denotes s v) (hv : v < 2 ^ w) : Unsigned w s v := by
  refine ⟨v, h, by simpa using hv, ?_⟩
  have hcast : ((2 ^ w : Nat) : Int) = 2 ^ w := by simp
  rw [Int.emod_eq_of_lt (by omega) (by omega)]

/-- A negative integer above the negated size of the type is one size below its remainder. -/
theorem emod_two_pow_of_neg {z : Int} (hlow : -2 ^ w < z) (hneg : z < 0) :
    z % 2 ^ w = z + 2 ^ w := by
  rw [← Int.add_emod_right]
  exact Int.emod_eq_of_lt (by omega) (by omega)

/-- **What is read as a small number**: the small integers that are not negative, and the negative
ones just above the negated size of the type. -/
theorem exists_unsigned_le_iff {max : Nat} (hmax : max < 2 ^ w) :
    (∃ v ≤ max, Unsigned w s v) ↔
      (∃ n : Nat, n ≤ max ∧ Denotes s n) ∨ ∃ z, Denotes s z ∧ Wraps w max z := by
  have hcast : ((2 ^ w : Nat) : Int) = 2 ^ w := by simp
  constructor
  · intro h
    obtain ⟨v, hv, z, hz, hfit, heq⟩ := h
    by_cases hneg : z < 0
    · have hmod := emod_two_pow_of_neg (w := w) (z := z) (by omega) hneg
      exact .inr ⟨z, hz, by omega, by omega⟩
    · have hmod : z % 2 ^ w = z := Int.emod_eq_of_lt (by omega) (by omega)
      have hzv : z = v := by omega
      exact .inl ⟨v, hv, hzv ▸ hz⟩
  · intro h
    rcases h with ⟨n, hn, hz⟩ | ⟨z, hz, hlow, hhigh⟩
    · exact ⟨n, hn, .of_denotes hz (by omega)⟩
    · have hmod := emod_two_pow_of_neg hlow (by omega)
      refine ⟨(z + 2 ^ w).toNat, by omega, z, hz, by omega, ?_⟩
      rw [hmod]
      omega

/-- A negative integer is no number up to a limit. -/
theorem Wraps.not_denotes {max : Nat} (hmax : max < 2 ^ w) {z : Int} (hwraps : Wraps w max z)
    (hz : Denotes s z) : ¬ ∃ n : Nat, n ≤ max ∧ Denotes s n := by
  intro h
  obtain ⟨n, -, hn⟩ := h
  have hcast : ((2 ^ w : Nat) : Int) = 2 ^ w := by simp
  have hle := hwraps.2
  rw [hz.unique hn] at hle
  omega

/-- What is read is above the limit if the text denotes no integer that is read as less. -/
theorem Unsigned.lt_of_not_denotes {max : Nat} (hmax : max < 2 ^ w) (h : Unsigned w s v)
    (hnot : ¬ ∃ n : Nat, n ≤ max ∧ Denotes s n) (hwraps : ∀ z, Denotes s z → ¬ Wraps w max z) :
    max < v := by
  by_contra hle
  rcases (exists_unsigned_le_iff hmax).1 ⟨v, Nat.not_lt.1 hle, h⟩ with hn | ⟨z, hz, hw⟩
  · exact hnot hn
  · exact hwraps z hz hw

end

end Decimal
