import Mathlib.Algebra.Group.Nat.Defs
import Mathlib.Data.List.TakeWhile
import Gomibako.Ecma.Syntax

/-!
# Strings and exceptions of the source

The source works on byte strings. A `std::string` is the list of its characters (`Str`), a `char`
being the `Char` of the same code; a `const char*` is such a list without the terminating NUL,
which it cannot contain (`CStr`). The members of `std::string` that the source calls are defined
here under their own names, with `npos` as `none`.
-/

namespace Gomibako

/-- A `std::string`, or the characters that a `string_view` shows: a list of `char`s, in which NUL
has no special part. -/
abbrev Str := List Char

/-- The exceptions of the standard library and of Boost that the modelled code can raise. -/
inductive StdException where
  | outOfRange
  | invalidArgument (what : Str)
  | rangeError (what : Str)
  | regexError (code : Ecma.Error)
  | jsonParserError
  | lengthError
deriving DecidableEq, Repr

/-- What the language leaves undefined: an access behind the end of a vector, or through an empty
`optional`. Nothing is known about a run that gets there. -/
inductive Fault where
  | vectorBounds
  | emptyOptional
deriving DecidableEq, Repr

/-- A NUL-terminated string, as a `const char*` is read: the characters before the terminator, none
of which is NUL. -/
structure CStr where
  chars : Str
  nulFree : '\x00' ∉ chars
deriving DecidableEq

/-- `std::string::c_str` read back as a C string: what follows the first NUL is not seen. -/
def Str.cStr (s : Str) : CStr where
  chars := s.takeWhile (· != '\x00')
  nulFree h := by simpa using List.mem_takeWhile_imp h

/-- Subtraction of `size_t` values, which wraps below zero modulo the number of values of the
type. -/
def sizeSub (a b : Nat) : Nat := if b ≤ a then a - b else a + 2 ^ 64 - b

/-- `s.find(pat)`: the position of the first occurrence of `pat`, or nothing, which stands for
`npos`. -/
def Str.find (s pat : Str) : Option Nat :=
  if pat.isPrefixOf s then some 0
  else match s with
    | [] => none
    | _ :: s => (Str.find s pat).map (· + 1)

/-- `s.find_last_of(set)`: the position of the last character that is in `set`. -/
def Str.findLastOf (s set : Str) : Option Nat :=
  match s with
  | [] => none
  | c :: s =>
    match Str.findLastOf s set with
    | some i => some (i + 1)
    | none => if c ∈ set then some 0 else none

/-- `s.substr(pos, n)`: at most `n` characters from `pos` on; it throws `std::out_of_range` when
`pos` is behind the end. -/
def Str.substr (s : Str) (pos n : Nat) : Except StdException Str :=
  if pos ≤ s.length then .ok ((s.drop pos).take n) else .error .outOfRange

/-- `s.compare(pos, n, t) == 0`: the substring that `substr` gives is `t`, and the same exception is
thrown. -/
def Str.compareEq (s : Str) (pos n : Nat) (t : Str) : Except StdException Bool :=
  (Str.substr s pos n).map (· == t)

/-! ## A one-character needle -/

/-- A needle of one character is found where the text starts with it, or one further on. -/
theorem Str.find_single_cons (c d : Char) (s : Str) :
    Str.find (d :: s) [c] = if c = d then some 0 else (Str.find s [c]).map (· + 1) := by
  rw [Str.find]
  simp

/-- The first occurrence of a character is after a prefix without it. -/
theorem Str.find_single_eq_some {c : Char} {s : Str} {i : Nat} :
    Str.find s [c] = some i ↔ ∃ l r, s = l ++ c :: r ∧ c ∉ l ∧ l.length = i := by
  induction s generalizing i with
  | nil => simp [Str.find]
  | cons d s ih =>
    rw [Str.find_single_cons]
    constructor
    · intro h
      split at h
      · next hd => exact ⟨[], s, by simp [hd], by simp, by simpa using h⟩
      · next hd =>
        obtain ⟨j, hj, rfl⟩ := Option.map_eq_some_iff.1 h
        obtain ⟨l, r, rfl, hl, rfl⟩ := ih.1 hj
        exact ⟨d :: l, r, rfl, by simp [hd, hl], rfl⟩
    · rintro ⟨l, r, heq, hl, rfl⟩
      cases l with
      | nil =>
        obtain ⟨rfl, rfl⟩ := List.cons.inj heq
        simp
      | cons e l =>
        obtain ⟨rfl, rfl⟩ := List.cons.inj heq
        have hne : c ≠ d := fun h => hl (h ▸ List.mem_cons_self)
        have hj := ih.2 ⟨l, r, rfl, fun h => hl (.tail _ h), rfl⟩
        simpa [hne] using hj

/-- A character is not found exactly when it does not occur. -/
theorem Str.find_single_eq_none {c : Char} {s : Str} : Str.find s [c] = none ↔ c ∉ s := by
  induction s with
  | nil => simp [Str.find]
  | cons d s ih =>
    rw [Str.find_single_cons]
    by_cases hd : c = d <;> simp [hd, ih]

/-- The last occurrence of a character is before a suffix without it. -/
theorem Str.findLastOf_single_eq_some {c : Char} {s : Str} {i : Nat} :
    Str.findLastOf s [c] = some i ↔ ∃ l r, s = l ++ c :: r ∧ c ∉ r ∧ l.length = i := by
  induction s generalizing i with
  | nil => simp [Str.findLastOf]
  | cons d s ih =>
    unfold Str.findLastOf
    cases h : Str.findLastOf s [c] with
    | some j =>
      obtain ⟨l, r, rfl, hr, rfl⟩ := ih.1 h
      constructor
      · intro hi
        cases hi
        exact ⟨d :: l, r, rfl, hr, rfl⟩
      · rintro ⟨l', r', heq, hr', rfl⟩
        cases l' with
        | nil =>
          obtain ⟨rfl, rfl⟩ := List.cons.inj heq
          exact absurd (by simp) hr'
        | cons e l' =>
          obtain ⟨rfl, hs⟩ := List.cons.inj heq
          have := ih.2 ⟨l', r', hs, hr', rfl⟩
          rw [h] at this
          simpa using Option.some.inj this
    | none =>
      have hc : c ∉ s := fun hc => by
        obtain ⟨l, r, hs, hr⟩ := List.eq_append_cons_of_mem (List.mem_reverse.2 hc)
        have := ih.2 ⟨r.reverse, l.reverse, by simpa using congrArg List.reverse hs,
          by simpa using hr, rfl⟩
        rw [h] at this
        cases this
      constructor
      · intro hi
        by_cases hd : d = c
        · subst hd
          simp at hi
          exact ⟨[], s, rfl, hc, by simpa using hi⟩
        · simp [hd] at hi
      · rintro ⟨l, r, heq, hr, rfl⟩
        cases l with
        | nil =>
          obtain ⟨rfl, rfl⟩ := List.cons.inj heq
          simp
        | cons e l =>
          obtain ⟨rfl, rfl⟩ := List.cons.inj heq
          exact absurd (by simp) hc

end Gomibako
