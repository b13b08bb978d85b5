import Gomibako.Basic

/-!
# Characters and lists of HTTP

The character classes and the small scanners of `detail/rfc7230.hpp` and `core/string.hpp` that the
fields and the parser of the messages use, over the bytes of a text.
-/

namespace Gomibako.Beast

/-- `ascii_tolower`: letters of ASCII are lowered, and every other character stays. Reference:
`ascii_tolower` (`string.hpp:56`). -/
def asciiToLower (c : Char) : Char :=
  if 'A' ≤ c && c ≤ 'Z' then Char.ofNat (c.toNat + 32) else c

/-- `iequals`: equality up to the case of ASCII letters. Reference: `iequals` (`string.hpp:65`). -/
def iequals (lhs rhs : Str) : Bool := lhs.map asciiToLower == rhs.map asciiToLower

/-- `is_digit`: the decimal digits. Reference: `is_digit` (`basic_parser.hpp:112`). -/
def isDigit (c : Char) : Bool := '0' ≤ c && c ≤ '9'

/-- `is_token_char`: the letters, the digits and some other visible characters. Reference:
`is_token_char` (`detail/rfc7230.hpp:84`). -/
def isTokenChar (c : Char) : Bool :=
  isDigit c || ('A' ≤ c && c ≤ 'Z') || ('a' ≤ c && c ≤ 'z') ||
    c ∈ "!#$%&\x27*+-.^_\x60|~".toList

/-- A token: one or more token characters, which is what a name of a field is made of. -/
def isToken (s : Str) : Bool := !s.isEmpty && s.all isTokenChar

/-- The optional spaces that `skip_ows` skips: a blank or a tab. -/
def isOws (c : Char) : Bool := c == ' ' || c == '\t'

/-- `skip_ows`: the text behind the spaces at its start. Reference: `skip_ows`
(`detail/rfc7230.hpp:233`). -/
def skipOws (s : Str) : Str := s.dropWhile isOws

/-- `trim`: the text without the spaces at its two ends. Reference: `trim`
(`detail/rfc7230.hpp:299`). -/
def trim (s : Str) : Str := ((skipOws s).reverse.dropWhile isOws).reverse

/-- Where the iterator of a `token_list` is: between tokens, a comma being needed or not, or in a
token whose characters so far are `rev`, latest first. -/
inductive TokenPos where
  | between (needComma : Bool)
  | token (rev : Str)
deriving DecidableEq, Repr

/-- The tokens of a `token_list`; the list ends at the first text that is none. Reference:
`token_list::const_iterator::increment` (`rfc7230.ipp:157`). -/
def tokenListFrom : TokenPos → Str → List Str
  | .between _, [] => []
  | .token rev, [] => [rev.reverse]
  | .between needComma, c :: s =>
    if isOws c then tokenListFrom (.between needComma) s
    else if isTokenChar c then if needComma then [] else tokenListFrom (.token [c]) s
    else if c = ',' then tokenListFrom (.between false) s
    else []
  | .token rev, c :: s =>
    if isTokenChar c then tokenListFrom (.token (c :: rev)) s
    else rev.reverse ::
      (if isOws c then tokenListFrom (.between true) s
      else if c = ',' then tokenListFrom (.between false) s
      else [])

/-- `token_list`: the tokens that its iterator comes to from the start of the text. Reference:
`token_list` (`rfc7230.ipp:157`). -/
def tokenList (s : Str) : List Str := tokenListFrom (.between false) s

/-- `validate_list` of an `opt_token_list` from a position on: tokens, or nothing, between commas.
Reference: `validate_list` (`rfc7230.ipp:549`). -/
def validateListFrom : TokenPos → Str → Bool
  | _, [] => true
  | .between needComma, c :: s =>
    if isOws c then validateListFrom (.between needComma) s
    else if isTokenChar c then if needComma then false else validateListFrom (.token [c]) s
    else if c = ',' then validateListFrom (.between false) s
    else false
  | .token rev, c :: s =>
    if isTokenChar c then validateListFrom (.token (c :: rev)) s
    else if isOws c then validateListFrom (.between true) s
    else if c = ',' then validateListFrom (.between false) s
    else false

/-- `validate_list` of an `opt_token_list`: the whole text is such a list. Reference:
`validate_list` (`rfc7230.ipp:549`). -/
def validateList (s : Str) : Bool := validateListFrom (.between false) s

/-! ## Case-insensitive equality -/

theorem iequals_comm (s t : Str) : iequals s t = iequals t s := by
  rw [iequals, iequals, Bool.eq_iff_iff, beq_iff_eq, beq_iff_eq, eq_comm]

theorem iequals_trans {s t u : Str} (h : iequals s t = true) : iequals s u = iequals t u := by
  simp only [iequals, beq_iff_eq] at h
  rw [iequals, iequals, h]

end Gomibako.Beast
