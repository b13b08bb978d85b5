import Mathlib.Data.List.Basic

/-!
# Syntax of ECMAScript regular expressions

The tokens of a pattern (`Token`), the syntax tree they build (`Node`), and the character classes of
the default locale. Capture groups are numbered from one by their opening parenthesis. The errors
are those `std::regex_error` reports.
-/

namespace Ecma

/-- Why a pattern is rejected, under the names of `std::regex_constants::error_type`. -/
inductive Error where
  | collate | ctype | escape | backref | brack | paren | brace | badbrace | range | badrepeat
  | pattern
deriving DecidableEq, Repr

/-! ## Character classes -/

/-- A named character class of a bracket expression, or of an escape. -/
inductive CharClass where
  | alnum | alpha | blank | cntrl | digit | graph | lower | print | punct | space | upper | xdigit
  | word
deriving DecidableEq, Repr

namespace CharClass

/-- The characters of a class in the default locale, where only those of ASCII are letters. -/
def contains (k : CharClass) (c : Char) : Bool :=
  let n := c.toNat
  let isDigit := 48 ≤ n && n ≤ 57
  let isUpper := 65 ≤ n && n ≤ 90
  let isLower := 97 ≤ n && n ≤ 122
  match k with
  | alnum => isDigit || isUpper || isLower
  | alpha => isUpper || isLower
  | blank => n == 32 || n == 9
  | cntrl => n < 32 || n == 127
  | digit => isDigit
  | graph => 33 ≤ n && n ≤ 126
  | lower => isLower
  | print => 32 ≤ n && n ≤ 126
  | punct => 33 ≤ n && n ≤ 126 && !(isDigit || isUpper || isLower)
  | space => n == 32 || (9 ≤ n && n ≤ 13)
  | upper => isUpper
  | xdigit => isDigit || (65 ≤ n && n ≤ 70) || (97 ≤ n && n ≤ 102)
  | word => isDigit || isUpper || isLower || n == 95

/-- The names of the classes in a bracket expression, with the short ones of the escapes. -/
def names : List (String × CharClass) :=
  [("alnum", alnum), ("alpha", alpha), ("blank", blank), ("cntrl", cntrl), ("digit", digit),
    ("graph", graph), ("lower", lower), ("print", print), ("punct", punct), ("space", space),
    ("upper", upper), ("xdigit", xdigit), ("d", digit), ("s", space), ("w", word)]

/-- `lookup_classname`: the class of a name, which is read without regard to case. -/
def ofName (name : List Char) : Option CharClass :=
  (names.find? fun p => p.1.toList == name.map Char.toLower).map (·.2)

end CharClass

/-- The names of collating elements of more than one character, with the elements they name. -/
def collateNames : List (String × Char) :=
  [("NUL", '\x00'), ("SOH", '\x01'), ("STX", '\x02'), ("ETX", '\x03'), ("EOT", '\x04'),
    ("ENQ", '\x05'), ("ACK", '\x06'), ("alert", '\x07'), ("backspace", '\x08'), ("tab", '\x09'),
    ("newline", '\x0a'), ("vertical-tab", '\x0b'), ("form-feed", '\x0c'),
    ("carriage-return", '\x0d'), ("SO", '\x0e'), ("SI", '\x0f'), ("DLE", '\x10'), ("DC1", '\x11'),
    ("DC2", '\x12'), ("DC3", '\x13'), ("DC4", '\x14'), ("NAK", '\x15'), ("SYN", '\x16'),
    ("ETB", '\x17'), ("CAN", '\x18'), ("EM", '\x19'), ("SUB", '\x1a'), ("ESC", '\x1b'),
    ("IS4", '\x1c'), ("IS3", '\x1d'), ("IS2", '\x1e'), ("IS1", '\x1f'), ("space", ' '),
    ("exclamation-mark", '!'), ("quotation-mark", '"'), ("number-sign", '#'), ("dollar-sign", '$'),
    ("percent-sign", '%'), ("ampersand", '&'), ("apostrophe", '\''), ("left-parenthesis", '('),
    ("right-parenthesis", ')'), ("asterisk", '*'), ("plus-sign", '+'), ("comma", ','),
    ("hyphen", '-'), ("period", '.'), ("slash", '/'), ("zero", '0'), ("one", '1'), ("two", '2'),
    ("three", '3'), ("four", '4'), ("five", '5'), ("six", '6'), ("seven", '7'), ("eight", '8'),
    ("nine", '9'), ("colon", ':'), ("semicolon", ';'), ("less-than-sign", '<'),
    ("equals-sign", '='), ("greater-than-sign", '>'), ("question-mark", '?'),
    ("commercial-at", '@'), ("left-square-bracket", '['), ("backslash", '\\'),
    ("right-square-bracket", ']'), ("circumflex", '^'), ("underscore", '_'),
    ("grave-accent", '\x60'), ("left-curly-bracket", '\x7b'), ("vertical-line", '|'),
    ("right-curly-bracket", '\x7d'), ("tilde", '~'), ("DEL", '\x7f')]

/-- `lookup_collatename`: the element of a name; a single character names itself. -/
def collate : List Char → Option Char
  | [c] => some c
  | name => (collateNames.find? fun p => p.1.toList == name).map (·.2)

/-- An item of a bracket expression: a character, a range, or a class or what is not in it. -/
inductive ClassItem where
  | single (c : Char)
  | range (lo hi : Char)
  | cls (neg : Bool) (k : CharClass)
deriving DecidableEq, Repr

/-- The characters of an item; those of a range are all between its ends, by their codes. -/
def ClassItem.contains : ClassItem → Char → Bool
  | .single d, c => c == d
  | .range lo hi, c => lo ≤ c && c ≤ hi
  | .cls neg k, c => k.contains c != neg

/-- The characters of a bracket expression: those of its items, or all others if it is negated. -/
def bracketContains (neg : Bool) (items : List ClassItem) (c : Char) : Bool :=
  items.any (·.contains c) != neg

/-! ## Tokens and syntax trees -/

/-- A token of a pattern. The opening parenthesis of a capture group carries its position in the
text of the pattern. -/
inductive Token where
  | char (c : Char)
  | any
  | bracket (neg : Bool) (items : List ClassItem)
  | backref (n : Nat)
  | bol
  | eol
  | wordBoundary (neg : Bool)
  | openCapture (pos : Nat)
  | openGroup
  | openLook (neg : Bool)
  | close
  | alt
  | quant (min : Nat) (max : Option Nat) (greedy : Bool)
deriving DecidableEq, Repr

/-- A regular expression. `rep` repeats between `min` and `max` times, the greedy one as often as
it can first; `group` captures under its number. -/
inductive Node where
  | empty
  | char (c : Char)
  | any
  | bracket (neg : Bool) (items : List ClassItem)
  | backref (n : Nat)
  | bol
  | eol
  | wordBoundary (neg : Bool)
  | seq (a b : Node)
  | alt (a b : Node)
  | group (n : Nat) (a : Node)
  | look (neg : Bool) (a : Node)
  | rep (min : Nat) (max : Option Nat) (greedy : Bool) (a : Node)
deriving DecidableEq, Repr

/-- The concatenation of a list of terms, the empty one for no terms. -/
def Node.seqs : List Node → Node
  | [] => .empty
  | a :: as => .seq a (Node.seqs as)

/-- The alternatives of a disjunction, of which there is at least one. -/
def Node.alts : Node → List Node → Node
  | a, [] => a
  | a, b :: bs => .alt a (Node.alts b bs)

/-- The numbers of the capture groups in a tree, in the order in which they are in it. -/
def Node.captures : Node → List Nat
  | .seq a b | .alt a b => a.captures ++ b.captures
  | .group n a => n :: a.captures
  | .look _ a | .rep _ _ _ a => a.captures
  | _ => []

end Ecma
