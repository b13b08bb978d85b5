import Gomibako.Ecma.Match

/-!
# Matching, searching and replacing in a text

`regexMatch`, `regexSearch`, `sregexIterator` and `regexReplace` are the algorithms of `<regex>`
over the semantics of `Node.run`: each takes the first of the states backtracking reaches that meets
its own condition.
-/

namespace Ecma

/-- `match_results`: the whole match and the text of every capture group that took part. -/
structure MatchResults where
  text : List Char
  groups : List (Option (List Char))
deriving DecidableEq, Repr

namespace MatchResults

/-- `size()`: how many results there are, the groups and the whole match before them. -/
def size (m : MatchResults) : Nat := m.groups.length + 1

/-- `str(n)`, which is also the conversion of the `n`-th sub-match to a string. A group that took no
part has the empty text. -/
def str (m : MatchResults) : Nat → List Char
  | 0 => m.text
  | n + 1 => (m.groups[n]?.getD none).getD []

end MatchResults

/-- The results of a match from the state `x` to the state `y`. -/
def Regex.results (re : Regex) (x y : State) : MatchResults where
  text := x.rest.take (x.rest.length - y.rest.length)
  groups := (List.range re.markCount).map fun n => y.caps (n + 1)

/-- `regex_match`: the first way to match in which the whole text is consumed. Reference:
`Router::Route::match` (`router.cpp:28`). -/
def regexMatch (s : List Char) (re : Regex) : Option MatchResults :=
  ((re.node.run (.start s)).find? (·.rest.isEmpty)).map (re.results (.start s))

/-- A match has a result for every capture group of the pattern, also for one that took no part in
it. -/
theorem regexMatch_groups_length {s : List Char} {re : Regex} {m : MatchResults}
    (h : regexMatch s re = some m) : m.groups.length = re.markCount := by
  obtain ⟨y, -, rfl⟩ := Option.map_eq_some_iff.1 h
  simp [Regex.results]

/-- A match found in a text: what was skipped since the last match, the results, and the text
around the end of the match. -/
structure Found where
  skipped : List Char
  results : MatchResults
  prev : List Char
  rest : List Char
deriving DecidableEq, Repr

/-- A match at the current position; `notNull` asks for one that is not empty. -/
def matchAt (re : Regex) (notNull : Bool) (prev rest : List Char) : Option Found :=
  let x : State := ⟨prev, rest, fun _ => none⟩
  ((re.node.run x).find? fun y => !notNull || y.rest.length < rest.length).map fun y =>
    ⟨[], re.results x y, y.prev, y.rest⟩

/-- `regex_search` behind the text `prev`: the first position with a match. -/
def regexSearch (re : Regex) (prev : List Char) : List Char → Option Found
  | [] => matchAt re false prev []
  | c :: rest =>
    match matchAt re false prev (c :: rest) with
    | some f => some f
    | none => (regexSearch re (c :: prev) rest).map fun f => { f with skipped := c :: f.skipped }

/-- The matches of a `sregex_iterator`, at most `fuel` of them. After an empty match the iterator
first tries a match at the same position that is not empty, and then moves on by a character. -/
def iterate (re : Regex) : Nat → Bool → List Char → List Char → List Found
  | 0, _, _, _ => []
  | fuel + 1, false, prev, rest =>
    match regexSearch re prev rest with
    | none => []
    | some f => f :: iterate re fuel f.results.text.isEmpty f.prev f.rest
  | _ + 1, true, _, [] => []
  | fuel + 1, true, prev, c :: rest =>
    match matchAt re true prev (c :: rest) with
    | some f => f :: iterate re fuel false f.prev f.rest
    | none =>
      match regexSearch re (c :: prev) rest with
      | none => []
      | some f =>
        { f with skipped := c :: f.skipped } :: iterate re fuel f.results.text.isEmpty f.prev f.rest

/-- All matches in the text `s`. Two of them in a row advance by a character at least, so there are
at most twice as many as there are positions. -/
def sregexIterator (s : List Char) (re : Regex) : List Found :=
  iterate re (2 * s.length + 2) false [] s

/-- `match_results::format` in the ECMAScript syntax, in which a dollar sign stands before what is
to be inserted. -/
def format (f : Found) : List Char → List Char
  | '$' :: '$' :: fmt => '$' :: format f fmt
  | '$' :: '&' :: fmt => f.results.text ++ format f fmt
  | '$' :: '\x60' :: fmt => f.skipped ++ format f fmt
  | '$' :: '\x27' :: fmt => f.rest ++ format f fmt
  | '$' :: c :: d :: fmt =>
    match decVal c, decVal d with
    | some m, some n => f.results.str (10 * m + n) ++ format f fmt
    | some m, none => f.results.str m ++ format f (d :: fmt)
    | none, _ => '$' :: format f (c :: d :: fmt)
  | ['$', c] =>
    match decVal c with
    | some m => f.results.str m
    | none => ['$', c]
  | c :: fmt => c :: format f fmt
  | [] => []

/-- `regex_replace`: the matches are replaced by the format, the text between them is copied. -/
def regexReplace (s : List Char) (re : Regex) (fmt : List Char) : List Char :=
  let fs := sregexIterator s re
  fs.flatMap (fun f => f.skipped ++ format f fmt) ++ (fs.getLast?.map (·.rest)).getD s

end Ecma
