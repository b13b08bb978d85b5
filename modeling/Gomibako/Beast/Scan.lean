import Gomibako.Beast.Rfc7230
import Gomibako.Lib.Scanner
import Mathlib.Tactic.SplitIfs

/-!
# Scanning a message

The functions of `detail/basic_parser.hpp` that the parser of requests is made of. Each scans the
text from its pointer to the end of the octets it may look at, and returns what is behind its
pointer then. A text that ends too early needs more octets.
-/

namespace Gomibako.Beast

/-- How the parser of requests can fail: by the errors it reports, and by `lengthError`, which is no
error code but the exception `std::length_error`, where the parser does not catch it. -/
inductive ParseError where
  | needMore | partialMessage | headerLimit | bodyLimit
  | badLineEnding | badMethod | badTarget | badVersion | badField | badValue
  | badContentLength | badTransferEncoding | badChunk | badChunkExtension
  | lengthError
deriving DecidableEq, Repr

/-- `max_obs_fold`: how long a value that goes on in further lines may be. Reference: `max_obs_fold`
(`detail/basic_parser.hpp:36`). -/
def maxObsFold : Nat := 4096

/-- `is_pathchar`: the characters of a target, all but the control characters and the space.
Reference: `is_pathchar` (`detail/basic_parser.hpp:55`). -/
def isPathchar (c : Char) : Bool := 33 ≤ c.toNat && c.toNat ≤ 255 && c.toNat != 127

/-- The control characters that end a value, or spoil it. -/
def isControl (c : Char) : Bool := (c.toNat < 32 && c != '\t') || c.toNat = 127

/-- `unhex` of `basic_parser_base`. The rows of its table behind 112 lack the comma at their ends,
so that the last entry of a row and the first of the next are one entry of value -2, and eight
entries at the end of the table are zero. -/
def unhex (c : Char) : Option Nat :=
  let n := c.toNat
  if 48 ≤ n && n ≤ 57 then some (n - 48)
  else if 65 ≤ n && n ≤ 70 then some (n - 55)
  else if 97 ≤ n && n ≤ 102 then some (n - 87)
  else if n ∈ [127, 142, 157, 172, 187, 202, 217, 232] then some 254
  else if 248 ≤ n && n ≤ 255 then some 0
  else none

/-- `find_eol`: what is behind the first CRLF, if there is one. -/
def findEol : Str → Except ParseError (Option Str)
  | [] => .ok none
  | c :: s =>
    if c = '\r' then
      match s with
      | [] => .ok none
      | d :: s => if d = '\n' then .ok (some s) else .error .badLineEnding
    else findEol s

/-- `find_eom`: what is behind the first empty line, if there is one. -/
def findEom : Str → Option Str
  | a :: b :: c :: d :: s =>
    if d ≠ '\n' then if d = '\r' then findEom (b :: c :: d :: s) else findEom s
    else if c ≠ '\r' then findEom s
    else if b ≠ '\n' then findEom (c :: d :: s)
    else if a ≠ '\r' then findEom (c :: d :: s)
    else some s
  | _ => none

/-- The digits of `parse_dec` after the first, with the value so far. -/
def parseDecFrom (v : Nat) : Str → Option Nat
  | [] => some v
  | c :: s =>
    if !isDigit c then none
    else if v > (2 ^ 64 - 1 - 10) / 10 then none
    else parseDecFrom (10 * v + (c.toNat - '0'.toNat)) s

/-- `parse_dec` of a `uint64_t`: the text is decimal digits, and nothing for a text that is not, or
for a number that is too large. Reference: `parse_dec` (`detail/basic_parser.hpp:305`). -/
def parseDec : Str → Option Nat
  | [] => none
  | c :: s => if !isDigit c then none else parseDecFrom (c.toNat - '0'.toNat) s

/-- The digits of `parse_hex` after the first, with the value so far. The check for overflow
compares with the value before, so that it can miss one. -/
def parseHexFrom (v : Nat) : Str → Option (Nat × Str)
  | [] => some (v, [])
  | c :: s =>
    match unhex c with
    | none => some (v, c :: s)
    | some d =>
      let v' := (16 * v + d) % 2 ^ 64
      if v' < v then none else parseHexFrom v' s

/-- `parse_hex` of a `uint64_t`: the value of the digits at the start. -/
def parseHex : Str → Option (Nat × Str)
  | [] => none
  | c :: s => (unhex c).bind fun d => parseHexFrom d s

/-- `parse_crlf`: the text behind the line end that it starts with. Reference: `parse_crlf`
(`detail/basic_parser.hpp:346`). -/
def parseCrlf : Str → Option Str
  | '\r' :: '\n' :: s => some s
  | _ => none

/-- A word of the request line and the space behind it. -/
def parseWord (isChar : Char → Bool) (bad : ParseError) (s : Str) :
    Except ParseError (Str × Str) :=
  match s.dropWhile isChar with
  | [] => .error .needMore
  | c :: rest =>
    if c ≠ ' ' then .error bad
    else if s.takeWhile isChar = [] then .error bad
    else .ok (s.takeWhile isChar, rest)

/-- `parse_method`: a word of token characters, with the space behind it. Reference: `parse_method`
(`detail/basic_parser.hpp:356`). -/
def parseMethod (s : Str) : Except ParseError (Str × Str) := parseWord isTokenChar .badMethod s

/-- `parse_target`: a word of the characters of targets, with the space behind it. Reference:
`parse_target` (`detail/basic_parser.hpp:393`). -/
def parseTarget (s : Str) : Except ParseError (Str × Str) := parseWord isPathchar .badTarget s

/-- `parse_version`: ten times the major number and the minor one. -/
def parseVersion : Str → Except ParseError (Nat × Str)
  | a :: b :: c :: d :: e :: major :: dot :: minor :: rest =>
    if [a, b, c, d, e] = "HTTP/".toList && isDigit major && dot = '.' && isDigit minor then
      .ok (10 * (major.toNat - '0'.toNat) + (minor.toNat - '0'.toNat), rest)
    else .error .badVersion
  | _ => .error .needMore

/-- Where `parse_field` is in a value: in the spaces at the start of a line, in its text, behind its
CR, or behind its CRLF. -/
inductive ValuePos where
  | lead | text | cr | eol
deriving DecidableEq, Repr

/-- The value of `parse_field`. `buf` is the value of the lines before, `rev` the text of this line
so far, latest first; a line that starts with a space continues the value, joined by one space. The
lines of such a value are put together in a buffer for at most `maxObsFold` octets, which throws
where it has no space left. This is caught, and reported as `header_limit`, for the lines behind the
first one only; a first line that does not fit lets the exception leave the parser. -/
def parseValueFrom (pos : ValuePos) (buf rev : Str) : Str → Except ParseError (Str × Str)
  | [] => .error .needMore
  | c :: s =>
    match pos with
    | .lead =>
      if isOws c then parseValueFrom .lead buf [] s
      else if !isControl c then parseValueFrom .text buf [c] s
      else if c = '\r' then parseValueFrom .cr buf [] s
      else .error .badValue
    | .text =>
      if !isControl c then parseValueFrom .text buf (c :: rev) s
      else if c = '\r' then parseValueFrom .cr buf rev s
      else .error .badValue
    | .cr => if c = '\n' then parseValueFrom .eol buf rev s else .error .badLineEnding
    | .eol =>
      let line := (rev.dropWhile isOws).reverse
      -- a value without obs-fold does not go through the buffer and does not know its limit
      if buf = [] && isOws c && maxObsFold < line.length then .error .lengthError
      else if buf ≠ [] && line ≠ [] && maxObsFold < buf.length + 1 + line.length then
        .error .headerLimit
      else
        let buf := if buf = [] then line else if line = [] then buf else buf ++ ' ' :: line
        if isOws c then parseValueFrom .lead buf [] s else .ok (buf, c :: s)

/-- `parse_field`: a name with its colon, and a value, which may go on in further lines. Reference:
`parse_field` (`detail/basic_parser.hpp:542`). -/
def parseField (s : Str) : Except ParseError (Str × Str × Str) :=
  match s.dropWhile isTokenChar with
  | [] => .error .needMore
  | c :: rest =>
    if c ≠ ':' then .error .badField
    else if s.takeWhile isTokenChar = [] then .error .badField
    else (parseValueFrom .lead [] [] rest).map fun (value, rest) =>
      (s.takeWhile isTokenChar, value, rest)

/-- Where `parse_chunk_extensions` is: at the end of an extension, or in the spaces before a
semicolon; behind the semicolon, in a name, or in the spaces behind a name; behind the equals sign,
in a token, in a quoted string, or behind a backslash in one. -/
inductive ExtensionPos where
  | next | space | semi | name | nameSpace | eq | token | quoted | escaped
deriving DecidableEq, Repr

/-- The loop of `parse_chunk_extensions`, at a position of the extensions. -/
def chunkExtensionsFrom (pos : ExtensionPos) : Str → Except ParseError Str
  | [] => .error .needMore
  | c :: s =>
    match pos with
    | .next =>
      if isOws c then chunkExtensionsFrom .space s
      else if c = ';' then chunkExtensionsFrom .semi s
      else .ok (c :: s)
    | .space =>
      if isOws c then chunkExtensionsFrom .space s
      else if c = ';' then chunkExtensionsFrom .semi s
      else .error .badChunkExtension
    | .semi =>
      if isOws c then chunkExtensionsFrom .semi s
      else if isTokenChar c then chunkExtensionsFrom .name s
      else .error .badChunkExtension
    | .name =>
      if isTokenChar c then chunkExtensionsFrom .name s
      else if isOws c then chunkExtensionsFrom .nameSpace s
      else if c = ';' then chunkExtensionsFrom .semi s
      else if c = '=' then chunkExtensionsFrom .eq s
      else .ok (c :: s)
    | .nameSpace =>
      if isOws c then chunkExtensionsFrom .nameSpace s
      else if c = ';' then chunkExtensionsFrom .semi s
      else if c = '=' then chunkExtensionsFrom .eq s
      else .error .badChunkExtension
    | .eq =>
      if isOws c then chunkExtensionsFrom .eq s
      else if c = '"' then chunkExtensionsFrom .quoted s
      else if isTokenChar c then chunkExtensionsFrom .token s
      else .error .badChunkExtension
    | .token =>
      if isTokenChar c then chunkExtensionsFrom .token s
      else if isOws c then chunkExtensionsFrom .space s
      else if c = ';' then chunkExtensionsFrom .semi s
      else .ok (c :: s)
    | .quoted =>
      if c = '"' then chunkExtensionsFrom .next s
      else if c = '\\' then chunkExtensionsFrom .escaped s
      else chunkExtensionsFrom .quoted s
    | .escaped => chunkExtensionsFrom .quoted s

/-- `parse_chunk_extensions`: what is behind the size of a chunk, up to its line end. Reference:
`parse_chunk_extensions` (`detail/basic_parser.hpp:719`). -/
def parseChunkExtensions (s : Str) : Except ParseError Str := chunkExtensionsFrom .next s

/-! ## What is left -/

/-- What is behind a line end is shorter by it. -/
theorem findEol_length {s eol : Str} (h : findEol s = .ok (some eol)) :
    eol.length + 2 ≤ s.length := by
  induction s with
  | nil => cases h
  | cons c s ih =>
    unfold findEol at h
    split at h
    · split at h
      · cases h
      · split at h
        · cases h
          simp
        · cases h
    · have := ih h
      simp only [List.length_cons]
      omega

/-- A value that is read uses up its line, so that the text behind it is not longer. -/
theorem parseValueFrom_length {pos : ValuePos} {buf rev s value rest : Str}
    (h : parseValueFrom pos buf rev s = .ok (value, rest)) : rest.length ≤ s.length := by
  induction s generalizing pos buf rev with
  | nil => cases pos <;> cases h
  | cons c s ih =>
    have hstep : ∀ {pos buf rev}, parseValueFrom pos buf rev s = .ok (value, rest) →
        rest.length ≤ (c :: s).length := fun h => Nat.le_succ_of_le (ih h)
    cases pos with
    | lead =>
      rw [parseValueFrom] at h
      split_ifs at h <;> exact hstep h
    | text =>
      rw [parseValueFrom] at h
      split_ifs at h <;> exact hstep h
    | cr =>
      rw [parseValueFrom] at h
      split_ifs at h
      exact hstep h
    | eol =>
      rw [parseValueFrom] at h
      simp only at h
      split_ifs at h <;> first | exact hstep h | (cases h; exact Nat.le_refl _)

/-- A field that is read uses up its name and its line, so that the text behind it is shorter. -/
theorem parseField_length {s name value rest : Str}
    (h : parseField s = .ok (name, value, rest)) : rest.length < s.length := by
  unfold parseField at h
  split at h
  · cases h
  · next c behind hbehind =>
    have hlen : (c :: behind).length ≤ s.length := by
      rw [← hbehind]
      exact List.length_dropWhile_le _ _
    split at h
    · cases h
    · split at h
      · cases h
      · obtain ⟨⟨v, r⟩, hv, heq⟩ := Except.map_eq_ok_iff.1 h
        cases heq
        have := parseValueFrom_length hv
        simp only [List.length_cons] at hlen
        omega

/-- A word that is read uses up the space behind it, so that the text behind it is shorter. -/
theorem parseWord_length {isChar : Char → Bool} {bad : ParseError} {s word rest : Str}
    (h : parseWord isChar bad s = .ok (word, rest)) : rest.length < s.length := by
  unfold parseWord at h
  split at h
  · cases h
  · next c behind hbehind =>
    have hlen : (c :: behind).length ≤ s.length := by
      rw [← hbehind]
      exact List.length_dropWhile_le _ _
    simp only [List.length_cons] at hlen
    split_ifs at h
    cases h
    omega

/-- A version that is read leaves an end of the text, which is not longer. -/
theorem parseVersion_length {s rest : Str} {version : Nat}
    (h : parseVersion s = .ok (version, rest)) : rest.length ≤ s.length := by
  unfold parseVersion at h
  split at h
  · split_ifs at h
    cases h
    simp only [List.length_cons]
    omega
  · cases h

/-- A line end that is read leaves an end of the text, which is not longer. -/
theorem parseCrlf_length {s rest : Str} (h : parseCrlf s = some rest) :
    rest.length ≤ s.length := by
  unfold parseCrlf at h
  split at h
  · cases h
    simp only [List.length_cons]
    omega
  · cases h

/-- Digits that are read leave an end of the text, which is not longer. -/
theorem parseHexFrom_length {v w : Nat} {s rest : Str} (h : parseHexFrom v s = some (w, rest)) :
    rest.length ≤ s.length := by
  induction s generalizing v with
  | nil =>
    cases h
    exact Nat.le_refl _
  | cons c s ih =>
    unfold parseHexFrom at h
    split at h
    · cases h
      exact Nat.le_refl _
    · simp only at h
      split at h
      · cases h
      · exact Nat.le_succ_of_le (ih h)

/-- A number that is read leaves an end of the text, which is not longer. -/
theorem parseHex_length {v : Nat} {s rest : Str} (h : parseHex s = some (v, rest)) :
    rest.length ≤ s.length := by
  cases s with
  | nil => cases h
  | cons c s =>
    obtain ⟨d, -, hd⟩ := Option.bind_eq_some_iff.1 h
    exact Nat.le_succ_of_le (parseHexFrom_length hd)

/-! ## What is thrown -/

/-- A value throws only if a line of it is longer than the buffer for obs-fold. What was read of the
line is in `rev`, and the rest of it is in the text. -/
theorem parseValueFrom_throws {pos : ValuePos} {buf rev s : Str}
    (h : parseValueFrom pos buf rev s = .error .lengthError) :
    maxObsFold < rev.length + s.length := by
  induction s generalizing pos buf rev with
  | nil => cases pos <;> cases h
  | cons c s ih =>
    have hstep : ∀ {pos buf rev'}, rev'.length ≤ rev.length + 1 →
        parseValueFrom pos buf rev' s = .error .lengthError →
        maxObsFold < rev.length + (c :: s).length := by
      intro pos buf rev' hrev hrest
      have := ih hrest
      rw [List.length_cons]
      omega
    cases pos with
    | lead =>
      rw [parseValueFrom] at h
      split_ifs at h <;> first | exact hstep (by simp) h | cases h
    | text =>
      rw [parseValueFrom] at h
      split_ifs at h <;> first | exact hstep (by simp) h | cases h
    | cr =>
      rw [parseValueFrom] at h
      split_ifs at h <;> first | exact hstep (by simp) h | cases h
    | eol =>
      have hline : (rev.dropWhile isOws).reverse.length ≤ rev.length := by
        rw [List.length_reverse]
        exact List.length_dropWhile_le _ _
      rw [parseValueFrom] at h
      simp only at h
      split at h
      · next hlong =>
        simp only [Bool.and_eq_true, decide_eq_true_eq] at hlong
        omega
      · split_ifs at h <;> first | exact hstep (by simp) h | cases h

/-- A field throws only if it is longer than the buffer for obs-fold. -/
theorem parseField_throws {s : Str} (h : parseField s = .error .lengthError) :
    maxObsFold < s.length := by
  unfold parseField at h
  split at h
  · cases h
  · next c behind hbehind =>
    have hlen : (c :: behind).length ≤ s.length := by
      rw [← hbehind]
      exact List.length_dropWhile_le _ _
    split at h
    · cases h
    · split at h
      · cases h
      · have := parseValueFrom_throws (Except.map_eq_error_iff.1 h)
        simp only [List.length_cons, List.length_nil] at hlen this
        omega

/-- The extensions of a chunk are scanned without an exception. -/
theorem parseChunkExtensions_ne_lengthError (s : Str) :
    parseChunkExtensions s ≠ .error .lengthError := by
  suffices hfrom : ∀ pos, chunkExtensionsFrom pos s ≠ .error .lengthError from hfrom .next
  induction s with
  | nil =>
    intro pos h
    cases pos <;> cases h
  | cons c s ih =>
    intro pos
    cases pos <;> rw [chunkExtensionsFrom]
    all_goals first | exact ih _ | (split_ifs <;> first | exact ih _ | rintro ⟨⟩)

/-- A line end is looked for without an exception: the only error is a CR without an LF. -/
theorem findEol_ne_lengthError (s : Str) : findEol s ≠ .error .lengthError := by
  induction s with
  | nil => rintro ⟨⟩
  | cons c s ih =>
    unfold findEol
    split
    · split
      · rintro ⟨⟩
      · split <;> rintro ⟨⟩
    · exact ih

/-- A word is scanned without an exception, its own error being another one. -/
theorem parseWord_ne_lengthError {isChar : Char → Bool} {bad : ParseError}
    (hbad : bad ≠ .lengthError) (s : Str) : parseWord isChar bad s ≠ .error .lengthError := by
  intro h
  unfold parseWord at h
  split at h
  · cases h
  · split_ifs at h <;> exact hbad (Except.error.inj h)

/-- A version is scanned without an exception: its errors are the wait for more and a bad
version. -/
theorem parseVersion_ne_lengthError (s : Str) : parseVersion s ≠ .error .lengthError := by
  intro h
  unfold parseVersion at h
  split at h
  · split_ifs at h
    cases h
  · cases h

end Gomibako.Beast
