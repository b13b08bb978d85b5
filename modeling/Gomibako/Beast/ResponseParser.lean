import Gomibako.Beast.Read

/-!
# The parser of responses

`basic_parser<false>`, which a client reads a response with. It differs from that of requests in the
first line and in where the body ends; the fields and the bodies are parsed alike. `readResponse` is
what it makes of octets that are given to it at once, behind which the stream ends.
-/

namespace Gomibako.Beast

/-! ## The status line -/

/-- `parse_token_to_eol`: the characters of a line, or nothing if there is a control character. -/
def parseTokenToEol (s : Str) : Except ErrorCode (Option (Str × Str)) :=
  match s.dropWhile fun c => !isControl c with
  | [] => .error HttpError.needMore.toErrorCode
  | c :: rest =>
    if c = '\r' then
      match rest with
      | [] => .error HttpError.needMore.toErrorCode
      | d :: rest =>
        if d ≠ '\n' then .error HttpError.badLineEnding.toErrorCode
        else .ok (some (s.takeWhile fun c => !isControl c, rest))
    else .ok none

/-- `parse_status`: three digits and a space, of which the number is made. Reference: `parse_status`
(`basic_parser.hpp:485`). -/
def parseStatus : Str → Except ErrorCode (Nat × Str)
  | a :: b :: c :: d :: rest =>
    if isDigit a && isDigit b && isDigit c && d = ' ' then
      .ok (100 * (a.toNat - '0'.toNat) + 10 * (b.toNat - '0'.toNat) + (c.toNat - '0'.toNat), rest)
    else .error HttpError.badStatus.toErrorCode
  | _ => .error HttpError.needMore.toErrorCode

/-- `parse_reason`: the rest of the line, without control characters. Reference: `parse_reason`
(`basic_parser.hpp:521`). -/
def parseReason (s : Str) : Except ErrorCode (Str × Str) :=
  match parseTokenToEol s with
  | .error e => .error e
  | .ok none => .error HttpError.badReason.toErrorCode
  | .ok (some line) => .ok line

/-- A status line: the version, the status and the reason. -/
structure StatusLine where
  version : Nat
  status : Nat
  reason : Str
deriving DecidableEq, Repr

/-- `parse_start_line` of a response: the version, the status and the reason, one behind the other.
Reference: `basic_parser::parse_start_line` (`basic_parser.ipp:426`). -/
def parseStatusLine (s : Str) : Except ErrorCode (StatusLine × Str) :=
  match parseVersion s with
  | .error e => .error e.toErrorCode
  | .ok (version, s) =>
    if version < 10 || version > 11 then .error HttpError.badVersion.toErrorCode
    else
      match s with
      | [] => .error HttpError.needMore.toErrorCode
      | c :: s =>
        if c ≠ ' ' then .error HttpError.badVersion.toErrorCode
        else do
          let (status, s) ← parseStatus s
          let (reason, s) ← parseReason s
          return (⟨version, status, reason⟩, s)

/-! ## Where the body ends -/

/-- What follows the header of a response: a body that ends by itself, read by the parser, or all
that comes. -/
inductive BodyKind where
  | delimited (p : Parser)
  | toEof

/-- The statuses of the responses that have no body: informational ones, `no_content` and
`not_modified`. -/
def isBodiless (status : Nat) : Bool := status / 100 = 1 || status = 204 || status = 304

/-- The responses that have no body, by their numbers: the hundreds, 204 and 304. -/
theorem isBodiless_iff {status : Nat} :
    isBodiless status = true ↔ status / 100 = 1 ∨ status = 204 ∨ status = 304 := by
  rw [isBodiless, Bool.or_eq_true, Bool.or_eq_true, decide_eq_true_eq, decide_eq_true_eq,
    decide_eq_true_eq, or_assoc]

/-- `finish_header` of a response, whose status can tell that there is no body. Reference:
`basic_parser::finish_header` (`basic_parser.ipp:576`). -/
def finishResponse (p : Parser) (status : Nat) : Except ErrorCode BodyKind :=
  if isBodiless status then
    .ok (.delimited { p with state := .complete })
  else if p.contentLength then
    if p.len > p.bodyLimit then .error HttpError.bodyLimit.toErrorCode
    else .ok (.delimited { p with state := if p.len > 0 then .body0 else .complete })
  else if p.chunked then .ok (.delimited { p with state := .chunkHeader0 })
  else .ok .toEof

/-- The parser of a response whose body ends by itself has started, as a body without octets is
complete at once. -/
theorem finishResponse_started {p q : Parser} {status : Nat}
    (h : finishResponse p status = .ok (.delimited q)) : q.Started := by
  unfold finishResponse at h
  split_ifs at h <;> cases h
  · exact Parser.started_of_header rfl (by simp)
  · next hlen => exact ⟨by simp, fun _ => hlen⟩
  · exact Parser.started_of_header rfl (by simp)
  · exact ⟨by simp, by simp⟩

/-! ## Reading a response -/

/-- The error of a part of the header of which `n` octets are there when the stream ends. -/
def headerError (n : Nat) (e : ErrorCode) : ErrorCode :=
  if e ≠ HttpError.needMore.toErrorCode then e
  else if n ≥ Parser.headerLimit then HttpError.headerLimit.toErrorCode
  else HttpError.partialMessage.toErrorCode

/-- The header that a text starts with. The two parts of it must each be within the limit. -/
def readHeader (bodyLimit : Nat) (s : Str) : Except ErrorCode (StatusLine × Parser × Str) := do
  let (line, rest) ← (parseStatusLine (s.take Parser.headerLimit)).mapError (headerError s.length)
  let rest := Parser.behindLimit s rest
  let p : Parser := { state := .fields, bodyLimit }
  let step := (p.parseFields (rest.length + 1) (rest.take Parser.headerLimit)).get
    (Parser.parseFields_isSome (by rw [List.length_take]; omega))
  match step.ec with
  | some e => .error (headerError rest.length e.toErrorCode)
  | none => return (line, step.parser, Parser.behindLimit rest step.rest)

/-- `put` of a body that ends by itself, and `put_eof`. A trailer is among the fields then. -/
def readBody (p : Parser) (hp : p.Started) (s : Str) : Except ErrorCode (Request × Str) :=
  if p.isDone then .ok (p.message, s)
  else if hs : s = [] then .error HttpError.partialMessage.toErrorCode
  else
    let step := (p.put (s.length + 2) s).get
      (Parser.put_isSome (fun _ => hp) hs (Nat.lt_succ_self (s.length + 1)))
    match step.ec with
    | some .needMore => .error HttpError.partialMessage.toErrorCode
    | some e => .error e.toErrorCode
    | none =>
      if step.parser.isDone then .ok (step.parser.message, step.rest)
      else .error HttpError.partialMessage.toErrorCode

/-- A response that is given whole: the response, and what is behind it. -/
def readResponse (bodyLimit : Nat) (s : Str) : Except ErrorCode (Response × Str) :=
  if s = [] then .error endOfStream
  else do
    let (line, p, rest) ← readHeader bodyLimit s
    match h : finishResponse p line.status with
    | .error e => .error e
    | .ok .toEof =>
      if rest.length > bodyLimit then .error HttpError.bodyLimit.toErrorCode
      else return (⟨line.version, line.status, line.reason, p.message.fields, rest⟩, [])
    | .ok (.delimited q) =>
      let (m, rest) ← readBody q (finishResponse_started h) rest
      return (⟨line.version, line.status, line.reason, m.fields, m.body⟩, rest)

end Gomibako.Beast
