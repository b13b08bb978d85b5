import Gomibako.Beast.Message
import Gomibako.Beast.Scan

/-!
# The parser of requests

`basic_parser<true>` with the `parser` that fills a message with a `dynamic_body`. `Parser.put`
gives it octets, of which it keeps none: it returns those it has not used, to be given to it again
with more. Its loops are bounded by fuel; `Parser.put_isSome` says how much is enough.
-/

namespace Gomibako.Beast

/-- The states of `basic_parser`; a body that ends with the stream is for responses only. -/
inductive ParserState where
  | nothingYet | startLine | fields
  | body0 | body | chunkHeader0 | chunkHeader | chunkBody | complete
deriving DecidableEq, Repr

/-- `parser<true, dynamic_body>`, with the flags that its own functions read. -/
structure Parser where
  state : ParserState := .nothingYet
  skip : Nat := 0
  len : Nat := 0
  bodyLimit : Nat := 1024 * 1024
  contentLength : Bool := false
  chunked : Bool := false
  expectCRLF : Bool := false
  finalChunk : Bool := false
  message : Request := {}
deriving DecidableEq, Repr

/-- What a call of the parser comes to: the parser, the octets behind its pointer, and its error. -/
structure ParseStep where
  parser : Parser
  rest : Str
  ec : Option ParseError := none

namespace Parser

/-- `header_limit_`: how many octets of a part of the header the parser looks at. Reference:
`basic_parser` (`basic_parser.hpp:228`). -/
def headerLimit : Nat := 8192

/-- `is_done`: the message is complete. Reference: `basic_parser::is_done`
(`basic_parser.hpp:303`). -/
def isDone (p : Parser) : Bool := p.state = .complete

/-- `got_some`: the parser was given an octet of the message. Reference: `basic_parser::got_some`
(`basic_parser.hpp:285`). -/
def gotSome (p : Parser) : Bool := p.state ≠ .nothingYet

/-- `on_request_impl`: the request line is stored, with the text of a method that has no verb.
Reference: `parser::on_request_impl` (`parser.hpp:307`). -/
def onRequest (p : Parser) (method target : Str) (version : Nat) : Parser :=
  let verb := stringToVerb method
  { p with
    message := { p.message with
      method := verb
      methodString := if verb = .unknown then method else []
      target
      version } }

/-- `on_field_impl`. What the parser is given fits a buffer, so no field is too long to be inserted
(`Parser.insert_onField`). Reference: `parser::on_field_impl` (`parser.hpp:351`). -/
def onField (p : Parser) (name value : Str) : Parser :=
  { p with
    message := { p.message with
      fields := p.message.fields.insertElement ⟨name, trim value⟩ } }

/-- `on_body_impl` and `on_chunk_body_impl`: octets are appended to the body. Reference:
`parser::on_body_impl` (`parser.hpp:384`). -/
def onBody (p : Parser) (body : Str) : Parser :=
  { p with message := { p.message with body := p.message.body ++ body } }

/-- `do_field`: what a field tells of the body is noted, and a field that contradicts the fields
before it is refused. Reference: `basic_parser::do_field` (`basic_parser.ipp:827`). -/
def doField (p : Parser) (name value : Str) : Except ParseError Parser :=
  if iequals name "Connection".toList || iequals name "Proxy-Connection".toList then
    if validateList value then .ok p else .error .badValue
  else if iequals name "Content-Length".toList then
    if p.contentLength || p.chunked then .error .badContentLength
    else match parseDec value with
      | none => .error .badContentLength
      | some v => .ok { p with len := v, contentLength := true }
  else if iequals name "Transfer-Encoding".toList then
    if p.chunked || p.contentLength then .error .badTransferEncoding
    else match (tokenList value).dropWhile fun s => !iequals "chunked".toList s with
      | [_] => .ok { p with len := 0, chunked := true }
      | _ => .ok p
  else .ok p

/-- `maybe_need_more`: where octets were looked at before, the end of the header is looked for
behind them. Reference: `basic_parser::maybe_need_more` (`basic_parser.ipp:335`). -/
def maybeNeedMore (p : Parser) (s : Str) : Parser × Option ParseError :=
  if p.skip = 0 then (p, none)
  else
    let s := s.take headerLimit
    if s.length < p.skip + 4 then (p, some .needMore)
    else if (findEom (s.drop p.skip)).isNone then
      ({ p with skip := s.length - 3 },
        some (if s.length - 3 + 4 > headerLimit then .headerLimit else .needMore))
    else ({ p with skip := 0 }, none)

/-- `parse_start_line` of a request: the method, the target and the version, one behind the other.
Reference: `basic_parser::parse_start_line` (`basic_parser.ipp:368`). -/
def parseStartLine (p : Parser) (s : Str) : Except ParseError (Parser × Str) := do
  let (method, s) ← parseMethod s
  let (target, s) ← parseTarget s
  let (version, s) ← parseVersion s
  if version < 10 || version > 11 then .error .badVersion
  else if s.length < 2 then .error .needMore
  else match parseCrlf s with
    | none => .error .badVersion
    | some s => .ok ({ p.onRequest method target version with state := .fields }, s)

/-- `parse_fields`: field after field up to an empty line; the fields before an error stay parsed.
Reference: `basic_parser::parse_fields` (`basic_parser.ipp:484`). -/
def parseFields : Nat → Parser → Str → Option ParseStep
  | 0, _, _ => none
  | fuel + 1, p, s =>
    match s with
    | c :: d :: rest =>
      if c = '\r' then
        some ⟨p, rest, if d ≠ '\n' then some .badLineEnding else none⟩
      else
        match parseField s with
        | .error e => some ⟨p, s, some e⟩
        | .ok (name, value, rest) =>
          match p.doField name value with
          | .error e => some ⟨p, s, some e⟩
          | .ok p => parseFields fuel (p.onField name value) rest
    | _ => some ⟨p, s, some .needMore⟩

/-- `finish_header` of a request: the fields have told whether there is a body, and how it ends.
Reference: `basic_parser::finish_header` (`basic_parser.ipp:524`). -/
def finishHeader (p : Parser) : Parser × Option ParseError :=
  if p.contentLength then
    if p.len > p.bodyLimit then (p, some .bodyLimit)
    else ({ p with state := if p.len > 0 then .body0 else .complete }, none)
  else if p.chunked then ({ p with state := .chunkHeader0 }, none)
  else ({ p with len := 0, state := .complete }, none)

/-- What `put` does when a part of the header is not complete: `n` octets were there to be looked
at, and `rest` is what is behind the pointer. -/
def needMoreHeader (p : Parser) (n : Nat) (rest : Str) : ParseStep :=
  if n ≥ headerLimit then ⟨p, rest, some .headerLimit⟩
  else ⟨if 3 ≤ rest.length then { p with skip := rest.length - 3 } else p, rest, some .needMore⟩

/-- What is behind the pointer when a part of the text up to the header limit was parsed and `rest`
of it is left. -/
def behindLimit (s rest : Str) : Str := s.drop ((s.take headerLimit).length - rest.length)

/-- The case `fields` of `put`: the fields up to the header limit are parsed, and behind them the
header is finished. Reference: `basic_parser::put` (`basic_parser.ipp:146`). -/
def putFields (fuel : Nat) (p : Parser) (s : Str) : Option ParseStep :=
  match p.maybeNeedMore s with
  | (p, some e) => some ⟨p, s, some e⟩
  | (p, none) =>
    (parseFields fuel p (s.take headerLimit)).map fun step =>
      let rest := behindLimit s step.rest
      match step.ec with
      | some .needMore => step.parser.needMoreHeader s.length rest
      | some e => ⟨step.parser, rest, some e⟩
      | none =>
        let (p, ec) := step.parser.finishHeader
        ⟨p, rest, ec⟩

/-- The case `start_line` of `put`: the request line is parsed, and the fields if there are octets
behind it. Reference: `basic_parser::put` (`basic_parser.ipp:146`). -/
def putStartLine (fuel : Nat) (p : Parser) (s : Str) : Option ParseStep :=
  match p.maybeNeedMore s with
  | (p, some e) => some ⟨p, s, some e⟩
  | (p, none) =>
    match p.parseStartLine (s.take headerLimit) with
    | .error .needMore => some (p.needMoreHeader s.length s)
    | .error e => some ⟨p, s, some e⟩
    | .ok (p, rest) =>
      let rest := behindLimit s rest
      if rest = [] then some ⟨p, rest, some .needMore⟩ else p.putFields fuel rest

/-- `parse_body`: the octets of the body that are there are handed over. Reference:
`basic_parser::parse_body` (`basic_parser.ipp:635`). -/
def parseBody (p : Parser) (s : Str) : ParseStep :=
  let n := min p.len s.length
  let p : Parser := { p.onBody (s.take n) with len := p.len - n }
  if p.len > 0 then ⟨p, s.drop n, none⟩ else ⟨{ p with state := .complete }, s.drop n, none⟩

/-- `parse_chunk_body`: the octets of the chunk that are there are handed over. Reference:
`basic_parser::parse_chunk_body` (`basic_parser.ipp:812`). -/
def parseChunkBody (p : Parser) (s : Str) : ParseStep :=
  let n := min p.len s.length
  let p : Parser := { p.onBody (s.take n) with len := p.len - n }
  ⟨if p.len = 0 then { p with state := .chunkHeader } else p, s.drop n, none⟩

/-- The end of `parse_chunk_header`, for the last chunk: `q` is behind its size and `eol` behind its
line. -/
def parseLastChunk (fuel : Nat) (p : Parser) (s q eol : Str) : Option ParseStep :=
  match findEom (s.drop p.skip) with
  | none => some ⟨{ p with skip := s.length - 3 }, s, some .needMore⟩
  | some eom =>
    match parseChunkExtensions q with
    | .error e => some ⟨p, s, some e⟩
    | .ok q =>
      if q.length ≠ eol.length + 2 then some ⟨p, s, some .badChunkExtension⟩
      else (parseFields fuel p (eol.take (eol.length - eom.length))).map fun step =>
        match step.ec with
        | some e => ⟨step.parser, s, some e⟩
        | none => ⟨{ step.parser with state := .complete }, eom, none⟩

/-- `parse_chunk_header`. The line of the last chunk is looked at again when the trailer behind it
was not complete; it has been checked by then, so the errors of that case do not occur. Reference:
`basic_parser::parse_chunk_header` (`basic_parser.ipp:674`). -/
def parseChunkHeader (fuel : Nat) (p : Parser) (s : Str) : Option ParseStep :=
  let line := if p.expectCRLF then parseCrlf s else some s
  if !p.finalChunk then
    if s.length < p.skip + 2 then some ⟨p, s, some .needMore⟩
    else match line with
      | none => some ⟨p, s, some .badChunk⟩
      | some q =>
        match findEol (s.drop p.skip) with
        | .error e => some ⟨p, s, some e⟩
        | .ok none => some ⟨{ p with skip := s.length - 1 }, s, some .needMore⟩
        | .ok (some eol) =>
          let p := { p with skip := s.length - eol.length - 2 }
          match parseHex q with
          | none => some ⟨p, s, some .badChunk⟩
          | some (size, q) =>
            if size = 0 then parseLastChunk fuel { p with finalChunk := true } s q eol
            else if size > p.bodyLimit then some ⟨p, s, some .bodyLimit⟩
            else
              let p := { p with bodyLimit := p.bodyLimit - size }
              match parseChunkExtensions q with
              | .error e => some ⟨p, s, some e⟩
              | .ok q =>
                if q.length ≠ eol.length + 2 then some ⟨p, s, some .badChunkExtension⟩
                else
                  some ⟨{ p with len := size, skip := 2, expectCRLF := true, state := .chunkBody },
                    eol, none⟩
  else match line.bind parseHex with
    | none => some ⟨p, s, some .badChunk⟩
    | some (_, q) =>
      match findEol q with
      | .ok (some eol) => parseLastChunk fuel p s q eol
      | _ => some ⟨p, s, some .badChunk⟩

/-- One pass of the loop of `put`, by the state that the parser is in. -/
def pass (fuel : Nat) (p : Parser) (s : Str) : Option ParseStep :=
  match p.state with
  | .nothingYet =>
    if s = [] then some ⟨p, s, some .needMore⟩
    else putStartLine fuel { p with state := .startLine } s
  | .startLine => p.putStartLine fuel s
  | .fields => p.putFields fuel s
  | .body0 => some (parseBody { p with state := .body } s)
  | .body => some (p.parseBody s)
  | .chunkHeader0 => parseChunkHeader fuel { p with state := .chunkHeader } s
  | .chunkHeader => p.parseChunkHeader fuel s
  | .chunkBody => some (p.parseChunkBody s)
  | .complete => some ⟨p, s, none⟩

/-- `put`, of a parser that is `eager`: its passes are made until an error, the end of the text or
that of the message. Reference: `basic_parser::put` (`basic_parser.ipp:146`). -/
def put : Nat → Parser → Str → Option ParseStep
  | 0, _, _ => none
  | fuel + 1, p, s =>
    match p.pass fuel s with
    | none => none
    | some step =>
      if step.ec = none && step.rest ≠ [] && !step.parser.isDone then
        put fuel step.parser step.rest
      else some step

/-- `put_eof`: the end of the stream completes a message whose body ends with it, and is an error in
every other one. Reference: `basic_parser::put_eof` (`basic_parser.ipp:290`). -/
def putEof (p : Parser) : Except ParseError Parser :=
  if p.state = .startLine || p.state = .fields then .error .partialMessage
  else if p.contentLength || p.chunked then
    if p.state ≠ .complete then .error .partialMessage else .ok p
  else .ok { p with state := .complete }

/-- Fields that fit a 16-bit offset are inserted as `on_field_impl` does. -/
theorem insert_onField {p : Parser} {name value : Str} (hname : name.length ≤ 65533)
    (hvalue : value.length ≤ 65533) :
    p.message.fields.insert name value = .ok (p.onField name value).message.fields := by
  unfold Fields.insert newElement
  rw [if_neg (by omega), if_neg (by omega)]
  rfl

/-! ## Progress -/

/-- The parser has got something, and it does not wait for a body of no length. -/
structure Started (p : Parser) : Prop where
  state_ne : p.state ≠ .nothingYet
  len_pos : p.state = .body0 ∨ p.state = .body ∨ p.state = .chunkBody → 0 < p.len

/-- A parser in a state without a body has started. -/
theorem started_of_header {p : Parser} {st : ParserState} (h : p.state = st)
    (hst : st = .startLine ∨ st = .fields ∨ st = .chunkHeader ∨ st = .complete) : p.Started := by
  refine ⟨fun hn => ?_, fun hb => ?_⟩
  · rw [h] at hn
    subst hn
    simp at hst
  · rw [h] at hb
    rcases hst with rfl | rfl | rfl | rfl <;> simp at hb

/-- A pass over a text leaves a parser that has started; if it has no error and the message is not
complete, it has used some of the text; and it throws only if the text is longer than the buffer for
obs-fold. -/
structure Advances (s : Str) (step : ParseStep) : Prop where
  started : step.parser.Started
  shorter : step.ec = none → step.parser.isDone = false → step.rest.length < s.length
  throws : step.ec = some .lengthError → maxObsFold < s.length

/-- A step with an error advances if its parser has started and the error is no exception, or the
text is long. -/
theorem Advances.of_error {s rest : Str} {p : Parser} {e : ParseError} (h : p.Started)
    (he : e = .lengthError → maxObsFold < s.length) : Advances s ⟨p, rest, some e⟩ :=
  ⟨h, nofun, fun hec => he (Option.some.inj hec)⟩

section
variable {p q : Parser} {s : Str} {fuel : Nat} {step : ParseStep}

/-- `do_field` keeps the state and the message: it only looks at what the body will be. -/
theorem doField_keeps {name value : Str} (h : p.doField name value = .ok q) :
    q.state = p.state ∧ q.message = p.message := by
  unfold doField at h
  split_ifs at h
  · cases h
    exact ⟨rfl, rfl⟩
  · split at h
    · cases h
    · cases h
      exact ⟨rfl, rfl⟩
  · split at h
    · cases h
      exact ⟨rfl, rfl⟩
    · cases h
      exact ⟨rfl, rfl⟩
  · cases h
    exact ⟨rfl, rfl⟩

/-- `do_field` does not throw, as it reads the value and keeps no copy of it. -/
theorem doField_ne_lengthError (p : Parser) (name value : Str) :
    p.doField name value ≠ .error .lengthError := by
  intro h
  unfold doField at h
  split_ifs at h
  · cases h
  · cases h
  · split at h <;> cases h
  · cases h
  · split at h <;> cases h

/-- `parse_fields` keeps the state; without an error it has used some of the text, and it throws
only if the text is longer than the buffer for obs-fold. -/
theorem parseFields_spec (h : parseFields fuel p s = some step) :
    step.parser.state = p.state ∧ (step.ec = none → step.rest.length < s.length) ∧
      (step.ec = some .lengthError → maxObsFold < s.length) := by
  induction fuel generalizing p s with
  | zero => cases h
  | succ fuel ih =>
    unfold parseFields at h
    split at h
    · next c d rest =>
      split at h
      · cases h
        refine ⟨rfl, fun _ => ?_, fun hec => ?_⟩
        · simp only [List.length_cons]
          omega
        · simp only at hec
          split at hec <;> cases hec
      · split at h
        · next e hfield =>
          cases h
          refine ⟨rfl, nofun, fun hec => parseField_throws ?_⟩
          rw [hfield, Option.some.inj hec]
        · next name value rest hfield =>
          split at h
          · next e he =>
            cases h
            exact ⟨rfl, nofun, fun hec => absurd (Option.some.inj hec ▸ he)
              (doField_ne_lengthError p name value)⟩
          · next q hq =>
            obtain ⟨hstate, hrest, hthrows⟩ := ih h
            have hq' := (doField_keeps hq).1
            have hlen := parseField_length hfield
            refine ⟨hstate.trans hq', fun hec => ?_, fun hec => ?_⟩
            · have := hrest hec
              omega
            · have := hthrows hec
              omega
    · cases h
      exact ⟨rfl, nofun, nofun⟩

/-- What each field that is read and taken keeps of the parser, `parse_fields` keeps. -/
theorem parseFields_invariant {motive : Parser → Prop}
    (field : ∀ {p q s name value rest}, motive p → parseField s = .ok (name, value, rest) →
      p.doField name value = .ok q → motive (q.onField name value))
    (hp : motive p) (h : parseFields fuel p s = some step) : motive step.parser := by
  induction fuel generalizing p s with
  | zero => cases h
  | succ fuel ih =>
    unfold parseFields at h
    split at h
    · split at h
      · cases h
        exact hp
      · split at h
        · cases h
          exact hp
        · next hfield =>
          split at h
          · cases h
            exact hp
          · next hdo => exact ih (field hp hfield hdo) h
    · cases h
      exact hp

/-- `parse_fields` needs no more fuel than the text has octets. -/
theorem parseFields_isSome (h : s.length < fuel) : (parseFields fuel p s).isSome := by
  induction fuel generalizing p s with
  | zero => cases h
  | succ fuel ih =>
    unfold parseFields
    split
    · split
      · rfl
      · split
        · rfl
        · next name value rest hfield =>
          split
          · rfl
          · have := parseField_length hfield
            exact ih (by omega)
    · rfl

/-- `maybe_need_more` keeps the state and the message; it can only change where the parser goes
on. -/
theorem maybeNeedMore_keeps {e : Option ParseError} (h : p.maybeNeedMore s = (q, e)) :
    q.state = p.state ∧ q.message = p.message := by
  unfold maybeNeedMore at h
  simp only at h
  split_ifs at h <;> cases h <;> exact ⟨rfl, rfl⟩

/-- `maybe_need_more` does not throw: its errors are the wait for more and the limit of the
header. -/
theorem maybeNeedMore_ne_lengthError {e : ParseError} (h : p.maybeNeedMore s = (q, some e)) :
    e ≠ .lengthError := by
  unfold maybeNeedMore at h
  simp only at h
  split_ifs at h <;> cases h <;> nofun

/-- A header that is not complete leaves the parser in its state. -/
theorem needMoreHeader_advances {n : Nat} {rest : Str} {st : ParserState} (hp : p.state = st)
    (hst : st = .startLine ∨ st = .fields ∨ st = .chunkHeader ∨ st = .complete) :
    Advances s (p.needMoreHeader n rest) := by
  unfold needMoreHeader
  split
  · exact .of_error (started_of_header hp hst) nofun
  · split
    · exact .of_error (started_of_header hp hst) nofun
    · exact .of_error (started_of_header hp hst) nofun

/-- `finish_header` waits for a body only if it has a length. -/
theorem finishHeader_started (hp : p.state = .fields) : p.finishHeader.1.Started := by
  unfold finishHeader
  split
  · split
    · exact started_of_header hp (by simp)
    · refine ⟨?_, ?_⟩
      · show (if p.len > 0 then ParserState.body0 else .complete) ≠ .nothingYet
        split <;> simp
      · show (if p.len > 0 then ParserState.body0 else .complete) = _ ∨ _ ∨ _ → 0 < p.len
        split <;> simp_all
  · split
    · exact ⟨by simp, by simp⟩
    · exact started_of_header rfl (by simp)

/-- `finish_header` does not throw: its only error is the limit of the body. -/
theorem finishHeader_ne_lengthError (p : Parser) : p.finishHeader.2 ≠ some .lengthError := by
  unfold finishHeader
  split_ifs <;> nofun

/-- What is behind the pointer is shorter if some of the text was parsed. -/
theorem behindLimit_length {rest : Str} (h : rest.length < (s.take headerLimit).length) :
    (behindLimit s rest).length < s.length := by
  simp only [behindLimit, List.length_drop, List.length_take] at h ⊢
  omega

/-- The case `fields` advances: without an error the fields have ended, and the parser is behind the
header. -/
theorem putFields_advances (hp : p.state = .fields) (h : p.putFields fuel s = some step) :
    Advances s step := by
  unfold putFields at h
  split at h
  · next q e hq =>
    cases h
    have hstate := (maybeNeedMore_keeps hq).1.trans hp
    exact .of_error (started_of_header hstate (by simp)) fun he =>
      absurd he (maybeNeedMore_ne_lengthError hq)
  · next q hq =>
    have hstate := (maybeNeedMore_keeps hq).1.trans hp
    obtain ⟨fields, hfields, rfl⟩ := Option.map_eq_some_iff.1 h
    obtain ⟨hkeep, hshort, hthrows⟩ := parseFields_spec hfields
    have hf : fields.parser.state = .fields := hkeep.trans hstate
    have hlimit : (s.take headerLimit).length ≤ s.length := by
      rw [List.length_take]
      omega
    simp only
    split
    · exact needMoreHeader_advances hf (by simp)
    · next hec =>
      refine .of_error (started_of_header hf (by simp)) fun he => ?_
      exact Nat.lt_of_lt_of_le (hthrows (hec.trans (congrArg some he))) hlimit
    · next hec =>
      exact ⟨finishHeader_started hf, fun _ _ => behindLimit_length (hshort hec),
        fun he => absurd he (finishHeader_ne_lengthError _)⟩

/-- `parse_start_line` goes on to the fields, with less of the text. -/
theorem parseStartLine_spec {rest : Str} (h : p.parseStartLine s = .ok (q, rest)) :
    q.state = .fields ∧ rest.length < s.length := by
  unfold parseStartLine at h
  obtain ⟨⟨method, s₁⟩, hmethod, h⟩ := Except.bind_eq_ok_iff.1 h
  obtain ⟨⟨target, s₂⟩, htarget, h⟩ := Except.bind_eq_ok_iff.1 h
  obtain ⟨⟨version, s₃⟩, hversion, h⟩ := Except.bind_eq_ok_iff.1 h
  have h₁ := parseWord_length hmethod
  have h₂ := parseWord_length htarget
  have h₃ := parseVersion_length hversion
  simp only at h
  split_ifs at h
  split at h
  · cases h
  · next s₄ hcrlf =>
    cases h
    have h₄ := parseCrlf_length hcrlf
    exact ⟨rfl, by omega⟩

/-- `parse_start_line` does not throw, none of its scanners having a buffer. -/
theorem parseStartLine_ne_lengthError (p : Parser) (s : Str) :
    p.parseStartLine s ≠ .error .lengthError := by
  intro h
  unfold parseStartLine at h
  rcases Except.bind_eq_error_iff.1 h with h | ⟨⟨method, s₁⟩, -, h⟩
  · exact parseWord_ne_lengthError (show ParseError.badMethod ≠ .lengthError from nofun) s h
  rcases Except.bind_eq_error_iff.1 h with h | ⟨⟨target, s₂⟩, -, h⟩
  · exact parseWord_ne_lengthError (show ParseError.badTarget ≠ .lengthError from nofun) s₁ h
  rcases Except.bind_eq_error_iff.1 h with h | ⟨⟨version, s₃⟩, -, h⟩
  · exact parseVersion_ne_lengthError s₂ h
  simp only at h
  split_ifs at h
  · cases h
  · cases h
  · split at h <;> cases h

/-- The case `start_line` advances: without an error it has read the request line and the fields. -/
theorem putStartLine_advances (hp : p.state = .startLine) (h : p.putStartLine fuel s = some step) :
    Advances s step := by
  unfold putStartLine at h
  split at h
  · next q e hq =>
    cases h
    have hstate := (maybeNeedMore_keeps hq).1.trans hp
    exact .of_error (started_of_header hstate (by simp)) fun he =>
      absurd he (maybeNeedMore_ne_lengthError hq)
  · next q hq =>
    have hstate := (maybeNeedMore_keeps hq).1.trans hp
    split at h
    · cases h
      exact needMoreHeader_advances hstate (by simp)
    · next hline =>
      cases h
      exact .of_error (started_of_header hstate (by simp)) fun he =>
        absurd (he ▸ hline) (parseStartLine_ne_lengthError _ _)
    · next r rest hline =>
      obtain ⟨hr, hrest⟩ := parseStartLine_spec hline
      have hlen := behindLimit_length hrest
      simp only at h
      split at h
      · cases h
        exact .of_error (started_of_header hr (by simp)) nofun
      · obtain ⟨hstarted, hshort, hthrows⟩ := putFields_advances hr h
        exact ⟨hstarted, fun hec hdone => Nat.lt_trans (hshort hec hdone) hlen,
          fun hec => Nat.lt_trans (hthrows hec) hlen⟩

/-- A body that has a length takes at least one of the octets. -/
theorem parseBody_advances (hp : p.state = .body) (hlen : 0 < p.len) (hs : s ≠ []) :
    Advances s (p.parseBody s) := by
  have hpos := List.length_pos_iff.2 hs
  have hshort : (s.drop (min p.len s.length)).length < s.length := by
    rw [List.length_drop]
    omega
  unfold parseBody
  simp only
  split
  · next hn => exact ⟨⟨by simp [onBody, hp], fun _ => hn⟩, fun _ _ => hshort, nofun⟩
  · exact ⟨⟨by simp, by simp⟩, fun _ _ => hshort, nofun⟩

/-- A chunk that has a length takes at least one of the octets. -/
theorem parseChunkBody_advances (hp : p.state = .chunkBody) (hlen : 0 < p.len) (hs : s ≠ []) :
    Advances s (p.parseChunkBody s) := by
  have hpos := List.length_pos_iff.2 hs
  have hshort : (s.drop (min p.len s.length)).length < s.length := by
    rw [List.length_drop]
    omega
  unfold parseChunkBody
  simp only
  refine ⟨?_, fun _ _ => hshort, nofun⟩
  split
  · exact ⟨by simp, by simp⟩
  · next hn => exact ⟨by simp [onBody, hp], fun _ => Nat.pos_of_ne_zero hn⟩

/-- The last chunk advances: without an error its trailer was read, and the message is complete. -/
theorem parseLastChunk_advances {t r eol : Str} (hp : p.state = .chunkHeader)
    (heol : eol.length ≤ s.length) (h : p.parseLastChunk fuel t r eol = some step) :
    Advances s step := by
  unfold parseLastChunk at h
  split at h
  · cases h
    exact .of_error (started_of_header hp (by simp)) nofun
  · split at h
    · next hext =>
      cases h
      exact .of_error (started_of_header hp (by simp)) fun he =>
        absurd (he ▸ hext) (parseChunkExtensions_ne_lengthError r)
    · split at h
      · cases h
        exact .of_error (started_of_header hp (by simp)) nofun
      · obtain ⟨fields, hfields, rfl⟩ := Option.map_eq_some_iff.1 h
        obtain ⟨hkeep, -, hthrows⟩ := parseFields_spec hfields
        have hf := hkeep.trans hp
        split
        · next hec =>
          refine .of_error (started_of_header hf (by simp)) fun he => ?_
          have := hthrows (hec.trans (congrArg some he))
          rw [List.length_take] at this
          omega
        · exact ⟨started_of_header rfl (by simp), fun _ hdone => by simp [isDone] at hdone, nofun⟩

/-- The line of the last chunk is behind its size. -/
theorem line_length_le {expect : Bool} {line : Str}
    (h : (if expect then parseCrlf s else some s) = some line) : line.length ≤ s.length := by
  split at h
  · exact parseCrlf_length h
  · cases h
    exact Nat.le_refl _

/-- A chunk header advances, to a chunk that has a length or to the end. -/
theorem parseChunkHeader_advances (hp : p.state = .chunkHeader)
    (h : p.parseChunkHeader fuel s = some step) : Advances s step := by
  have herror : ∀ {q : Parser} {rest : Str} {e : ParseError}, q.state = .chunkHeader →
      e ≠ .lengthError → Advances s ⟨q, rest, some e⟩ := fun hq hne =>
    .of_error (started_of_header hq (by simp)) fun he => absurd he hne
  unfold parseChunkHeader at h
  simp only at h
  split at h
  · split at h
    · cases h
      exact herror hp nofun
    · split at h
      · cases h
        exact herror hp nofun
      · split at h
        · next heol =>
          cases h
          exact herror hp fun he => findEol_ne_lengthError _ (he ▸ heol)
        · cases h
          exact herror hp nofun
        · next eol heol =>
          have hlen := findEol_length heol
          rw [List.length_drop] at hlen
          split at h
          · cases h
            exact herror hp nofun
          · next size q hhex =>
            split_ifs at h with hsize hlimit
            · exact parseLastChunk_advances (p := { p with finalChunk := true, skip := _ }) hp
                (by omega) h
            · cases h
              exact herror hp nofun
            · split at h
              · next hext =>
                cases h
                exact herror hp fun he => parseChunkExtensions_ne_lengthError q (he ▸ hext)
              · split_ifs at h
                · cases h
                  exact herror hp nofun
                · cases h
                  refine ⟨⟨by simp, fun _ => Nat.pos_of_ne_zero hsize⟩, fun _ _ => ?_, nofun⟩
                  show eol.length < s.length
                  omega
  · split at h
    · cases h
      exact herror hp nofun
    · next size q hhex =>
      split at h
      · next eol heol =>
        obtain ⟨line, hline, hq⟩ := Option.bind_eq_some_iff.1 hhex
        have hlen := findEol_length heol
        have hlen' := parseHex_length hq
        have hlen'' := line_length_le hline
        exact parseLastChunk_advances hp (by omega) h
      · cases h
        exact herror hp nofun

/-- **Every pass advances**: the loop of `put` uses up its text. -/
theorem pass_advances (hp : p.state ≠ .nothingYet → p.Started) (hs : s ≠ [])
    (h : p.pass fuel s = some step) : Advances s step := by
  unfold pass at h
  split at h
  · rw [if_neg hs] at h
    exact putStartLine_advances rfl h
  · next hst => exact putStartLine_advances hst h
  · next hst => exact putFields_advances hst h
  · next hst =>
    cases h
    exact parseBody_advances rfl ((hp (by simp [hst])).len_pos (by simp [hst])) hs
  · next hst =>
    cases h
    exact parseBody_advances hst ((hp (by simp [hst])).len_pos (by simp [hst])) hs
  · exact parseChunkHeader_advances rfl h
  · next hst => exact parseChunkHeader_advances hst h
  · next hst =>
    cases h
    exact parseChunkBody_advances hst ((hp (by simp [hst])).len_pos (by simp [hst])) hs
  · next hst =>
    cases h
    exact ⟨hp (by simp [hst]), fun _ hdone => by simp [isDone, hst] at hdone, nofun⟩

/-! ## Fuel -/

/-- The case `fields` needs no more fuel than the text has octets. -/
theorem putFields_isSome (h : s.length < fuel) : (p.putFields fuel s).isSome := by
  unfold putFields
  split
  · rfl
  · rw [Option.isSome_map]
    refine parseFields_isSome ?_
    rw [List.length_take]
    omega

/-- The case `start_line` needs no more fuel than the text has octets. -/
theorem putStartLine_isSome (h : s.length < fuel) : (p.putStartLine fuel s).isSome := by
  unfold putStartLine
  split
  · rfl
  · split
    · rfl
    · rfl
    · simp only
      split
      · rfl
      · refine putFields_isSome ?_
        rw [behindLimit, List.length_drop]
        omega

/-- The last chunk needs no more fuel than the trailer has octets. -/
theorem parseLastChunk_isSome {t r eol : Str} (h : eol.length < fuel) :
    (p.parseLastChunk fuel t r eol).isSome := by
  unfold parseLastChunk
  split
  · rfl
  · split
    · rfl
    · split
      · rfl
      · rw [Option.isSome_map]
        refine parseFields_isSome ?_
        rw [List.length_take]
        omega

/-- A chunk header needs no more fuel than the text has octets. -/
theorem parseChunkHeader_isSome (h : s.length < fuel) : (p.parseChunkHeader fuel s).isSome := by
  unfold parseChunkHeader
  simp only
  split
  · split
    · rfl
    · split
      · rfl
      · split
        · rfl
        · rfl
        · next eol heol =>
          have hlen := findEol_length heol
          rw [List.length_drop] at hlen
          split
          · rfl
          · split_ifs
            · exact parseLastChunk_isSome (by omega)
            · rfl
            · split
              · rfl
              · split_ifs <;> rfl
  · split
    · rfl
    · next size q hhex =>
      split
      · next eol heol =>
        obtain ⟨line, hline, hq⟩ := Option.bind_eq_some_iff.1 hhex
        have hlen := findEol_length heol
        have hlen' := parseHex_length hq
        have hlen'' := line_length_le hline
        exact parseLastChunk_isSome (by omega)
      · rfl

/-- A pass needs no more fuel than the text has octets. -/
theorem pass_isSome (h : s.length < fuel) : (p.pass fuel s).isSome := by
  unfold pass
  split
  · split
    · rfl
    · exact putStartLine_isSome h
  · exact putStartLine_isSome h
  · exact putFields_isSome h
  · rfl
  · rfl
  · exact parseChunkHeader_isSome h
  · exact parseChunkHeader_isSome h
  · rfl
  · rfl

/-- **`put` returns**: its loop has no more passes than the text has octets. -/
theorem put_isSome (hp : p.state ≠ .nothingYet → p.Started) (hs : s ≠ [])
    (h : s.length + 1 < fuel) : (p.put fuel s).isSome := by
  induction fuel generalizing p s with
  | zero => cases h
  | succ fuel ih =>
    unfold put
    have hpass : (p.pass fuel s).isSome := pass_isSome (by omega)
    obtain ⟨step, hstep⟩ := Option.isSome_iff_exists.1 hpass
    rw [hstep]
    simp only
    split
    · next hloop =>
      simp only [Bool.and_eq_true, decide_eq_true_eq, Bool.not_eq_true'] at hloop
      obtain ⟨hstarted, hshort, -⟩ := pass_advances hp hs hstep
      have := hshort hloop.1.1 hloop.2
      exact ih (fun _ => hstarted) hloop.1.2 (by omega)
    · rfl

/-- What `put` leaves: a parser that has started, and octets only if there is an error or the
message is complete. It throws only if the text is longer than the buffer for obs-fold. -/
theorem put_spec (hp : p.state ≠ .nothingYet → p.Started) (hs : s ≠ [])
    (h : p.put fuel s = some step) :
    step.parser.Started ∧ (step.ec = none → step.parser.isDone = false → step.rest = []) ∧
      (step.ec = some .lengthError → maxObsFold < s.length) := by
  induction fuel generalizing p s with
  | zero => cases h
  | succ fuel ih =>
    unfold put at h
    split at h
    · cases h
    · next step' hstep =>
      obtain ⟨hstarted, hshort, hthrows⟩ := pass_advances hp hs hstep
      split at h
      · next hloop =>
        simp only [Bool.and_eq_true, decide_eq_true_eq, Bool.not_eq_true'] at hloop
        obtain ⟨hstarted', hrest, hthrows'⟩ := ih (fun _ => hstarted) hloop.1.2 h
        exact ⟨hstarted', hrest, fun hec =>
          Nat.lt_trans (hthrows' hec) (hshort hloop.1.1 hloop.2)⟩
      · next hloop =>
        cases h
        refine ⟨hstarted, fun hec hdone => ?_, hthrows⟩
        by_contra hrest
        exact hloop (by simp [hec, hdone, hrest])

end

end Parser

end Gomibako.Beast
