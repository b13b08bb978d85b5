import Gomibako.Beast.Error
import Gomibako.Beast.Parser

/-!
# Reading a message

`async_read` of a request: a new parser is given what the buffer holds, and what the stream delivers
then, until it is done or there is an error. What is not used stays in the buffer.

`flat_static_buffer` is modelled by the bytes of its input sequence. Where they lie in the storage
is left out here: `prepare` moves them to the front when the space behind them is too small, and
nothing in a read depends on it.
-/

namespace Gomibako.Beast

/-! ## The read buffer -/

/-- `flat_static_buffer<N>` by what is to be read from it, which is at most `N` octets; its storage
is `FlatStorage`. -/
@[ext]
structure FlatStaticBuffer (N : Nat) where
  data : Str := []
  size_le : data.length ≤ N := by exact Nat.zero_le _
deriving DecidableEq

namespace FlatStaticBuffer

variable {N : Nat}

/-- `size`: how many octets are to be read. -/
def size (b : FlatStaticBuffer N) : Nat := b.data.length

/-- `read_size`: how much to ask the stream for, at most `maxSize`. Reference: `read_size`
(`read_size.ipp:30`). -/
def readSize (b : FlatStaticBuffer N) (maxSize : Nat) : Nat :=
  min (max 512 (N - b.size)) (min maxSize (N - b.size))

/-- `consume`: octets that were read are taken from the front. -/
def consume (b : FlatStaticBuffer N) (n : Nat) : FlatStaticBuffer N where
  data := b.data.drop n
  size_le := by simpa using Nat.le_trans (Nat.sub_le _ n) b.size_le

/-- `commit` of the octets that were read into the space that `prepare` has made. -/
def commit (b : FlatStaticBuffer N) (octets : Str) : FlatStaticBuffer N where
  data := b.data ++ octets.take (N - b.size)
  size_le := by
    have := b.size_le
    simp only [List.length_append, List.length_take, size]
    omega

end FlatStaticBuffer

/-! ## Errors and streams -/

/-- The error code that reports an error of the parser. An exception is not reported; where the
parser catches it, `header_limit` is reported for it. -/
def ParseError.toErrorCode : ParseError → ErrorCode
  | .needMore => HttpError.needMore.toErrorCode
  | .partialMessage => HttpError.partialMessage.toErrorCode
  | .headerLimit => HttpError.headerLimit.toErrorCode
  | .bodyLimit => HttpError.bodyLimit.toErrorCode
  | .badLineEnding => HttpError.badLineEnding.toErrorCode
  | .badMethod => HttpError.badMethod.toErrorCode
  | .badTarget => HttpError.badTarget.toErrorCode
  | .badVersion => HttpError.badVersion.toErrorCode
  | .badField => HttpError.badField.toErrorCode
  | .badValue => HttpError.badValue.toErrorCode
  | .badContentLength => HttpError.badContentLength.toErrorCode
  | .badTransferEncoding => HttpError.badTransferEncoding.toErrorCode
  | .badChunk => HttpError.badChunk.toErrorCode
  | .badChunkExtension => HttpError.badChunkExtension.toErrorCode
  | .lengthError => HttpError.headerLimit.toErrorCode

/-- The exception that leaves the parser instead of an error. -/
def ParseError.exception : ParseError → Option StdException
  | .lengthError => some .lengthError
  | _ => none

/-- `end_of_stream`, which a read reports if the peer closes the connection before it has sent an
octet of the message. -/
def endOfStream : ErrorCode := HttpError.endOfStream.toErrorCode

/-- Neither success nor the other errors of a read are `end_of_stream`. -/
theorem ne_endOfStream : ({} : ErrorCode) ≠ endOfStream ∧
    HttpError.bufferOverflow.toErrorCode ≠ endOfStream ∧ ErrorCode.eof ≠ endOfStream := by
  decide

/-- The parser does not report `end_of_stream`, which only the reading does. -/
theorem ParseError.toErrorCode_ne (e : ParseError) : e.toErrorCode ≠ endOfStream := by
  intro h
  have hvalue := congrArg ErrorCode.value h
  cases e <;> exact absurd hvalue (by decide)

/-- The only error of the parser that stands for an exception is that of a text too long for its
buffer. -/
theorem ParseError.eq_of_exception {e : ParseError} (h : e.exception ≠ none) :
    e = .lengthError := by
  cases e <;> first | rfl | exact absurd rfl h

/-- What a peer sends: chunks of octets, and the error that the read after the last of them ends
with, which is `eof` if the peer closes the connection. -/
structure Stream where
  chunks : List Str
  final : ErrorCode
  nonempty : [] ∉ chunks
  failed : final.failed = true

namespace Stream

/-- `async_read_some` into a buffer of size `n`: the octets read, and what is sent behind them. -/
def readSome (s : Stream) (n : Nat) : Option (Str × Stream) :=
  match s with
  | ⟨[], _, _, _⟩ => none
  | ⟨c :: cs, final, hne, hf⟩ =>
    if h : c.length ≤ n then some (c, ⟨cs, final, fun hc => hne (.tail _ hc), hf⟩)
    else some (c.take n, ⟨c.drop n :: cs, final, fun hc => by
      rcases List.mem_cons.1 hc with hc | hc
      · exact h (List.drop_eq_nil_iff.1 hc.symm)
      · exact hne (.tail _ hc), hf⟩)

/-- How many octets a peer sends, in all pieces together. -/
def length (s : Stream) : Nat := s.chunks.flatten.length

end Stream

/-- How `async_read` ends: it completes with its error and the message, and leaves the buffer and
what the stream has not delivered; or an exception leaves it, and then it does not complete, and the
other members mean nothing. -/
structure ReadResult (N : Nat) where
  error : ErrorCode := {}
  request : Request := {}
  buffer : FlatStaticBuffer N
  stream : Stream
  thrown : Option StdException := none

/-- The part of `read_some_op` that parses what the buffer holds, and the part that reads more. -/
inductive ReadPos where
  | parse
  | read
deriving DecidableEq, Repr

/-- What a step of the reading comes to: it goes on at a label of the operation, or it is done. -/
inductive ReadStep (N : Nat) where
  | next (pos : ReadPos) (parser : Parser) (buffer : FlatStaticBuffer N) (stream : Stream)
  | done (result : ReadResult N)

variable {N : Nat}

/-- Where `read_some_op` starts: it parses if there is something in the buffer, and reads first if
there is not. Reference: `read_some_op::operator()` (`read.ipp:111`). -/
def readStart (b : FlatStaticBuffer N) : ReadPos := if b.size = 0 then .read else .parse

/-- The label `do_parse` of `read_some_op`, and what `read_msg_op` does when it is done: a message
that is complete is released, and else the next `read_some_op` is started. Reference:
`read_some_op::operator()` (`read.ipp:146`). -/
def readParse (fuel : Nat) (p : Parser) (b : FlatStaticBuffer N) (stream : Stream) :
    Option (ReadStep N) :=
  (p.put fuel b.data).map fun step =>
    let b := b.consume (b.size - step.rest.length)
    match step.ec with
    | some .needMore => .next .read step.parser b stream
    | some e => .done { error := e.toErrorCode, buffer := b, stream, thrown := e.exception }
    | none =>
      if step.parser.isDone then .done { request := step.parser.message, buffer := b, stream }
      else .next (readStart b) step.parser b stream

/-- The label `do_read` of `read_some_op`, and what it does with the octets or the error. The buffer
throws where it has no space left. Reference: `read_some_op::operator()` (`read.ipp:156`). -/
def readMore (p : Parser) (b : FlatStaticBuffer N) (stream : Stream) : ReadStep N :=
  if b.readSize 65536 = 0 then
    .done { error := HttpError.bufferOverflow.toErrorCode, buffer := b, stream }
  else
    match stream.readSome (b.readSize 65536) with
    | some (octets, stream) => .next .parse p (b.commit octets) stream
    | none =>
      if stream.final = .eof then
        if p.gotSome then
          match p.putEof with
          | .error e => .done { error := e.toErrorCode, buffer := b, stream }
          | .ok p => .done { request := p.message, buffer := b, stream }
        else .done { error := endOfStream, buffer := b, stream }
      else .done { error := stream.final, buffer := b, stream }

/-- A step of the reading, at the label that it is at. -/
def readStep (fuel : Nat) (pos : ReadPos) (p : Parser) (b : FlatStaticBuffer N) (stream : Stream) :
    Option (ReadStep N) :=
  match pos with
  | .parse => readParse fuel p b stream
  | .read => some (readMore p b stream)

/-- The reading from a position on, step after step, until it is done. Reference:
`read_msg_op::operator()` (`read.ipp:412`). -/
def readFrom : Nat → ReadPos → Parser → FlatStaticBuffer N → Stream → Option (ReadResult N)
  | 0, _, _, _, _ => none
  | fuel + 1, pos, p, b, stream =>
    match readStep fuel pos p b stream with
    | none => none
    | some (.done result) => some result
    | some (.next pos p b stream) => readFrom fuel pos p b stream

/-! ## The reading ends -/

/-- The parser is new or has started, and there are octets to be parsed. -/
structure ReadOk (pos : ReadPos) (p : Parser) (b : FlatStaticBuffer N) : Prop where
  started : p.state ≠ .nothingYet → p.Started
  octets : pos = .parse → b.data ≠ []

section
variable {p : Parser} {b : FlatStaticBuffer N} {stream : Stream} {fuel : Nat}

/-- Octets that are read are sent no more: there are some of them, within the size that was asked
for, and the stream is shorter then. -/
theorem Stream.readSome_length {octets : Str} {n : Nat} {rest : Stream} (hn : 0 < n)
    (h : stream.readSome n = some (octets, rest)) :
    octets ≠ [] ∧ octets.length ≤ n ∧ rest.length < stream.length ∧ rest.final = stream.final := by
  obtain ⟨chunks, final, hne, hf⟩ := stream
  cases chunks with
  | nil => cases h
  | cons c cs =>
    have hc : c ≠ [] := fun h => hne (h ▸ List.mem_cons_self)
    have hpos := List.length_pos_iff.2 hc
    unfold readSome at h
    simp only at h
    split at h
    · next hle =>
      cases h
      refine ⟨hc, hle, ?_, rfl⟩
      simp only [Stream.length, List.flatten_cons, List.length_append]
      omega
    · cases h
      refine ⟨?_, by rw [List.length_take]; omega, ?_, rfl⟩
      · intro htake
        have := congrArg List.length htake
        simp only [List.length_take, List.length_nil] at this
        omega
      · simp only [Stream.length, List.flatten_cons, List.length_append, List.length_drop]
        omega

/-- After the buffer was parsed, the reading is done, or the parser has started and more is read.
An exception is thrown only if the buffer is larger than that for obs-fold. -/
theorem readParse_spec (hok : ReadOk .parse p b) {step : ReadStep N}
    (h : readParse fuel p b stream = some step) :
    (∃ result, step = .done result ∧ result.error ≠ endOfStream ∧
      (result.thrown ≠ none → maxObsFold < N)) ∨
      ∃ p' b', step = .next .read p' b' stream ∧ ReadOk .read p' b' ∧ p'.state ≠ .nothingYet := by
  obtain ⟨put, hput, rfl⟩ := Option.map_eq_some_iff.1 h
  obtain ⟨hstarted, hrest, hthrows⟩ := Parser.put_spec hok.started (hok.octets rfl) hput
  simp only
  split
  · exact .inr ⟨_, _, rfl, ⟨fun _ => hstarted, nofun⟩, hstarted.state_ne⟩
  · next e _ hec =>
    refine .inl ⟨_, rfl, ParseError.toErrorCode_ne _, fun hthrown => ?_⟩
    have he : e = .lengthError := ParseError.eq_of_exception hthrown
    exact Nat.lt_of_lt_of_le (hthrows (hec.trans (congrArg some he))) b.size_le
  · next hec =>
    split
    · exact .inl ⟨_, rfl, ne_endOfStream.1, fun hthrown => absurd rfl hthrown⟩
    · next hdone =>
      -- the parser has used all octets, so the buffer is empty
      have hall := hrest hec (Bool.eq_false_iff.2 hdone)
      have hpos : readStart (b.consume (b.size - put.rest.length)) = .read := by
        simp [readStart, FlatStaticBuffer.size, FlatStaticBuffer.consume, hall]
      rw [hpos]
      exact .inr ⟨_, _, rfl, ⟨fun _ => hstarted, nofun⟩, hstarted.state_ne⟩

/-- After a read, the reading is done, or what was read is parsed and less is sent. A parser that
has started does not report `end_of_stream`, and nothing is thrown. -/
theorem readMore_spec (hok : ReadOk .read p b) :
    (∃ result, readMore p b stream = .done result ∧ result.thrown = none ∧
      (p.state ≠ .nothingYet → stream.final ≠ endOfStream → result.error ≠ endOfStream)) ∨
      ∃ b' stream', readMore p b stream = .next .parse p b' stream' ∧ ReadOk .parse p b' ∧
        stream'.length < stream.length ∧ stream'.final = stream.final := by
  unfold readMore
  split
  · exact .inl ⟨_, rfl, rfl, fun _ _ => ne_endOfStream.2.1⟩
  · next hsize =>
    split
    · next octets rest hread =>
      obtain ⟨hne, hle, hlen, hfinal⟩ := Stream.readSome_length (Nat.pos_of_ne_zero hsize) hread
      refine .inr ⟨_, _, rfl, ⟨hok.started, fun _ => ?_⟩, hlen, hfinal⟩
      have hspace : 0 < N - b.size := by
        unfold FlatStaticBuffer.readSize at hsize
        omega
      have hpos := List.length_pos_iff.2 hne
      intro hnil
      have := congrArg List.length hnil
      simp only [FlatStaticBuffer.commit, List.length_append, List.length_take,
        List.length_nil] at this
      omega
    · split
      · split
        · split
          · exact .inl ⟨_, rfl, rfl, fun _ _ => ParseError.toErrorCode_ne _⟩
          · exact .inl ⟨_, rfl, rfl, fun _ _ => ne_endOfStream.1⟩
        · next hgot =>
          refine .inl ⟨_, rfl, rfl, fun hne => absurd ?_ hgot⟩
          simpa [Parser.gotSome] using hne
      · exact .inl ⟨_, rfl, rfl, fun _ hfinal => hfinal⟩

/-- Fuel for the reading: two steps for each octet that is sent, and a parse of the buffer. -/
def readCost (N : Nat) (pos : ReadPos) (stream : Stream) : Nat :=
  2 * stream.length + N + if pos = .parse then 4 else 3

/-- **The reading ends**: each octet that is sent is read once, and a parse has no more passes than
the buffer has octets. -/
theorem readFrom_isSome {pos : ReadPos} (hok : ReadOk pos p b) (h : readCost N pos stream ≤ fuel) :
    (readFrom fuel pos p b stream).isSome := by
  induction fuel generalizing pos p b stream with
  | zero =>
    unfold readCost at h
    split at h <;> omega
  | succ fuel ih =>
    cases pos with
    | parse =>
      have hcost : 2 * stream.length + N + 4 ≤ fuel + 1 := h
      have hsize : b.data.length ≤ N := b.size_le
      have hput : (p.put fuel b.data).isSome :=
        Parser.put_isSome hok.started (hok.octets rfl) (by omega)
      have hparse : (readParse fuel p b stream).isSome := by
        rw [readParse, Option.isSome_map]
        exact hput
      obtain ⟨step, hstep⟩ := Option.isSome_iff_exists.1 hparse
      rw [readFrom, readStep, hstep]
      rcases readParse_spec hok hstep with ⟨result, rfl, -⟩ | ⟨p', b', rfl, hok', -⟩
      · rfl
      · refine ih hok' ?_
        show 2 * stream.length + N + 3 ≤ fuel
        omega
    | read =>
      have hcost : 2 * stream.length + N + 3 ≤ fuel + 1 := h
      rw [readFrom, readStep]
      rcases readMore_spec hok with ⟨result, hstep, -⟩ | ⟨b', stream', hstep, hok', hlen, -⟩
      · rw [hstep]
        rfl
      · rw [hstep]
        refine ih hok' ?_
        show 2 * stream'.length + N + 4 ≤ fuel
        omega

/-- A read starts well, with a new parser, and parses first only if there are octets. -/
theorem readOk_start (b : FlatStaticBuffer N) : ReadOk (readStart b) {} b := by
  refine ⟨fun h => absurd rfl h, fun h hnil => ?_⟩
  unfold readStart FlatStaticBuffer.size at h
  rw [hnil] at h
  cases h

end

/-- `async_read` into a fresh message; it has enough fuel for what is sent, so it ends
(`asyncRead_eq`). Reference: `async_read` (`read.ipp:801`). -/
def asyncRead (b : FlatStaticBuffer N) (stream : Stream) : ReadResult N :=
  (readFrom (readCost N .parse stream) (readStart b) {} b stream).get
    (readFrom_isSome (readOk_start b) (by
      unfold readCost
      split <;> simp))

/-- A read is the reading with enough fuel, which is bounded by the octets in the buffer and in the
stream. -/
theorem asyncRead_eq (b : FlatStaticBuffer N) (stream : Stream) :
    readFrom (readCost N .parse stream) (readStart b) {} b stream = some (asyncRead b stream) :=
  (Option.some_get _).symm

/-! ## What a read throws -/

section
variable {p : Parser} {b : FlatStaticBuffer N} {stream : Stream} {fuel : Nat} {pos : ReadPos}
  {result : ReadResult N}

/-- Induction along a reading: what holds where the last step has the result, and before each step
that goes on if it holds after it, holds of the reading and its result. -/
theorem readFrom_induct
    {motive : ReadPos → Parser → FlatStaticBuffer N → Stream → ReadResult N → Prop}
    (done : ∀ {fuel pos p b stream result},
      readStep fuel pos p b stream = some (.done result) → motive pos p b stream result)
    (next : ∀ {fuel pos p b stream pos' p' b' stream' result},
      readStep fuel pos p b stream = some (.next pos' p' b' stream') →
        motive pos' p' b' stream' result → motive pos p b stream result)
    (h : readFrom fuel pos p b stream = some result) : motive pos p b stream result := by
  induction fuel generalizing pos p b stream with
  | zero => cases h
  | succ fuel ih =>
    unfold readFrom at h
    split at h
    · cases h
    · next hs =>
      cases h
      exact done hs
    · next hs => exact next hs (ih h)

/-- What a step of a reading does: the reading is done, and throws only if the buffer is larger than
that for obs-fold, or it goes on, with octets to be parsed or with a parser that has started. -/
theorem readStep_spec (hok : ReadOk pos p b) {step : ReadStep N}
    (h : readStep fuel pos p b stream = some step) :
    (∃ result, step = .done result ∧ (result.thrown ≠ none → maxObsFold < N) ∧
      (pos = .parse ∨ p.state ≠ .nothingYet → stream.final ≠ endOfStream →
        result.error ≠ endOfStream)) ∨
      ∃ pos' p' b' stream', step = .next pos' p' b' stream' ∧ ReadOk pos' p' b' ∧
        (pos' = .parse ∨ p'.state ≠ .nothingYet) ∧ stream'.final = stream.final := by
  cases pos with
  | parse =>
    rcases readParse_spec hok h with ⟨result, rfl, hne, hthrows⟩ | ⟨p', b', rfl, hok', hgot⟩
    · exact .inl ⟨result, rfl, hthrows, fun _ _ => hne⟩
    · exact .inr ⟨_, _, _, _, rfl, hok', .inr hgot, rfl⟩
  | read =>
    have hmore : readMore p b stream = step := Option.some.inj h
    rcases readMore_spec hok with
      ⟨result, hstep, hnone, hne⟩ | ⟨b', stream', hstep, hok', -, hfinal⟩
    · refine .inl ⟨result, hmore ▸ hstep, fun hthrown => absurd hnone hthrown, fun hgot => ?_⟩
      exact hne (hgot.resolve_left nofun)
    · exact .inr ⟨_, _, _, _, hmore ▸ hstep, hok', .inl rfl, hfinal⟩

/-- A reading throws only if the buffer is larger than that for obs-fold. -/
theorem readFrom_thrown (h : readFrom fuel pos p b stream = some result) (hok : ReadOk pos p b)
    (hthrown : result.thrown ≠ none) : maxObsFold < N := by
  refine readFrom_induct
    (motive := fun pos p b _ result => ReadOk pos p b → result.thrown ≠ none → maxObsFold < N)
    (fun hs hok hthrown => ?done) (fun hs ih hok hthrown => ?next) h hok hthrown
  case done =>
    rcases readStep_spec hok hs with ⟨_, heq, hthrows, -⟩ | ⟨_, _, _, _, heq, -⟩
    · cases heq
      exact hthrows hthrown
    · cases heq
  case next =>
    rcases readStep_spec hok hs with ⟨_, heq, -⟩ | ⟨_, _, _, _, heq, hok', -⟩
    · cases heq
    · cases heq
      exact ih hok' hthrown

end

/-- **A read completes** if the buffer is not larger than the one in which the parser puts the lines
of a folded value together: no line is too long for it then, and no exception leaves the parser. -/
theorem asyncRead_thrown (hN : N ≤ maxObsFold) (b : FlatStaticBuffer N) (stream : Stream) :
    (asyncRead b stream).thrown = none := by
  by_contra hthrown
  have hlarge := readFrom_thrown (asyncRead_eq b stream) (readOk_start b) hthrown
  omega

/-! ## The end of the stream -/

/-- A reading that has started, or that has octets to start with, does not end with `end_of_stream`,
unless the stream does. -/
theorem readFrom_ne_endOfStream {p : Parser} {b : FlatStaticBuffer N} {stream : Stream} {fuel : Nat}
    {pos : ReadPos} {result : ReadResult N} (h : readFrom fuel pos p b stream = some result)
    (hok : ReadOk pos p b) (hpos : pos = .parse ∨ p.state ≠ .nothingYet)
    (hfinal : stream.final ≠ endOfStream) : result.error ≠ endOfStream := by
  refine readFrom_induct
    (motive := fun pos p b stream result => ReadOk pos p b →
      (pos = .parse ∨ p.state ≠ .nothingYet) → stream.final ≠ endOfStream →
        result.error ≠ endOfStream)
    (fun hs hok hpos hfinal => ?done) (fun hs ih hok hpos hfinal => ?next) h hok hpos hfinal
  case done =>
    rcases readStep_spec hok hs with ⟨_, heq, -, hne⟩ | ⟨_, _, _, _, heq, -⟩
    · cases heq
      exact hne hpos hfinal
    · cases heq
  case next =>
    rcases readStep_spec hok hs with ⟨_, heq, -⟩ | ⟨_, _, _, _, heq, hok', hpos', hfinal'⟩
    · cases heq
    · cases heq
      exact ih hok' hpos' (hfinal' ▸ hfinal)

/-- A peer that sends nothing: the first read reports `final`. -/
def Stream.failing (final : ErrorCode) (h : final.failed = true) : Stream :=
  ⟨[], final, List.not_mem_nil, h⟩

/-- A peer that closes the connection at once, before it has sent anything. -/
def Stream.closed : Stream := Stream.failing .eof rfl

/-- A peer that sends a chunk and closes the connection. -/
def Stream.chunk (octets : Str) (h : octets ≠ []) : Stream :=
  ⟨[octets], .eof, fun hmem => h (List.mem_singleton.1 hmem).symm, rfl⟩

/-- **What is left in the buffer is read**: with a stream of no octets, a read reports
`end_of_stream` exactly if the buffer is empty. -/
theorem asyncRead_closed {b : FlatStaticBuffer N} (hN : 0 < N) :
    (asyncRead b Stream.closed).error = endOfStream ↔ b.data = [] := by
  have hread := asyncRead_eq b Stream.closed
  constructor
  · intro h
    by_contra hb
    have hstart : readStart b = .parse := by
      rw [readStart, if_neg]
      exact fun hsize => hb (List.length_eq_zero_iff.1 hsize)
    rw [hstart] at hread
    exact readFrom_ne_endOfStream hread (hstart ▸ readOk_start b) (.inl rfl) ne_endOfStream.2.2 h
  · intro hb
    have hstart : readStart b = .read := by
      rw [readStart, if_pos]
      rw [FlatStaticBuffer.size, hb]
      rfl
    have hsize : b.readSize 65536 ≠ 0 := by
      simp only [FlatStaticBuffer.readSize, FlatStaticBuffer.size, hb, List.length_nil]
      omega
    have hmore : readMore {} b Stream.closed =
        .done { error := endOfStream, buffer := b, stream := Stream.closed } := by
      rw [readMore, if_neg hsize]
      rfl
    have hcost : readCost N .parse Stream.closed = N + 3 + 1 := by
      simp [readCost, Stream.length, Stream.closed, Stream.failing]
    rw [hstart, hcost, readFrom, readStep, hmore] at hread
    exact (congrArg ReadResult.error (Option.some.inj hread)).symm

end Gomibako.Beast
