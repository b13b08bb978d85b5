import Gomibako.Beast.Error
import Gomibako.Beast.Lines

/-!
# The serializer

`serializer` turns a message into octets. It hands out what is left of the buffers it is at
(`next`), is told how much of them was written (`consume`), and goes on to the next ones when they
are used up. Whatever amounts are written, what comes out is the header followed by the encoding of
the body (`Remaining.next`): the octets themselves, or chunks.
-/

namespace Gomibako.Beast

/-! ## The serializer of the source -/

/-- The reader of a body: `get` delivers octets, and whether there may be more of them. -/
structure BodyReader (σ : Type _) where
  init : σ → Except ErrorCode σ
  get : σ → Except ErrorCode (Option (Str × Bool)) × σ

/-- The reader of a `dynamic_body`, which delivers everything at once and says that there is no
more. Reference: `basic_dynamic_body::reader` (`basic_dynamic_body.hpp:65`). -/
def dynamicBodyReader : BodyReader Str where
  init body := .ok body
  get body := (.ok (some (body, false)), body)

/-- The message that is serialized: its header, what it says of itself, and its body. -/
structure Source (σ : Type _) where
  header : Str
  keepAlive : Bool
  chunked : Bool
  body : BodyReader σ

/-- The states of a serializer, under the names of the source without `do_`; those with a `C` are
for chunks. -/
inductive SerializerState where
  | construct
  | init | header | headerOnly | body | body1 | body2
  | initC | headerC | headerOnlyC | bodyC | bodyC1 | bodyC2
  | bodyFinalC | allC | finalC | finalC1
  | complete
deriving DecidableEq, Repr

/-- `serializer`. The octets of its current buffers that are not consumed are `view`; a limit of
zero means that there is none. Reference: `serializer` (`serializer.hpp:60`). -/
structure Serializer (σ : Type _) where
  state : SerializerState := .construct
  reader : σ
  view : Str := []
  limit : Option {n : Nat // 0 < n} := none
  split : Bool := false
  headerDone : Bool := false
  chunked : Bool := false
  keepAlive : Bool := false
  more : Bool := false

/-- `chunk_size`: the size in hexadecimal digits, without leading zeros. Reference: `chunk_size`
(`chunk_encode.hpp:68`). -/
def chunkSize (n : Nat) : Str := Nat.toDigits 16 n

/-- The last chunk, of the size zero and without a trailer. Reference: `chunk_last`
(`chunk_encode.hpp:163`). -/
def chunkLast : Str := "0\r\n".toList ++ crlf

/-- The buffers of a chunk: the size with a line end, the octets, and a line end behind them. -/
def chunkText (octets : Str) : Str := chunkSize octets.length ++ crlf ++ octets ++ crlf

namespace Serializer

variable {σ : Type _}

/-- `is_done`: all of the message was consumed. -/
def isDone (s : Serializer σ) : Bool := s.state = .complete

/-- The octets that the visitor is given: those of the current buffers, up to the limit. -/
def visible (s : Serializer σ) : Str :=
  match s.limit with
  | none => s.view
  | some n => s.view.take n.1

/-- `do_visit`: the visitor is given the current buffers, up to the limit. -/
def visit (s : Serializer σ) : Serializer σ × Except ErrorCode (Option Str) :=
  (s, .ok (some s.visible))

/-- The label `go_header_only`: the header is to be written without any of the body. Reference:
`serializer::next` (`serializer.ipp:90`). -/
def goHeaderOnly (m : Source σ) (s : Serializer σ) :
    Serializer σ × Except ErrorCode (Option Str) :=
  visit { s with view := m.header, state := .headerOnly }

/-- The case `do_init`: the reader is started, and its first octets are written together with the
header. Reference: `serializer::next` (`serializer.ipp:90`). -/
def doInit (m : Source σ) (s : Serializer σ) : Serializer σ × Except ErrorCode (Option Str) :=
  match m.body.init s.reader with
  | .error e => (s, .error e)
  | .ok reader =>
    if s.split then goHeaderOnly m { s with reader }
    else
      match m.body.get reader with
      | (.error e, reader) =>
        if e = HttpError.needMore.toErrorCode then goHeaderOnly m { s with reader }
        else ({ s with reader }, .error e)
      | (.ok none, reader) => goHeaderOnly m { s with reader }
      | (.ok (some (octets, more)), reader) =>
        visit { s with reader, more, view := m.header ++ octets, state := .header }

/-- The case `do_body + 1`: the reader is asked for more of the body, and if there is none the
serializer is done. Reference: `serializer::next` (`serializer.ipp:128`). -/
def doBody1 (m : Source σ) (s : Serializer σ) : Serializer σ × Except ErrorCode (Option Str) :=
  match m.body.get s.reader with
  | (.error e, reader) => ({ s with reader }, .error e)
  | (.ok none, reader) => ({ s with reader, state := .complete }, .ok none)
  | (.ok (some (octets, more)), reader) =>
    visit { s with reader, more, view := octets, state := .body2 }

/-- The label `go_header_only_c`: the header is to be written without any of the chunks. Reference:
`serializer::next` (`serializer.ipp:149`). -/
def goHeaderOnlyC (m : Source σ) (s : Serializer σ) :
    Serializer σ × Except ErrorCode (Option Str) :=
  visit { s with view := m.header, state := .headerOnlyC }

/-- The case `do_init_c`: the reader is started, and its first octets are written as a chunk
together with the header. Reference: `serializer::next` (`serializer.ipp:149`). -/
def doInitC (m : Source σ) (s : Serializer σ) : Serializer σ × Except ErrorCode (Option Str) :=
  match m.body.init s.reader with
  | .error e => (s, .error e)
  | .ok reader =>
    if s.split then goHeaderOnlyC m { s with reader }
    else
      match m.body.get reader with
      | (.error e, reader) =>
        if e = HttpError.needMore.toErrorCode then goHeaderOnlyC m { s with reader }
        else ({ s with reader }, .error e)
      | (.ok none, reader) => goHeaderOnlyC m { s with reader }
      | (.ok (some (octets, more)), reader) =>
        if !more then
          visit { s with
            reader
            more
            view := m.header ++ chunkText octets ++ chunkLast
            state := .allC }
        else
          visit { s with reader, more, view := m.header ++ chunkText octets, state := .headerC }

/-- The case `do_final_c`: the last chunk is to be written. Reference: `serializer::next`
(`serializer.ipp:258`). -/
def doFinalC (s : Serializer σ) : Serializer σ × Except ErrorCode (Option Str) :=
  visit { s with view := chunkLast, state := .finalC1 }

/-- The case `do_body_c + 1`: the reader is asked for another chunk, and if there is none the last
chunk comes. Reference: `serializer::next` (`serializer.ipp:207`). -/
def doBodyC1 (m : Source σ) (s : Serializer σ) : Serializer σ × Except ErrorCode (Option Str) :=
  match m.body.get s.reader with
  | (.error e, reader) => ({ s with reader }, .error e)
  | (.ok none, reader) => doFinalC { s with reader }
  | (.ok (some (octets, more)), reader) =>
    if !more then
      visit { s with reader, more, view := chunkText octets ++ chunkLast, state := .bodyFinalC }
    else visit { s with reader, more, view := chunkText octets, state := .bodyC2 }

/-- `next`: the error, or the buffers that the visitor was given, if it was called. Reference:
`serializer::next` (`serializer.ipp:72`). -/
def next (m : Source σ) (s : Serializer σ) : Serializer σ × Except ErrorCode (Option Str) :=
  match s.state with
  | .construct =>
    let s := { s with keepAlive := m.keepAlive, chunked := m.chunked }
    if m.chunked then doInitC m { s with state := .initC } else doInit m { s with state := .init }
  | .init => doInit m s
  | .body => doBody1 m { s with state := .body1 }
  | .body1 => doBody1 m s
  | .initC => doInitC m s
  | .bodyC => doBodyC1 m { s with state := .bodyC1 }
  | .bodyC1 => doBodyC1 m s
  | .finalC => doFinalC s
  | .header | .headerOnly | .body2 | .headerC | .headerOnlyC | .bodyC2 | .bodyFinalC | .allC
  | .finalC1 => s.visit
  | .complete => (s, .ok none)

/-- Where the serializer goes when its current buffers are used up. -/
def advance (s : Serializer σ) : Serializer σ :=
  match s.state with
  | .header =>
    { s with headerDone := true, view := [], state := if s.more then .body1 else .complete }
  | .headerOnly =>
    { s with headerDone := true, state := if s.split then .body else .complete }
  | .body2 => { s with view := [], state := if s.more then .body1 else .complete }
  | .headerC =>
    { s with headerDone := true, view := [], state := if s.more then .bodyC1 else .finalC }
  | .headerOnlyC =>
    { s with headerDone := true, state := if s.split then .bodyC else .finalC }
  | .bodyC2 => { s with view := [], state := if s.more then .bodyC1 else .finalC }
  | .bodyFinalC => { s with view := [], state := .complete }
  | .allC => { s with headerDone := true, view := [], state := .complete }
  | .finalC1 => { s with view := [], state := .complete }
  | .construct | .init | .body | .body1 | .initC | .bodyC | .bodyC1 | .finalC | .complete => s

/-- `consume`: octets are taken from the current buffers, and the serializer goes on when they are
used up. Reference: `serializer::consume` (`serializer.ipp:288`). -/
def consume (s : Serializer σ) (n : Nat) : Serializer σ :=
  let s := { s with view := s.view.drop n }
  if s.view ≠ [] then s else s.advance

/-! ## What is still to come -/

/-- The pieces that the reader of a body delivers, one call after another, until it has no more or
says that there is none. -/
inductive Delivers (r : BodyReader σ) : σ → List Str → Prop where
  | none {s s' : σ} : r.get s = (.ok none, s') → Delivers r s []
  | last {s s' : σ} {p : Str} : r.get s = (.ok (some (p, false)), s') → Delivers r s [p]
  | more {s s' : σ} {p : Str} {ps : List Str} : r.get s = (.ok (some (p, true)), s') →
      Delivers r s' ps → Delivers r s (p :: ps)

/-- The octets of a body that is delivered in pieces. -/
def encode (chunked : Bool) (ps : List Str) : Str :=
  if chunked then ps.flatMap chunkText ++ chunkLast else ps.flatten

/-- What is still to come of a serializer between two buffers: pieces of the body, and the octets
they lead to. -/
inductive Rest (m : Source σ) (s : Serializer σ) : List Str → Str → Prop where
  | construct {reader : σ} {ps : List Str} : s.state = .construct →
      m.body.init s.reader = .ok reader → Delivers m.body reader ps →
      Rest m s ps (m.header ++ encode m.chunked ps)
  | init {reader : σ} {ps : List Str} : s.state = .init →
      m.body.init s.reader = .ok reader → Delivers m.body reader ps →
      Rest m s ps (m.header ++ encode false ps)
  | initC {reader : σ} {ps : List Str} : s.state = .initC →
      m.body.init s.reader = .ok reader → Delivers m.body reader ps →
      Rest m s ps (m.header ++ encode true ps)
  | body {ps : List Str} : s.state = .body ∨ s.state = .body1 → Delivers m.body s.reader ps →
      Rest m s ps (encode false ps)
  | bodyC {ps : List Str} : s.state = .bodyC ∨ s.state = .bodyC1 → Delivers m.body s.reader ps →
      Rest m s ps (encode true ps)
  | finalC : s.state = .finalC → Rest m s [] chunkLast
  | complete : s.state = .complete → Rest m s [] []

/-- The states in which the serializer has buffers, which a visitor may be given again. -/
def viewing (s : Serializer σ) : Bool :=
  match s.state with
  | .header | .headerOnly | .body2 | .headerC | .headerOnlyC | .bodyC2 | .bodyFinalC | .allC
  | .finalC1 => true
  | _ => false

/-- What is still to come of a serializer: what is left of its buffers, and behind them what is to
come between two buffers. -/
inductive Remaining (m : Source σ) (s : Serializer σ) : List Str → Str → Prop where
  | rest {ps : List Str} {t : Str} : Rest m s ps t → Remaining m s ps t
  | view {ps : List Str} {t : Str} : s.viewing = true → s.view ≠ [] → Rest m s.advance ps t →
      Remaining m s ps (s.view ++ t)

/-- The serializer has not begun with the header; it counts one then, as the header may come without
any of the body. -/
def starting (s : Serializer σ) : Nat :=
  match s.state with
  | .construct | .init | .initC => 1
  | _ => 0

/-- What `next` comes to: buffers to be written, with less of the body behind them if they are
empty, or the end. -/
inductive NextOutcome (m : Source σ) (s : Serializer σ) (ps : List Str) (t : Str) :
    Serializer σ × Except ErrorCode (Option Str) → Prop where
  | view {s' : Serializer σ} {ps' : List Str} {t' : Str} : s'.viewing = true →
      s'.keepAlive = m.keepAlive → Rest m s'.advance ps' t' → t = s'.view ++ t' →
      ps'.length ≤ ps.length → (s'.view = [] → ps'.length < ps.length + s.starting) →
      NextOutcome m s ps t (s', .ok (some s'.visible))
  | complete {s' : Serializer σ} : s'.state = .complete → s'.keepAlive = m.keepAlive → t = [] →
      NextOutcome m s ps t (s', .ok none)

section
variable {m : Source σ} {s s' : Serializer σ} {ps : List Str} {t : Str} {reader : σ}

/-- What is still to come depends on the state and on the reader only. -/
theorem Rest.congr (h : Rest m s ps t) (hstate : s'.state = s.state)
    (hreader : s'.reader = s.reader) : Rest m s' ps t := by
  cases h with
  | construct hst hinit hps => exact .construct (hstate.trans hst) (hreader ▸ hinit) hps
  | init hst hinit hps => exact .init (hstate.trans hst) (hreader ▸ hinit) hps
  | initC hst hinit hps => exact .initC (hstate.trans hst) (hreader ▸ hinit) hps
  | body hst hps => exact .body (hstate ▸ hst) (hreader ▸ hps)
  | bodyC hst hps => exact .bodyC (hstate ▸ hst) (hreader ▸ hps)
  | finalC hst => exact .finalC (hstate.trans hst)
  | complete hst => exact .complete (hstate.trans hst)

/-- The reader of a `dynamic_body` delivers the body in one piece. -/
theorem delivers_dynamicBody (body : Str) : Delivers dynamicBodyReader body [body] := .last rfl

/-- The encoding of a body piece by piece: the first piece, as a chunk or as it is, and then that of
the others. -/
theorem encode_cons (chunked : Bool) (p : Str) (ps : List Str) :
    encode chunked (p :: ps) = (if chunked then chunkText p else p) ++ encode chunked ps := by
  cases chunked with
  | true => simp only [encode, List.flatMap_cons, if_true, List.append_assoc]
  | false => rfl

/-- The case `do_init` comes to buffers that start with the header, and behind them to the pieces of
the body as they are. -/
theorem doInit_outcome (hstart : s.starting = 1) (hkeep : s'.keepAlive = m.keepAlive)
    (hinit : m.body.init s'.reader = .ok reader) (hps : Delivers m.body reader ps) :
    NextOutcome m s ps (m.header ++ encode false ps) (doInit m s') := by
  rw [doInit, hinit]
  simp only
  split
  · next hsplit =>
    refine .view rfl hkeep (.body (.inl ?_) hps) rfl (Nat.le_refl _) fun _ => by omega
    show (if s'.split = true then SerializerState.body else .complete) = .body
    rw [if_pos hsplit]
  · next hsplit =>
    have hstate : (if s'.split = true then SerializerState.body else .complete) = .complete :=
      if_neg hsplit
    cases hps with
    | none hget =>
      rw [hget]
      exact .view rfl hkeep (.complete hstate) rfl (Nat.le_refl _) fun _ => by omega
    | @last _ _ p hget =>
      rw [hget]
      refine .view rfl hkeep (.complete rfl) ?_ (Nat.zero_le _) fun _ =>
        Nat.add_pos_left Nat.one_pos _
      show m.header ++ encode false [p] = m.header ++ p ++ []
      rw [List.append_nil, encode_cons]
      simp [encode]
    | @more _ _ p ps hget hps =>
      rw [hget]
      refine .view rfl hkeep (.body (.inr rfl) hps) ?_ (Nat.le_succ _) fun _ => ?_
      · rw [encode_cons]
        exact (List.append_assoc _ _ _).symm
      · rw [List.length_cons]
        omega

/-- The case `do_init_c` comes to buffers that start with the header, and behind them to the pieces
of the body as chunks. -/
theorem doInitC_outcome (hstart : s.starting = 1) (hkeep : s'.keepAlive = m.keepAlive)
    (hinit : m.body.init s'.reader = .ok reader) (hps : Delivers m.body reader ps) :
    NextOutcome m s ps (m.header ++ encode true ps) (doInitC m s') := by
  rw [doInitC, hinit]
  simp only
  split
  · next hsplit =>
    refine .view rfl hkeep (.bodyC (.inl ?_) hps) rfl (Nat.le_refl _) fun _ => by omega
    show (if s'.split = true then SerializerState.bodyC else .finalC) = .bodyC
    rw [if_pos hsplit]
  · next hsplit =>
    have hstate : (if s'.split = true then SerializerState.bodyC else .finalC) = .finalC :=
      if_neg hsplit
    cases hps with
    | none hget =>
      rw [hget]
      exact .view rfl hkeep (.finalC hstate) rfl (Nat.le_refl _) fun _ => by omega
    | @last _ _ p hget =>
      rw [hget]
      refine .view rfl hkeep (.complete rfl) ?_ (Nat.zero_le _) fun _ =>
        Nat.add_pos_left Nat.one_pos _
      show m.header ++ encode true [p] = m.header ++ chunkText p ++ chunkLast ++ []
      rw [List.append_nil, encode_cons]
      exact (List.append_assoc _ _ _).symm
    | @more _ _ p ps hget hps =>
      rw [hget]
      refine .view rfl hkeep (.bodyC (.inr rfl) hps) ?_ (Nat.le_succ _) fun _ => ?_
      · rw [encode_cons]
        exact (List.append_assoc _ _ _).symm
      · rw [List.length_cons]
        omega

/-- The case `do_body + 1` comes to the next piece of the body as it is, or to the end. -/
theorem doBody1_outcome (hkeep : s'.keepAlive = m.keepAlive)
    (hps : Delivers m.body s'.reader ps) :
    NextOutcome m s ps (encode false ps) (doBody1 m s') := by
  rw [doBody1]
  cases hps with
  | none hget =>
    rw [hget]
    exact .complete rfl hkeep rfl
  | @last _ _ p hget =>
    rw [hget]
    refine .view rfl hkeep (.complete rfl) ?_ (Nat.zero_le _) fun _ =>
        Nat.add_pos_left Nat.one_pos _
    show encode false [p] = p ++ []
    rw [encode_cons]
    rfl
  | @more _ _ p ps hget hps =>
    rw [hget]
    refine .view rfl hkeep (.body (.inr rfl) hps) (encode_cons _ _ _) (Nat.le_succ _) fun _ => ?_
    rw [List.length_cons]
    omega

/-- The case `do_body_c + 1` comes to the next piece of the body as a chunk, or to the last
chunk. -/
theorem doBodyC1_outcome (hkeep : s'.keepAlive = m.keepAlive)
    (hps : Delivers m.body s'.reader ps) :
    NextOutcome m s ps (encode true ps) (doBodyC1 m s') := by
  rw [doBodyC1]
  cases hps with
  | none hget =>
    rw [hget]
    exact .view rfl hkeep (.complete rfl) rfl (Nat.le_refl _) nofun
  | @last _ _ p hget =>
    rw [hget]
    refine .view rfl hkeep (.complete rfl) ?_ (Nat.zero_le _) fun _ =>
        Nat.add_pos_left Nat.one_pos _
    show encode true [p] = chunkText p ++ chunkLast ++ []
    rw [List.append_nil, encode_cons]
    rfl
  | @more _ _ p ps hget hps =>
    rw [hget]
    refine .view rfl hkeep (.bodyC (.inr rfl) hps) (encode_cons _ _ _) (Nat.le_succ _) fun _ => ?_
    rw [List.length_cons]
    omega

/-- Between two buffers, `next` comes to buffers with which what is still to come starts, or to the
end if that is nothing. -/
theorem Rest.next (h : Rest m s ps t) (hdone : s.isDone = false)
    (hkeep : s.state ≠ .construct → s.keepAlive = m.keepAlive) :
    NextOutcome m s ps t (next m s) := by
  have hkeep' : ∀ {st : SerializerState}, s.state = st → st ≠ .construct →
      s.keepAlive = m.keepAlive := fun hst hne => hkeep (hst ▸ hne)
  have hstart : ∀ {st : SerializerState}, s.state = st →
      st = .construct ∨ st = .init ∨ st = .initC → s.starting = 1 := by
    intro st hst hor
    rw [starting, hst]
    rcases hor with rfl | rfl | rfl <;> rfl
  cases h with
  | construct hst hinit hps =>
    rw [Serializer.next, hst]
    simp only
    split
    · next hchunked =>
      rw [hchunked]
      exact doInitC_outcome (hstart hst (.inl rfl)) rfl hinit hps
    · next hchunked =>
      rw [Bool.not_eq_true] at hchunked
      rw [hchunked]
      exact doInit_outcome (hstart hst (.inl rfl)) rfl hinit hps
  | init hst hinit hps =>
    rw [Serializer.next, hst]
    exact doInit_outcome (hstart hst (.inr (.inl rfl))) (hkeep' hst nofun) hinit hps
  | initC hst hinit hps =>
    rw [Serializer.next, hst]
    exact doInitC_outcome (hstart hst (.inr (.inr rfl))) (hkeep' hst nofun) hinit hps
  | body hst hps =>
    rcases hst with hst | hst
    · rw [Serializer.next, hst]
      exact doBody1_outcome (hkeep' hst nofun) hps
    · rw [Serializer.next, hst]
      exact doBody1_outcome (hkeep' hst nofun) hps
  | bodyC hst hps =>
    rcases hst with hst | hst
    · rw [Serializer.next, hst]
      exact doBodyC1_outcome (hkeep' hst nofun) hps
    · rw [Serializer.next, hst]
      exact doBodyC1_outcome (hkeep' hst nofun) hps
  | finalC hst =>
    rw [Serializer.next, hst]
    exact .view rfl (hkeep' hst nofun) (.complete rfl) (List.append_nil _).symm (Nat.le_refl _)
      nofun
  | complete hst =>
    rw [isDone, decide_eq_false_iff_not] at hdone
    exact absurd hst hdone

/-- **What `next` comes to**: it hands out the start of what is still to come. -/
theorem Remaining.next (h : Remaining m s ps t) (hdone : s.isDone = false)
    (hkeep : s.state ≠ .construct → s.keepAlive = m.keepAlive) :
    NextOutcome m s ps t (Serializer.next m s) := by
  cases h with
  | rest hrest => exact hrest.next hdone hkeep
  | view hview hne hrest =>
    have hstate : s.state ≠ .construct := fun hst => by
      rw [viewing, hst] at hview
      cases hview
    have hnext : Serializer.next m s = s.visit := by
      rw [viewing] at hview
      split at hview <;> first | (next hst => rw [Serializer.next, hst]) | cases hview
    rw [hnext]
    exact .view hview (hkeep hstate) hrest rfl (Nat.le_refl _) fun hnil => absurd hnil hne

/-- Where the serializer goes does not depend on its buffers. -/
theorem advance_view (view : Str) :
    ({ s with view } : Serializer σ).advance.state = s.advance.state ∧
      ({ s with view } : Serializer σ).advance.reader = s.advance.reader := by
  obtain ⟨state⟩ := s
  cases state <;> exact ⟨rfl, rfl⟩

/-- Going on keeps what the message says of the connection, and the header has begun. -/
theorem advance_keepAlive (h : s.viewing = true) :
    s.advance.keepAlive = s.keepAlive ∧ s.advance.state ≠ .construct ∧ s.advance.starting = 0 := by
  obtain ⟨state, reader, view, limit, split, headerDone, chunked, keepAlive, more⟩ := s
  cases state <;> cases h <;> cases more <;> cases split <;> exact ⟨rfl, nofun, rfl⟩

/-- A serializer with buffers has begun with the header and is not done. -/
theorem viewing_started (h : s.viewing = true) :
    s.state ≠ .construct ∧ s.state ≠ .complete ∧ s.starting = 0 := by
  obtain ⟨state⟩ := s
  cases state <;> cases h <;> exact ⟨nofun, nofun, rfl⟩

/-- **What `consume` leaves**: what was not consumed is still to come. -/
theorem Remaining.consume (hview : s.viewing = true) (hrest : Rest m s.advance ps t) {n : Nat}
    (hn : n ≤ s.view.length) :
    Remaining m (s.consume n) ps ((s.view ++ t).drop n) ∧
      (s.consume n).keepAlive = s.keepAlive ∧ (s.consume n).state ≠ .construct ∧
      (s.consume n).starting = 0 := by
  rw [List.drop_append_of_le_length hn]
  obtain ⟨hstate, hreader⟩ := advance_view (s := s) (s.view.drop n)
  have hrest' := hrest.congr hstate hreader
  have hview' : ({ s with view := s.view.drop n } : Serializer σ).viewing = true := hview
  unfold Serializer.consume
  simp only
  split
  · next hne =>
    obtain ⟨hcon, -, hstart⟩ := viewing_started hview'
    exact ⟨.view hview' hne hrest', rfl, hcon, hstart⟩
  · next hnil =>
    rw [not_not] at hnil
    obtain ⟨hkeep, hcon, hstart⟩ := advance_keepAlive hview'
    rw [hnil] at hrest' hkeep hcon hstart ⊢
    exact ⟨.rest hrest', hkeep, hcon, hstart⟩

/-- If a serializer is done, nothing is left of the message. -/
theorem Remaining.of_isDone (h : Remaining m s ps t) (hdone : s.isDone = true) : t = [] := by
  have hst : s.state = .complete := by
    rw [isDone, decide_eq_true_eq] at hdone
    exact hdone
  cases h with
  | rest hrest =>
    cases hrest with
    | complete => rfl
    | construct hst' | init hst' | initC hst' | finalC hst' => cases hst.symm.trans hst'
    | body hst' | bodyC hst' => rcases hst' with hst' | hst' <;> cases hst.symm.trans hst'
  | view hview => exact absurd hst (viewing_started hview).2.1

end

end Serializer

end Gomibako.Beast
