import Gomibako.Beast.Header
import Gomibako.Beast.Read
import Gomibako.Beast.Serializer

/-!
# Writing a message

`async_write` of a message: `write_op` calls `async_write_some` until the serializer is done or
there is an error. The socket takes what it likes of the octets it is given; whatever it takes, the
octets on the wire are the start of the text of the message, and all of it unless the socket fails
(`writeOp_outcome`).
-/

namespace Gomibako.Beast

/-! ## The operations of the source -/

/-- What a socket takes: at most `amounts` of the octets that it is given, one call after another,
and the error that the call after the last of them ends with. -/
structure Sink where
  amounts : List Nat
  final : ErrorCode
  pos : 0 ∉ amounts
  failed : final.failed = true

/-- `async_write_some` of a socket, which takes nothing if there is nothing to take. -/
def Sink.writeSome (k : Sink) (octets : Str) : Except ErrorCode Nat × Sink :=
  if octets = [] then (.ok 0, k)
  else
    match k with
    | ⟨[], final, _, _⟩ => (.error final, k)
    | ⟨n :: amounts, final, hpos, hf⟩ =>
      (.ok (min n octets.length), ⟨amounts, final, fun h => hpos (.tail _ h), hf⟩)

/-- How `async_write_some` of a serializer completes, with what went over the wire. -/
structure WriteSome (σ : Type _) where
  error : ErrorCode
  transferred : Nat
  wire : Str
  serializer : Serializer σ
  sink : Sink

/-- How `async_write` completes: its error, how much it says was transferred, and what went over the
wire. -/
structure WriteResult where
  error : ErrorCode
  transferred : Nat
  wire : Str
deriving DecidableEq, Repr

section
variable {σ : Type _}

/-- The handler of `write_some_op`, for a call that has succeeded. -/
def wrote (s : Serializer σ) (n : Nat) : ErrorCode × Serializer σ :=
  let s := s.consume n
  (if s.isDone && !s.keepAlive then endOfStream else {}, s)

/-- The visitor of `write_some_op`: the socket is given the buffers. -/
def writeBuffers (s : Serializer σ) (buffers : Str) (k : Sink) : WriteSome σ :=
  match k.writeSome buffers with
  | (.error e, k) => ⟨e, 0, [], s, k⟩
  | (.ok n, k) => ⟨(wrote s n).1, n, buffers.take n, (wrote s n).2, k⟩

/-- `write_some_op`: the serializer is asked for its buffers, and they are given to the socket.
Reference: `write_some_op::operator()` (`write.ipp:129`). -/
def writeSomeOp (m : Source σ) (s : Serializer σ) (k : Sink) : WriteSome σ :=
  match if s.isDone then (s, .ok none) else s.next m with
  | (s, .error e) => ⟨e, 0, [], s, k⟩
  | (s, .ok none) => ⟨(wrote s 0).1, 0, [], (wrote s 0).2, k⟩
  | (s, .ok (some buffers)) => writeBuffers s buffers k

/-- The loop of `write_op`. An error leaves out what its call has transferred. -/
def writeFrom (done : Serializer σ → Bool) (m : Source σ) :
    Nat → Serializer σ → Sink → Nat → Str → Option WriteResult
  | 0, _, _, _, _ => none
  | fuel + 1, s, k, transferred, wire =>
    let step := writeSomeOp m s k
    let wire := wire ++ step.wire
    if step.error.failed then some ⟨step.error, transferred, wire⟩
    else
      let transferred := transferred + step.transferred
      if done step.serializer then some ⟨step.error, transferred, wire⟩
      else writeFrom done m fuel step.serializer step.sink transferred wire

/-- `write_op`: nothing is done if the condition holds already, and else the loop is entered.
Reference: `write_op::operator()` (`write.ipp:274`). -/
def writeOp (done : Serializer σ → Bool) (fuel : Nat) (m : Source σ) (s : Serializer σ) (k : Sink) :
    Option WriteResult :=
  if done s then some ⟨{}, 0, []⟩ else writeFrom done m fuel s k 0 []

end

/-! ## What is written -/

/-- How a write of the text can complete that has transferred `n` octets before, with `wire` on the
wire. -/
inductive WriteOutcome (keepAlive : Bool) (text : Str) (k : Sink) (n : Nat) (wire : Str) :
    WriteResult → Prop where
  | complete : keepAlive = true →
      WriteOutcome keepAlive text k n wire ⟨{}, n + text.length, wire ++ text⟩
  | close {sent last : Str} : keepAlive = false → text = sent ++ last →
      WriteOutcome keepAlive text k n wire ⟨endOfStream, n + sent.length, wire ++ text⟩
  | fail {sent unsent : Str} : text = sent ++ unsent → unsent ≠ [] →
      k.amounts.length ≤ sent.length →
      WriteOutcome keepAlive text k n wire ⟨k.final, n + sent.length, wire ++ sent⟩

section
open Serializer (Remaining Rest NextOutcome)

variable {σ : Type _} {m : Source σ} {s : Serializer σ} {ps : List Str} {t : Str} {k : Sink}

/-- If there are octets, a socket fails and takes nothing, or it takes at least one of them. -/
theorem Sink.writeSome_cases (k : Sink) {octets : Str} (h : octets ≠ []) :
    (k.amounts = [] ∧ k.writeSome octets = (.error k.final, k)) ∨
      ∃ n k', k.writeSome octets = (.ok n, k') ∧ 0 < n ∧ n ≤ octets.length ∧
        k'.final = k.final ∧ k.amounts.length = k'.amounts.length + 1 := by
  obtain ⟨amounts, final, hpos, hf⟩ := k
  cases amounts with
  | nil =>
    refine .inl ⟨rfl, ?_⟩
    rw [writeSome, if_neg h]
  | cons n amounts =>
    refine .inr ⟨min n octets.length, ⟨amounts, final, fun h => hpos (.tail _ h), hf⟩, ?_, ?_,
      Nat.min_le_right _ _, rfl, rfl⟩
    · rw [writeSome, if_neg h]
    · have hn : n ≠ 0 := fun h => hpos (h ▸ List.mem_cons_self)
      have hlen := List.length_pos_iff.2 h
      omega

/-- What the visitor is given is the start of the buffers. -/
theorem Serializer.visible_prefix (s : Serializer σ) :
    s.visible <+: s.view ∧ (s.visible = [] → s.view = []) := by
  unfold visible
  split
  · exact ⟨List.prefix_rfl, id⟩
  · next n _ =>
    refine ⟨List.take_prefix _ _, fun h => ?_⟩
    rcases List.take_eq_nil_iff.1 h with h | h
    · exact absurd n.2 (by omega)
    · exact h

/-- The serializer is at a message that says of the connection what it says. -/
structure Serializing (m : Source σ) (s : Serializer σ) (ps : List Str) (t : Str) : Prop where
  remaining : Remaining m s ps t
  keepAlive : s.state ≠ .construct → s.keepAlive = m.keepAlive

/-- How much is still to be done: the octets, the pieces, and the start of the header; it falls with
every call. -/
def writeCost (s : Serializer σ) (ps : List Str) (t : Str) : Nat :=
  t.length + ps.length + s.starting

/-- What a call of `async_write_some` comes to: it goes on with less to be done, the message is
written, or the socket has failed. -/
inductive WriteSomeOutcome (m : Source σ) (s : Serializer σ) (ps : List Str) (t : Str) (k : Sink) :
    WriteSome σ → Prop where
  | next {s' : Serializer σ} {k' : Sink} {ps' : List Str} {sent t' : Str} : s'.isDone = false →
      t = sent ++ t' → Serializing m s' ps' t' → writeCost s' ps' t' < writeCost s ps t →
      k'.final = k.final → k.amounts.length ≤ k'.amounts.length + sent.length →
      WriteSomeOutcome m s ps t k ⟨{}, sent.length, sent, s', k'⟩
  | complete {s' : Serializer σ} {k' : Sink} : s'.isDone = true →
      WriteSomeOutcome m s ps t k
        ⟨if m.keepAlive then {} else endOfStream, t.length, t, s', k'⟩
  | fail {s' : Serializer σ} {k' : Sink} : k.amounts = [] → t ≠ [] →
      WriteSomeOutcome m s ps t k ⟨k.final, 0, [], s', k'⟩

/-- What a successful call comes to, if what is left is known. -/
theorem WriteSomeOutcome.of_wrote {s' : Serializer σ} {k' : Sink} {ps' : List Str} {sent t' : Str}
    {n : Nat} (hsent : n = sent.length) (ht : t = sent ++ t')
    (h : Remaining m (s'.consume n) ps' t')
    (hkeep : (s'.consume n).keepAlive = m.keepAlive)
    (hcost : (s'.consume n).isDone = false → writeCost (s'.consume n) ps' t' < writeCost s ps t)
    (hfinal : k'.final = k.final) (hamounts : k.amounts.length ≤ k'.amounts.length + sent.length) :
    WriteSomeOutcome m s ps t k ⟨(wrote s' n).1, n, sent, (wrote s' n).2, k'⟩ := by
  subst hsent
  unfold wrote
  simp only
  cases hdone : (s'.consume sent.length).isDone with
  | true =>
    have hnil := h.of_isDone hdone
    rw [hnil, List.append_nil] at ht
    subst ht
    have herror : (if true && !(s'.consume t.length).keepAlive then endOfStream else {}) =
        if m.keepAlive then ({} : ErrorCode) else endOfStream := by
      rw [hkeep]
      cases m.keepAlive <;> rfl
    rw [herror]
    exact .complete hdone
  | false => exact .next hdone ht ⟨h, fun _ => hkeep⟩ (hcost hdone) hfinal hamounts

/-- **What a call of `async_write_some` comes to**, for every state of the serializer, every limit
and every socket. -/
theorem writeSomeOp_outcome (h : Serializing m s ps t) (hdone : s.isDone = false) :
    WriteSomeOutcome m s ps t k (writeSomeOp m s k) := by
  have hnext := h.remaining.next hdone h.keepAlive
  rw [writeSomeOp, hdone]
  generalize Serializer.next m s = outcome at hnext
  cases hnext with
  | @complete s' hst hkeep ht =>
    subst ht
    have hconsume : s'.consume 0 = { s' with view := s'.view.drop 0 } := by
      unfold Serializer.consume
      simp only
      split
      · rfl
      · rw [Serializer.advance, hst]
    have hremaining : Remaining m (s'.consume 0) [] [] := by
      rw [hconsume]
      exact .rest (.complete hst)
    have hkeep' : (s'.consume 0).keepAlive = m.keepAlive := by
      rw [hconsume]
      exact hkeep
    refine .of_wrote rfl rfl hremaining hkeep' (fun hnot => ?_) rfl (Nat.le_refl _)
    rw [hconsume, Serializer.isDone, decide_eq_false_iff_not] at hnot
    exact absurd hst hnot
  | @view s' ps' t' hview hkeep hrest ht hle hlt =>
    subst ht
    obtain ⟨hpre, hempty⟩ := s'.visible_prefix
    have hcost : ∀ {s'' : Serializer σ} {n : Nat}, s''.starting = 0 →
        (0 < n ∨ s'.view = []) → n ≤ s'.view.length →
        writeCost s'' ps' ((s'.view ++ t').drop n) < writeCost s ps (s'.view ++ t') := by
      intro s'' n hstart hor hn
      unfold writeCost
      rw [hstart, List.length_drop, List.length_append]
      rcases hor with hpos | hnil
      · omega
      · have := hlt hnil
        rw [hnil, List.length_nil] at hn ⊢
        omega
    have hsplit : ∀ {n : Nat}, n ≤ s'.visible.length →
        s'.view ++ t' = s'.visible.take n ++ (s'.view ++ t').drop n := by
      intro n hn
      have htake : s'.visible.take n = (s'.view ++ t').take n := by
        obtain ⟨r, hr⟩ := hpre
        rw [← hr, List.append_assoc, List.take_append_of_le_length hn]
      rw [htake, List.take_append_drop]
    have hlen := hpre.length_le
    show WriteSomeOutcome m s ps (s'.view ++ t') k (writeBuffers s' s'.visible k)
    rw [writeBuffers]
    by_cases hnil : s'.visible = []
    · -- an empty piece: nothing is written, and the serializer goes on
      have hwrite : k.writeSome s'.visible = (.ok 0, k) := if_pos hnil
      rw [hwrite]
      obtain ⟨hremaining, hkeep', -, hstart⟩ :=
        Remaining.consume hview hrest (Nat.zero_le s'.view.length)
      refine .of_wrote ?_ (hsplit (Nat.zero_le _)) hremaining (hkeep'.trans hkeep)
        (fun _ => hcost hstart (.inr (hempty hnil)) (Nat.zero_le _)) rfl (Nat.le_add_right _ _)
      rfl
    · rcases k.writeSome_cases hnil with ⟨hamounts, hwrite⟩ | ⟨n, k', hwrite, hpos, hn, hf, hk⟩
      · rw [hwrite]
        refine .fail hamounts fun happend => hnil ?_
        rw [(List.append_eq_nil_iff.1 happend).1] at hpre
        exact List.prefix_nil.1 hpre
      · rw [hwrite]
        have hn' : n ≤ s'.view.length := Nat.le_trans hn hlen
        obtain ⟨hremaining, hkeep', -, hstart⟩ := Remaining.consume hview hrest hn'
        have hsent : n = (s'.visible.take n).length := by
          rw [List.length_take, Nat.min_eq_left hn]
        refine .of_wrote hsent (hsplit hn) hremaining (hkeep'.trans hkeep)
          (fun _ => hcost hstart (.inl hpos) hn') hf ?_
        rw [← hsent]
        omega

/-- **What the loop of `write_op` comes to**, with enough fuel for what is still to be done, by
induction on the fuel. -/
theorem writeFrom_outcome {fuel n : Nat} {wire : Str} (h : Serializing m s ps t)
    (hdone : s.isDone = false) (hfuel : writeCost s ps t < fuel) :
    ∃ result, writeFrom Serializer.isDone m fuel s k n wire = some result ∧
      WriteOutcome m.keepAlive t k n wire result := by
  induction fuel generalizing s k ps t n wire with
  | zero => cases hfuel
  | succ fuel ih =>
    have hstep := writeSomeOp_outcome (k := k) h hdone
    rw [writeFrom]
    generalize writeSomeOp m s k = step at hstep
    cases hstep with
    | @next s' k' ps' sent t' hdone' ht hnext hcost hfinal hamounts =>
      obtain ⟨result, hresult, houtcome⟩ :=
        @ih s' ps' t' k' (n + sent.length) (wire ++ sent) hnext hdone' (by omega)
      refine ⟨result, ?_, ?_⟩
      · simp only [hdone']
        exact hresult
      · subst ht
        cases houtcome with
        | complete hkeep =>
          rw [Nat.add_assoc, ← List.length_append, List.append_assoc]
          exact .complete hkeep
        | @close sent' last hkeep ht' =>
          rw [Nat.add_assoc, ← List.length_append, List.append_assoc]
          have htext : sent ++ t' = sent ++ sent' ++ last := by rw [ht', List.append_assoc]
          exact .close hkeep htext
        | @fail sent' unsent ht' hne hle =>
          rw [Nat.add_assoc, ← List.length_append, List.append_assoc, hfinal]
          have htext : sent ++ t' = sent ++ sent' ++ unsent := by rw [ht', List.append_assoc]
          refine .fail htext hne ?_
          rw [List.length_append]
          omega
    | @complete s' k' hdone' =>
      cases hkeep : m.keepAlive with
      | true =>
        refine ⟨⟨{}, n + t.length, wire ++ t⟩, ?_, .complete rfl⟩
        simp only [hdone', if_true]
        rfl
      | false =>
        exact ⟨⟨endOfStream, n, wire ++ t⟩, rfl, .close rfl (List.nil_append t).symm⟩
    | @fail s' k' hamounts hne =>
      refine ⟨⟨k.final, n, wire ++ []⟩, ?_, ?_⟩
      · simp only [k.failed, if_true]
      · refine .fail (List.nil_append t).symm hne ?_
        rw [hamounts]
        exact Nat.le_refl _

/-- A serializer starts with the header, and what its reader delivers is the body. -/
theorem Serializing.construct {reader reader' : σ} (hinit : m.body.init reader = .ok reader')
    (hps : Serializer.Delivers m.body reader' ps) (limit : Option {n : Nat // 0 < n}) :
    Serializing m { reader, limit } ps (m.header ++ Serializer.encode m.chunked ps) :=
  ⟨.rest (.construct rfl hinit hps), fun h => absurd rfl h⟩

/-- `get` of a reader that delivers pieces, one with each call, and says each time that there may be
more. -/
def nextPiece : List Str → Except ErrorCode (Option (Str × Bool)) × List Str
  | [] => (.ok none, [])
  | p :: ps => (.ok (some (p, true)), ps)

/-- A reader that delivers pieces, and says behind the last one that there are no more. -/
def piecesReader : BodyReader (List Str) := ⟨.ok, nextPiece⟩

/-- The reader of a list of pieces delivers them in their order. -/
theorem delivers_pieces (ps : List Str) : Serializer.Delivers piecesReader ps ps := by
  induction ps with
  | nil => exact .none rfl
  | cons p ps ih => exact .more rfl ih

theorem fiveSink_pos : 0 ∉ [5, 1] := by decide

theorem failed_eof : ErrorCode.eof.failed = true := rfl

/-- A socket that takes five octets, then one, and then fails. -/
def fiveSink : Sink := ⟨[5, 1], .eof, fiveSink_pos, failed_eof⟩

end

/-! ## Requests and responses -/

/-- A request as its serializer sees it, its body being read by `reader`. -/
def Request.source {σ : Type _} (m : Request) (body : BodyReader σ) : Source σ where
  header := m.header
  keepAlive := m.fields.keepAlive m.version
  chunked := m.fields.chunked
  body

/-- A `response<dynamic_body>` as its serializer sees it: its header, its body, and what its fields
say of both. -/
def Response.source (r : Response) : Source Str where
  header := r.header
  keepAlive := r.fields.keepAlive r.version
  chunked := r.fields.chunked
  body := dynamicBodyReader

/-- The octets of a response: its header, and its body as it is encoded. -/
def Response.text (r : Response) : Str :=
  r.header ++ Serializer.encode r.fields.chunked [r.body]

/-- The write of a response ends: as much fuel as it has octets, and three more, is enough. -/
theorem writeOp_response (r : Response) (k : Sink) :
    ∃ result, writeOp Serializer.isDone (r.text.length + 3) r.source { reader := r.body } k =
        some result ∧
      WriteOutcome (r.fields.keepAlive r.version) r.text k 0 [] result :=
  writeFrom_outcome (.construct (m := r.source) rfl (Serializer.delivers_dynamicBody r.body) none)
    rfl (Nat.lt_succ_self _)

/-- `async_write` of a response, with a new serializer. Reference: `async_write`
(`write.ipp:806`). -/
def asyncWrite (r : Response) (k : Sink) : WriteResult :=
  (writeOp Serializer.isDone (r.text.length + 3) r.source { reader := r.body } k).get
    (Option.isSome_iff_exists.2 ((writeOp_response r k).imp fun _ h => h.1))

/-- What `async_write` of a response comes to: all of its octets are written, or the socket has
failed before the last of them. -/
theorem asyncWrite_outcome (r : Response) (k : Sink) :
    WriteOutcome (r.fields.keepAlive r.version) r.text k 0 [] (asyncWrite r k) := by
  obtain ⟨result, hresult, houtcome⟩ := writeOp_response r k
  have heq : asyncWrite r k = result := by
    rw [asyncWrite, Option.get_of_eq_some _ hresult]
  rw [heq]
  exact houtcome

end Gomibako.Beast
