import Gomibako.Beast.DecodeBody
import Gomibako.Beast.Read

/-!
# Reading in pieces

`async_read` hands the parser what arrives, as it arrives. If it succeeds, it has read what the
octets decode to (`asyncRead_outcome`), so that the way the octets are cut into pieces does not
matter (`asyncRead_segmentation`). If the octets decode to a message whose parts fit the buffer, it
succeeds, whatever the pieces are and whatever happens behind the message (`asyncRead_complete`).
-/

namespace Gomibako.Beast

namespace Parser

variable {p q : Parser} {s t r : Str} {fuel : Nat} {step : ParseStep}

/-! ## `put` -/

/-- The parser stays ready when more octets arrive: it has not gone too far in those that were
there. -/
theorem Ready.append (h : Ready p s) (t : Str) : Ready p (s ++ t) := by
  cases h with
  | fresh hp hskip hexpect hfinal => exact .fresh hp hskip hexpect hfinal
  | header hp hskip hexpect hfinal =>
    refine .header hp (hskip.imp_right fun hend u q v hpart => ?_) hexpect hfinal
    rw [List.append_assoc] at hpart ⊢
    exact hend _ q v hpart
  | body hp hcontent hlen => exact .body hp hcontent hlen
  | chunkLine hp hchunked hfinal hline => exact .chunkLine hp hchunked hfinal (hline.append t)
  | lastChunk hp hchunked hfinal hlast =>
    obtain ⟨hstart, hhex, heol, hseen⟩ := hlast
    obtain ⟨⟨line, hstart', hhex'⟩, heol'⟩ := SizeRead.append ⟨⟨_, hstart, hhex⟩, heol⟩ t
    refine .lastChunk hp hchunked hfinal (.intro hstart' hhex' heol' fun u => ?_)
    rw [List.append_assoc, hseen, List.append_assoc]
  | chunkBody hp hchunked hfinal hexpect hskip hlen =>
    exact .chunkBody hp hchunked hfinal hexpect hskip hlen
  | complete hp => exact .complete hp

/-- A parser that is ready reads no part of no octets. -/
theorem Ready.part_shorter (h : Ready p s) (hpart : Part p.core t q r) : r.length < t.length := by
  refine hpart.shorter ?_
  cases h with
  | fresh hp => exact .inl (by simp [buffers, core, hp, ParserState.core])
  | header hp => exact .inl (buffers_header hp)
  | body hp hcontent hlen => exact .inr hlen
  | chunkLine hp =>
    refine .inl ?_
    rcases hp with hp | hp <;> simp [buffers, core, hp, ParserState.core]
  | lastChunk hp => exact .inl (by simp [buffers, core, hp, ParserState.core])
  | chunkBody hp _ _ _ _ hlen => exact .inr hlen
  | complete hp => exact absurd (core_state hp rfl) hpart.not_complete

/-- The parser is in the header, so it has not been told where the body ends. -/
def inHeader (p : Parser) : Bool := p.state = .startLine || p.state = .fields

/-- No part leads to a header, which is the first part of a message. -/
theorem Part.not_inHeader (h : Part p s q t) : q.inHeader = false := by
  have hfinish : ∀ p : Parser, p.finishHeader.2 = none →
      p.finishHeader.1.core.inHeader = false := by
    intro p hp
    unfold finishHeader at hp ⊢
    split_ifs at hp ⊢ <;> rfl
  cases h with
  | startLine hp hline hlines hnone => exact hfinish _ hnone
  | fields hp hlines hnone => exact hfinish _ hnone
  | body => rfl
  | chunk => rfl
  | chunkBody => rfl
  | lastChunk => rfl

/-- **Every pass** reads a part, waits for the rest of it, or finds that there is none. -/
theorem pass_outcome (hready : Ready p s) (hs : p.core.inHeader = true → s.length < headerLimit)
    (hne : s ≠ []) (hdone : p.isDone = false) (h : p.pass fuel s = some step) :
    Outcome p s step := by
  cases hready with
  | fresh hp hskip hexpect hfinal =>
    have hcore : p.core = ({ p with state := .startLine } : Parser).core := by
      simp only [core, hp, ParserState.core]
    rw [pass, hp] at h
    simp only [if_neg hne] at h
    refine .of_iff (q := { p with state := .startLine }) (fun _ _ _ => by rw [hcore])
      (by rw [hcore]) List.suffix_rfl ?_
    have hs := hs (by simp [inHeader, core, hp, ParserState.core])
    exact putStartLine_outcome rfl (.header (.inl rfl) (.inl hskip) hexpect hfinal) hs h
  | header hp hskip hexpect hfinal =>
    have hready' : Ready p s := .header hp hskip hexpect hfinal
    have hs := hs (by rcases hp with hp | hp <;> simp [inHeader, core, hp, ParserState.core])
    rcases hp with hp | hp
    · rw [pass, hp] at h
      exact putStartLine_outcome hp hready' hs h
    · rw [pass, hp] at h
      exact putFields_outcome hp hready' hs h
  | body hp hcontent hlen =>
    rcases hp with hp | hp
    · have hcore : p.core = ({ p with state := .body } : Parser).core := by
        simp only [core, hp, ParserState.core]
      rw [pass, hp] at h
      cases h
      refine .of_iff (q := { p with state := .body }) (fun _ _ _ => by rw [hcore])
        (by rw [hcore]) List.suffix_rfl ?_
      exact parseBody_outcome rfl (.body (.inr rfl) hcontent hlen)
    · rw [pass, hp] at h
      cases h
      exact parseBody_outcome hp (.body (.inr hp) hcontent hlen)
  | chunkLine hp hchunked hfinal hline =>
    rcases hp with hp | hp
    · have hcore : p.core = ({ p with state := .chunkHeader } : Parser).core := by
        simp only [core, hp, ParserState.core]
      rw [pass, hp] at h
      refine .of_iff (q := { p with state := .chunkHeader }) (fun _ _ _ => by rw [hcore])
        (by rw [hcore]) List.suffix_rfl ?_
      exact parseChunkHeader_outcome rfl hchunked hfinal hline h
    · rw [pass, hp] at h
      exact parseChunkHeader_outcome hp hchunked hfinal hline h
  | lastChunk hp hchunked hfinal hlast =>
    rw [pass, hp] at h
    exact parseChunkHeader_last_outcome hp hchunked hfinal hlast h
  | chunkBody hp hchunked hfinal hexpect hskip hlen =>
    rw [pass, hp] at h
    cases h
    exact parseChunkBody_outcome hp (.chunkBody hp hchunked hfinal hexpect hskip hlen)
  | complete hp => simp [isDone, hp] at hdone

/-- What a call of `put` comes to: the octets decode to what is left of them does, the parser being
in front of a part that is not complete unless the message is; or they decode to nothing, whatever
follows. -/
inductive PutResult (p : Parser) (s : Str) : ParseStep → Prop where
  | goesOn {q : Parser} {r : Str} {ec : Option ParseError} :
      ec = none ∧ (q.isDone = true ∨ r = []) ∨
        ec = some .needMore ∧ q.isDone = false ∧ q.core.buffers = true →
      r <:+ s → Ready q r →
      (∀ t m u, Decodes ⊤ q.core (r ++ t) m u → Decodes ⊤ p.core (s ++ t) m u) →
      (∀ N t m u, Decodes N p.core (s ++ t) m u → Decodes N q.core (r ++ t) m u) →
      (q.isDone = false → ∀ q' u, ¬ Part q.core r q' u) → PutResult p s ⟨q, r, ec⟩
  | fails {q : Parser} {r : Str} {e : ParseError} : e ≠ .needMore →
      (∀ N t m u, ¬ Decodes N p.core (s ++ t) m u) → PutResult p s ⟨q, r, some e⟩

/-- The parser is done exactly if the message is complete, whatever it remembers. -/
theorem isDone_iff : p.isDone = true ↔ p.core.state = .complete := by
  unfold isDone core
  cases p.state <;> simp [ParserState.core]

/-- Before the message is complete, a text that decodes to it starts with a part that the buffer can
hold if it must be seen at once. -/
theorem Decodes.exists_part {N : ℕ∞} {m : Request} (h : Decodes N p.core s m t)
    (hdone : p.isDone = false) : ∃ q s', Part p.core s q s' ∧
      (p.core.buffers = true → (s.length : ℕ∞) ≤ s'.length + N) ∧ Decodes N q s' m t := by
  cases h with
  | complete hp => simp [isDone_iff.2 hp] at hdone
  | part hpart hlimit hrest => exact ⟨_, _, hpart, hlimit, hrest⟩

/-- A part is followed by the rest of the message. -/
theorem Part.decodes_iff (h : Part p.core s q.core r) (t : Str) {m : Request} {u : Str} :
    (Decodes ⊤ q.core (r ++ t) m u → Decodes ⊤ p.core (s ++ t) m u) ∧
      ∀ {N : ℕ∞}, Decodes N p.core (s ++ t) m u → Decodes N q.core (r ++ t) m u := by
  constructor
  · exact fun hrest => .part (h.append t) (fun _ => by simp) hrest
  · intro N hdecodes
    cases hdecodes with
    | complete hp => exact absurd hp h.not_complete
    | part hpart _ hrest =>
      obtain ⟨rfl, rfl⟩ := (h.append t).det hpart
      exact hrest

/-- **`put` decodes what it is given**: its loop goes from part to part. -/
theorem put_result (hready : Ready p s) (hs : p.core.inHeader = true → s.length < headerLimit)
    (hne : s ≠ []) (hdone : p.isDone = false) (h : p.put fuel s = some step) :
    PutResult p s step := by
  induction fuel generalizing p s with
  | zero => cases h
  | succ fuel ih =>
    unfold put at h
    cases hpass : p.pass fuel s with
    | none =>
      rw [hpass] at h
      cases h
    | some first =>
      rw [hpass] at h
      simp only at h
      cases pass_outcome hready hs hne hdone hpass with
      | @part q r hpart hreadyq =>
        have hr := hpart.suffix
        by_cases hloop : r ≠ [] ∧ q.isDone = false
        · rw [if_pos (by simp [hloop.1, hloop.2])] at h
          have hbehind : q.core.inHeader = true → r.length < headerLimit := fun hq => by
            rw [hpart.not_inHeader] at hq
            cases hq
          cases ih hreadyq hbehind hloop.1 hloop.2 h with
          | goesOn hec hr' hready' hsound hcomplete hwaits =>
            exact .goesOn hec (hr'.trans hr) hready'
              (fun t m u hd => (hpart.decodes_iff t).1 (hsound t m u hd))
              (fun N t m u hd => hcomplete N t m u ((hpart.decodes_iff t).2 hd)) hwaits
          | fails he hfails =>
            exact .fails he fun N t m u hd => hfails N t m u ((hpart.decodes_iff t).2 hd)
        · rw [if_neg (fun hcond => hloop (by simpa using hcond))] at h
          cases h
          have hnil : q.isDone = false → r = [] := fun hq => not_not.1 fun hr => hloop ⟨hr, hq⟩
          refine .goesOn (.inl ⟨rfl, ?_⟩) hr hreadyq (fun t m u => (hpart.decodes_iff t).1)
            (fun N t m u => (hpart.decodes_iff t).2) fun hq q' u hpart' => ?_
          · cases hq : q.isDone with
            | true => exact .inl rfl
            | false => exact .inr (hnil hq)
          · have hshort := hreadyq.part_shorter hpart'
            rw [hnil hq] at hshort
            cases hshort
      | @wait q r ec hec hstate hbuffers hr hiff hnone hreadyq =>
        have hstop : ¬ (decide (ec = none) && decide (r ≠ []) && !q.isDone) = true := by
          rcases hec with ⟨rfl, -⟩ | ⟨-, rfl⟩ <;> simp
        have hq : q.isDone = false := by
          rw [Bool.eq_false_iff]
          exact fun hq => hstate (isDone_iff.1 hq)
        rw [if_neg hstop] at h
        cases h
        refine .goesOn ?_ hr hreadyq (fun t m u hd => ?_) (fun N t m u hd => ?_) fun _ => hnone
        · exact hec.symm.imp (fun h => ⟨h.1, .inr h.2⟩) fun h => ⟨h.1, hq, h.2⟩
        · obtain ⟨q', s', hpart, hlimit, hrest⟩ := hd.exists_part hq
          exact .part ((hiff t q' s').2 hpart) (fun _ => by simp) hrest
        · obtain ⟨q', s', hpart, hlimit, hrest⟩ := hd.exists_part hdone
          refine .part ((hiff t q' s').1 hpart) (fun hb => ?_) hrest
          refine le_trans ?_ (hlimit (hbuffers.trans hb))
          rw [List.length_append, List.length_append]
          exact_mod_cast Nat.add_le_add_right hr.length_le _
      | @fail q r e he hfail =>
        rw [if_neg (by simp)] at h
        cases h
        refine .fails he fun N t m u hd => ?_
        obtain ⟨q', s', hpart, -⟩ := hd.exists_part hdone
        exact hfail t q' s' hpart

/-- `put_eof` does not accept a message that has started and is not complete. -/
theorem putEof_of_ready (h : Ready p s) (hgot : p.gotSome = true) (hdone : p.isDone = false) :
    p.putEof = .error .partialMessage := by
  cases h with
  | fresh hp => simp [gotSome, hp] at hgot
  | header hp => rcases hp with hp | hp <;> simp [putEof, hp]
  | body hp hcontent => rcases hp with hp | hp <;> simp [putEof, hp, hcontent]
  | chunkLine hp hchunked => rcases hp with hp | hp <;> simp [putEof, hp, hchunked]
  | lastChunk hp hchunked => simp [putEof, hp, hchunked]
  | chunkBody hp hchunked => simp [putEof, hp, hchunked]
  | complete hp => simp [isDone, hp] at hdone

end Parser

/-! ## The reading -/

open Beast.Parser (Decodes Part Ready headerLimit)

/-- The octets that are sent, without the pieces that they arrive in. -/
def Stream.octets (s : Stream) : Str := s.chunks.flatten

/-- What is read is the start of what is sent. -/
theorem Stream.readSome_octets {s s' : Stream} {n : Nat} {octets : Str}
    (h : s.readSome n = some (octets, s')) : s.octets = octets ++ s'.octets := by
  obtain ⟨chunks, final, hne, hf⟩ := s
  cases chunks with
  | nil => cases h
  | cons c cs =>
    unfold readSome at h
    simp only at h
    split at h
    · cases h
      rfl
    · cases h
      show c ++ cs.flatten = c.take n ++ (c.drop n ++ cs.flatten)
      rw [← List.append_assoc, List.take_append_drop]

/-- If nothing is read from a stream, the peer sends nothing any more. -/
theorem Stream.readSome_none {s : Stream} {n : Nat} (h : s.readSome n = none) : s.octets = [] := by
  obtain ⟨chunks, final, hne, hf⟩ := s
  cases chunks with
  | nil => rfl
  | cons c cs =>
    unfold readSome at h
    simp only at h
    split at h <;> cases h

section
variable {N : Nat} {p : Parser} {b : FlatStaticBuffer N} {stream : Stream} {fuel : Nat}

/-- An error of the parser is a failure for the caller of the read, none of its codes being that of
success. -/
theorem ParseError.toErrorCode_ne_success (e : ParseError) : e.toErrorCode ≠ {} := by
  intro h
  have hvalue := congrArg ErrorCode.value h
  cases e <;> exact absurd hvalue (by decide)

/-- If `put` leaves the end of what the buffer holds, this is what the buffer holds after the rest
is consumed. -/
theorem FlatStaticBuffer.consume_data {r : Str} (hr : r <:+ b.data) :
    (b.consume (b.size - r.length)).data = r :=
  (List.suffix_iff_eq_drop.1 hr).symm

/-- Octets that are read within `read_size` fit the buffer, and are behind those that it held. -/
theorem FlatStaticBuffer.commit_data {octets : Str} (h : octets.length ≤ b.readSize 65536) :
    (b.commit octets).data = b.data ++ octets := by
  have hle : octets.length ≤ N - b.size := by
    unfold readSize at h
    omega
  show b.data ++ octets.take (N - b.size) = b.data ++ octets
  rw [List.take_of_length_le hle]

/-- The position of the reading in the message: the parser is ready for what the buffer holds, and
where more is read, it has read all parts that are in the buffer. -/
structure InMessage (pos : ReadPos) (p : Parser) (b : FlatStaticBuffer N) : Prop where
  ready : Ready p b.data
  isDone : p.isDone = false
  octets : pos = .parse → b.data ≠ []
  waits : pos = .read →
    (∀ q u, ¬ Part p.core b.data q u) ∧ (p.core.buffers = true ∨ b.data = [])

/-- A read starts in front of a message, whether the buffer holds octets of it or not. -/
theorem InMessage.start (b : FlatStaticBuffer N) : InMessage (readStart b) {} b := by
  refine ⟨.fresh rfl rfl rfl rfl, rfl, fun hpos hnil => ?_, fun hpos => ?_⟩
  · simp [readStart, FlatStaticBuffer.size, hnil] at hpos
  · have hnil : b.data = [] := by
      by_contra hne
      have hsize : b.size ≠ 0 := fun h => hne (List.length_eq_zero_iff.1 h)
      rw [readStart, if_neg hsize] at hpos
      cases hpos
    rw [hnil]
    refine ⟨fun q u hpart => ?_, .inr rfl⟩
    have hshort := hpart.shorter (.inl rfl)
    cases hshort

/-- What a step of the reading comes to: the message is complete, or the reading goes on in it, or
the octets decode to nothing whose parts fit the buffer. -/
inductive ReadOutcome (p : Parser) (b : FlatStaticBuffer N) (stream : Stream) :
    ReadStep N → Prop where
  | done {request : Request} {b' : FlatStaticBuffer N} :
      Decodes ⊤ p.core (b.data ++ stream.octets) request (b'.data ++ stream.octets) →
      ReadOutcome p b stream (.done { request, buffer := b', stream })
  | next {pos : ReadPos} {p' : Parser} {b' : FlatStaticBuffer N} {stream' : Stream} :
      InMessage pos p' b' → stream'.octets <:+ stream.octets →
      (∀ m u, Decodes ⊤ p'.core (b'.data ++ stream'.octets) m u →
        Decodes ⊤ p.core (b.data ++ stream.octets) m u) →
      (∀ M m u, Decodes M p.core (b.data ++ stream.octets) m u →
        Decodes M p'.core (b'.data ++ stream'.octets) m u) →
      ReadOutcome p b stream (.next pos p' b' stream')
  | fail {error : ErrorCode} {b' : FlatStaticBuffer N} {thrown : Option StdException} :
      error ≠ {} → (∀ m u, ¬ Decodes N p.core (b.data ++ stream.octets) m u) →
      ReadOutcome p b stream (.done { error, buffer := b', stream, thrown })

/-- The label `do_parse`: a call of `put` completes the message, or leads on in it, or shows that
there is none that fits. -/
theorem readParse_outcome (hN : N < headerLimit) (hin : InMessage .parse p b) {step : ReadStep N}
    (h : readParse fuel p b stream = some step) : ReadOutcome p b stream step := by
  obtain ⟨put, hput, rfl⟩ := Option.map_eq_some_iff.1 h
  have hlen : b.data.length < headerLimit := Nat.lt_of_le_of_lt b.size_le hN
  cases Parser.put_result hin.ready (fun _ => hlen) (hin.octets rfl) hin.isDone hput with
  | @goesOn q r ec hec hr hready hsound hcomplete hwaits =>
    have hdata := FlatStaticBuffer.consume_data hr
    simp only
    generalize hb : b.consume (b.size - r.length) = b' at hdata
    subst hdata
    have hnext : q.isDone = false → q.core.buffers = true ∨ b'.data = [] →
        ReadOutcome p b stream (.next .read q b' stream) := fun hq hor =>
      .next ⟨hready, hq, nofun, fun _ => ⟨hwaits hq, hor⟩⟩ List.suffix_rfl
        (fun m u => hsound stream.octets m u) fun M m u => hcomplete M stream.octets m u
    rcases hec with ⟨rfl, hor⟩ | ⟨rfl, hq, hbuffers⟩
    · simp only
      split
      · next hq => exact .done (hsound _ _ _ (.complete (Parser.isDone_iff.1 hq)))
      · next hq =>
        have hnil : b'.data = [] := hor.resolve_left hq
        have hpos : readStart b' = .read := by
          rw [readStart, FlatStaticBuffer.size, hnil]
          rfl
        rw [hpos]
        exact hnext (Bool.eq_false_iff.2 hq) (.inr hnil)
    · exact hnext hq (.inl hbuffers)
  | @fails q r e he hfails =>
    have hother : ∀ b' : FlatStaticBuffer N, ReadOutcome p b stream
        (.done { error := e.toErrorCode, buffer := b', stream, thrown := e.exception }) := fun b' =>
      .fail e.toErrorCode_ne_success fun m u => hfails _ _ m u
    cases e <;> first | exact hother _ | exact absurd rfl he

/-- The label `do_read`: octets arrive behind those in the buffer, unless it is full or the peer
sends no more. -/
theorem readMore_outcome (hpos : 0 < N) (hin : InMessage .read p b) :
    ReadOutcome p b stream (readMore p b stream) := by
  obtain ⟨hwaits, hbuffers⟩ := hin.waits rfl
  -- a message whose parts fit goes on in the stream, and there is space for it
  have hgoesOn : ∀ m u, Decodes N p.core (b.data ++ stream.octets) m u →
      stream.octets ≠ [] ∧ b.data.length < N := by
    intro m u hd
    obtain ⟨q, s', hpart, hlimit, -⟩ := hd.exists_part hin.isDone
    have hlt := Parser.length_lt_of_not_part hwaits hpart
    refine ⟨fun hnil => by simp [hnil] at hlt, ?_⟩
    rcases hbuffers with hb | hnil
    · have hle := hlimit hb
      rw [List.length_append] at hle
      have hle' : b.data.length + stream.octets.length ≤ s'.length + N := by exact_mod_cast hle
      omega
    · rw [hnil]
      exact hpos
  unfold readMore
  split
  · next hsize =>
    refine .fail (fun h => ?_) fun m u hd => ?_
    · have hvalue := congrArg ErrorCode.value h
      exact absurd hvalue (by decide)
    · have hlt := (hgoesOn m u hd).2
      unfold FlatStaticBuffer.readSize FlatStaticBuffer.size at hsize
      omega
  · next hsize =>
    split
    · next octets rest hread =>
      obtain ⟨hne, hle, -, -⟩ := Stream.readSome_length (Nat.pos_of_ne_zero hsize) hread
      have hoctets := Stream.readSome_octets hread
      have hdata := FlatStaticBuffer.commit_data hle
      have hsame : (b.commit octets).data ++ rest.octets = b.data ++ stream.octets := by
        rw [hdata, hoctets, List.append_assoc]
      refine .next ⟨?_, hin.isDone, fun _ hnil => ?_, nofun⟩ ⟨octets, hoctets.symm⟩
        (fun m u hd => hsame ▸ hd) fun M m u hd => hsame ▸ hd
      · rw [hdata]
        exact hin.ready.append octets
      · rw [hdata] at hnil
        exact hne (List.append_eq_nil_iff.1 hnil).2
    · next hread =>
      have hnone : ∀ m u, ¬ Decodes N p.core (b.data ++ stream.octets) m u := fun m u hd =>
        (hgoesOn m u hd).1 (Stream.readSome_none hread)
      split
      · split
        · next hgot =>
          rw [Parser.putEof_of_ready hin.ready hgot hin.isDone]
          exact .fail (ParseError.toErrorCode_ne_success _) hnone
        · refine .fail (fun h => ?_) hnone
          exact ne_endOfStream.1 h.symm
      · refine .fail (fun h => ?_) hnone
        have hfailed := stream.failed
        rw [h] at hfailed
        cases hfailed

/-- What a step of the reading comes to, at either label. -/
theorem readStep_outcome (hN : N < headerLimit) (hpos : 0 < N) {pos : ReadPos}
    (hin : InMessage pos p b) {step : ReadStep N}
    (h : readStep fuel pos p b stream = some step) : ReadOutcome p b stream step := by
  cases pos with
  | parse => exact readParse_outcome hN hin h
  | read => exact Option.some.inj h ▸ readMore_outcome hpos hin

/-- **What a read comes to**: it fails, and the octets decode to nothing whose parts fit the buffer;
or it succeeds, nothing is thrown, and it is what the octets decode to, up to those that are left in
the buffer and in the stream. -/
theorem readFrom_outcome (hN : N < headerLimit) (hpos : 0 < N) {pos : ReadPos}
    {result : ReadResult N} (h : readFrom fuel pos p b stream = some result)
    (hin : InMessage pos p b) :
    (result.error ≠ {} ∧ ∀ m u, ¬ Decodes N p.core (b.data ++ stream.octets) m u) ∨
      result.error = {} ∧ result.thrown = none ∧ result.stream.octets <:+ stream.octets ∧
        Decodes ⊤ p.core (b.data ++ stream.octets) result.request
          (result.buffer.data ++ result.stream.octets) := by
  refine readFrom_induct
    (motive := fun pos p b stream result => InMessage pos p b →
      (result.error ≠ {} ∧ ∀ m u, ¬ Decodes N p.core (b.data ++ stream.octets) m u) ∨
        result.error = {} ∧ result.thrown = none ∧ result.stream.octets <:+ stream.octets ∧
          Decodes ⊤ p.core (b.data ++ stream.octets) result.request
            (result.buffer.data ++ result.stream.octets))
    (fun hs hin => ?done) (fun hs ih hin => ?next) h hin
  case done =>
    cases readStep_outcome hN hpos hin hs with
    | done hd => exact .inr ⟨rfl, rfl, List.suffix_rfl, hd⟩
    | fail herror hnone => exact .inl ⟨herror, hnone⟩
  case next =>
    cases readStep_outcome hN hpos hin hs with
    | next hin' hsuffix hsound hcomplete =>
      rcases ih hin' with ⟨herror, hnone⟩ | ⟨herror, hthrown, hunread, hd⟩
      · exact .inl ⟨herror, fun m u hd => hnone m u (hcomplete _ m u hd)⟩
      · exact .inr ⟨herror, hthrown, hunread.trans hsuffix, hsound _ _ hd⟩

/-- The message that a text starts with, and what is behind it. -/
def DecodesTo (M : ℕ∞) (octets : Str) (m : Request) (rest : Str) : Prop :=
  Decodes M ({} : Parser).core octets m rest

/-- A read by its outcome: it fails exactly if the octets decode to no message that fits, and else
it delivers this message and leaves what is behind it. -/
theorem asyncRead_outcome (hN : N < headerLimit) (hpos : 0 < N) (b : FlatStaticBuffer N)
    (stream : Stream) :
    ((asyncRead b stream).error ≠ {} ∧ ∀ m u, ¬ DecodesTo N (b.data ++ stream.octets) m u) ∨
      (asyncRead b stream).error = {} ∧ (asyncRead b stream).thrown = none ∧
        (asyncRead b stream).stream.octets <:+ stream.octets ∧
        DecodesTo ⊤ (b.data ++ stream.octets) (asyncRead b stream).request
          ((asyncRead b stream).buffer.data ++ (asyncRead b stream).stream.octets) :=
  readFrom_outcome hN hpos (asyncRead_eq b stream) (.start b)

/-- **A message is read, whatever its pieces are**: if the octets that the buffer holds and the peer
sends start with a message whose parts fit the buffer, the read delivers it, and leaves what is
behind it, the end of what the peer sends in the stream and the rest in the buffer; and nothing is
thrown. -/
theorem asyncRead_complete (hN : N < headerLimit) (hpos : 0 < N) {b : FlatStaticBuffer N}
    {stream : Stream} {m : Request} {rest : Str}
    (h : DecodesTo N (b.data ++ stream.octets) m rest) :
    (asyncRead b stream).error = {} ∧ (asyncRead b stream).thrown = none ∧
      (asyncRead b stream).request = m ∧
      (asyncRead b stream).stream.octets <:+ stream.octets ∧
      (asyncRead b stream).buffer.data ++ (asyncRead b stream).stream.octets = rest := by
  rcases asyncRead_outcome hN hpos b stream with ⟨-, hnone⟩ | ⟨herror, hthrown, hunread, hd⟩
  · exact absurd h (hnone m rest)
  · obtain ⟨hm, hrest⟩ := h.det hd
    exact ⟨herror, hthrown, hm, hunread, hrest⟩

/-- The octets of a request whose body comes in one chunk of three octets. -/
def chunkedOctets : Str :=
  "PUT /a HTTP/1.1\r\nTransfer-Encoding: chunked\r\n\r\n3\r\nabc\r\n0\r\n\r\n".toList

theorem chunkedOctets_ne_nil : chunkedOctets ≠ [] := by decide

theorem chunkedOctets_drop_ne_nil : chunkedOctets.drop 55 ≠ [] := by decide

/-- The request that the octets are of, with the octets of the chunk as its body. -/
def chunkedRequest : Request where
  method := .put
  target := "/a".toList
  fields := [⟨"Transfer-Encoding".toList, "chunked".toList⟩]
  body := "abc".toList

set_option maxRecDepth 10000 in
/-- The octets decode to the request: the header, a chunk, its octets, and the last chunk. -/
theorem decodesTo_chunked : DecodesTo 48 chunkedOctets chunkedRequest [] := by
  refine .part (.startLine rfl rfl (.field rfl rfl .done) rfl) (fun _ => ?_) <|
    .part (.chunk rfl (.intro rfl rfl rfl rfl) nofun (by decide)) (fun _ => ?_) <|
    .part (.chunkBody rfl (by decide)) nofun <|
    .part (.lastChunk rfl (.intro rfl rfl rfl rfl) .done) (fun _ => ?_) (.complete rfl)
  all_goals exact_mod_cast (by decide : (_ : Nat) ≤ _ + 48)

/-- The peer that sends the octets in one piece and then closes the connection. -/
def chunkedStream : Stream := .chunk chunkedOctets chunkedOctets_ne_nil

/-- A request that is longer than the buffer is read, and nothing is left. -/
theorem asyncRead_complete_chunked :
    (asyncRead (N := 48) {} chunkedStream).error = {} ∧
      (asyncRead (N := 48) {} chunkedStream).thrown = none ∧
      (asyncRead (N := 48) {} chunkedStream).request = chunkedRequest ∧
      (asyncRead (N := 48) {} chunkedStream).stream.octets <:+ chunkedStream.octets ∧
      (asyncRead (N := 48) {} chunkedStream).buffer.data ++
        (asyncRead (N := 48) {} chunkedStream).stream.octets = [] :=
  asyncRead_complete (by decide) (by decide) decodesTo_chunked

/-- **The pieces do not matter**: two reads of the same octets that succeed, whatever part of them
was in the buffer and however the rest arrived, deliver the same message and leave the same octets
behind it, those in the buffer followed by those that the stream has not delivered. -/
theorem asyncRead_segmentation {N' : Nat} (hN : N < headerLimit) (hpos : 0 < N)
    (hN' : N' < headerLimit) (hpos' : 0 < N') {b : FlatStaticBuffer N} {b' : FlatStaticBuffer N'}
    {stream stream' : Stream} (hsame : b.data ++ stream.octets = b'.data ++ stream'.octets)
    (h : (asyncRead b stream).error = {}) (h' : (asyncRead b' stream').error = {}) :
    (asyncRead b stream).request = (asyncRead b' stream').request ∧
      (asyncRead b stream).buffer.data ++ (asyncRead b stream).stream.octets =
        (asyncRead b' stream').buffer.data ++ (asyncRead b' stream').stream.octets := by
  rcases asyncRead_outcome hN hpos b stream with ⟨herror, -⟩ | ⟨-, -, -, hd⟩
  · exact absurd h herror
  · rcases asyncRead_outcome hN' hpos' b' stream' with ⟨herror, -⟩ | ⟨-, -, -, hd'⟩
    · exact absurd h' herror
    · rw [hsame] at hd
      exact hd'.det hd

set_option maxRecDepth 10000 in
/-- A request is the same in one piece and in two. -/
theorem asyncRead_segmentation_chunked :
    (asyncRead (N := 128) ⟨chunkedOctets.take 55, by decide⟩
        (.chunk _ chunkedOctets_drop_ne_nil)).request =
      (asyncRead (N := 4096) {} chunkedStream).request ∧
    (asyncRead (N := 128) ⟨chunkedOctets.take 55, by decide⟩
        (.chunk _ chunkedOctets_drop_ne_nil)).buffer.data ++
      (asyncRead (N := 128) ⟨chunkedOctets.take 55, by decide⟩
        (.chunk _ chunkedOctets_drop_ne_nil)).stream.octets =
      (asyncRead (N := 4096) {} chunkedStream).buffer.data ++
        (asyncRead (N := 4096) {} chunkedStream).stream.octets :=
  asyncRead_segmentation (by decide) (by decide) (by decide) (by decide) rfl rfl rfl

end

end Gomibako.Beast
