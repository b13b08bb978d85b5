import Gomibako.Beast.ResponseHeader

/-!
# What is written is read, of responses

The octets that a serializer makes of a response are read as the response by the parser of responses
(`readResponse_text`), wherever its body ends: at its length, behind its last chunk, with the
stream, or in front of it, for a status that goes without one. The reason is read as it was written,
which is that of the status if the response has none.
-/

namespace Gomibako.Beast

/-! ## The body -/

/-- A body that has not ended is read by one call of `put`. -/
theorem exists_put_readBody {p : Parser} (hp : p.Started) {s : Str} (hready : p.Ready s)
    (hheader : p.core.inHeader = false) (hdone : p.isDone = false) (hne : s ≠ []) :
    ∃ step, p.PutResult s step ∧ ∀ x, readBody p hp s = .ok x ↔
      step.ec = none ∧ step.parser.isDone = true ∧ x = (step.parser.message, step.rest) := by
  have hlimit : p.core.inHeader = true → s.length < Parser.headerLimit := fun hin => by
    rw [hheader] at hin
    cases hin
  obtain ⟨step, hstep⟩ := Option.isSome_iff_exists.1 (Parser.put_isSome (fun _ => hp) hne
    (Nat.lt_succ_self (s.length + 1)))
  refine ⟨step, Parser.put_result hready hlimit hne hdone hstep, fun x => ?_⟩
  unfold readBody
  rw [if_neg (by rw [hdone]; nofun), dif_neg hne]
  simp only [Option.get_of_eq_some _ hstep]
  cases hec : step.ec with
  | some e =>
    refine iff_of_false ?_ (by rintro ⟨⟨⟩, -⟩)
    cases e <;> rintro ⟨⟩
  | none =>
    cases hq : step.parser.isDone with
    | true =>
      rw [if_pos rfl, Except.ok.injEq, eq_comm]
      exact ⟨fun h => ⟨rfl, rfl, h⟩, fun h => h.2.2⟩
    | false => exact iff_of_false (by rintro ⟨⟩) (by rintro ⟨-, ⟨⟩, -⟩)

/-- A body that ends by itself is read as it decodes, with what is behind it left. -/
theorem readBody_decodes {p : Parser} (hp : p.Started) {s t : Str} {m : Request}
    (hready : p.Ready s) (hheader : p.core.inHeader = false) (h : Parser.Decodes ⊤ p.core s m t) :
    readBody p hp s = .ok (m, t) := by
  cases hdone : p.isDone with
  | true =>
    rw [readBody, if_pos hdone]
    cases h with
    | complete => rfl
    | part hpart => exact absurd (Parser.isDone_iff.1 hdone) hpart.not_complete
  | false =>
    have hne : s ≠ [] := by
      rintro rfl
      obtain ⟨q, s', hpart, -⟩ := h.exists_part hdone
      exact absurd (hready.part_shorter hpart) (Nat.not_lt_zero _)
    obtain ⟨step, hresult, hread⟩ := exists_put_readBody hp hready hheader hdone hne
    have hdecodes : Parser.Decodes ⊤ p.core (s ++ []) m t := by
      rw [List.append_nil]
      exact h
    rw [hread]
    cases hresult with
    | @goesOn q r ec hec hr hready' hsound hcomplete hwaits =>
      have hrest := hcomplete ⊤ [] m t hdecodes
      rw [List.append_nil] at hrest
      cases hq : q.isDone with
      | false =>
        obtain ⟨q', s', hpart, -⟩ := hrest.exists_part hq
        exact absurd hpart (hwaits hq q' s')
      | true =>
        have hnone : ec = none := by
          rcases hec with ⟨hec, -⟩ | ⟨-, hnot, -⟩
          · exact hec
          · rw [hq] at hnot
            cases hnot
        cases hrest with
        | complete => exact ⟨hnone, rfl, rfl⟩
        | part hpart => exact absurd (Parser.isDone_iff.1 hq) hpart.not_complete
    | fails _ hfails => exact absurd hdecodes (hfails ⊤ [] m t)

/-- A body that is read decodes to what is read. -/
theorem decodes_of_readBody {p : Parser} (hp : p.Started) {s t : Str} {m : Request}
    (hready : p.Ready s) (hheader : p.core.inHeader = false) (h : readBody p hp s = .ok (m, t)) :
    Parser.Decodes ⊤ p.core s m t := by
  cases hdone : p.isDone with
  | true =>
    rw [readBody, if_pos hdone] at h
    cases h
    exact .complete (Parser.isDone_iff.1 hdone)
  | false =>
    have hne : s ≠ [] := by
      rintro rfl
      rw [readBody, if_neg (by rw [hdone]; nofun), dif_pos rfl] at h
      cases h
    obtain ⟨step, hresult, hread⟩ := exists_put_readBody hp hready hheader hdone hne
    obtain ⟨hec, hq, heq⟩ := (hread _).1 h
    cases hresult with
    | @goesOn q r ec _ hr hready' hsound hcomplete hwaits =>
      cases heq
      have hrest := hsound [] q.message r (by
        rw [List.append_nil]
        exact .complete (Parser.isDone_iff.1 hq))
      rw [List.append_nil] at hrest
      exact hrest
    | fails => cases hec

/-! ## Where the body ends -/

/-- The body of a response ends by itself: of one that goes without a body in front of it, else at
its length, or behind the chunk that it is. -/
inductive Response.Delimited (r : Response) : BodyEnd → Prop where
  | bodiless {e : BodyEnd} : isBodiless r.result = true → r.body = [] → e ≠ .chunked →
      Delimited r e
  | length : isBodiless r.result = false → Delimited r (.length r.body.length)
  | chunked : isBodiless r.result = false → r.body ≠ [] → Delimited r .chunked

/-- The body of a response ends by itself, or with the stream. -/
inductive Response.Ends (r : Response) (rest : Str) : BodyEnd → Prop where
  | delimited {e : BodyEnd} : r.Delimited e → Ends r rest e
  | toEof : isBodiless r.result = false → rest = [] → Ends r rest .none

/-- The parser behind the header of a response, which knows the fields and where they say that the
body ends. -/
def Response.headerParser (r : Response) (limit : Nat) (e : BodyEnd) : Parser :=
  .announce { state := .fields, bodyLimit := limit, message := { fields := r.fields } } e

/-- What a reader of the response relies on: its header is accepted, its fields tell where the body
ends, and the body is within the limit. -/
structure Response.Readable (limit : Nat) (r : Response) (e : BodyEnd) : Prop where
  accepted : r.Accepted
  frames : r.fields.Frames e
  chunked : r.fields.chunked = true ↔ e = .chunked
  limit : r.body.length ≤ limit
  size : r.body.length < 2 ^ 64

section
variable {limit : Nat} {r : Response} {e : BodyEnd}

/-- If no chunks are announced, the body of a readable response is written as it is. -/
theorem Response.Readable.encode_eq (h : r.Readable limit e) (he : e ≠ .chunked) :
    Serializer.encode r.fields.chunked [r.body] = r.body := by
  rw [Bool.eq_false_iff.2 (mt h.chunked.1 he)]
  exact List.append_nil r.body

/-- The header of a readable response is read as it was written, and what is left is the body as it
is encoded. -/
theorem Response.Readable.readHeader (h : r.Readable limit e) (rest : Str) :
    Beast.readHeader limit (r.text ++ rest) = .ok (⟨r.version, r.result, r.reasonText⟩,
      r.headerParser limit e, Serializer.encode r.fields.chunked [r.body] ++ rest) := by
  rw [Response.text, List.append_assoc]
  exact readHeader_text h.accepted h.frames limit _

/-- The body of a response that ends by itself decodes to it. -/
theorem Response.Readable.exists_decodes (h : r.Readable limit e) (hd : r.Delimited e) :
    ∃ q, finishResponse (r.headerParser limit e) r.result = .ok (.delimited q) ∧
      q.core.inHeader = false ∧ (∀ s, q.Ready s) ∧
      ∀ rest, Parser.Decodes ⊤ q.core (Serializer.encode r.fields.chunked [r.body] ++ rest)
        { fields := r.fields, body := r.body } rest := by
  cases hd with
  | bodiless hstatus hbody he =>
    refine ⟨_, by rw [finishResponse, if_pos hstatus], rfl, fun s => .complete rfl, fun rest => ?_⟩
    rw [h.encode_eq he, hbody]
    refine .of_complete rfl ?_
    cases e <;> rfl
  | length hstatus =>
    have hfinish : ∀ p : Parser, p.contentLength = true → p.len = r.body.length →
        p.bodyLimit = limit → finishResponse p r.result =
          .ok (.delimited { p with state := if r.body.length > 0 then .body0 else .complete }) := by
      intro p hcl hlen hp
      rw [finishResponse, hstatus, if_neg nofun, if_pos hcl, hlen, hp,
        if_neg (Nat.not_lt.2 h.limit)]
    refine ⟨_, hfinish _ rfl rfl rfl, ?_⟩
    rw [h.encode_eq nofun]
    by_cases hempty : r.body = []
    · rw [hempty]
      exact ⟨rfl, fun s => .complete rfl, fun rest => .of_complete rfl rfl⟩
    · have hpos := List.length_pos_iff.2 hempty
      rw [if_pos hpos]
      refine ⟨rfl, fun s => .body (.inl rfl) rfl hpos, fun rest => ?_⟩
      exact Parser.decodes_body (m := { fields := r.fields, body := r.body }) rfl rfl rfl
  | chunked hstatus hbody =>
    refine ⟨_, by rw [finishResponse, hstatus, if_neg nofun]; rfl, rfl,
      fun s => .chunkLine (.inl rfl) rfl rfl (.inl rfl), fun rest => ?_⟩
    rw [h.chunked.2 rfl]
    have hflatten : [r.body].flatten = r.body := List.flatten_singleton
    have hchunks := Parser.decodes_chunks
      (p := { state := .chunkHeader
              bodyLimit := limit
              chunked := true
              message := { fields := r.fields } })
      (fun _ _ => le_top) rfl (hflatten.symm ▸ h.limit) (hflatten.symm ▸ h.size)
      (fun hnil => hbody (List.mem_singleton.1 hnil).symm) rest
    rw [hflatten] at hchunks
    exact hchunks

end

/-! ## Responses -/

/-- A response is not empty, so it is not taken for a connection that was closed. -/
theorem Response.text_ne_nil (r : Response) (rest : Str) : r.text ++ rest ≠ [] := by
  rw [text, header, versionText]
  nofun

section
variable {limit : Nat} {s t rest : Str} {line : StatusLine} {p q : Parser}

/-- A response whose body ends by itself is read up to its end. -/
theorem readResponse_delimited (hne : s ≠ []) (hheader : readHeader limit s = .ok (line, p, t))
    (hfinish : finishResponse p line.status = .ok (.delimited q)) :
    ∃ hq, readResponse limit s = (readBody q hq t).map fun x =>
      (⟨line.version, line.status, line.reason, x.1.fields, x.1.body⟩, x.2) := by
  refine ⟨finishResponse_started hfinish, ?_⟩
  unfold readResponse
  rw [if_neg hne, hheader]
  simp only [bind, Except.bind]
  split
  · next e h => cases hfinish.symm.trans h
  · next h => cases hfinish.symm.trans h
  · next q' h =>
    cases hfinish.symm.trans h
    cases readBody q _ t <;> rfl

/-- A response whose body ends with the stream is read to the end. -/
theorem readResponse_toEof (hne : s ≠ []) (hheader : readHeader limit s = .ok (line, p, t))
    (hfinish : finishResponse p line.status = .ok .toEof) (hbody : t.length ≤ limit) :
    readResponse limit s =
      .ok (⟨line.version, line.status, line.reason, p.message.fields, t⟩, []) := by
  unfold readResponse
  rw [if_neg hne, hheader]
  simp only [bind, Except.bind]
  split
  · next e h => cases hfinish.symm.trans h
  · exact if_neg (Nat.not_lt.2 hbody)
  · next q h => cases hfinish.symm.trans h

end

/-- **What is written is read**: the octets of a response are read as the response, and what is
behind them is left. -/
theorem readResponse_text {limit : Nat} {r : Response} {e : BodyEnd} (h : r.Readable limit e)
    {rest : Str} (hends : r.Ends rest e) :
    readResponse limit (r.text ++ rest) = .ok ({ r with reason := r.reasonText }, rest) := by
  have hne : r.text ++ rest ≠ [] := r.text_ne_nil rest
  cases hends with
  | delimited hd =>
    obtain ⟨q, hfinish, hheader, hready, hdecodes⟩ := h.exists_decodes hd
    obtain ⟨hq, hread⟩ := readResponse_delimited hne (h.readHeader rest) hfinish
    rw [hread, readBody_decodes hq (hready _) hheader (hdecodes rest)]
    rfl
  | toEof hstatus hrest =>
    have hheader := h.readHeader rest
    rw [h.encode_eq nofun] at hheader
    have hbody : (r.body ++ rest).length ≤ limit := by
      rw [hrest, List.append_nil]
      exact h.limit
    rw [readResponse_toEof hne hheader (by rw [finishResponse, hstatus, if_neg nofun]; rfl) hbody,
      hrest, List.append_nil]
    rfl

/-- **A response that is cut off is not read**, if its body ends by itself. -/
theorem readResponse_cut {limit : Nat} {r : Response} {e : BodyEnd} (h : r.Readable limit e)
    (hd : r.Delimited e) {s u : Str} (htext : r.text = s ++ u) (hu : u ≠ []) :
    ∃ err, readResponse limit s = .error err := by
  obtain ⟨q, hfinish, hheader, hready, hdecodes⟩ := h.exists_decodes hd
  cases hread : readResponse limit s with
  | error err => exact ⟨err, rfl⟩
  | ok x =>
    exfalso
    by_cases hne : s = []
    · rw [readResponse, if_pos hne] at hread
      cases hread
    · cases hs : readHeader limit s with
      | error err =>
        rw [readResponse, if_neg hne, hs] at hread
        cases hread
      | ok y =>
        obtain ⟨line, p, t⟩ := y
        -- more text behind the header changes nothing, so it is that of the response
        have happend := ((headerAt_of_readHeader hs).append u).readHeader
        have hwhole := h.readHeader []
        rw [List.append_nil, htext] at hwhole
        have hsame := Except.ok.inj (hwhole.symm.trans happend)
        simp only [Prod.mk.injEq, List.append_nil] at hsame
        obtain ⟨rfl, rfl, hbody⟩ := hsame
        obtain ⟨hq, heq⟩ := readResponse_delimited hne hs hfinish
        cases hmessage : readBody q hq t with
        | error err =>
          rw [heq, hmessage] at hread
          cases hread
        | ok z =>
          obtain ⟨m, t'⟩ := z
          have hdecodes' := (decodes_of_readBody hq (hready t) hheader hmessage).append u
          have hdecodes := hdecodes []
          rw [List.append_nil, hbody] at hdecodes
          exact hu (List.append_eq_nil_iff.1 (hdecodes.det hdecodes').2).2

/-- What is read of a response whose body ends by itself, by what its write came to. -/
theorem readResponse_outcome {limit : Nat} {r : Response} {e : BodyEnd} (h : r.Readable limit e)
    (hd : r.Delimited e) {keepAlive : Bool} {k : Sink} {result : WriteResult}
    (houtcome : WriteOutcome keepAlive r.text k 0 [] result) :
    readResponse limit result.wire = .ok ({ r with reason := r.reasonText }, []) ∨
      result.error = k.final ∧ ∃ err, readResponse limit result.wire = .error err := by
  have hread : readResponse limit (r.text ++ []) = _ := readResponse_text h (.delimited hd)
  rw [List.append_nil] at hread
  cases houtcome with
  | complete => exact .inl hread
  | close => exact .inl hread
  | fail htext hne => exact .inr ⟨rfl, readResponse_cut h hd htext hne⟩

/-- **A response is read as it was written**, if the socket did not fail. -/
theorem readResponse_written {limit : Nat} {r : Response} {e : BodyEnd} (h : r.Readable limit e)
    {rest : Str} (hends : r.Ends rest e) {k : Sink} (hok : (asyncWrite r k).error ≠ k.final) :
    readResponse limit ((asyncWrite r k).wire ++ rest) =
      .ok ({ r with reason := r.reasonText }, rest) := by
  rw [(asyncWrite_outcome r k).wire_eq hok]
  exact readResponse_text h hends

/-- A response whose body of two octets has its length among the fields. -/
def plainResponse : Response where
  fields := [⟨"Server".toList, "a".toList⟩, ⟨"Content-Length".toList, "2".toList⟩]
  body := "hi".toList

/-- The response can be read by a reader with room for two octets. -/
theorem plainResponse_readable : plainResponse.Readable 2 (.length 2) where
  accepted :=
    { version := .inr rfl
      result := by decide
      reason := noControl_of_all rfl
      fields := by
        intro f hf
        rcases List.mem_cons.1 hf with rfl | hf
        · exact .of_trim rfl rfl rfl rfl
        · cases List.mem_singleton.1 hf
          exact .of_trim rfl rfl rfl rfl
      grouped := Fields.Grouped.setElement
        (Fields.Grouped.setElement Grouped.nil ⟨"Server".toList, _⟩) ⟨"Content-Length".toList, _⟩
      header := by decide }
  frames := .length (@Fields.FramedBy.intro _ _ _ [⟨"Server".toList, "a".toList⟩] [] rfl rfl rfl rfl
    (by rintro _ ⟨⟩) rfl) rfl
  chunked := iff_of_false (by decide) (by rintro ⟨⟩)
  limit := Nat.le_refl 2
  size := by decide

set_option maxRecDepth 10000 in
/-- It is read with what is behind it left, the socket taking it in two parts. -/
theorem readResponse_written_plain :
    readResponse 2 ((asyncWrite plainResponse fortySink).wire ++ "HTTP".toList) =
      .ok ({ plainResponse with reason := "OK".toList }, "HTTP".toList) :=
  readResponse_written plainResponse_readable (.delimited (.length rfl)) (by decide)

/-- **All or nothing**: of a response whose body ends by itself, the peer reads the response, or an
error if the socket fails; it never takes a part of it for a response. -/
theorem readResponse_allOrNothing {limit : Nat} {r : Response} {e : BodyEnd}
    (h : r.Readable limit e) (hd : r.Delimited e) (k : Sink) :
    readResponse limit (asyncWrite r k).wire = .ok ({ r with reason := r.reasonText }, []) ∨
      (asyncWrite r k).error = k.final ∧
        ∃ err, readResponse limit (asyncWrite r k).wire = .error err :=
  readResponse_outcome h hd (asyncWrite_outcome r k)

/-- For a socket that takes six octets: the response is read whole, or the write reports the error
of the socket and reading fails. -/
theorem readResponse_allOrNothing_plain :
    readResponse 2 (asyncWrite plainResponse fiveSink).wire =
        .ok ({ plainResponse with reason := "OK".toList }, []) ∨
      (asyncWrite plainResponse fiveSink).error = fiveSink.final ∧
        ∃ err, readResponse 2 (asyncWrite plainResponse fiveSink).wire = .error err :=
  readResponse_allOrNothing plainResponse_readable (.length rfl) fiveSink

end Gomibako.Beast
