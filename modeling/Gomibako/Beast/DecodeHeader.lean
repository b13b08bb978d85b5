import Gomibako.Beast.Decode

/-!
# The parser and the header of a message

What the parser does with a piece of a message is compared with the parts of the message: it reads a
part, it waits for the rest of one, or there is none (`Outcome`). For that the parser must not have
gone too far in what it has looked at before (`Ready`). This is shown here of the request line and
the fields (`putStartLine_outcome`).
-/

namespace Gomibako.Beast.Parser

variable {p q : Parser} {s t r : Str} {fuel : Nat} {step : ParseStep}

/-! ## What is remembered -/

/-- `do_field` does not look at what the parser remembers of the octets it will be given again. -/
theorem doField_core (p : Parser) (name value : Str) :
    p.core.doField name value = (p.doField name value).map core := by
  have hlength : (p.core.contentLength || p.core.chunked) = (p.contentLength || p.chunked) := rfl
  have hchunked : (p.core.chunked || p.core.contentLength) = (p.chunked || p.contentLength) := rfl
  unfold doField
  rw [hlength, hchunked]
  split
  · split <;> rfl
  · split
    · split
      · rfl
      · cases parseDec value <;> rfl
    · split
      · split
        · rfl
        · split <;> rfl
      · rfl

/-- `parse_fields` does not look at what the parser remembers of the octets it will be given
again. -/
theorem parseFields_core (fuel : Nat) (p : Parser) (s : Str) :
    parseFields fuel p.core s =
      (parseFields fuel p s).map fun step => { step with parser := step.parser.core } := by
  induction fuel generalizing p s with
  | zero => rfl
  | succ fuel ih =>
    unfold parseFields
    split
    · split
      · rfl
      · split
        · rfl
        · next name value rest _ =>
          rw [doField_core]
          cases p.doField name value with
          | error e => rfl
          | ok q => exact ih (q.onField name value) rest
    · rfl

/-- The request line does not look at what is remembered. -/
theorem parseStartLine_core (p : Parser) (s : Str) :
    p.core.parseStartLine s = (p.parseStartLine s).map fun x => (x.1.core, x.2) := by
  rw [parseStartLine_eq, parseStartLine_eq]
  cases parseMethod s with
  | error e => rfl
  | ok x =>
    simp only [Except.bind]
    cases parseTarget x.2 with
    | error e => rfl
    | ok y =>
      simp only
      cases parseVersion y.2 with
      | error e => rfl
      | ok z =>
        simp only
        split
        · rfl
        · rw [parseLineEnd, parseLineEnd]
          cases IsScanner.take ParseError.needMore 2 z.2 with
          | error e => rfl
          | ok w =>
            simp only [Except.bind]
            split <;> rfl

/-- `finish_header` does not look at what the parser remembers of the octets it will be given
again. -/
theorem finishHeader_core (p : Parser) :
    p.core.finishHeader.1.core = p.finishHeader.1.core ∧
      p.core.finishHeader.2 = p.finishHeader.2 := by
  have hidem : p.core.core = p.core := by
    unfold core
    cases p.state <;> rfl
  have hlength : p.core.contentLength = p.contentLength := rfl
  have hchunked : p.core.chunked = p.chunked := rfl
  have hlimit : (p.core.len > p.core.bodyLimit) = (p.len > p.bodyLimit) := rfl
  unfold finishHeader
  rw [hlength, hchunked]
  split
  · split
    · next h =>
      have h' : p.len > p.bodyLimit := h
      rw [if_pos h']
      exact ⟨hidem, rfl⟩
    · next h =>
      have h' : ¬ p.len > p.bodyLimit := h
      rw [if_neg h']
      exact ⟨rfl, rfl⟩
  · split <;> exact ⟨rfl, rfl⟩

/-! ## Fields -/

/-- `do_field` does not want more: it has the whole field, and its errors are those of the
framing. -/
theorem doField_error {name value : Str} {e : ParseError} (h : p.doField name value = .error e) :
    e ≠ .needMore := by
  unfold doField at h
  split_ifs at h
  · cases h
    nofun
  · cases h
    nofun
  · split at h <;> cases h
    nofun
  · cases h
    nofun
  · split at h <;> cases h

/-- What `parse_fields` comes to: it has read the fields, it waits for the rest of them, or they are
bad, whatever follows. -/
inductive FieldsResult (p : Parser) (s : Str) : ParseStep → Prop where
  | done {q : Parser} {r : Str} : FieldLines p s q r → FieldsResult p s ⟨q, r, none⟩
  | more {q : Parser} {r : Str} :
      (∀ t q' u, FieldLines p (s ++ t) q' u ↔ FieldLines q (r ++ t) q' u) →
      (∀ q' u, ¬ FieldLines q r q' u) → r <:+ s → FieldsResult p s ⟨q, r, some .needMore⟩
  | fail {q : Parser} {r : Str} {e : ParseError} : e ≠ .needMore →
      (∀ t q' u, ¬ FieldLines p (s ++ t) q' u) → r <:+ s → FieldsResult p s ⟨q, r, some e⟩

/-- A text that starts with an error of a field comes to that error, or to a wait for more. -/
theorem FieldsResult.of_error {c : Char} {e : ParseError} (hc : c ≠ '\r')
    (hfield : parseField (c :: s) = .error e) : FieldsResult p (c :: s) ⟨p, c :: s, some e⟩ := by
  have hnot : ∀ {u v : Str}, c :: u ≠ crlf ++ v := fun h => by
    cases h
    exact hc rfl
  by_cases he : e = .needMore
  · subst he
    exact .more (fun _ _ _ => Iff.rfl) (fun q' u h => hnot (h.crlf_of_error hfield))
      List.suffix_rfl
  · refine .fail he (fun t q' u h => ?_) List.suffix_rfl
    exact hnot (h.crlf_of_error (parseField_error_append hfield he t))

/-- What comes of the fields behind a field that is accepted is what comes of all of them. -/
theorem FieldsResult.of_field {name value : Str} (hfield : parseField s = .ok (name, value, t))
    (hdo : p.doField name value = .ok q) (h : FieldsResult (q.onField name value) t step) :
    FieldsResult p s step := by
  have hrest : t <:+ s := (List.suffix_append crlf t).trans (parseField_lines hfield).2.1
  have hiff : ∀ (u : Str) (q' : Parser) (v : Str),
      FieldLines p (s ++ u) q' v ↔ FieldLines (q.onField name value) (t ++ u) q' v := by
    intro u q' v
    rw [FieldLines.field_iff (parseField_append hfield u), hdo]
    simp
  cases h with
  | done hlines => exact .done (.field hfield hdo hlines)
  | more hmore hnone hr =>
    exact .more (fun u q' v => (hiff u q' v).trans (hmore u q' v)) hnone (hr.trans hrest)
  | fail he hfail hr =>
    exact .fail he (fun u q' v hlines => hfail u q' v ((hiff u q' v).1 hlines)) (hr.trans hrest)

/-- `parse_fields` reads the lines of the fields, waits for the rest of them, or finds them bad, by
induction on the fuel. -/
theorem parseFields_result (h : parseFields fuel p s = some step) : FieldsResult p s step := by
  induction fuel generalizing p s with
  | zero => cases h
  | succ fuel ih =>
    unfold parseFields at h
    split at h
    · next c d rest =>
      split at h
      · next hc =>
        subst hc
        cases h
        split
        · next hd =>
          refine .fail (by rintro ⟨⟩) (fun t q' u hlines => ?_) ⟨['\r', d], rfl⟩
          have hfield : parseField ('\r' :: d :: rest ++ t) = .error .badField := rfl
          cases hlines.crlf_of_error hfield
          exact hd rfl
        · next hd =>
          cases not_not.1 hd
          exact .done .done
      · next hc =>
        split at h
        · next e hfield =>
          cases h
          exact .of_error hc hfield
        · next name value rest' hfield =>
          split at h
          · next e hdo =>
            cases h
            refine .fail (doField_error hdo) (fun t q' u hlines => ?_) List.suffix_rfl
            obtain ⟨q, hdo', -⟩ := (FieldLines.field_iff (parseField_append hfield t)).1 hlines
            cases hdo.symm.trans hdo'
          · next q hdo => exact .of_field hfield hdo (ih h)
    · next hshort =>
      cases h
      refine .more (fun _ _ _ => Iff.rfl) (fun q' u hlines => ?_) List.suffix_rfl
      have hlen := hlines.suffix.length_le
      rcases s with - | ⟨c, - | ⟨d, rest⟩⟩
      · simp [crlf] at hlen
      · simp [crlf] at hlen
      · exact hshort c d rest rfl

/-- `do_field` keeps what the parser remembers: it looks at the field only. -/
theorem doField_remembers {name value : Str} (h : p.doField name value = .ok q) :
    q.skip = p.skip ∧ q.expectCRLF = p.expectCRLF ∧ q.finalChunk = p.finalChunk := by
  unfold doField at h
  split_ifs at h
  · cases h
    exact ⟨rfl, rfl, rfl⟩
  · split at h <;> cases h
    exact ⟨rfl, rfl, rfl⟩
  · split at h <;> cases h <;> exact ⟨rfl, rfl, rfl⟩
  · cases h
    exact ⟨rfl, rfl, rfl⟩

/-- `parse_fields` keeps what the parser remembers: where it goes on, and how the chunk before has
ended. -/
theorem parseFields_keeps (h : parseFields fuel p s = some step) :
    step.parser.skip = p.skip ∧ step.parser.expectCRLF = p.expectCRLF ∧
      step.parser.finalChunk = p.finalChunk := by
  refine parseFields_invariant (motive := fun q => q.skip = p.skip ∧
    q.expectCRLF = p.expectCRLF ∧ q.finalChunk = p.finalChunk) ?_ ⟨rfl, rfl, rfl⟩ h
  intro p' q s name value rest ⟨hskip, hcrlf, hfinal⟩ _ hdo
  obtain ⟨hskip', hcrlf', hfinal'⟩ := doField_remembers hdo
  exact ⟨hskip'.trans hskip, hcrlf'.trans hcrlf, hfinal'.trans hfinal⟩

/-! ## Resuming -/

/-- Where the line end before the line of a chunk ends. -/
def lineStart (p : Parser) : Nat := if p.expectCRLF then 2 else 0

/-- The parser has looked for the end of the line of a chunk, and there is no CR in what it has
looked at. -/
def LineSeen (p : Parser) (s : Str) : Prop :=
  p.skip = p.lineStart ∨
    p.lineStart ≤ p.skip ∧ p.skip ≤ s.length ∧ '\r' ∉ (s.take p.skip).drop p.lineStart

/-- The parser has read the line of the last chunk, and it finds the end of the trailer from where
it goes on. -/
inductive LastSeen (p : Parser) (s : Str) : Prop where
  | intro {line q eol : Str} : p.chunkStart s = some line → parseHex line = some (0, q) →
      findEol q = .ok (some eol) →
      (∀ t, findEom ((s ++ t).drop p.skip) = findEom (crlf ++ (eol ++ t))) → LastSeen p s

/-- The parser is ready for the octets `s` and more: it has not gone too far in what it has looked
at, and it is in front of a body only if the header has announced one. -/
inductive Ready (p : Parser) (s : Str) : Prop where
  | fresh (state : p.state = .nothingYet) (skip : p.skip = 0) (expectCRLF : p.expectCRLF = false)
      (finalChunk : p.finalChunk = false)
  | header (state : p.state = .startLine ∨ p.state = .fields)
      (skip : p.skip = 0 ∨
        ∀ t q u, Part p.core (s ++ t) q u → u.length + (p.skip + 4) ≤ (s ++ t).length)
      (expectCRLF : p.expectCRLF = false) (finalChunk : p.finalChunk = false)
  | body (state : p.state = .body0 ∨ p.state = .body) (contentLength : p.contentLength = true)
      (len : 0 < p.len)
  | chunkLine (state : p.state = .chunkHeader0 ∨ p.state = .chunkHeader)
      (chunked : p.chunked = true) (finalChunk : p.finalChunk = false) (line : p.LineSeen s)
  | lastChunk (state : p.state = .chunkHeader) (chunked : p.chunked = true)
      (finalChunk : p.finalChunk = true) (last : p.LastSeen s)
  | chunkBody (state : p.state = .chunkBody) (chunked : p.chunked = true)
      (finalChunk : p.finalChunk = false) (expectCRLF : p.expectCRLF = true) (skip : p.skip = 2)
      (len : 0 < p.len)
  | complete (state : p.state = .complete)

/-- **What the parser comes to** with the octets `s`: it reads a part, or it waits for the rest of
the part that it is in front of, or there is no part, whatever follows. If it waits and has not used
all octets, it must see all of the part. -/
inductive Outcome (p : Parser) (s : Str) : ParseStep → Prop where
  | part {q : Parser} {r : Str} : Part p.core s q.core r → Ready q r → Outcome p s ⟨q, r, none⟩
  | wait {q : Parser} {r : Str} {ec : Option ParseError} :
      ec = some .needMore ∧ q.core.buffers = true ∨ ec = none ∧ r = [] →
      q.core.state ≠ .complete → p.core.buffers = q.core.buffers → r <:+ s →
      (∀ t q' u, Part p.core (s ++ t) q' u ↔ Part q.core (r ++ t) q' u) →
      (∀ q' u, ¬ Part q.core r q' u) → Ready q r → Outcome p s ⟨q, r, ec⟩
  | fail {q : Parser} {r : Str} {e : ParseError} : e ≠ .needMore →
      (∀ t q' u, ¬ Part p.core (s ++ t) q' u) → Outcome p s ⟨q, r, some e⟩

/-- A parser that must see all of a part is in front of one, so its message is not complete. -/
theorem state_ne_of_buffers (h : p.buffers = true) : p.state ≠ .complete := by
  intro hp
  simp [buffers, hp] at h

/-- If the parser remembers more but does not move, it waits for the rest of the part that it is in
front of. -/
theorem Outcome.stay (hcore : q.core = p.core) (hbuffers : p.core.buffers = true)
    (hnone : ∀ q' u, ¬ Part p.core s q' u) (hready : Ready q s) :
    Outcome p s ⟨q, s, some .needMore⟩ :=
  .wait (.inl ⟨rfl, hcore ▸ hbuffers⟩) (hcore ▸ state_ne_of_buffers hbuffers) (hcore ▸ rfl)
    List.suffix_rfl (fun _ _ _ => by rw [hcore]) (hcore ▸ hnone) hready

/-- What the parser comes to after it has gone on in a part. -/
theorem Outcome.of_iff (hiff : ∀ t q' u, Part p.core (s ++ t) q' u ↔ Part q.core (r ++ t) q' u)
    (hbuffers : p.core.buffers = q.core.buffers) (hsuffix : r <:+ s) (h : Outcome q r step) :
    Outcome p s step := by
  cases h with
  | part hpart hready =>
    have hnil := hiff []
    simp only [List.append_nil] at hnil
    exact .part ((hnil _ _).2 hpart) hready
  | wait hec hne hbuf hsuf hiff' hnone hready =>
    exact .wait hec hne (hbuffers.trans hbuf) (hsuf.trans hsuffix)
      (fun t q' u => (hiff t q' u).trans (hiff' t q' u)) hnone hready
  | fail he hfail => exact .fail he fun t q' u hpart => hfail t q' u ((hiff t q' u).1 hpart)

/-- If a part is not complete, it ends in what follows. -/
theorem length_lt_of_not_part (hnone : ∀ q' u, ¬ Part p s q' u) {u : Str}
    (h : Part p (s ++ t) q u) : u.length < t.length := by
  by_contra hlen
  obtain ⟨u', -, hpart⟩ := h.of_append (Nat.not_lt.1 hlen)
  exact hnone q u' hpart

/-! ## The request line and the fields -/

/-- A header ends with an empty line, which `find_eom` finds. -/
theorem Part.eom_of_header (h : Part p s q t) (hp : p.state = .startLine ∨ p.state = .fields) :
    ∃ l, crlf ++ s = l ++ eom ++ t := by
  cases h with
  | startLine _ hline hfields =>
    obtain ⟨l, hl⟩ := eq_of_findEom hfields.findEom
    obtain ⟨l', hl'⟩ := (parseStartLine_crlf hline).1
    refine ⟨crlf ++ (l' ++ l), ?_⟩
    rw [← hl', hl]
    simp only [List.append_assoc]
  | fields _ hfields => exact eq_of_findEom hfields.findEom
  | body hst | chunk hst | chunkBody hst | lastChunk hst =>
    rcases hp with hp | hp <;> cases hp.symm.trans hst

/-- The parser waits for the rest of a header: it may go on three octets before the end. -/
theorem Ready.of_not_part (hstate : p.state = .startLine ∨ p.state = .fields)
    (hexpect : p.expectCRLF = false) (hfinal : p.finalChunk = false)
    (hnone : ∀ q' u, ¬ Part p.core s q' u) (hlen : 3 ≤ s.length) :
    Ready { p with skip := s.length - 3 } s := by
  refine .header hstate (.inr fun t q u hpart => ?_) hexpect hfinal
  have := length_lt_of_not_part hnone hpart
  simp only [List.length_append]
  omega

/-- In the header the parser must see all of the part that it is in front of. -/
theorem buffers_header (hstate : p.state = .startLine ∨ p.state = .fields) :
    p.core.buffers = true := by
  rcases hstate with h | h <;> simp [buffers, core, ParserState.core, h]

/-- `maybe_need_more` waits for a header that is not complete: in a text without an empty line there
is no part. -/
theorem maybeNeedMore_outcome (hstate : p.state = .startLine ∨ p.state = .fields)
    (hready : Ready p s) (hs : s.length < headerLimit) :
    p.maybeNeedMore s = ({ p with skip := 0 }, none) ∨
      ∃ q, p.maybeNeedMore s = (q, some .needMore) ∧ Outcome p s ⟨q, s, some .needMore⟩ := by
  cases hready with
  | fresh h | chunkBody h | lastChunk h | complete h =>
    rcases hstate with hstate | hstate <;> cases hstate.symm.trans h
  | body h | chunkLine h =>
    rcases hstate with hstate | hstate <;> rcases h with h | h <;> cases hstate.symm.trans h
  | header _ hskip hexpect hfinal =>
    have htake : s.take headerLimit = s := List.take_of_length_le (Nat.le_of_lt hs)
    unfold maybeNeedMore
    by_cases hzero : p.skip = 0
    · rw [if_pos hzero, ← hzero]
      exact .inl rfl
    · have hend := hskip.resolve_left hzero
      rw [if_neg hzero]
      simp only [htake]
      -- a complete header ends behind the octets that are skipped
      have hcomplete : ∀ q u, Part p.core s q u → u.length + (p.skip + 4) ≤ s.length := by
        intro q u hpart
        have := hend [] q u (by rwa [List.append_nil])
        rwa [List.append_nil] at this
      by_cases hlen : s.length < p.skip + 4
      · rw [if_pos hlen]
        refine .inr ⟨p, rfl, .stay rfl (buffers_header hstate) (fun q u hpart => ?_)
          (.header hstate hskip hexpect hfinal)⟩
        have := hcomplete q u hpart
        omega
      · rw [if_neg hlen]
        by_cases hnone : (findEom (s.drop p.skip)).isNone = true
        · have hlimit : ¬ s.length - 3 + 4 > headerLimit := by omega
          rw [if_pos hnone, if_neg hlimit]
          have hnotPart : ∀ q u, ¬ Part p.core s q u := by
            intro q u hpart
            have hle := hcomplete q u hpart
            have hcorestate : p.core.state = .startLine ∨ p.core.state = .fields := by
              rcases hstate with h | h
              · exact .inl (by simp [core, ParserState.core, h])
              · exact .inr (by simp [core, ParserState.core, h])
            obtain ⟨l, hl⟩ := hpart.eom_of_header hcorestate
            have htotal := congrArg List.length hl
            simp only [eom, crlf, List.length_append, List.length_cons, List.length_nil] at htotal
            have hdrop : s.drop p.skip = l.drop (p.skip + 2) ++ eom ++ u := by
              have hcrlf : s.drop p.skip = (crlf ++ s).drop (p.skip + 2) := rfl
              rw [hcrlf, hl, List.append_assoc, List.drop_append_of_le_length (by omega),
                List.append_assoc]
            have hsome := findEom_isSome (l.drop (p.skip + 2)) u
            rw [← hdrop] at hsome
            rw [Option.isNone_iff_eq_none.1 hnone] at hsome
            cases hsome
          exact .inr ⟨_, rfl, .stay rfl (buffers_header hstate) hnotPart
            (.of_not_part hstate hexpect hfinal hnotPart (by omega))⟩
        · rw [if_neg hnone]
          exact .inl rfl

/-- Where the parser goes on from is one of the things that `core` leaves out. -/
theorem core_skip (p : Parser) (n : Nat) : ({ p with skip := n } : Parser).core = p.core := rfl

/-- A state that does not tell how the parser got there is the same without what is remembered. -/
theorem core_state {st : ParserState} (h : p.state = st) (hst : st.core = st) :
    p.core.state = st := by
  show p.state.core = st
  rw [h, hst]

/-- What is behind the pointer, for a text that is not longer than the header limit. -/
theorem behindLimit_eq (hs : s.length < headerLimit) (hr : r <:+ s) : behindLimit s r = r := by
  rw [behindLimit, List.take_of_length_le (Nat.le_of_lt hs)]
  exact (List.suffix_iff_eq_drop.1 hr).symm

/-- The parser waits for the rest of the header from `r` on. -/
theorem needMoreHeader_outcome (hstate : q.state = .startLine ∨ q.state = .fields)
    (hbuffers : p.core.buffers = true) (hskip : q.skip = 0) (hexpect : q.expectCRLF = false)
    (hfinal : q.finalChunk = false) (hs : s.length < headerLimit) (hr : r <:+ s)
    (hiff : ∀ t q' u, Part p.core (s ++ t) q' u ↔ Part q.core (r ++ t) q' u)
    (hnone : ∀ q' u, ¬ Part q.core r q' u) : Outcome p s (q.needMoreHeader s.length r) := by
  have hq := buffers_header hstate
  rw [needMoreHeader, if_neg (by omega)]
  split
  · next hlen =>
    exact .wait (.inl ⟨rfl, hq⟩) (state_ne_of_buffers hq) (hbuffers.trans hq.symm) hr hiff hnone
      (.of_not_part hstate hexpect hfinal hnone hlen)
  · exact .wait (.inl ⟨rfl, hq⟩) (state_ne_of_buffers hq) (hbuffers.trans hq.symm) hr hiff hnone
      (.header hstate (.inl hskip) hexpect hfinal)

/-- A header from the fields on is a part exactly if its lines are complete and `finish_header`
accepts them. -/
theorem Part.fields_iff (hp : p.state = .fields) {u : Str} :
    Part p s q u ↔ ∃ p₁, FieldLines p s p₁ u ∧ p₁.finishHeader.2 = none ∧
      q = p₁.finishHeader.1.core := by
  constructor
  · intro h
    cases h with
    | fields _ hlines hfinish => exact ⟨_, hlines, hfinish, rfl⟩
    | startLine hst | body hst | chunk hst | chunkBody hst | lastChunk hst =>
      cases hp.symm.trans hst
  · rintro ⟨p₁, hlines, hfinish, rfl⟩
    exact .fields hp hlines hfinish

/-- The parser behind the header is ready for any octets, as it has looked at none of them. -/
theorem Ready.of_finishHeader (hskip : p.skip = 0) (hexpect : p.expectCRLF = false)
    (hfinal : p.finalChunk = false) (hfinish : p.finishHeader.2 = none) (s : Str) :
    Ready p.finishHeader.1 s := by
  unfold finishHeader at hfinish ⊢
  split
  · next hlength =>
    rw [if_pos hlength] at hfinish
    split
    · next hlimit =>
      rw [if_pos hlimit] at hfinish
      cases hfinish
    · by_cases hlen : p.len > 0
      · exact .body (.inl (if_pos hlen)) hlength hlen
      · exact .complete (if_neg hlen)
  · split
    · next hchunked =>
      refine .chunkLine (.inl rfl) hchunked hfinal (.inl ?_)
      simp [lineStart, hexpect, hskip]
    · exact .complete rfl

/-- The case `fields` of `put`: a complete header is a part, and `maybe_need_more` waits for the
rest of another one. -/
theorem putFields_outcome (hp : p.state = .fields) (hready : Ready p s)
    (hs : s.length < headerLimit) (h : p.putFields fuel s = some step) : Outcome p s step := by
  have hcorestate : p.core.state = .fields := core_state hp rfl
  have hflags : p.expectCRLF = false ∧ p.finalChunk = false := by
    cases hready with
    | header _ _ hexpect hfinal => exact ⟨hexpect, hfinal⟩
    | fresh hst | chunkBody hst | lastChunk hst | complete hst => cases hp.symm.trans hst
    | body hst | chunkLine hst => rcases hst with hst | hst <;> cases hp.symm.trans hst
  unfold putFields at h
  rcases maybeNeedMore_outcome (.inr hp) hready hs with hnone | ⟨q, hwait, houtcome⟩
  · rw [hnone] at h
    obtain ⟨lines, hlines, rfl⟩ := Option.map_eq_some_iff.1 h
    rw [List.take_of_length_le (Nat.le_of_lt hs)] at hlines
    have hkeeps := parseFields_keeps hlines
    have hstate := (parseFields_spec hlines).1
    have hcore := parseFields_core fuel { p with skip := 0 } s
    rw [hlines] at hcore
    have hresult : FieldsResult p.core s { lines with parser := lines.parser.core } :=
      parseFields_result hcore
    obtain ⟨q, r, ec⟩ := lines
    simp only at hkeeps hstate hresult ⊢
    have hqstate : q.state = .fields := hstate.trans hp
    have hqcore : q.core.state = .fields := core_state hqstate rfl
    cases hresult with
    | done hdone =>
      have hr : r <:+ s := (List.suffix_append crlf r).trans hdone.suffix
      obtain ⟨hcore, hec⟩ := finishHeader_core q
      rw [behindLimit_eq hs hr]
      show Outcome p s ⟨q.finishHeader.1, r, q.finishHeader.2⟩
      cases hfinish : q.finishHeader.2 with
      | none =>
        refine .part ?_ (.of_finishHeader hkeeps.1 (hkeeps.2.1.trans hflags.1)
          (hkeeps.2.2.trans hflags.2) hfinish r)
        rw [← hcore]
        exact .fields hcorestate hdone (hec.trans hfinish)
      | some e =>
        refine .fail ?_ fun t q' u hpart => ?_
        · unfold finishHeader at hfinish
          split_ifs at hfinish
          cases hfinish
          nofun
        · obtain ⟨p₁, hlines', hfinish', -⟩ := (Part.fields_iff hcorestate).1 hpart
          obtain ⟨rfl, -⟩ := (hdone.append t).det hlines'
          rw [hec, hfinish] at hfinish'
          cases hfinish'
    | more hmore hnotLines hr =>
      rw [behindLimit_eq hs hr]
      refine needMoreHeader_outcome (.inr hqstate) (buffers_header (.inr hp)) hkeeps.1
        (hkeeps.2.1.trans hflags.1) (hkeeps.2.2.trans hflags.2) hs hr (fun t q' u => ?_)
        fun q' u hpart => ?_
      · rw [Part.fields_iff hcorestate, Part.fields_iff hqcore]
        simp only [hmore]
      · obtain ⟨p₁, hlines', -⟩ := (Part.fields_iff hqcore).1 hpart
        exact hnotLines _ _ hlines'
    | @fail _ _ e he hfail hr =>
      have hother : Outcome p s ⟨q, behindLimit s r, some e⟩ := by
        refine .fail he fun t q' u hpart => ?_
        obtain ⟨p₁, hlines', -⟩ := (Part.fields_iff hcorestate).1 hpart
        exact hfail _ _ _ hlines'
      cases e <;> first | exact hother | exact absurd rfl he
  · rw [hwait] at h
    cases h
    exact houtcome

/-- If the request line is complete, the parts from it on are those from the fields behind it on. -/
theorem Part.startLine_iff (hp : p.state = .startLine) (hline : p.parseStartLine s = .ok (q, t))
    {r : Parser} {u : Str} : Part p s r u ↔ Part q t r u := by
  have hq := (parseStartLine_crlf hline).2
  constructor
  · intro h
    cases h with
    | startLine _ hline' hlines hfinish =>
      cases hline.symm.trans hline'
      exact .fields hq hlines hfinish
    | fields hst | body hst | chunk hst | chunkBody hst | lastChunk hst =>
      cases hp.symm.trans hst
  · intro h
    obtain ⟨p₁, hlines, hfinish, rfl⟩ := (fields_iff hq).1 h
    exact .startLine hp hline hlines hfinish

/-- A header is a part only if it starts with a complete request line. -/
theorem Part.exists_startLine (hp : p.state = .startLine) (h : Part p s q t) :
    ∃ p₁ s₁, p.parseStartLine s = .ok (p₁, s₁) := by
  cases h with
  | startLine _ hline => exact ⟨_, _, hline⟩
  | fields hst | body hst | chunk hst | chunkBody hst | lastChunk hst => cases hp.symm.trans hst

/-- The case `start_line` of `put`: the request line is read once the header is complete, and then
the fields. -/
theorem putStartLine_outcome (hp : p.state = .startLine) (hready : Ready p s)
    (hs : s.length < headerLimit) (h : p.putStartLine fuel s = some step) : Outcome p s step := by
  have hcorestate : p.core.state = .startLine := core_state hp rfl
  have hflags : p.expectCRLF = false ∧ p.finalChunk = false := by
    cases hready with
    | header _ _ hexpect hfinal => exact ⟨hexpect, hfinal⟩
    | fresh hst | chunkBody hst | lastChunk hst | complete hst => cases hp.symm.trans hst
    | body hst | chunkLine hst => rcases hst with hst | hst <;> cases hp.symm.trans hst
  unfold putStartLine at h
  rcases maybeNeedMore_outcome (.inl hp) hready hs with hnone | ⟨q, hwait, houtcome⟩
  · rw [hnone] at h
    simp only [List.take_of_length_le (Nat.le_of_lt hs)] at h
    have hcore := parseStartLine_core { p with skip := 0 } s
    rw [core_skip] at hcore
    cases hline : parseStartLine { p with skip := 0 } s with
    | error e =>
      rw [hline] at hcore
      have hother : e ≠ .needMore → Outcome p s ⟨{ p with skip := 0 }, s, some e⟩ := by
        refine fun he => .fail he fun t q' u hpart => ?_
        obtain ⟨p₁, s₁, hline'⟩ := hpart.exists_startLine hcorestate
        cases ((isScanner_parseStartLine _).error t hcore he).symm.trans hline'
      rw [hline] at h
      by_cases he : e = .needMore
      · subst he
        cases h
        refine needMoreHeader_outcome (.inl hp) (buffers_header (.inl hp)) rfl hflags.1 hflags.2 hs
          List.suffix_rfl (fun _ _ _ => Iff.rfl) fun q' u hpart => ?_
        obtain ⟨p₁, s₁, hline'⟩ := hpart.exists_startLine hcorestate
        cases hcore.symm.trans hline'
      · have hstep : some (⟨{ p with skip := 0 }, s, some e⟩ : ParseStep) = some step := by
          cases e <;> first | exact h | exact absurd rfl he
        cases hstep
        exact hother he
    | ok x =>
      obtain ⟨q, r⟩ := x
      rw [hline] at hcore h
      have hr : r <:+ s := (isScanner_parseStartLine _).suffix hline
      have hq : q.state = .fields := (parseStartLine_crlf hline).2
      have hkeeps : q.skip = 0 ∧ q.expectCRLF = false ∧ q.finalChunk = false := by
        rw [parseStartLine_eq] at hline
        obtain ⟨x, -, hline⟩ := Except.bind_eq_ok_iff.1 hline
        obtain ⟨y, -, hline⟩ := Except.bind_eq_ok_iff.1 hline
        obtain ⟨z, -, hline⟩ := Except.bind_eq_ok_iff.1 hline
        split at hline
        · cases hline
        · obtain ⟨w, -, hline⟩ := Except.bind_eq_ok_iff.1 hline
          split at hline <;> cases hline
          exact ⟨rfl, hflags⟩
      have hbuffers : p.core.buffers = q.core.buffers :=
        (buffers_header (.inl hp)).trans (buffers_header (.inr hq)).symm
      have hiff : ∀ t q' u, Part p.core (s ++ t) q' u ↔ Part q.core (r ++ t) q' u := fun t q' u =>
        Part.startLine_iff hcorestate ((isScanner_parseStartLine _).ok t hcore)
      have hreadyq : Ready q r := .header (.inr hq) (.inl hkeeps.1) hkeeps.2.1 hkeeps.2.2
      simp only [behindLimit_eq hs hr] at h
      split at h
      · next hnil =>
        cases h
        subst hnil
        have hqbuffers := buffers_header (.inr hq)
        refine .wait (.inl ⟨rfl, hqbuffers⟩) (state_ne_of_buffers hqbuffers) hbuffers hr hiff
          (fun q' u hpart => ?_) hreadyq
        have hshort := hpart.shorter (.inl (buffers_header (.inr hq)))
        cases hshort
      · have hrlen := hr.length_le
        exact .of_iff hiff hbuffers hr (putFields_outcome hq hreadyq (by omega) h)
  · rw [hwait] at h
    cases h
    exact houtcome

end Gomibako.Beast.Parser
