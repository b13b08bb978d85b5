import Gomibako.Beast.Read

/-!
# The fields of a message that is read

The names of the fields of every message that `async_read` delivers are tokens
(`asyncRead_tokenNames`): `parse_field` is the only source of fields, and it takes no other name.
-/

namespace Gomibako.Beast

/-- The names of the fields are tokens, so they are not empty and have no colon in them. -/
def Request.TokenNames (m : Request) : Prop := ∀ f ∈ m.fields, isToken f.name = true

/-! ## Fields -/

/-- The name of a field that is parsed is a token. -/
theorem parseField_isToken {s name value rest : Str}
    (h : parseField s = .ok (name, value, rest)) : isToken name = true := by
  unfold parseField at h
  split at h
  · cases h
  · split_ifs at h with hcolon hname
    obtain ⟨⟨v, r⟩, -, heq⟩ := Except.map_eq_ok_iff.1 h
    cases heq
    rw [isToken, Bool.and_eq_true, List.all_eq_true]
    exact ⟨by simpa using hname, fun c hc => List.mem_takeWhile_imp hc⟩

/-- A field of a list into which one is inserted is this one or was there. -/
theorem Fields.mem_insertElement {e f : Field} {fs : Fields} (h : f ∈ insertElement e fs) :
    f = e ∨ f ∈ fs := by
  induction fs with
  | nil => exact .inl (List.mem_singleton.1 h)
  | cons g fs ih =>
    unfold insertElement at h
    split at h
    · rcases List.mem_cons.1 h with rfl | h
      · exact .inr List.mem_cons_self
      · exact (List.mem_cons.1 h).imp_right (.tail _)
    · rcases List.mem_cons.1 h with rfl | h
      · exact .inr List.mem_cons_self
      · exact (ih h).imp_right (.tail _)

namespace Parser

variable {p q : Parser} {s : Str} {fuel : Nat} {step : ParseStep}

/-- A field with a token for its name is inserted. -/
theorem onField_tokenNames {name value : Str} (hp : p.message.TokenNames)
    (hname : isToken name = true) : (p.onField name value).message.TokenNames := by
  intro f hf
  rcases Fields.mem_insertElement hf with rfl | hf
  · exact hname
  · exact hp f hf

/-! ## What keeps the message -/

/-- A header that is not complete keeps the message: only the place to go on from is noted. -/
theorem needMoreHeader_message {n : Nat} {rest : Str} :
    (p.needMoreHeader n rest).parser.message = p.message := by
  unfold needMoreHeader
  split_ifs <;> rfl

/-- `finish_header` keeps the message, and with it the names of the fields. -/
theorem finishHeader_message : p.finishHeader.1.message = p.message := by
  unfold finishHeader
  split_ifs <;> rfl

/-! ## The parser -/

/-- `parse_fields` inserts fields with tokens for names, so tokens stay what all names are. -/
theorem parseFields_tokenNames (hp : p.message.TokenNames)
    (h : parseFields fuel p s = some step) : step.parser.message.TokenNames := by
  refine parseFields_invariant (motive := fun p => p.message.TokenNames) ?_ hp h
  intro p q s name value rest hp hfield hdo
  have hq : q.message.TokenNames := (doField_keeps hdo).2 ▸ hp
  exact onField_tokenNames hq (parseField_isToken hfield)

/-- The case `fields` of `put` leaves a message whose names are tokens, if they were before. -/
theorem putFields_tokenNames (hp : p.message.TokenNames) (h : p.putFields fuel s = some step) :
    step.parser.message.TokenNames := by
  unfold putFields at h
  split at h
  · next q e hq =>
    cases h
    exact (maybeNeedMore_keeps hq).2 ▸ hp
  · next q hq =>
    have hq' : q.message.TokenNames := (maybeNeedMore_keeps hq).2 ▸ hp
    obtain ⟨fields, hfields, rfl⟩ := Option.map_eq_some_iff.1 h
    have hf := parseFields_tokenNames hq' hfields
    simp only
    split
    · rw [needMoreHeader_message]
      exact hf
    · exact hf
    · show fields.parser.finishHeader.1.message.TokenNames
      rw [finishHeader_message]
      exact hf

/-- `parse_start_line` keeps the fields, which it is in front of. -/
theorem parseStartLine_fields {rest : Str} (h : p.parseStartLine s = .ok (q, rest)) :
    q.message.fields = p.message.fields := by
  unfold parseStartLine at h
  obtain ⟨⟨method, s₁⟩, -, h⟩ := Except.bind_eq_ok_iff.1 h
  obtain ⟨⟨target, s₂⟩, -, h⟩ := Except.bind_eq_ok_iff.1 h
  obtain ⟨⟨version, s₃⟩, -, h⟩ := Except.bind_eq_ok_iff.1 h
  simp only at h
  split_ifs at h
  split at h
  · cases h
  · cases h
    rfl

/-- The case `start_line` of `put` leaves a message whose names are tokens, if they were before. -/
theorem putStartLine_tokenNames (hp : p.message.TokenNames)
    (h : p.putStartLine fuel s = some step) : step.parser.message.TokenNames := by
  unfold putStartLine at h
  split at h
  · next q e hq =>
    cases h
    exact (maybeNeedMore_keeps hq).2 ▸ hp
  · next q hq =>
    have hq' : q.message.TokenNames := (maybeNeedMore_keeps hq).2 ▸ hp
    split at h
    · cases h
      rw [needMoreHeader_message]
      exact hq'
    · cases h
      exact hq'
    · next r rest hline =>
      have hr : r.message.TokenNames := fun f hf => hq' f (parseStartLine_fields hline ▸ hf)
      simp only at h
      split at h
      · cases h
        exact hr
      · exact putFields_tokenNames hr h

/-- The last chunk ends with a trailer, whose fields have tokens for names too. -/
theorem parseLastChunk_tokenNames {t r eol : Str} (hp : p.message.TokenNames)
    (h : p.parseLastChunk fuel t r eol = some step) : step.parser.message.TokenNames := by
  unfold parseLastChunk at h
  split at h
  · cases h
    exact hp
  · split at h
    · cases h
      exact hp
    · split at h
      · cases h
        exact hp
      · obtain ⟨fields, hfields, rfl⟩ := Option.map_eq_some_iff.1 h
        have hf := parseFields_tokenNames hp hfields
        split
        · exact hf
        · exact hf

/-- The line of a chunk leaves a message whose names are tokens, whether it is the last one or
not. -/
theorem parseChunkHeader_tokenNames (hp : p.message.TokenNames)
    (h : p.parseChunkHeader fuel s = some step) : step.parser.message.TokenNames := by
  unfold parseChunkHeader at h
  simp only at h
  split at h
  · split at h
    · cases h
      exact hp
    · split at h
      · cases h
        exact hp
      · split at h
        · cases h
          exact hp
        · cases h
          exact hp
        · split at h
          · cases h
            exact hp
          · split_ifs at h
            · exact parseLastChunk_tokenNames (p := { p with finalChunk := true, skip := _ }) hp h
            · cases h
              exact hp
            · split at h
              · cases h
                exact hp
              · split_ifs at h <;> cases h <;> exact hp
  · split at h
    · cases h
      exact hp
    · split at h
      · exact parseLastChunk_tokenNames hp h
      · cases h
        exact hp

/-- **Every pass** leaves tokens as the names of the fields. -/
theorem pass_tokenNames (hp : p.message.TokenNames) (h : p.pass fuel s = some step) :
    step.parser.message.TokenNames := by
  have hbody : ∀ q : Parser, q.message.TokenNames → (q.parseBody s).parser.message.TokenNames :=
    fun q hq => by
      unfold parseBody
      simp only
      split_ifs <;> exact hq
  have hchunk : (p.parseChunkBody s).parser.message.TokenNames := by
    unfold parseChunkBody
    simp only
    split_ifs <;> exact hp
  unfold pass at h
  split at h
  · split at h
    · cases h
      exact hp
    · exact putStartLine_tokenNames (p := { p with state := .startLine }) hp h
  · exact putStartLine_tokenNames hp h
  · exact putFields_tokenNames hp h
  · cases h
    exact hbody _ hp
  · cases h
    exact hbody _ hp
  · exact parseChunkHeader_tokenNames (p := { p with state := .chunkHeader }) hp h
  · exact parseChunkHeader_tokenNames hp h
  · cases h
    exact hchunk
  · cases h
    exact hp

/-- A call of `put` leaves a message whose names are tokens, by induction on its passes. -/
theorem put_tokenNames (hp : p.message.TokenNames) (h : put fuel p s = some step) :
    step.parser.message.TokenNames := by
  induction fuel generalizing p s with
  | zero => cases h
  | succ fuel ih =>
    unfold put at h
    split at h
    · cases h
    · next first hfirst =>
      have hone := pass_tokenNames hp hfirst
      split at h
      · exact ih hone h
      · cases h
        exact hone

/-- `put_eof` keeps the message; it can only complete it. -/
theorem putEof_message (h : p.putEof = .ok q) : q.message = p.message := by
  unfold putEof at h
  split_ifs at h <;> cases h <;> rfl

end Parser

/-! ## The reading -/

section
variable {N : Nat} {p : Parser} {b : FlatStaticBuffer N} {stream : Stream} {fuel : Nat}

/-- The names of the fields are tokens in what a step of the reading comes to. -/
def ReadStep.TokenNames : ReadStep N → Prop
  | .next _ p _ _ => p.message.TokenNames
  | .done result => result.request.TokenNames

/-- The part of the reading that parses leaves a message whose names are tokens, whether it is done
or goes on. -/
theorem readParse_tokenNames (hp : p.message.TokenNames) {step : ReadStep N}
    (h : readParse fuel p b stream = some step) : step.TokenNames := by
  obtain ⟨put, hput, rfl⟩ := Option.map_eq_some_iff.1 h
  have hparser := Parser.put_tokenNames hp hput
  simp only
  split
  · exact hparser
  · exact nofun
  · split
    · exact hparser
    · exact hparser

/-- The part of the reading that reads more leaves a message whose names are tokens, as it does not
parse. -/
theorem readMore_tokenNames (hp : p.message.TokenNames) : (readMore p b stream).TokenNames := by
  unfold readMore
  split
  · exact nofun
  · split
    · exact hp
    · split
      · split
        · split
          · exact nofun
          · next q hq =>
            have hq' : q.message.TokenNames := Parser.putEof_message hq ▸ hp
            exact hq'
        · exact nofun
      · exact nofun

/-- A step of the reading leaves a message whose names are tokens, whether it parses or reads. -/
theorem readStep_tokenNames {pos : ReadPos} (hp : p.message.TokenNames) {step : ReadStep N}
    (h : readStep fuel pos p b stream = some step) : step.TokenNames := by
  cases pos with
  | parse => exact readParse_tokenNames hp h
  | read => exact Option.some.inj h ▸ readMore_tokenNames hp

/-- The reading from a position on delivers a message whose names are tokens, by induction on its
steps. -/
theorem readFrom_tokenNames {pos : ReadPos} {result : ReadResult N}
    (h : readFrom fuel pos p b stream = some result) (hp : p.message.TokenNames) :
    result.request.TokenNames := by
  refine readFrom_induct
    (motive := fun _ p _ _ result => p.message.TokenNames → result.request.TokenNames)
    (fun hs hp => ?done) (fun hs ih hp => ?next) h hp
  case done => exact readStep_tokenNames hp hs
  case next => exact ih (readStep_tokenNames hp hs)

/-- **The fields that are delivered** have tokens as names, whatever the peer sends and however the
read ends. -/
theorem asyncRead_tokenNames (b : FlatStaticBuffer N) (stream : Stream) :
    (asyncRead b stream).request.TokenNames :=
  readFrom_tokenNames (asyncRead_eq b stream) nofun

end

end Gomibako.Beast
