import Gomibako.Beast.ResponseRoundTrip

/-!
# Responses whose length is set

`message::content_length`, which `prepare_payload` calls, appends a Content-Length and takes
`chunked` off the end of the Transfer-Encoding. If no other coding is left, what is written is read
with the length of the body. If one is, the Transfer-Encoding comes behind the Content-Length, and
the parser refuses the response (`readResponse_contentLength`).
-/

namespace Gomibako.Beast

/-! ## Tokens -/

/-- A character of a token is no control character, so a token may be the value of a field. -/
theorem isControl_of_isTokenChar {c : Char} (h : isTokenChar c = true) : isControl c = false := by
  have hrange : ∀ {a b : Char}, 33 ≤ a.toNat → b.toNat < 127 → a ≤ c → c ≤ b →
      isControl c = false := by
    intro a b ha hb hac hcb
    have hlow : a.toNat ≤ c.toNat := hac
    have hhigh : c.toNat ≤ b.toNat := hcb
    rw [isControl, Bool.or_eq_false_iff, Bool.and_eq_false_iff, decide_eq_false_iff_not,
      decide_eq_false_iff_not]
    omega
  have hother : ∀ d ∈ "!#$%&\x27*+-.^_\x60|~".toList, isControl d = false :=
    noControl_of_all rfl
  unfold isTokenChar isDigit at h
  simp only [Bool.or_eq_true, Bool.and_eq_true, decide_eq_true_eq] at h
  rcases h with ((h | h) | h) | h
  · exact hrange (by decide) (by decide) h.1 h.2
  · exact hrange (by decide) (by decide) h.1 h.2
  · exact hrange (by decide) (by decide) h.1 h.2
  · exact hother c h

/-- What a token list has from a position on are tokens, if the token that is being read there is
made of their characters so far. -/
theorem isToken_of_mem_tokenListFrom {pos : TokenPos} {s : Str}
    (hpos : ∀ rev, pos = .token rev → rev ≠ [] ∧ ∀ c ∈ rev, isTokenChar c = true) :
    ∀ t ∈ tokenListFrom pos s, isToken t = true := by
  have hreverse : ∀ rev : Str, rev ≠ [] → (∀ c ∈ rev, isTokenChar c = true) →
      isToken rev.reverse = true := by
    intro rev hne hrev
    rw [isToken, Bool.and_eq_true, Bool.not_eq_true', List.isEmpty_eq_false_iff, List.all_eq_true]
    exact ⟨by rwa [ne_eq, List.reverse_eq_nil_iff], fun c hc => hrev c (List.mem_reverse.1 hc)⟩
  have hbetween : ∀ {b : Bool} (rev : Str), TokenPos.between b = .token rev →
      rev ≠ [] ∧ ∀ c ∈ rev, isTokenChar c = true := by
    rintro b rev ⟨⟩
  induction s generalizing pos with
  | nil =>
    cases pos with
    | between => rintro t ⟨⟩
    | token rev =>
      intro t ht
      obtain ⟨hne, hrev⟩ := hpos rev rfl
      exact List.mem_singleton.1 ht ▸ hreverse rev hne hrev
  | cons c s ih =>
    cases pos with
    | between needComma =>
      rw [tokenListFrom]
      split_ifs with hows htoken hcomma hsep
      · exact ih hbetween
      · rintro t ⟨⟩
      · refine ih fun rev hrev => ?_
        cases hrev
        exact ⟨List.cons_ne_nil _ _, fun d hd => List.mem_singleton.1 hd ▸ htoken⟩
      · exact ih hbetween
      · rintro t ⟨⟩
    | token rev =>
      obtain ⟨hne, hrev⟩ := hpos rev rfl
      rw [tokenListFrom]
      split_ifs with htoken hows hsep
      · refine ih fun rev' hrev' => ?_
        cases hrev'
        refine ⟨List.cons_ne_nil _ _, fun d hd => ?_⟩
        rcases List.mem_cons.1 hd with rfl | hd
        · exact htoken
        · exact hrev d hd
      · intro t ht
        rcases List.mem_cons.1 ht with rfl | ht
        · exact hreverse rev hne hrev
        · exact ih hbetween t ht
      · intro t ht
        rcases List.mem_cons.1 ht with rfl | ht
        · exact hreverse rev hne hrev
        · exact ih hbetween t ht
      · intro t ht
        exact List.mem_singleton.1 ht ▸ hreverse rev hne hrev

/-- What a token list has are tokens: not empty, and made of the characters of tokens. -/
theorem isToken_of_mem_tokenList {s t : Str} (h : t ∈ tokenList s) : isToken t = true :=
  isToken_of_mem_tokenListFrom (by rintro rev ⟨⟩) t h

/-- What is left by `trim` is a part of the text, so it has no other characters. -/
theorem mem_of_mem_trim {s : Str} {c : Char} (h : c ∈ trim s) : c ∈ s := by
  have hrest := (List.dropWhile_suffix isOws).mem (List.mem_reverse.1 h)
  exact (List.dropWhile_suffix isOws).mem (List.mem_reverse.1 hrest)

/-- What holds of the texts and of what separates them holds of the text they are joined to. -/
theorem forall_mem_intercalate {P : Char → Prop} {sep : Str} {ts : List Str}
    (hsep : ∀ c ∈ sep, P c) (h : ∀ t ∈ ts, ∀ c ∈ t, P c) : ∀ c ∈ sep.intercalate ts, P c := by
  induction ts with
  | nil => rintro c ⟨⟩
  | cons t ts ih =>
    have hrest := ih fun u hu => h u (.tail _ hu)
    intro c hc
    cases ts with
    | nil =>
      rw [List.intercalate_singleton] at hc
      exact h t List.mem_cons_self c hc
    | cons u us =>
      rw [List.intercalate_cons_cons, List.mem_append, List.mem_append] at hc
      rcases hc with (hc | hc) | hc
      · exact h t List.mem_cons_self c hc
      · exact hsep c hc
      · exact hrest c hc

/-- Tokens, with commas and spaces between them, are the value of a field. -/
theorem wellFormed_codings {ts : List Str} (h : ∀ t ∈ ts, isToken t = true) :
    Field.WellFormed ⟨"Transfer-Encoding".toList, trim (", ".toList.intercalate ts)⟩ where
  name := by
    show isToken "Transfer-Encoding".toList = true
    decide
  value :=
    { noControl := fun c hc => by
        have hsep : ∀ d ∈ ", ".toList, isControl d = false := noControl_of_all rfl
        have htokens : ∀ t ∈ ts, ∀ d ∈ t, isControl d = false := fun t ht d hd =>
          isControl_of_isTokenChar ((isTokenChar_of_isToken (h t ht)).2 d hd)
        exact forall_mem_intercalate hsep htokens c (mem_of_mem_trim hc)
      trimmed := trimmed_trim _ }
  connection h := by cases h

/-- A digit is no control character, so a length may be the value of a field. -/
theorem isControl_of_isDigit {c : Char} (h : c.isDigit = true) : isControl c = false := by
  rw [Char.isDigit, Bool.and_eq_true, decide_eq_true_eq, decide_eq_true_eq] at h
  have hlow : 48 ≤ c.toNat := h.1
  have hhigh : c.toNat ≤ 57 := h.2
  rw [isControl, Bool.or_eq_false_iff, Bool.and_eq_false_iff, decide_eq_false_iff_not,
    decide_eq_false_iff_not]
  omega

/-- The field that `content_length` sets is one that a message may have: a length is made of digits
only. -/
theorem wellFormed_contentLength (n : Nat) :
    Field.WellFormed ⟨"Content-Length".toList, Nat.toDigits 10 n⟩ where
  name := by
    show isToken "Content-Length".toList = true
    decide
  value :=
    { noControl := fun c hc =>
        isControl_of_isDigit (Nat.isDigit_of_mem_toDigits (by decide) (by decide) hc)
      trimmed := Fields.trim_toDigits n ▸ trimmed_trim _ }
  connection h := by cases h

/-! ## Fields whose length is set -/

namespace Fields

/-- The codings that are left of a Transfer-Encoding when the length of the body is set. -/
def codings (fs : Fields) : Str :=
  match fs.find "Transfer-Encoding".toList with
  | none => []
  | some e => filterChunkedLast e.value

variable {fs fs' : Fields} {n : Nat}

/-- Behind `erase` no field of the name is left. -/
theorem named_erase_self (fs : Fields) (name : Str) : (fs.erase name).named name = [] := by
  refine List.filter_eq_nil_iff.2 fun f hf => ?_
  have hother := (List.mem_filter.1 hf).2
  rw [Bool.not_eq_true'] at hother
  rw [hother]
  exact Bool.false_ne_true

/-- Nothing is erased if no field has the name. -/
theorem erase_of_find {name : Str} (h : fs.find name = none) : fs.erase name = fs :=
  List.filter_eq_self.2 fun f hf => by
    rw [Bool.not_eq_true', ← Bool.not_eq_true]
    exact List.find?_eq_none.1 h f hf

/-- The first field of a name is found where another field is set. -/
theorem find_setElement {e : Field} {name : Str} (h : iequals name e.name = false) :
    (fs.setElement e).find name = fs.find name := by
  have hnamed := named_setElement fs e name
  rw [h, if_neg Bool.false_ne_true] at hnamed
  have hhead := congrArg List.head? hnamed
  rw [named, named, List.head?_filter, List.head?_filter] at hhead
  exact hhead

/-- The fields whose length is set: those that are neither a Content-Length nor a
Transfer-Encoding, the Content-Length, and the codings that are left behind it. -/
theorem contentLength_eq (h : fs.contentLength n = .ok fs') :
    fs' = (fs.erase "Content-Length".toList).erase "Transfer-Encoding".toList ++
      ⟨"Content-Length".toList, Nat.toDigits 10 n⟩ ::
        if fs.codings = [] then [] else [⟨"Transfer-Encoding".toList, trim fs.codings⟩] := by
  obtain ⟨fs₁, hset, hchunked⟩ := Except.bind_eq_ok_iff.1 h
  obtain ⟨-, -, rfl⟩ := set_ok_iff.1 hset
  rw [trim_toDigits] at hchunked
  have herase : ∀ gs : Fields, (gs ++ [⟨"Content-Length".toList, Nat.toDigits 10 n⟩] : Fields).erase
      "Transfer-Encoding".toList = gs.erase "Transfer-Encoding".toList ++
        [⟨"Content-Length".toList, Nat.toDigits 10 n⟩] := fun gs => List.filter_append _ _
  have hfind : (fs.setElement ⟨"Content-Length".toList, Nat.toDigits 10 n⟩).find
      "Transfer-Encoding".toList = fs.find "Transfer-Encoding".toList := find_setElement rfl
  rw [unsetChunked, hfind] at hchunked
  unfold codings
  cases hte : fs.find "Transfer-Encoding".toList with
  | none =>
    rw [hte] at hchunked hfind
    cases hchunked
    rw [if_pos rfl]
    have hsame := erase_of_find hfind
    rw [setElement, herase] at hsame
    exact hsame.symm
  | some e =>
    rw [hte] at hchunked
    simp only at hchunked ⊢
    split at hchunked
    · next hnil =>
      cases hchunked
      rw [if_pos hnil]
      exact herase _
    · next hne =>
      obtain ⟨-, -, rfl⟩ := set_ok_iff.1 hchunked
      rw [if_neg hne]
      show Fields.erase _ _ ++ _ = _
      rw [setElement, herase, List.append_assoc]
      rfl

/-- The codings that are left are tokens with commas between them. -/
theorem wellFormed_transferEncoding (fs : Fields) :
    Field.WellFormed ⟨"Transfer-Encoding".toList, trim fs.codings⟩ := by
  unfold codings
  cases fs.find "Transfer-Encoding".toList with
  | none => exact @wellFormed_codings [] nofun
  | some e =>
    refine wellFormed_codings fun t ht => isToken_of_mem_tokenList (s := e.value) ?_
    split at ht
    · exact (List.dropLast_sublist _).mem ht
    · exact ht

/-- Fields whose length is set are made of the characters they may have. -/
theorem contentLength_wellFormed (hwell : ∀ f ∈ fs, f.WellFormed)
    (h : fs.contentLength n = .ok fs') : ∀ f ∈ fs', f.WellFormed := by
  rw [contentLength_eq h]
  intro f hf
  rcases List.mem_append.1 hf with hf | hf
  · exact hwell f (List.mem_of_mem_filter (List.mem_of_mem_filter hf))
  · rcases List.mem_cons.1 hf with rfl | hf
    · exact wellFormed_contentLength n
    · split at hf
      · cases hf
      · exact List.mem_singleton.1 hf ▸ fs.wellFormed_transferEncoding

/-- Setting the length keeps the fields of each name together, though it erases some and inserts
others. -/
theorem Grouped.contentLength (hgrouped : fs.Grouped) (h : fs.contentLength n = .ok fs') :
    fs'.Grouped := by
  obtain ⟨fs₁, hset, hchunked⟩ := Except.bind_eq_ok_iff.1 h
  obtain ⟨-, -, rfl⟩ := set_ok_iff.1 hset
  have hlength := hgrouped.setElement ⟨"Content-Length".toList, trim (Nat.toDigits 10 n)⟩
  unfold unsetChunked at hchunked
  split at hchunked
  · cases hchunked
    exact hlength
  · simp only at hchunked
    split at hchunked
    · cases hchunked
      exact hlength.erase _
    · obtain ⟨-, -, rfl⟩ := set_ok_iff.1 hchunked
      exact hlength.setElement _

/-- The fields in front of the Content-Length say nothing of the body. -/
theorem named_erase_erase (fs : Fields) :
    ((fs.erase "Content-Length".toList).erase "Transfer-Encoding".toList).named
        "Content-Length".toList = [] ∧
      ((fs.erase "Content-Length".toList).erase "Transfer-Encoding".toList).named
        "Transfer-Encoding".toList = [] :=
  ⟨(named_erase _ rfl).trans (named_erase_self _ _), named_erase_self _ _⟩

/-- If no other coding is left, the Content-Length tells where the body ends. -/
theorem frames_contentLength (hn : n < 2 ^ 64 - 10) (h : fs.contentLength n = .ok fs')
    (hcodings : fs.codings = []) : fs'.Frames (.length n) := by
  obtain ⟨hlength, hchunked⟩ := fs.named_erase_erase
  refine .length (f := ⟨"Content-Length".toList, Nat.toDigits 10 n⟩) ?_ (parseDec_toDigits hn)
  refine @FramedBy.intro _ _ _ _ [] ?_ rfl hlength rfl (fun g hg => ?_) rfl
  · rw [contentLength_eq h, if_pos hcodings]
  · rw [hchunked] at hg
    cases hg

end Fields

/-! ## Fields that are refused -/

namespace Parser

/-- What the parser makes of fields, one after another: each is looked at by `do_field` and then
stored. -/
def doFields (p : Parser) : Fields → Except ParseError Parser
  | [] => .ok p
  | f :: fs => (p.doField f.name f.value).bind fun q => doFields (q.onField f.name f.value) fs

/-- Fields that say nothing more of the body change the message only. -/
theorem doFields_quiet {p : Parser} {fs : Fields} (hquiet : Quiet p fs)
    (hwell : ∀ f ∈ fs, f.WellFormed) (gs : Fields) :
    ∃ m, doFields p (fs ++ gs) = doFields { p with message := m } gs := by
  induction fs generalizing p with
  | nil => exact ⟨p.message, rfl⟩
  | cons f fs ih =>
    have hdo := hquiet.doField List.mem_cons_self (hwell f List.mem_cons_self)
    obtain ⟨m, hm⟩ := ih (p := p.onField f.name f.value) (hquiet.tail _)
      fun g hg => hwell g (.tail _ hg)
    refine ⟨m, ?_⟩
    rw [List.cons_append, doFields, hdo]
    exact hm

/-- A field is parsed before those behind it: `parse_fields` takes one round for it and goes on with
the text behind its line end. -/
theorem parseFields_field {p : Parser} {f : Field} (hf : f.WellFormed) {c : Char}
    (hc : isOws c = false) (s : Str) (fuel : Nat) :
    parseFields (fuel + 1) p (f.buffer ++ c :: s) =
      match p.doField f.name f.value with
      | .error e => some ⟨p, f.buffer ++ c :: s, some e⟩
      | .ok q => parseFields fuel (q.onField f.name f.value) (c :: s) := by
  have hfield := parseField_buffer hf hc s
  obtain ⟨hne, hname⟩ := isTokenChar_of_isToken hf.name
  obtain ⟨a, name, hcons⟩ := List.exists_cons_of_ne_nil hne
  have ha : a ≠ '\r' := by
    rintro rfl
    rw [hcons] at hname
    cases hname '\r' List.mem_cons_self
  obtain ⟨d, rest, htext⟩ : ∃ d rest, f.buffer ++ c :: s = a :: d :: rest := by
    rw [Field.buffer, hcons]
    cases name with
    | nil => exact ⟨_, _, rfl⟩
    | cons d name => exact ⟨_, _, rfl⟩
  rw [htext] at hfield ⊢
  cases hdo : p.doField f.name f.value <;> simp only [parseFields, if_neg ha, hfield, hdo]

/-- Fields are refused as they are by the parser, one after another. -/
theorem parseFields_error {p : Parser} {fs : Fields} {s : Str} {e : ParseError} {fuel : Nat}
    (hwell : ∀ f ∈ fs, f.WellFormed) (hdo : doFields p fs = .error e)
    (hfuel : (fs.text ++ s).length < fuel) :
    ∃ q r, parseFields fuel p (fs.text ++ s) = some ⟨q, r, some e⟩ := by
  induction fs generalizing p fuel with
  | nil => cases hdo
  | cons f fs ih =>
    obtain ⟨c, s', hs, hc⟩ := startsLine_text (fun g hg => hwell g (.tail _ hg)) s
    have htext : Fields.text (f :: fs) ++ s = f.buffer ++ c :: s' := by
      rw [← hs, Fields.text, List.flatMap_cons, Fields.text]
      simp only [List.append_assoc]
    rw [htext] at hfuel ⊢
    obtain ⟨fuel, rfl⟩ : ∃ n, fuel = n + 1 := ⟨fuel - 1, by omega⟩
    rw [parseFields_field (hwell f List.mem_cons_self) hc]
    rw [doFields] at hdo
    cases hfield : p.doField f.name f.value with
    | error e' =>
      rw [hfield] at hdo
      cases hdo
      exact ⟨_, _, rfl⟩
    | ok q =>
      rw [hfield] at hdo
      rw [← hs]
      refine ih (fun g hg => hwell g (.tail _ hg)) hdo ?_
      rw [hs]
      rw [List.length_append] at hfuel
      have hpos : 0 < f.buffer.length := by
        rw [Field.buffer, List.length_append]
        exact Nat.add_pos_right _ (by decide)
      omega

/-- Behind a Content-Length the parser refuses a Transfer-Encoding, so it refuses the fields if the
codings are not empty. -/
theorem doFields_contentLength {p : Parser} {fs fs' : Fields} {n : Nat} (hn : n < 2 ^ 64 - 10)
    (hwell : ∀ f ∈ fs, f.WellFormed) (h : fs.contentLength n = .ok fs') (hcodings : fs.codings ≠ [])
    (hlength : p.contentLength = false) (hchunked : p.chunked = false) :
    doFields p fs' = .error .badTransferEncoding := by
  have hquiet : Quiet p ((fs.erase "Content-Length".toList).erase "Transfer-Encoding".toList) := by
    refine ⟨fs.named_erase_erase.1, fun f hf => ?_⟩
    rw [fs.named_erase_erase.2] at hf
    cases hf
  have hfirst : ∀ f ∈ (fs.erase "Content-Length".toList).erase "Transfer-Encoding".toList,
      f.WellFormed := fun f hf => hwell f (List.mem_of_mem_filter (List.mem_of_mem_filter hf))
  obtain ⟨m, hm⟩ := doFields_quiet hquiet hfirst [⟨"Content-Length".toList, Nat.toDigits 10 n⟩,
    ⟨"Transfer-Encoding".toList, trim fs.codings⟩]
  have hdo := doField_length (p := { p with message := m })
    (f := ⟨"Content-Length".toList, Nat.toDigits 10 n⟩) rfl hlength hchunked (parseDec_toDigits hn)
  rw [Fields.contentLength_eq h, if_neg hcodings]
  show doFields p (_ ++ [_, _]) = _
  rw [hm, doFields, hdo]
  show (Except.bind (doField _ "Transfer-Encoding".toList _) _) = _
  unfold doField
  rw [if_neg (by decide), if_neg (by decide), if_pos (by decide), if_pos]
  · rfl
  · show (p.chunked || true) = true
    rw [Bool.or_true]

end Parser

/-- A header with a field that is refused is not read. -/
theorem readHeader_error {r : Response} (h : r.Accepted) {limit : Nat} {e : ParseError}
    (hdo : Parser.doFields { state := .fields, bodyLimit := limit } r.fields = .error e)
    (he : e ≠ .needMore) (s : Str) :
    readHeader limit (r.header ++ s) = .error e.toErrorCode := by
  have hsplit : r.header ++ s = r.statusLine ++ (r.fields.text ++ s) := List.append_assoc ..
  have hlen : r.statusLine.length + r.fields.text.length ≤ Parser.headerLimit := by
    rw [← List.length_append]
    exact h.header
  have hline : r.statusLine.length ≤ Parser.headerLimit := by omega
  have hfields : r.fields.text.length ≤ Parser.headerLimit := by omega
  have hfuel : (r.fields.text ++ s.take (Parser.headerLimit - r.fields.text.length)).length <
      (r.fields.text ++ s).length + 1 := by
    rw [← Parser.take_headerLimit hfields, List.length_take]
    omega
  obtain ⟨q, t, hparse⟩ := Parser.parseFields_error h.fields hdo hfuel
  rw [hsplit]
  unfold readHeader
  rw [Parser.take_headerLimit hline, parseStatusLine_text h.toWellFormed]
  simp only [Except.mapError, bind, Except.bind, Parser.behindLimit_append hline,
    Parser.take_headerLimit hfields, Option.get_of_eq_some _ hparse]
  have hcode : e.toErrorCode ≠ HttpError.needMore.toErrorCode := fun hcode =>
    he (ParseError.toErrorCode_needMore hcode)
  rw [headerError, if_pos hcode]

/-! ## Responses whose length is set -/

section
variable {r : Response} {fields : Fields} {limit : Nat}

/-- Such a response is made of the characters its parts may have. -/
theorem Response.WellFormed.contentLength (h : r.WellFormed) {n : Nat}
    (hlength : r.fields.contentLength n = .ok fields) : Response.WellFormed { r with fields } where
  version := h.version
  result := h.result
  reason := h.reason
  fields := Fields.contentLength_wellFormed h.fields hlength
  grouped := Fields.Grouped.contentLength h.grouped hlength

/-- What a reader of a response relies on, if the length is set and no other coding is left. -/
theorem readable_contentLength (h : r.WellFormed)
    (hlength : r.fields.contentLength r.body.length = .ok fields) (hcodings : r.fields.codings = [])
    (hheader : (Response.header { r with fields }).length ≤ Parser.headerLimit)
    (hlimit : r.body.length ≤ limit) (hsize : r.body.length < 2 ^ 64 - 10) :
    Response.Readable limit { r with fields } (.length r.body.length) where
  accepted := ⟨h.contentLength hlength, hheader⟩
  frames := Fields.frames_contentLength hsize hlength hcodings
  chunked := by
    have hnone : fields.named "Transfer-Encoding".toList = [] := by
      rw [Fields.contentLength_eq hlength, if_pos hcodings,
        Fields.named_append_cons_of_not rfl, List.append_nil]
      exact r.fields.named_erase_erase.2
    refine iff_of_false ?_ nofun
    show ¬fields.chunked = true
    rw [Fields.chunked, Fields.get, Fields.find_eq_none_iff.2 hnone]
    decide
  limit := hlimit
  size := Nat.lt_trans hsize (by decide)

/-- The length of its body delimits a response that has a body only where its status allows one. -/
theorem delimited_contentLength (hbodiless : isBodiless r.result = true → r.body = []) :
    Response.Delimited { r with fields } (.length r.body.length) := by
  cases hstatus : isBodiless r.result with
  | true => exact .bodiless hstatus (hbodiless hstatus) nofun
  | false => exact .length hstatus

/-- **A response whose length is set is read as it was written, or refused**: refused if a coding
other than `chunked` is left in its Transfer-Encoding, which comes behind the Content-Length. -/
theorem readResponse_contentLength (h : r.WellFormed)
    (hlength : r.fields.contentLength r.body.length = .ok fields)
    (hheader : (Response.header { r with fields }).length ≤ Parser.headerLimit)
    (hbodiless : isBodiless r.result = true → r.body = [])
    (hlimit : r.body.length ≤ limit) (hsize : r.body.length < 2 ^ 64 - 10) {k : Sink}
    (hok : (asyncWrite { r with fields } k).error ≠ k.final) (rest : Str) :
    readResponse limit ((asyncWrite { r with fields } k).wire ++ rest) =
      if r.fields.codings = [] then .ok ({ r with fields, reason := r.reasonText }, rest)
      else .error HttpError.badTransferEncoding.toErrorCode := by
  have hwire : (asyncWrite { r with fields } k).wire = Response.text { r with fields } :=
    (asyncWrite_outcome { r with fields } k).wire_eq hok
  rw [hwire]
  split
  · next hcodings =>
    exact readResponse_text (readable_contentLength h hlength hcodings hheader hlimit hsize)
      (.delimited (delimited_contentLength hbodiless))
  · next hcodings =>
    have hdo := Parser.doFields_contentLength (p := { state := .fields, bodyLimit := limit }) hsize
      h.fields hlength hcodings rfl rfl
    have hread := readHeader_error ⟨h.contentLength hlength, hheader⟩ hdo nofun
      (Serializer.encode fields.chunked [r.body] ++ rest)
    rw [readResponse, if_neg (Response.text_ne_nil _ rest), Response.text, List.append_assoc, hread]
    rfl

/-- A response that is compressed: the codings of its Transfer-Encoding are `gzip` and `chunked`. -/
def gzipResponse : Response where
  fields := [⟨"Transfer-Encoding".toList, "gzip, chunked".toList⟩]
  body := "hi".toList

/-- The fields it is written with after its length is set: `chunked` is taken out, and `gzip` is
left behind the length. -/
def gzipFields : Fields :=
  [⟨"Content-Length".toList, "2".toList⟩, ⟨"Transfer-Encoding".toList, "gzip".toList⟩]

set_option maxRecDepth 10000 in
/-- The response is refused when it is read back, as the parser takes no Transfer-Encoding behind a
length. -/
theorem readResponse_contentLength_gzip :
    gzipResponse.fields.contentLength 2 = .ok gzipFields ∧
      readResponse 2
          ((asyncWrite { gzipResponse with fields := gzipFields } fortySink).wire ++
            "HTTP".toList) =
        .error HttpError.badTransferEncoding.toErrorCode := by
  have hwell : gzipResponse.WellFormed := by
    refine ⟨.inr rfl, by decide, noControl_of_all rfl, fun f hf => ?_,
      Fields.Grouped.setElement Grouped.nil ⟨"Transfer-Encoding".toList, _⟩⟩
    cases List.mem_singleton.1 hf
    exact .of_trim rfl rfl rfl rfl
  have hlength : gzipResponse.fields.contentLength 2 = .ok gzipFields := rfl
  have hread := readResponse_contentLength (k := fortySink) hwell hlength (by decide) (by decide)
    (Nat.le_refl 2) (by decide) (by decide) "HTTP".toList
  rw [if_neg (by decide)] at hread
  exact ⟨hlength, hread⟩

end

end Gomibako.Beast
