import Gomibako.Beast.DecodeRead
import Gomibako.Beast.Fields
import Gomibako.Beast.ReadFields

/-!
# The requests that are accepted

What every request that is read has in common, however it was sent (`asyncRead_accepted`): its parts
are made of the characters they may have, and its body is framed in one way only. There is at most
one Content-Length, and it is the length of the body; with it no Transfer-Encoding announces chunks,
and with neither there is no body.
-/

namespace Gomibako.Beast

/-! ## Requests -/

/-- The value of a Transfer-Encoding for which the parser expects chunks. -/
def announcesChunked (value : Str) : Bool :=
  ((tokenList value).dropWhile fun s => !iequals "chunked".toList s).length = 1

/-- The names of the fields that are for the connection. -/
def isConnection (name : Str) : Bool :=
  iequals name "Connection".toList || iequals name "Proxy-Connection".toList

/-- A text that neither starts nor ends with a space. -/
def Trimmed (s : Str) : Prop :=
  (∀ c ∈ s.head?, isOws c = false) ∧ ∀ c ∈ s.getLast?, isOws c = false

/-- No control character and no space at its ends: a text that may be the value of a field. -/
structure ValueOk (s : Str) : Prop where
  noControl : ∀ c ∈ s, isControl c = false
  trimmed : Trimmed s

/-- A field as a message may have it: the name is a token, the value has no control characters and
no spaces around it, and a field for the connection has a list of tokens. -/
structure Field.WellFormed (f : Field) : Prop where
  name : isToken f.name = true
  value : ValueOk f.value
  connection : isConnection f.name = true → validateList f.value = true

/-- The field `f` tells where the body ends: no other one of the fields is a Content-Length, no
Transfer-Encoding in front of it announces chunks, and there is none behind it. -/
inductive Fields.FramedBy (name : Str) (f : Field) (fs : Fields) : Prop where
  | intro {before after : Fields} : fs = before ++ f :: after → Field.is name f = true →
      before.named "Content-Length".toList = [] → after.named "Content-Length".toList = [] →
      (∀ g ∈ before.named "Transfer-Encoding".toList, announcesChunked g.value = false) →
      after.named "Transfer-Encoding".toList = [] → FramedBy name f fs

/-- None of the fields tells where the body ends: there is no Content-Length, and no
Transfer-Encoding that announces chunks. -/
structure Fields.Unframed (fs : Fields) : Prop where
  noLength : fs.named "Content-Length".toList = []
  noChunks : ∀ f ∈ fs.named "Transfer-Encoding".toList, announcesChunked f.value = false

/-- Chunks are announced for the body by one of the fields of the name Transfer-Encoding. -/
def Request.announced (m : Request) : Bool :=
  (m.fields.named "Transfer-Encoding".toList).any fun f => announcesChunked f.value

/-- How the body of a request is framed: by its length, by chunks, or not at all. -/
inductive Framing (m : Request) : Prop where
  | length {f : Field} : m.fields.FramedBy "Content-Length".toList f →
      parseDec f.value = some m.body.length → Framing m
  | chunked {f : Field} : m.fields.FramedBy "Transfer-Encoding".toList f →
      announcesChunked f.value = true → Framing m
  | none : m.fields.Unframed → m.body = [] → Framing m

/-- The request line of a message that is accepted: what `parse_start_line` lets through of the
method, the target and the version. -/
structure Request.LineAccepted (m : Request) : Prop where
  method : ∃ word, isToken word = true ∧ m.method = stringToVerb word ∧
    m.methodString = if stringToVerb word = .unknown then word else []
  target : m.target ≠ [] ∧ ∀ c ∈ m.target, isPathchar c = true
  version : m.version = 10 ∨ m.version = 11

/-- The body is not part of the request line, so it may be replaced. -/
theorem Request.LineAccepted.withBody {m : Request} (h : m.LineAccepted) {body : Str} :
    Request.LineAccepted { m with body } :=
  ⟨h.method, h.target, h.version⟩

/-- The fields are not part of the request line, so they may be replaced. -/
theorem Request.lineAccepted_fields {m : Request} {fields : Fields} :
    Request.LineAccepted { m with fields } ↔ m.LineAccepted :=
  ⟨fun h => ⟨h.method, h.target, h.version⟩, fun h => ⟨h.method, h.target, h.version⟩⟩

/-- The requests that are accepted: a request line, well-formed fields in groups that frame the
body, and a body within the limit of the parser. -/
structure Request.Accepted (m : Request) : Prop where
  line : m.LineAccepted
  fields : ∀ f ∈ m.fields, f.WellFormed
  grouped : m.fields.Grouped
  framing : Framing m
  body : m.body.length ≤ 1024 * 1024

/-! ## Values -/

/-- Nothing is trimmed from a text without spaces at its ends. -/
theorem Trimmed.trim_eq {s : Str} (h : Trimmed s) : trim s = s := by
  have hdrop : ∀ {s : Str}, (∀ c ∈ s.head?, isOws c = false) → s.dropWhile isOws = s := by
    intro s hs
    cases s with
    | nil => rfl
    | cons c s => simp [hs c rfl]
  rw [trim, skipOws, hdrop h.1, hdrop (by rw [List.head?_reverse]; exact h.2), List.reverse_reverse]

/-- The line of a value that starts with something else than a space. -/
theorem trimmed_line {rev : Str} (h : ∀ c ∈ rev.getLast?, isOws c = false) :
    Trimmed (rev.dropWhile isOws).reverse := by
  constructor
  · intro c hc
    rw [List.head?_reverse] at hc
    obtain ⟨l, hl⟩ : rev.dropWhile isOws <:+ rev := List.dropWhile_suffix _
    cases hd : rev.dropWhile isOws with
    | nil =>
      rw [hd] at hc
      cases hc
    | cons d s =>
      refine h c ?_
      rw [← hl, hd, List.getLast?_append, List.getLast?_cons]
      rw [hd, List.getLast?_cons] at hc
      simpa using hc
  · intro c hc
    rw [List.getLast?_reverse] at hc
    cases hd : rev.dropWhile isOws with
    | nil =>
      rw [hd] at hc
      cases hc
    | cons d s =>
      rw [hd] at hc
      cases hc
      have hne : rev.dropWhile isOws ≠ [] := by
        rw [hd]
        nofun
      have hnot := List.head_dropWhile_not isOws hne
      simpa [hd] using hnot

/-- What `trim` leaves of a text has no spaces at its ends. -/
theorem trimmed_trim (s : Str) : Trimmed (trim s) := by
  refine trimmed_line fun c hc => ?_
  rw [List.getLast?_reverse] at hc
  have hne : skipOws s ≠ [] := by
    intro hnil
    rw [hnil] at hc
    cases hc
  have hnot := List.head_dropWhile_not isOws hne
  rw [List.head?_eq_some_head hne] at hc
  cases hc
  exact hnot

/-- A text has no control characters if a test of each finds none. -/
theorem noControl_of_all {s : Str} (h : s.all (fun c => !isControl c) = true) :
    ∀ c ∈ s, isControl c = false := by
  intro c hc
  have hnot := List.all_eq_true.1 h c hc
  rw [Bool.not_eq_true'] at hnot
  exact hnot

/-- A field that is not for the connection, by tests of its texts. -/
theorem Field.WellFormed.of_trim {f : Field} (hname : isToken f.name = true)
    (hcontrol : f.value.all (fun c => !isControl c) = true) (htrim : trim f.value = f.value)
    (hconnection : isConnection f.name = false) : f.WellFormed where
  name := hname
  value := ⟨noControl_of_all hcontrol, htrim ▸ trimmed_trim f.value⟩
  connection h := absurd h (hconnection ▸ Bool.false_ne_true)

/-- Two lines without spaces at their ends, neither of them empty, are joined by a space to one
without. -/
theorem Trimmed.join {s t : Str} (hs : Trimmed s) (hne : s ≠ []) (ht : Trimmed t) (hne' : t ≠ []) :
    Trimmed (s ++ ' ' :: t) := by
  constructor
  · intro c hc
    refine hs.1 c ?_
    rw [List.head?_append_of_ne_nil _ hne] at hc
    exact hc
  · intro c hc
    refine ht.2 c ?_
    obtain ⟨d, t, rfl⟩ := List.exists_cons_of_ne_nil hne'
    rw [List.getLast?_append, List.getLast?_cons_cons] at hc
    rw [List.getLast?_cons] at hc ⊢
    simpa using hc

/-- Lines of a value, joined as `parse_field` joins them, are a value: an empty line adds nothing,
and neither does a space for it. -/
theorem ValueOk.join {buf line : Str} (hbuf : ValueOk buf) (hline : ValueOk line) :
    ValueOk (if buf = [] then line else if line = [] then buf else buf ++ ' ' :: line) := by
  split
  · exact hline
  · next hb =>
    split
    · exact hbuf
    · next hl =>
      refine ⟨fun c hc => ?_, hbuf.trimmed.join hb hline.trimmed hl⟩
      rcases List.mem_append.1 hc with hc | hc
      · exact hbuf.noControl c hc
      · rcases List.mem_cons.1 hc with rfl | hc
        · rfl
        · exact hline.noControl c hc

/-- What the value so far is made of: the lines before, and from the first character on the text of
this line. -/
structure ValueSoFar (pos : ValuePos) (buf rev : Str) : Prop where
  before : ValueOk buf
  noControl : pos ≠ .lead → ∀ c ∈ rev, isControl c = false
  first : pos ≠ .lead → ∀ c ∈ rev.getLast?, isOws c = false
  text : pos = .text → rev ≠ []

/-- In front of a line there is nothing of it yet, so the value so far is what the lines before have
left. -/
theorem ValueSoFar.empty {pos : ValuePos} {buf : Str} (h : ValueOk buf) (hpos : pos ≠ .text) :
    ValueSoFar pos buf [] :=
  ⟨h, fun _ _ hc => absurd hc List.not_mem_nil, fun _ _ hc => absurd hc (Option.not_mem_none _),
    fun htext => absurd htext hpos⟩

/-- A value is made of the texts of its lines. -/
theorem parseValueFrom_valueOk {pos : ValuePos} {buf rev s value r : Str}
    (hsofar : ValueSoFar pos buf rev) (h : parseValueFrom pos buf rev s = .ok (value, r)) :
    ValueOk value := by
  induction s generalizing pos buf rev with
  | nil =>
    rw [parseValueFrom] at h
    cases h
  | cons c s ih =>
    obtain ⟨hbuf, hcontrol, hfirst, htext⟩ := hsofar
    cases pos with
    | lead =>
      rw [parseValueFrom] at h
      split_ifs at h with hows hchar hcr
      · exact ih (.empty hbuf (by rintro ⟨⟩)) h
      · have hnext : ValueSoFar .text buf [c] := by
          refine ⟨hbuf, fun _ d hd => ?_, fun _ d hd => ?_, fun _ => List.cons_ne_nil _ _⟩
          · cases List.mem_singleton.1 hd
            simpa using hchar
          · cases hd
            simpa using hows
        exact ih hnext h
      · exact ih (.empty hbuf (by rintro ⟨⟩)) h
    | text =>
      rw [parseValueFrom] at h
      split_ifs at h with hchar hcr
      · have hnext : ValueSoFar .text buf (c :: rev) := by
          refine ⟨hbuf, fun _ d hd => ?_, fun _ d hd => ?_, fun _ => List.cons_ne_nil _ _⟩
          · rcases List.mem_cons.1 hd with rfl | hd
            · simpa using hchar
            · exact hcontrol (by rintro ⟨⟩) d hd
          · obtain ⟨e, rev, rfl⟩ := List.exists_cons_of_ne_nil (htext rfl)
            rw [List.getLast?_cons_cons] at hd
            exact hfirst (by rintro ⟨⟩) d hd
        exact ih hnext h
      · have hnext : ValueSoFar .cr buf rev :=
          ⟨hbuf, fun _ => hcontrol (by rintro ⟨⟩), fun _ => hfirst (by rintro ⟨⟩), (by rintro ⟨⟩)⟩
        exact ih hnext h
    | cr =>
      rw [parseValueFrom] at h
      split_ifs at h
      have hnext : ValueSoFar .eol buf rev :=
        ⟨hbuf, fun _ => hcontrol (by rintro ⟨⟩), fun _ => hfirst (by rintro ⟨⟩), (by rintro ⟨⟩)⟩
      exact ih hnext h
    | eol =>
      have hline : ValueOk (rev.dropWhile isOws).reverse := by
        refine ⟨fun d hd => hcontrol (by rintro ⟨⟩) d ?_, trimmed_line (hfirst (by rintro ⟨⟩))⟩
        exact (List.dropWhile_suffix _).subset (List.mem_reverse.1 hd)
      have hjoin := hbuf.join hline
      rw [parseValueFrom] at h
      simp only at h
      split at h
      · cases h
      · split at h
        · cases h
        · split at h
          · exact ih (.empty hjoin (by rintro ⟨⟩)) h
          · cases h
            exact hjoin

/-- The value of a field that is parsed has no control characters and is trimmed, and its name is a
token. -/
theorem parseField_wellFormed {s name value r : Str} (h : parseField s = .ok (name, value, r)) :
    isToken name = true ∧ ValueOk value := by
  have hname := parseField_isToken h
  unfold parseField at h
  split at h
  · cases h
  · split_ifs at h
    obtain ⟨⟨v, r'⟩, hv, heq⟩ := Except.map_eq_ok_iff.1 h
    cases heq
    have hstart : ValueSoFar .lead [] [] := ⟨⟨nofun, nofun, nofun⟩, nofun, nofun, nofun⟩
    exact ⟨hname, parseValueFrom_valueOk hstart hv⟩

/-! ## Fields that tell where the body ends -/

namespace Fields

variable {fs : Fields} {e f : Field} {name : Str}

/-- A field that says nothing of the body may be inserted. -/
theorem FramedBy.insertElement (h : fs.FramedBy name f)
    (hcl : iequals e.name "Content-Length".toList = false)
    (hte : iequals e.name "Transfer-Encoding".toList = false) :
    (fs.insertElement e).FramedBy name f := by
  obtain @⟨before, after, hfs, hname, hbefore, hafter, hchunks, hlast⟩ := h
  obtain ⟨l, r, hsplit, hinsert, -⟩ := insertElement_split e fs
  rw [hinsert]
  rcases List.append_eq_append_iff.1 (hfs.symm.trans hsplit) with
    ⟨m, rfl, hm⟩ | ⟨m, rfl, rfl⟩
  · cases m with
    | nil =>
      -- right in front of the field
      refine @FramedBy.intro name f _ (before ++ [e]) after ?_ hname ?_ hafter ?_ hlast
      · rw [List.append_nil, List.append_assoc, ← show f :: after = r from hm]
        rfl
      · rw [named_append_cons_of_not hcl, List.append_nil, hbefore]
      · rw [named_append_cons_of_not hte, List.append_nil]
        exact hchunks
    | cons g m =>
      obtain ⟨rfl, hm'⟩ := List.cons.inj hm
      have hafter' : after = m ++ r := hm'
      subst hafter'
      refine @FramedBy.intro name f _ before (m ++ e :: r) ?_ hname hbefore ?_ hchunks ?_
      · rw [List.append_assoc]
        rfl
      · rw [named_append_cons_of_not hcl, hafter]
      · rw [named_append_cons_of_not hte, hlast]
  · refine @FramedBy.intro name f _ (l ++ e :: m) after ?_ hname ?_ hafter ?_ hlast
    · rw [List.append_assoc]
      rfl
    · rw [named_append_cons_of_not hcl, hbefore]
    · rw [named_append_cons_of_not hte]
      exact hchunks

/-- If no field tells where the body ends, a Content-Length that is inserted is the one that
does. -/
theorem Unframed.insert_length (h : fs.Unframed)
    (hcl : iequals e.name "Content-Length".toList = true) :
    (fs.insertElement e).FramedBy "Content-Length".toList e := by
  have hnone : fs.named e.name = [] := by rw [named_congr hcl, h.noLength]
  rw [insertElement_of_none hnone]
  exact .intro rfl (by rw [Field.is, iequals_comm, hcl]) h.noLength rfl h.noChunks rfl

/-- If no field tells where the body ends, a Transfer-Encoding that is inserted may be the one that
does. -/
theorem Unframed.insert_chunked (h : fs.Unframed)
    (hte : iequals e.name "Transfer-Encoding".toList = true) :
    (fs.insertElement e).FramedBy "Transfer-Encoding".toList e := by
  obtain ⟨before, after, rfl, hinsert, hafter⟩ := insertElement_split e fs
  obtain ⟨hlength, hchunks⟩ := h
  rw [named_append, List.append_eq_nil_iff] at hlength
  rw [named_append] at hchunks
  rw [hinsert]
  refine .intro rfl (by rw [Field.is, iequals_comm, hte]) hlength.1 hlength.2
    (fun g hg => hchunks g (List.mem_append_left _ hg)) ?_
  rw [← named_congr hte, hafter]

/-- A field that is no Content-Length and does not announce chunks leaves it open where the body
ends. -/
theorem Unframed.insert_other (h : fs.Unframed)
    (hcl : iequals e.name "Content-Length".toList = false)
    (hte : iequals e.name "Transfer-Encoding".toList = true → announcesChunked e.value = false) :
    (fs.insertElement e).Unframed := by
  refine ⟨?_, fun f hf => ?_⟩
  · rw [named_insertElement, iequals_comm, hcl]
    exact h.noLength
  · rw [named_insertElement] at hf
    split at hf
    · next hname =>
      rcases List.mem_append.1 hf with hf | hf
      · exact h.noChunks f hf
      · cases List.mem_singleton.1 hf
        exact hte (by rw [iequals_comm, hname])
    · exact h.noChunks f hf

end Fields

/-! ## The request line -/

/-- A word has characters, all of them of its kind. -/
theorem parseWord_chars {isChar : Char → Bool} {bad : ParseError} {s word r : Str}
    (h : parseWord isChar bad s = .ok (word, r)) : word ≠ [] ∧ ∀ c ∈ word, isChar c = true := by
  unfold parseWord at h
  split at h
  · cases h
  · split_ifs at h with hspace hword
    cases h
    exact ⟨hword, fun c hc => List.mem_takeWhile_imp hc⟩

namespace Parser

section
variable {p q : Parser} {s t name value : Str}

/-- The request line is accepted, and nothing else is known yet. -/
theorem parseStartLine_accepted (h : p.parseStartLine s = .ok (q, t)) :
    q.message.LineAccepted ∧ ∃ m : Request, q = { p with message := m, state := .fields } ∧
      m.fields = p.message.fields ∧ m.body = p.message.body := by
  rw [parseStartLine_eq] at h
  obtain ⟨⟨method, s₁⟩, hmethod, h⟩ := Except.bind_eq_ok_iff.1 h
  obtain ⟨⟨target, s₂⟩, htarget, h⟩ := Except.bind_eq_ok_iff.1 h
  obtain ⟨⟨version, s₃⟩, -, h⟩ := Except.bind_eq_ok_iff.1 h
  simp only at h
  split at h
  · cases h
  · next hversion =>
    obtain ⟨x, -, h⟩ := Except.bind_eq_ok_iff.1 h
    split at h
    · cases h
      refine ⟨⟨⟨method, ?_, rfl, rfl⟩, parseWord_chars htarget, ?_⟩, _, rfl, rfl, rfl⟩
      · obtain ⟨hne, hchars⟩ := parseWord_chars hmethod
        rw [isToken, Bool.and_eq_true, List.all_eq_true, Bool.not_eq_true',
          List.isEmpty_eq_false_iff]
        exact ⟨hne, hchars⟩
      · rw [Bool.or_eq_true, decide_eq_true_eq, decide_eq_true_eq] at hversion
        show version = 10 ∨ version = 11
        omega
    · cases h

/-! ## Fields -/

/-- What `do_field` does with a field that it accepts, one case for each name it looks at and one
for the other names. -/
inductive FieldEffect (p : Parser) (name value : Str) : Parser → Prop where
  | length {v : Nat} : iequals name "Content-Length".toList = true →
      p.contentLength = false → p.chunked = false → parseDec value = some v →
      FieldEffect p name value { p with len := v, contentLength := true }
  | chunked : iequals name "Transfer-Encoding".toList = true →
      p.contentLength = false → p.chunked = false → announcesChunked value = true →
      FieldEffect p name value { p with len := 0, chunked := true }
  | keep : iequals name "Content-Length".toList = false →
      (iequals name "Transfer-Encoding".toList = true → p.contentLength = false ∧
        p.chunked = false ∧ announcesChunked value = false) → FieldEffect p name value p

/-- The value of a field for the connection is a list. -/
theorem doField_connection (h : p.doField name value = .ok q) (hname : isConnection name = true) :
    validateList value = true := by
  unfold isConnection at hname
  unfold doField at h
  rw [if_pos hname] at h
  split at h
  · next hlist => exact hlist
  · cases h

/-- A field that `do_field` accepts has one of the effects, by the name that it is found to have. -/
theorem doField_effect (h : p.doField name value = .ok q) : FieldEffect p name value q := by
  unfold doField at h
  split at h
  · next hconnection =>
    have hother : ∀ other : Str, iequals "Connection".toList other = false →
        iequals "Proxy-Connection".toList other = false → iequals name other = false := by
      intro other h₁ h₂
      rcases Bool.or_eq_true_iff.1 hconnection with hname | hname
      · rw [iequals_trans hname, h₁]
      · rw [iequals_trans hname, h₂]
    have hte := hother "Transfer-Encoding".toList (by decide) (by decide)
    split_ifs at h
    cases h
    refine .keep (hother _ (by decide) (by decide)) fun hname => ?_
    rw [hte] at hname
    cases hname
  · split at h
    · next hcl =>
      split at h
      · cases h
      · next hnone =>
        rw [Bool.or_eq_true, not_or, Bool.not_eq_true, Bool.not_eq_true] at hnone
        split at h
        · cases h
        · next v hv =>
          cases h
          exact .length hcl hnone.1 hnone.2 hv
    · next hcl =>
      have hcl' := Bool.not_eq_true _ ▸ hcl
      split at h
      · next hte =>
        split at h
        · cases h
        · next hnone =>
          rw [Bool.or_eq_true, not_or, Bool.not_eq_true, Bool.not_eq_true] at hnone
          split at h
          · next x hx =>
            cases h
            refine .chunked hte hnone.2 hnone.1 ?_
            rw [announcesChunked, hx]
            rfl
          · next hx =>
            cases h
            refine .keep hcl' fun _ => ⟨hnone.2, hnone.1, ?_⟩
            rw [announcesChunked, decide_eq_false_iff_not]
            intro hlen
            obtain ⟨x, hx'⟩ := List.length_eq_one_iff.1 hlen
            exact hx x hx'
      · next hte =>
        cases h
        exact .keep hcl' fun h => absurd h hte

end

/-- What the parser knows of the fields it has read, and of the body. -/
structure FieldsRead (p : Parser) : Prop where
  wellFormed : ∀ f ∈ p.message.fields, f.WellFormed
  grouped : p.message.fields.Grouped
  length : p.contentLength = true → p.chunked = false ∧ ∃ f,
    p.message.fields.FramedBy "Content-Length".toList f ∧
      parseDec f.value = some (p.message.body.length + p.len)
  chunked : p.chunked = true → p.contentLength = false ∧ ∃ f,
    p.message.fields.FramedBy "Transfer-Encoding".toList f ∧ announcesChunked f.value = true
  unframed : p.contentLength = false → p.chunked = false →
    p.message.fields.Unframed ∧ p.message.body = []

/-- Only the message matters, and the flags that tell how long its body is. -/
theorem FieldsRead.congr {p q : Parser} (h : FieldsRead p) (hmessage : q.message = p.message)
    (hlength : q.contentLength = p.contentLength) (hchunked : q.chunked = p.chunked)
    (hlen : p.contentLength = true → q.len = p.len) : FieldsRead q := by
  refine ⟨?_, ?_, fun hq => ?_, ?_, ?_⟩
  · rw [hmessage]
    exact h.wellFormed
  · rw [hmessage]
    exact h.grouped
  · rw [hlength] at hq
    rw [hmessage, hchunked, hlen hq]
    exact h.length hq
  · rw [hmessage, hlength, hchunked]
    exact h.chunked
  · rw [hmessage, hlength, hchunked]
    exact h.unframed

/-- The parser in front of the fields: it knows nothing of the body, or it has read the header and
is in the trailer. -/
structure InFields (p : Parser) : Prop where
  read : FieldsRead p
  noLength : p.contentLength = false → p.len = 0
  body : p.chunked = false → p.message.body = []

/-- A field that is parsed keeps what is known of the fields. -/
theorem InFields.onField {p q : Parser} {name value : Str} (h : InFields p)
    (hname : isToken name = true) (hvalue : ValueOk value) (hdo : p.doField name value = .ok q) :
    InFields (q.onField name value) := by
  have htrim : trim value = value := hvalue.trimmed.trim_eq
  have hfield : (q.onField name value).message.fields =
      q.message.fields.insertElement ⟨name, value⟩ := by
    show q.message.fields.insertElement ⟨name, trim value⟩ = _
    rw [htrim]
  have hwell : ∀ f ∈ p.message.fields.insertElement ⟨name, value⟩, f.WellFormed := by
    intro f hf
    rcases Fields.mem_insertElement hf with rfl | hf
    · exact ⟨hname, hvalue, doField_connection hdo⟩
    · exact h.read.wellFormed f hf
  have hgrouped := h.read.grouped.insertElement ⟨name, value⟩
  cases doField_effect hdo with
  | @length v hcl hlen hchunked hv =>
    obtain ⟨hunframed, hbody⟩ := h.read.unframed hlen hchunked
    rw [← hfield] at hwell hgrouped
    refine ⟨⟨hwell, hgrouped, fun _ => ⟨hchunked, ⟨name, value⟩, ?_, ?_⟩, fun hp => ?_, nofun⟩,
      nofun, h.body⟩
    · rw [hfield]
      exact hunframed.insert_length hcl
    · show parseDec value = some (p.message.body.length + v)
      rw [hbody, hv, List.length_nil, Nat.zero_add]
    · cases hchunked.symm.trans hp
  | chunked hte hlen hchunked hannounces =>
    obtain ⟨hunframed, -⟩ := h.read.unframed hlen hchunked
    rw [← hfield] at hwell hgrouped
    refine ⟨⟨hwell, hgrouped, fun hp => ?_, fun _ => ⟨hlen, ⟨name, value⟩, ?_, hannounces⟩, nofun⟩,
      fun _ => rfl, nofun⟩
    · cases hlen.symm.trans hp
    · rw [hfield]
      exact hunframed.insert_chunked hte
  | keep hcl hte =>
    rw [← hfield] at hwell hgrouped
    -- a Transfer-Encoding comes before what tells where the body ends
    have hframed : p.contentLength = true ∨ p.chunked = true →
        iequals name "Transfer-Encoding".toList = false := by
      intro hor
      rw [← Bool.not_eq_true]
      intro hname
      obtain ⟨hlen, hchunked, -⟩ := hte hname
      rcases hor with hor | hor
      · cases hlen.symm.trans hor
      · cases hchunked.symm.trans hor
    refine ⟨⟨hwell, hgrouped, fun hp => ?_, fun hp => ?_, fun hp hp' => ?_⟩, h.noLength, h.body⟩
    · obtain ⟨hchunked, f, hf, hv⟩ := h.read.length hp
      refine ⟨hchunked, f, ?_, hv⟩
      rw [hfield]
      exact hf.insertElement hcl (hframed (.inl hp))
    · obtain ⟨hlen, f, hf, hv⟩ := h.read.chunked hp
      refine ⟨hlen, f, ?_, hv⟩
      rw [hfield]
      exact hf.insertElement hcl (hframed (.inr hp))
    · obtain ⟨hunframed, hbody⟩ := h.read.unframed hp hp'
      refine ⟨?_, hbody⟩
      rw [hfield]
      exact hunframed.insert_other hcl fun hname => (hte hname).2.2

/-- The lines of fields keep what is known of the fields. -/
theorem InFields.lines {p q : Parser} {s t : Str} (h : InFields p) (hlines : FieldLines p s q t) :
    InFields q := by
  induction hlines with
  | done => exact h
  | field hfield hdo _ ih =>
    obtain ⟨hname, hvalue⟩ := parseField_wellFormed hfield
    exact ih (h.onField hname hvalue hdo)

/-- The lines of fields change nothing but the fields and what they say of the body. -/
theorem FieldLines.keeps {p q : Parser} {s t : Str} (h : FieldLines p s q t) :
    q.bodyLimit = p.bodyLimit ∧ q.message.body = p.message.body ∧
      (q.message.LineAccepted ↔ p.message.LineAccepted) ∧
      (p.chunked = true → q.chunked = true ∧ q.len = p.len) := by
  induction h with
  | done => exact ⟨rfl, rfl, Iff.rfl, fun h => ⟨h, rfl⟩⟩
  | field hfield hdo _ ih =>
    obtain ⟨hlimit, hbody, hline, hlen⟩ := ih
    cases doField_effect hdo with
    | length _ _ hchunked =>
      refine ⟨hlimit, hbody, hline.trans Request.lineAccepted_fields, fun hp => ?_⟩
      cases hchunked.symm.trans hp
    | chunked _ _ hchunked =>
      refine ⟨hlimit, hbody, hline.trans Request.lineAccepted_fields, fun hp => ?_⟩
      cases hchunked.symm.trans hp
    | keep => exact ⟨hlimit, hbody, hline.trans Request.lineAccepted_fields, hlen⟩

/-- The parser in a state of a message that it may accept. -/
inductive Accepting (p : Parser) : Prop where
  | startLine : p.state = .startLine → InFields p → p.message.body = [] →
      p.bodyLimit = 1024 * 1024 → Accepting p
  | fields : p.state = .fields → p.message.LineAccepted → InFields p → p.message.body = [] →
      p.bodyLimit = 1024 * 1024 → Accepting p
  | body : p.state = .body → p.message.LineAccepted → FieldsRead p → p.contentLength = true →
      p.message.body.length + p.len ≤ 1024 * 1024 → Accepting p
  | chunkHeader : p.state = .chunkHeader → p.message.LineAccepted → FieldsRead p →
      p.chunked = true → p.len = 0 → p.message.body.length + p.bodyLimit = 1024 * 1024 →
      Accepting p
  | chunkBody : p.state = .chunkBody → p.message.LineAccepted → FieldsRead p →
      p.chunked = true → p.message.body.length + p.len + p.bodyLimit = 1024 * 1024 → Accepting p
  | complete : p.state = .complete → p.message.LineAccepted → FieldsRead p → p.len = 0 →
      p.message.body.length ≤ 1024 * 1024 → Accepting p

section
variable {p q : Parser} {s t : Str}

/-- At the end of the header the parser is in the state of a message that it may accept, with the
body it is to read. -/
theorem Accepting.finishHeader (h : InFields p) (hline : p.message.LineAccepted)
    (hbody : p.message.body = []) (hlimit : p.bodyLimit = 1024 * 1024)
    (hok : p.finishHeader.2 = none) : Accepting p.finishHeader.1.core := by
  have hempty : p.message.body.length = 0 := by rw [hbody]; rfl
  unfold Parser.finishHeader at hok ⊢
  split
  · next hlen =>
    rw [if_pos hlen] at hok
    split
    · next hbig =>
      rw [if_pos hbig] at hok
      cases hok
    · next hsmall =>
      simp only [gt_iff_lt, not_lt] at hsmall
      split
      · refine .body rfl hline (h.read.congr rfl rfl rfl fun _ => rfl) hlen ?_
        show p.message.body.length + p.len ≤ _
        omega
      · next hnone =>
        refine .complete rfl hline (h.read.congr rfl rfl rfl fun _ => rfl) ?_ ?_
        · show p.len = 0
          omega
        · show p.message.body.length ≤ _
          omega
  · next hlen =>
    have hlen' : p.contentLength = false := Bool.not_eq_true _ ▸ hlen
    split
    · next hchunked =>
      refine .chunkHeader rfl hline (h.read.congr rfl rfl rfl fun _ => rfl) hchunked
        (h.noLength hlen') ?_
      show p.message.body.length + p.bodyLimit = _
      omega
    · refine .complete rfl hline (h.read.congr rfl rfl rfl fun hp => absurd hp hlen) rfl ?_
      show p.message.body.length ≤ _
      omega

/-- The octets of a body or a chunk are those that are waited for. -/
theorem FieldsRead.takeBody (h : FieldsRead p) (hlen : p.len ≤ s.length) (st : ParserState)
    (hbody : p.contentLength = true ∨ p.chunked = true) : FieldsRead (p.takeBody s st) := by
  have htake : (p.takeBody s st).message.body.length = p.message.body.length + p.len := by
    show (p.message.body ++ s.take p.len).length = _
    rw [List.length_append, List.length_take, Nat.min_eq_left hlen]
  refine ⟨h.wellFormed, h.grouped, fun hp => ?_, h.chunked, fun hcl hc => ?_⟩
  · obtain ⟨hchunked, f, hf, hvalue⟩ := h.length hp
    refine ⟨hchunked, f, hf, ?_⟩
    rw [htake]
    exact hvalue
  · rcases hbody with hbody | hbody
    · cases hbody.symm.trans hcl
    · cases hbody.symm.trans hc

/-- **Every part** of a message that may be accepted leads to one that may be. -/
theorem Accepting.part (h : Accepting p) (hpart : Part p s q t) : Accepting q := by
  have hstate : ∀ {st st' : ParserState}, p.state = st → p.state = st' → st = st' :=
    fun h h' => h.symm.trans h'
  have htake : ∀ (s : Str) (st : ParserState), p.len ≤ s.length →
      (p.takeBody s st).message.body.length = p.message.body.length + p.len := by
    intro s st hlen
    show (p.message.body ++ s.take p.len).length = _
    rw [List.length_append, List.length_take, Nat.min_eq_left hlen]
  cases hpart with
  | startLine hp hline hfields hok =>
    cases h with
    | startLine _ hin hbody hlimit =>
      obtain ⟨haccepted, m, rfl, hm, hm'⟩ := parseStartLine_accepted hline
      have hin' : InFields { p with message := m, state := .fields } := by
        obtain ⟨⟨hwell, hgrouped, hlen, hchunked, hunframed⟩, hzero, hnone⟩ := hin
        rw [← hm] at hwell hgrouped hlen hchunked hunframed
        rw [← hm'] at hlen hunframed hnone
        exact ⟨⟨hwell, hgrouped, hlen, hchunked, hunframed⟩, hzero, hnone⟩
      obtain ⟨hlimit', hbody', hline', -⟩ := hfields.keeps
      exact .finishHeader (hin'.lines hfields) (hline'.2 haccepted)
        (hbody'.trans (hm'.trans hbody)) (hlimit'.trans hlimit) hok
    | fields hp' | body hp' | chunkHeader hp' | chunkBody hp' | complete hp' =>
      cases hstate hp hp'
  | fields hp hfields hok =>
    cases h with
    | fields _ haccepted hin hbody hlimit =>
      obtain ⟨hlimit', hbody', hline', -⟩ := hfields.keeps
      exact .finishHeader (hin.lines hfields) (hline'.2 haccepted) (hbody'.trans hbody)
        (hlimit'.trans hlimit) hok
    | startLine hp' | body hp' | chunkHeader hp' | chunkBody hp' | complete hp' =>
      cases hstate hp hp'
  | body hp hlen =>
    cases h with
    | body _ haccepted hread hcl hlimit =>
      refine .complete rfl haccepted.withBody (hread.takeBody hlen _ (.inl hcl)) rfl ?_
      rw [htake s .complete hlen]
      exact hlimit
    | startLine hp' | fields hp' | chunkHeader hp' | chunkBody hp' | complete hp' =>
      cases hstate hp hp'
  | @chunk _ _ size hp _ _ hlimit =>
    cases h with
    | chunkHeader _ haccepted hread hchunked hlen hsum =>
      refine .chunkBody rfl haccepted ?_ hchunked ?_
      · refine hread.congr rfl rfl rfl fun hp => ?_
        cases (hread.chunked hchunked).1.symm.trans hp
      · show p.message.body.length + size + (p.bodyLimit - size) = _
        omega
    | startLine hp' | fields hp' | body hp' | chunkBody hp' | complete hp' =>
      cases hstate hp hp'
  | chunkBody hp hlen =>
    cases h with
    | chunkBody _ haccepted hread hchunked hsum =>
      refine .chunkHeader rfl haccepted.withBody (hread.takeBody hlen _ (.inr hchunked)) hchunked
        rfl ?_
      rw [htake s .chunkHeader hlen]
      exact hsum
    | startLine hp' | fields hp' | body hp' | chunkHeader hp' | complete hp' =>
      cases hstate hp hp'
  | @lastChunk q _ _ _ hp _ hfields =>
    cases h with
    | chunkHeader _ haccepted hread hchunked hlen hsum =>
      have hin : InFields p := by
        refine ⟨hread, fun _ => hlen, fun hnot => ?_⟩
        cases hchunked.symm.trans hnot
      obtain ⟨-, hbody', hline', hkeep⟩ := hfields.keeps
      have hread' := (hin.lines hfields).read
      refine .complete rfl (hline'.2 haccepted) (hread'.congr rfl rfl rfl fun _ => rfl)
        ((hkeep hchunked).2.trans hlen) ?_
      show q.message.body.length ≤ _
      rw [hbody']
      omega
    | startLine hp' | fields hp' | body hp' | chunkBody hp' | complete hp' =>
      cases hstate hp hp'

/-- A message that is complete is accepted: nothing is open of its body any more. -/
theorem Accepting.accepted (h : Accepting p) (hp : p.state = .complete) : p.message.Accepted := by
  cases h with
  | complete _ hline hread hlen hlimit =>
    refine ⟨hline, hread.wellFormed, hread.grouped, ?_, hlimit⟩
    cases hcl : p.contentLength with
    | true =>
      obtain ⟨-, f, hf, hvalue⟩ := hread.length hcl
      rw [hlen, Nat.add_zero] at hvalue
      exact .length hf hvalue
    | false =>
      cases hchunked : p.chunked with
      | true =>
        obtain ⟨-, f, hf, hvalue⟩ := hread.chunked hchunked
        exact .chunked hf hvalue
      | false =>
        obtain ⟨hunframed, hbody⟩ := hread.unframed hcl hchunked
        exact .none hunframed hbody
  | startLine hp' | fields hp' | body hp' | chunkHeader hp' | chunkBody hp' =>
    cases hp.symm.trans hp'

/-- What a text decodes to is accepted, by induction on the parts that are read one after the
other. -/
theorem Decodes.accepted {N : ℕ∞} {m : Request} (h : Decodes N p s m t) (hp : Accepting p) :
    m.Accepted := by
  induction h with
  | complete hcomplete => exact hp.accepted hcomplete
  | part hpart _ _ ih => exact ih (hp.part hpart)

end

/-- A new parser is in the state of a message that it may accept, since it has read nothing of
it. -/
theorem Accepting.start : Accepting ({} : Parser).core :=
  .startLine rfl ⟨⟨nofun, .nil, nofun, nofun, fun _ _ => ⟨⟨rfl, nofun⟩, rfl⟩⟩, fun _ => rfl,
    fun _ => rfl⟩ rfl rfl

end Parser

/-- **Every request that is read is accepted**: its line and its fields are made of the characters
that they may have, and the fields leave one way only to tell where the body ends, which is where it
does. -/
theorem asyncRead_accepted {N : Nat} (hN : N < Parser.headerLimit) (hpos : 0 < N)
    {b : FlatStaticBuffer N} {stream : Stream} (h : (asyncRead b stream).error = {}) :
    (asyncRead b stream).request.Accepted := by
  rcases asyncRead_outcome hN hpos b stream with ⟨herror, -⟩ | ⟨-, -, -, hd⟩
  · exact absurd h herror
  · exact Parser.Decodes.accepted hd .start

set_option maxRecDepth 10000 in
/-- A request with a chunk is accepted when it is read from one piece into a buffer of the size that
the listener has. -/
theorem asyncRead_accepted_chunked :
    (asyncRead (N := 4096) {} chunkedStream).request.Accepted :=
  asyncRead_accepted (by decide) (by decide) rfl

end Gomibako.Beast
