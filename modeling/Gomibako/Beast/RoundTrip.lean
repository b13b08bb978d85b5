import Gomibako.Beast.Accepted
import Gomibako.Beast.Write

/-!
# What is written is read

The octets that a serializer makes of a request decode to the request (`decodesTo_written`), the
body coming in any pieces. So a request is read as it was written, whatever amounts the sockets take
and deliver (`asyncRead_written`).
-/

namespace Gomibako.Beast

/-! ## Numbers -/

/-- The digits of a length are parsed up to their end. The check for overflow compares with the
value before, so that the greatest lengths are refused. -/
theorem parseDec_toDigits_append {n : Nat} (h : n < 2 ^ 64 - 10) (s : Str) :
    parseDec (Nat.toDigits 10 n ++ s) = parseDecFrom n s := by
  have hdigit : ∀ d, d < 10 → isDigit (Nat.digitChar d) = true ∧
      (Nat.digitChar d).toNat - '0'.toNat = d := by decide
  induction n using Nat.strongRecOn generalizing s with
  | ind n ih =>
    by_cases hn : n < 10
    · obtain ⟨hd, hv⟩ := hdigit n hn
      rw [Nat.toDigits_of_lt_base hn, List.singleton_append, parseDec, hd, hv]
      exact if_neg Bool.false_ne_true
    · obtain ⟨hd, hv⟩ := hdigit (n % 10) (by omega)
      have hsum : 10 * (n / 10) + n % 10 = n := by omega
      rw [Nat.toDigits_of_base_le (by omega) (by omega), List.append_assoc,
        ih (n / 10) (by omega) (by omega), List.singleton_append, parseDecFrom, hd, hv, hsum]
      rw [if_neg (by decide), if_neg (by omega)]

/-- A length is read as it was written, up to the limit of `parse_dec`, which refuses the numbers
just below that of its type. -/
theorem parseDec_toDigits {n : Nat} (h : n < 2 ^ 64 - 10) :
    parseDec (Nat.toDigits 10 n) = some n := by
  have hparse := parseDec_toDigits_append h []
  rw [List.append_nil] at hparse
  exact hparse

/-- A hexadecimal digit that is written has its value back from `unhex`. -/
theorem unhex_digitChar {d : Nat} (h : d < 16) : unhex (Nat.digitChar d) = some d := by
  decide +revert

/-- The digits of a size are parsed up to their end. -/
theorem parseHex_toDigits {n : Nat} (h : n < 2 ^ 64) (s : Str) :
    parseHex (Nat.toDigits 16 n ++ s) = parseHexFrom n s := by
  induction n using Nat.strongRecOn generalizing s with
  | ind n ih =>
    by_cases hn : n < 16
    · rw [Nat.toDigits_of_lt_base hn, List.singleton_append, parseHex, unhex_digitChar hn]
      rfl
    · rw [Nat.toDigits_of_base_le (by omega) (by omega), List.append_assoc,
        ih (n / 16) (by omega) (by omega), List.singleton_append, parseHexFrom,
        unhex_digitChar (by omega)]
      have hv : (16 * (n / 16) + n % 16) % 2 ^ 64 = n := by omega
      simp only [hv]
      exact if_neg (by omega)

/-- The size of a chunk is read as it was written. -/
theorem parseHex_chunkSize {n : Nat} (h : n < 2 ^ 64) (s : Str) :
    parseHex (chunkSize n ++ '\r' :: s) = some (n, '\r' :: s) := by
  rw [chunkSize, parseHex_toDigits h]
  rfl

/-! ## The request line -/

/-- A word is read up to the space behind it, if its characters are allowed and the space is not one
of them. -/
theorem parseWord_append {isChar : Char → Bool} {bad : ParseError} {word : Str} (hne : word ≠ [])
    (hword : ∀ c ∈ word, isChar c = true) (hspace : isChar ' ' = false) (s : Str) :
    parseWord isChar bad (word ++ ' ' :: s) = .ok (word, s) := by
  have hdrop : (word ++ ' ' :: s).dropWhile isChar = ' ' :: s := by
    rw [List.dropWhile_append_of_pos hword, List.dropWhile_cons_of_neg]
    rw [hspace]
    nofun
  have htake : (word ++ ' ' :: s).takeWhile isChar = word := by
    rw [List.takeWhile_append_of_pos hword, List.takeWhile_cons_of_neg, List.append_nil]
    rw [hspace]
    nofun
  unfold parseWord
  rw [hdrop, htake]
  exact if_neg hne

/-- The text of a method that has one is a token, and the method is found by it. -/
theorem stringToVerb_toText {v : Verb} (h : v ≠ .unknown) :
    stringToVerb v.toText = v ∧ isToken v.toText = true := by
  cases v <;> first | exact absurd rfl h | decide

/-- The text of the method of a request that is accepted. -/
theorem Request.LineAccepted.methodText {m : Request} (h : m.LineAccepted) :
    isToken m.methodText = true ∧ stringToVerb m.methodText = m.method ∧
      m.methodString = if m.method = .unknown then m.methodText else [] := by
  obtain ⟨⟨word, hword, hmethod, hstring⟩, -, -⟩ := h
  rw [← hmethod] at hstring
  unfold Request.methodText
  split
  · next hunknown =>
    rw [if_pos hunknown] at hstring
    rw [hstring]
    exact ⟨hword, hmethod.symm, rfl⟩
  · next hknown =>
    rw [if_neg hknown] at hstring
    exact ⟨(stringToVerb_toText hknown).2, (stringToVerb_toText hknown).1, hstring⟩

namespace Parser

/-- The request line of a request that is accepted is parsed. -/
theorem parseStartLine_text (p : Parser) {m : Request} (h : m.LineAccepted) (s : Str) :
    p.parseStartLine (m.methodText ++ m.targetText ++ ' ' :: versionText m.version ++ crlf ++ s) =
      .ok ({ p with
        state := .fields
        message := { m with fields := p.message.fields, body := p.message.body } }, s) := by
  obtain ⟨hmethod, hverb, hstring⟩ := h.methodText
  obtain ⟨-, ⟨htarget, hchars⟩, hversion⟩ := h
  have hsplit : m.methodText ++ m.targetText ++ ' ' :: versionText m.version ++ crlf ++ s =
      m.methodText ++ ' ' :: (m.target ++ ' ' :: (versionText m.version ++ crlf ++ s)) := by
    rw [Request.targetText, if_neg htarget]
    simp only [List.append_assoc, List.cons_append]
  have htoken : m.methodText ≠ [] ∧ ∀ c ∈ m.methodText, isTokenChar c = true := by
    rw [isToken, Bool.and_eq_true, List.all_eq_true, Bool.not_eq_true',
      List.isEmpty_eq_false_iff] at hmethod
    exact hmethod
  have hword : parseMethod (m.methodText ++ ' ' ::
      (m.target ++ ' ' :: (versionText m.version ++ crlf ++ s))) = .ok (m.methodText, _) :=
    parseWord_append htoken.1 htoken.2 (by decide) _
  have hpath : parseTarget (m.target ++ ' ' :: (versionText m.version ++ crlf ++ s)) =
      .ok (m.target, _) := parseWord_append htarget hchars (by decide) _
  have hnumber : parseVersion (versionText m.version ++ crlf ++ s) =
      .ok (m.version, crlf ++ s) ∧ (m.version < 10 || m.version > 11) = false := by
    rcases hversion with hversion | hversion
    · rw [hversion]
      exact ⟨rfl, rfl⟩
    · rw [hversion]
      exact ⟨rfl, rfl⟩
  have hend : ∀ q : Parser, parseLineEnd q (crlf ++ s) = .ok (q, s) := fun q => by
    rw [parseLineEnd_eq, if_neg (by simp [crlf])]
    rfl
  rw [hsplit, parseStartLine_eq, hword]
  simp only [Except.bind]
  rw [hpath]
  simp only
  rw [hnumber.1]
  simp only
  rw [hnumber.2, if_neg Bool.false_ne_true, hend, onRequest, hverb, ← hstring]

end Parser

/-! ## Fields -/

/-- In the text of a line the scanner of a value goes on to the line end, collecting the
characters. -/
theorem parseValueFrom_text {w : Str} (hw : ∀ c ∈ w, isControl c = false) (buf rev s : Str) :
    parseValueFrom .text buf rev (w ++ crlf ++ s) =
      parseValueFrom .eol buf (w.reverse ++ rev) s := by
  induction w generalizing rev with
  | nil => rfl
  | cons c w ih =>
    have hc : isControl c = false := hw c List.mem_cons_self
    have hrest := ih (fun d hd => hw d (.tail _ hd)) (c :: rev)
    rw [List.cons_append, List.cons_append, parseValueFrom, hc, List.reverse_cons,
      List.append_assoc w.reverse]
    exact hrest

/-- At the end of the only line of a value, with no space behind it, the value is the text of the
line. -/
theorem parseValueFrom_end {rev : Str} (h : ∀ c ∈ rev.head?, isOws c = false) {c : Char}
    (hc : isOws c = false) (s : Str) :
    parseValueFrom .eol [] rev (c :: s) = .ok (rev.reverse, c :: s) := by
  have hdrop : rev.dropWhile isOws = rev := by
    cases rev with
    | nil => rfl
    | cons d rev => rw [List.dropWhile_cons_of_neg (by rw [h d rfl]; nofun)]
  rw [parseValueFrom]
  simp only [hdrop, hc]
  rfl

/-- A value without control characters and without spaces at its ends is read as it was written. -/
theorem parseValueFrom_line {value : Str} (h : ValueOk value) {c : Char} (hc : isOws c = false)
    (s : Str) :
    parseValueFrom .lead [] [] (' ' :: value ++ crlf ++ c :: s) = .ok (value, c :: s) := by
  cases value with
  | nil =>
    have hnone : ∀ d ∈ ([] : Str).head?, isOws d = false := nofun
    exact parseValueFrom_end hnone hc s
  | cons d w =>
    obtain ⟨hcontrol, hhead, hlast⟩ := h
    have hd : isControl d = false := hcontrol d List.mem_cons_self
    have hows : isOws d = false := hhead d rfl
    have hw : ∀ e ∈ w, isControl e = false := fun e he => hcontrol e (.tail _ he)
    have hrev : w.reverse ++ [d] = (d :: w).reverse := List.reverse_cons.symm
    have hend : ∀ e ∈ (d :: w).reverse.head?, isOws e = false := by
      rw [List.head?_reverse]
      exact hlast
    have htext : parseValueFrom .text [] [d] (w ++ crlf ++ c :: s) = .ok (d :: w, c :: s) := by
      rw [parseValueFrom_text hw, hrev, parseValueFrom_end hend hc, List.reverse_reverse]
    show parseValueFrom .lead [] [] (d :: (w ++ crlf ++ c :: s)) = _
    rw [parseValueFrom, hows, hd]
    exact htext

/-- A token has at least one character, and each of them is one of a token, so that there is no
colon in it. -/
theorem isTokenChar_of_isToken {name : Str} (h : isToken name = true) :
    name ≠ [] ∧ ∀ c ∈ name, isTokenChar c = true := by
  rw [isToken, Bool.and_eq_true, List.all_eq_true, Bool.not_eq_true',
    List.isEmpty_eq_false_iff] at h
  exact h

/-- A field that is well formed is read as it was written, if the next line starts with no space. -/
theorem parseField_buffer {f : Field} (h : f.WellFormed) {c : Char} (hc : isOws c = false)
    (s : Str) : parseField (f.buffer ++ c :: s) = .ok (f.name, f.value, c :: s) := by
  obtain ⟨hne, hname⟩ := isTokenChar_of_isToken h.name
  have hsplit : f.buffer ++ c :: s = f.name ++ ':' :: (' ' :: f.value ++ crlf ++ c :: s) := by
    rw [Field.buffer]
    simp only [List.append_assoc]
    rfl
  have hdrop : (f.buffer ++ c :: s).dropWhile isTokenChar =
      ':' :: (' ' :: f.value ++ crlf ++ c :: s) := by
    rw [hsplit, List.dropWhile_append_of_pos hname]
    rfl
  have htake : (f.buffer ++ c :: s).takeWhile isTokenChar = f.name := by
    rw [hsplit, List.takeWhile_append_of_pos hname]
    exact List.append_nil _
  unfold parseField
  rw [hdrop, htake]
  simp only [ne_eq, not_true_eq_false, if_false, hne]
  rw [parseValueFrom_line h.value hc]
  rfl

/-! ## Where the body ends -/

/-- What fields tell of the end of the body: its length, chunks, or nothing. -/
inductive BodyEnd where
  | length (n : Nat)
  | chunked
  | none

/-- The fields tell where the body ends: by a Content-Length, by a Transfer-Encoding, or by none of
the two. -/
inductive Fields.Frames (fs : Fields) : BodyEnd → Prop where
  | length {f : Field} {n : Nat} : fs.FramedBy "Content-Length".toList f →
      parseDec f.value = some n → Frames fs (.length n)
  | chunked {f : Field} : fs.FramedBy "Transfer-Encoding".toList f →
      announcesChunked f.value = true → Frames fs .chunked
  | none : fs.Unframed → Frames fs .none

/-- Chunks are announced if that is what the fields tell. -/
theorem Fields.Frames.announced {m : Request} {e : BodyEnd} (h : m.fields.Frames e) :
    m.announced = true ↔ e = .chunked := by
  cases h with
  | @length f n hframe hvalue =>
    obtain @⟨before, after, hm, his, -, -, hchunks, hlast⟩ := hframe
    have hcl : iequals f.name "Content-Length".toList = true := by
      rw [iequals_comm]
      exact his
    have hte : iequals f.name "Transfer-Encoding".toList = false := by
      rw [iequals_trans hcl]
      decide
    rw [Request.announced, hm, Fields.named_append_cons_of_not hte, Fields.named_append, hlast,
      List.append_nil]
    refine iff_of_false ?_ nofun
    rw [Bool.not_eq_true, List.any_eq_false]
    exact fun g hg => by rw [hchunks g hg]; nofun
  | @chunked f hframe hvalue =>
    obtain @⟨before, after, hm, his, -, -, -, -⟩ := hframe
    refine iff_of_true (List.any_eq_true.2 ⟨f, List.mem_filter.2 ⟨?_, his⟩, hvalue⟩) rfl
    rw [hm]
    exact List.mem_append_right _ List.mem_cons_self
  | none hunframed =>
    refine iff_of_false ?_ nofun
    rw [Bool.not_eq_true, Request.announced, List.any_eq_false]
    exact fun g hg => by rw [hunframed.noChunks g hg]; nofun

namespace Parser

/-- A field that says nothing of the body leaves the parser as it is. -/
theorem doField_keep {p : Parser} {f : Field} (hf : f.WellFormed)
    (hcl : iequals f.name "Content-Length".toList = false)
    (hte : iequals f.name "Transfer-Encoding".toList = true →
      p.contentLength = false ∧ p.chunked = false ∧ announcesChunked f.value = false) :
    p.doField f.name f.value = .ok p := by
  have hconnection := hf.connection
  unfold isConnection at hconnection
  rw [doField, hcl]
  split
  · next hname => rw [if_pos (hconnection hname)]
  · rw [if_neg nofun]
    split
    · next hname =>
      obtain ⟨hlength, hchunked, hannounces⟩ := hte hname
      rw [hlength, hchunked, if_neg nofun]
      split
      · next x hx =>
        rw [announcesChunked, hx] at hannounces
        cases hannounces
      · rfl
    · rfl

/-- Names that are equal up to case are for the connection or not. -/
theorem isConnection_congr {name name' : Str} (h : iequals name name' = true) :
    isConnection name = isConnection name' := by
  rw [isConnection, isConnection, iequals_trans h, iequals_trans h]

/-- A Content-Length gives the parser the length of the body, if nothing was told of the body
before. -/
theorem doField_length {p : Parser} {f : Field} {n : Nat}
    (hcl : iequals f.name "Content-Length".toList = true) (hlength : p.contentLength = false)
    (hchunked : p.chunked = false) (hn : parseDec f.value = some n) :
    p.doField f.name f.value = .ok { p with len := n, contentLength := true } := by
  have hother : isConnection f.name = false := by
    rw [isConnection_congr hcl]
    decide
  unfold isConnection at hother
  rw [doField, hother, hcl, if_neg nofun, if_pos rfl, hlength, hchunked, if_neg nofun, hn]

/-- A Transfer-Encoding that announces chunks makes the parser expect them, if nothing was told of
the body before. -/
theorem doField_chunked {p : Parser} {f : Field}
    (hte : iequals f.name "Transfer-Encoding".toList = true) (hlength : p.contentLength = false)
    (hchunked : p.chunked = false) (hannounces : announcesChunked f.value = true) :
    p.doField f.name f.value = .ok { p with len := 0, chunked := true } := by
  have hother : isConnection f.name = false := by
    rw [isConnection_congr hte]
    decide
  have hcl : iequals f.name "Content-Length".toList = false := by
    rw [iequals_trans hte]
    decide
  unfold isConnection at hother
  obtain ⟨x, hx⟩ := List.length_eq_one_iff.1 (of_decide_eq_true hannounces)
  rw [doField, hother, hcl, hte, if_neg nofun, if_neg nofun, if_pos rfl, hlength, hchunked,
    if_neg nofun, hx]

/-- What is behind a field starts with no space, so that the field does not go on in it. -/
def StartsLine (s : Str) : Prop := ∃ c s', s = c :: s' ∧ isOws c = false

/-- Well-formed fields and the empty line behind them start with no space, as a name is a token and
has none. -/
theorem startsLine_text {fs : Fields} (h : ∀ f ∈ fs, f.WellFormed) (s : Str) :
    StartsLine (fs.text ++ s) := by
  cases fs with
  | nil => exact ⟨'\r', '\n' :: s, rfl, rfl⟩
  | cons f fs =>
    obtain ⟨hne, hname⟩ := isTokenChar_of_isToken (h f List.mem_cons_self).name
    obtain ⟨c, name, hcons⟩ := List.exists_cons_of_ne_nil hne
    rw [hcons] at hname
    refine ⟨c, _, by rw [Fields.text, List.flatMap_cons, Field.buffer, hcons]; rfl, ?_⟩
    have hc := hname c List.mem_cons_self
    rw [← Bool.not_eq_true]
    intro hows
    rw [isOws, Bool.or_eq_true, beq_iff_eq, beq_iff_eq] at hows
    rcases hows with rfl | rfl <;> cases hc

/-- Fields are read one after another, if they are inserted where they are. -/
theorem FieldLines.text {p q r : Parser} {f : Field} {fs : Fields} {s t : Str}
    (hf : f.WellFormed) (hfs : ∀ g ∈ fs, g.WellFormed) (hdo : p.doField f.name f.value = .ok q)
    (hgrouped : (p.message.fields ++ [f]).Grouped)
    (h : FieldLines { q with message := { p.message with fields := p.message.fields ++ [f] } }
      (fs.text ++ s) r t) :
    FieldLines p (Fields.text (f :: fs) ++ s) r t := by
  obtain ⟨c, s', hs, hc⟩ := startsLine_text hfs s
  have htext : Fields.text (f :: fs) ++ s = f.buffer ++ c :: s' := by
    rw [← hs, Fields.text, List.flatMap_cons, Fields.text]
    simp only [List.append_assoc]
  rw [htext]
  refine .field (parseField_buffer hf hc s') hdo ?_
  rw [← hs]
  have hinsert : q.onField f.name f.value =
      { q with message := { p.message with fields := p.message.fields ++ [f] } } := by
    rw [onField, hf.value.trimmed.trim_eq, (doField_keeps hdo).2,
      Fields.Grouped.insertElement_eq_append hgrouped]
  rw [hinsert]
  exact h

/-- The parser `p` with fields that say nothing more of the body. -/
structure Quiet (p : Parser) (fs : Fields) : Prop where
  noLength : fs.named "Content-Length".toList = []
  noChunks : ∀ f ∈ fs.named "Transfer-Encoding".toList, p.contentLength = false ∧
    p.chunked = false ∧ announcesChunked f.value = false

/-- Each of the fields that say nothing more of the body leaves the parser as it is. -/
theorem Quiet.doField {p : Parser} {fs : Fields} (h : Quiet p fs) {f : Field} (hf : f ∈ fs)
    (hwell : f.WellFormed) : p.doField f.name f.value = .ok p := by
  refine doField_keep hwell ?_ fun hte => ?_
  · have hnot := List.filter_eq_nil_iff.1 h.noLength f hf
    rw [Field.is, iequals_comm, Bool.not_eq_true] at hnot
    exact hnot
  · refine h.noChunks f (List.mem_filter.2 ⟨hf, ?_⟩)
    rw [Field.is, iequals_comm, hte]

/-- Behind one of the fields the others say nothing more of the body either, whatever the message
is. -/
theorem Quiet.tail {p : Parser} {f : Field} {fs : Fields} (h : Quiet p (f :: fs)) (m : Request) :
    Quiet { p with message := m } fs := by
  have hsub : ∀ name : Str, ∀ g ∈ fs.named name, g ∈ Fields.named (f :: fs) name :=
    fun name g hg => List.mem_filter.2 ⟨.tail _ (List.mem_filter.1 hg).1, (List.mem_filter.1 hg).2⟩
  refine ⟨List.eq_nil_iff_forall_not_mem.2 fun g hg => ?_, fun g hg => h.noChunks g (hsub _ g hg)⟩
  have hnil := hsub _ g hg
  rw [h.noLength] at hnil
  cases hnil

/-- Fields that say nothing more of the body are read. -/
theorem FieldLines.quiet {p r : Parser} {fs gs : Fields} {s t : Str}
    (hfs : ∀ f ∈ fs ++ gs, f.WellFormed) (hquiet : Quiet p fs)
    (hgrouped : (p.message.fields ++ fs).Grouped)
    (h : FieldLines { p with message := { p.message with fields := p.message.fields ++ fs } }
      (gs.text ++ s) r t) :
    FieldLines p (Fields.text (fs ++ gs) ++ s) r t := by
  induction fs generalizing p with
  | nil =>
    rw [List.append_nil] at h
    exact h
  | cons f fs ih =>
    have happend : p.message.fields ++ f :: fs = p.message.fields ++ [f] ++ fs := by
      rw [List.append_assoc]
      rfl
    rw [happend] at hgrouped h
    have hf := hfs f List.mem_cons_self
    refine FieldLines.text hf (fun g hg => hfs g (.tail _ hg))
      (hquiet.doField List.mem_cons_self hf) hgrouped.of_append.1 ?_
    exact ih (fun g hg => hfs g (.tail _ hg)) (hquiet.tail _) hgrouped h

/-- So are they if nothing but the empty line is behind them. -/
theorem FieldLines.of_quiet {p : Parser} {fs : Fields} (hfs : ∀ f ∈ fs, f.WellFormed)
    (hquiet : Quiet p fs) (hgrouped : (p.message.fields ++ fs).Grouped) (s : Str) :
    FieldLines p (fs.text ++ s)
      { p with message := { p.message with fields := p.message.fields ++ fs } } s := by
  have hnil : fs ++ [] = fs := List.append_nil fs
  rw [← hnil] at hfs
  have hlines := FieldLines.quiet hfs hquiet hgrouped (.done (s := s))
  rw [hnil] at hlines
  exact hlines

/-- The parser that has read what the fields tell of the end of the body. -/
def announce (p : Parser) : BodyEnd → Parser
  | .length n => { p with len := n, contentLength := true }
  | .chunked => { p with len := 0, chunked := true }
  | .none => p

/-- Fields are read as they were written, and with them where the body ends. -/
theorem fieldLines_text {p : Parser} {fs : Fields} {e : BodyEnd} (hwell : ∀ f ∈ fs, f.WellFormed)
    (hgrouped : fs.Grouped) (h : fs.Frames e) (hlength : p.contentLength = false)
    (hchunked : p.chunked = false) (hfields : p.message.fields = []) (s : Str) :
    FieldLines p (fs.text ++ s)
      (announce { p with message := { p.message with fields := fs } } e) s := by
  -- the fields before the one that tells where the body ends, that one, and those behind it
  have hframed : ∀ {before after : Fields} {f : Field} {q : Parser},
      fs = before ++ f :: after → Quiet p before →
      doField { p with message := { p.message with fields := before } } f.name f.value = .ok q →
      Quiet { q with message := { p.message with fields := before ++ [f] } } after →
      FieldLines p (fs.text ++ s)
        { q with message := { p.message with fields := fs } } s := by
    intro before after f q hm hbefore hdo hafter
    have hsplit : before ++ [f] ++ after = fs := by
      rw [hm, List.append_assoc]
      rfl
    rw [← hsplit] at hgrouped
    rw [hm] at hwell ⊢
    refine .quiet hwell hbefore ?_ (.text ?_ ?_ ?_ ?_ (q := q) ?_)
    · rw [hfields]
      exact hgrouped.of_append.1.of_append.1
    · exact hwell f (List.mem_append_right _ List.mem_cons_self)
    · exact fun g hg => hwell g (List.mem_append_right _ (.tail _ hg))
    · rw [hfields]
      exact hdo
    · rw [hfields]
      exact hgrouped.of_append.1
    · have hrest := FieldLines.of_quiet
        (fun g hg => hwell g (List.mem_append_right _ (.tail _ hg))) hafter hgrouped s
      rw [hfields, ← hm, ← hsplit]
      exact hrest
  cases h with
  | @length f n hframe hvalue =>
    obtain @⟨before, after, hm, his, hbefore, hafter, hchunks, hlast⟩ := hframe
    have hcl : iequals f.name "Content-Length".toList = true := by
      rw [iequals_comm]
      exact his
    exact hframed hm ⟨hbefore, fun g hg => ⟨hlength, hchunked, hchunks g hg⟩⟩
      (doField_length hcl hlength hchunked hvalue) ⟨hafter, by rw [hlast]; nofun⟩
  | @chunked f hframe hvalue =>
    obtain @⟨before, after, hm, his, hbefore, hafter, hchunks, hlast⟩ := hframe
    have hte : iequals f.name "Transfer-Encoding".toList = true := by
      rw [iequals_comm]
      exact his
    exact hframed hm ⟨hbefore, fun g hg => ⟨hlength, hchunked, hchunks g hg⟩⟩
      (doField_chunked hte hlength hchunked hvalue) ⟨hafter, by rw [hlast]; nofun⟩
  | none hunframed =>
    have hquiet : Quiet p fs :=
      ⟨hunframed.noLength, fun g hg => ⟨hlength, hchunked, hunframed.noChunks g hg⟩⟩
    have hlines := FieldLines.of_quiet hwell hquiet (by rw [hfields]; exact hgrouped) s
    rw [hfields] at hlines
    exact hlines

/-! ## Bodies -/

/-- The line of a chunk is read as it was written. -/
theorem chunkLine_text (p : Parser) {n : Nat} (hn : n < 2 ^ 64) (s : Str) :
    ChunkLine p ((if p.expectCRLF then crlf else []) ++ (chunkSize n ++ crlf ++ s)) n s := by
  have hhex : parseHex (chunkSize n ++ crlf ++ s) = some (n, crlf ++ s) := by
    rw [List.append_assoc]
    exact parseHex_chunkSize hn ('\n' :: s)
  exact .intro (chunkStart_eq_some_iff.2 rfl) hhex rfl rfl

/-- A line of a chunk is not longer than ten octets. -/
theorem chunkSize_length {n : Nat} (hn : n ≤ 1024 * 1024) : (chunkSize n).length ≤ 6 :=
  (Nat.length_toDigits_le_iff (by decide) (by decide)).2 (by omega)

/-- What is in front of the rest of a text fits the buffer if its length does. -/
theorem length_le_add {N : ℕ∞} {k : Nat} (hN : (k : ℕ∞) ≤ N) {l s : Str} (hl : l.length ≤ k) :
    ((l ++ s).length : ℕ∞) ≤ s.length + N := by
  rw [List.length_append, Nat.cast_add, add_comm]
  exact add_le_add_right ((Nat.cast_le.2 hl).trans hN) _

/-- Chunks are read as they were written, by induction on the pieces: each of them is a line and as
many octets as it says. -/
theorem decodes_chunks {N : ℕ∞} {p : Parser} {ps : List Str}
    (hN : ∀ n ≤ p.bodyLimit, (((chunkSize n).length + 6 : Nat) : ℕ∞) ≤ N)
    (hp : p.state = .chunkHeader) (hlen : ps.flatten.length ≤ p.bodyLimit)
    (hsize : ps.flatten.length < 2 ^ 64) (hne : [] ∉ ps) (rest : Str) :
    Decodes N p ((if p.expectCRLF then crlf else []) ++ (Serializer.encode true ps ++ rest))
      { p.message with body := p.message.body ++ ps.flatten } rest := by
  have hstart : (if p.expectCRLF then crlf else []).length ≤ 2 := by
    split
    · exact Nat.le_refl 2
    · exact Nat.zero_le 2
  induction ps generalizing p with
  | nil =>
    have hline : ChunkLine p ((if p.expectCRLF then crlf else []) ++
        (chunkSize 0 ++ crlf ++ (crlf ++ rest))) 0 (crlf ++ rest) :=
      chunkLine_text p (by decide) _
    have htext : (if p.expectCRLF then crlf else []) ++ (chunkSize 0 ++ crlf ++ (crlf ++ rest)) =
        (if p.expectCRLF then crlf else []) ++ (Serializer.encode true [] ++ rest) := rfl
    rw [htext] at hline
    have hdone : Decodes N { p with state := .complete } rest
        { p.message with body := p.message.body ++ [] } rest := by
      rw [List.append_nil]
      exact .complete rfl
    refine .part (.lastChunk hp hline .done) (fun _ => ?_) hdone
    rw [← List.append_assoc]
    refine length_le_add (hN 0 (Nat.zero_le _)) ?_
    rw [List.length_append]
    have : (Serializer.encode true []).length = 5 := rfl
    have : (chunkSize 0).length = 1 := rfl
    omega
  | cons piece ps ih =>
    have hpiece : piece ≠ [] := fun h => hne (h ▸ List.mem_cons_self)
    have hpos := List.length_pos_iff.2 hpiece
    rw [List.flatten_cons, List.length_append] at hlen hsize
    have htext : (if p.expectCRLF then crlf else []) ++
        (Serializer.encode true (piece :: ps) ++ rest) = (if p.expectCRLF then crlf else []) ++
        (chunkSize piece.length ++ crlf ++
          (piece ++ (crlf ++ (Serializer.encode true ps ++ rest)))) := by
      rw [Serializer.encode_cons, if_pos rfl, chunkText]
      simp only [List.append_assoc]
    rw [htext]
    have hline := chunkLine_text p (n := piece.length) (by omega)
      (piece ++ (crlf ++ (Serializer.encode true ps ++ rest)))
    refine .part (.chunk hp hline (by omega) (by omega)) (fun _ => ?_) ?_
    · rw [← List.append_assoc]
      refine length_le_add (hN piece.length (by omega)) ?_
      have hcrlf : crlf.length = 2 := rfl
      simp only [List.length_append]
      omega
    · have hbody := Part.chunkBody (p := p.startChunk piece.length)
        (s := piece ++ (crlf ++ (Serializer.encode true ps ++ rest))) rfl (by
          rw [List.length_append]
          exact Nat.le_add_right _ _)
      have hdrop : (piece ++ (crlf ++ (Serializer.encode true ps ++ rest))).drop
          (p.startChunk piece.length).len = crlf ++ (Serializer.encode true ps ++ rest) :=
        List.drop_left
      have htake : (piece ++ (crlf ++ (Serializer.encode true ps ++ rest))).take
          (p.startChunk piece.length).len = piece := List.take_left
      rw [hdrop, takeBody, htake] at hbody
      refine .part hbody (by rintro ⟨⟩) ?_
      have hrest := ih (p := { (p.startChunk piece.length).onBody piece with
        len := 0
        state := .chunkHeader }) (fun n hn => hN n (Nat.le_trans hn (Nat.sub_le _ _))) rfl
        (Nat.le_sub_of_add_le (by omega)) (by omega) (fun h => hne (.tail _ h)) (Nat.le_refl 2)
      rw [List.flatten_cons, ← List.append_assoc p.message.body]
      exact hrest

/-- A parser whose message is complete has it, and leaves the whole text. -/
theorem Decodes.of_complete {N : ℕ∞} {p : Parser} {m : Request} {s : Str}
    (hp : p.state = .complete) (hm : p.message = m) : Decodes N p s m s :=
  hm ▸ .complete hp

/-- A request without a body is the same when its body is replaced by none. -/
theorem request_of_body_nil {m : Request} (h : m.body = []) : { m with body := [] } = m := by
  rw [← h]

/-- A body of the length that was announced is read, and what is behind it is left. -/
theorem decodes_body {N : ℕ∞} {p : Parser} {m : Request} {rest : Str} (hp : p.state = .body)
    (hlen : p.len = m.body.length) (hm : p.message = { m with body := [] }) :
    Decodes N p (m.body ++ rest) m rest := by
  have hbody := Part.body (s := m.body ++ rest) hp (by
    rw [hlen, List.length_append]
    exact Nat.le_add_right _ _)
  rw [takeBody, hlen, List.drop_left, List.take_left] at hbody
  refine .part hbody (fun hb => ?_) (.of_complete rfl ?_)
  · rw [buffers, hp] at hb
    cases hb
  · show { p.message with body := p.message.body ++ m.body } = m
    rw [hm]
    rfl

/-! ## Requests -/

/-- **What is written is read**: the octets of a request decode to the request, whatever pieces its
body is written in. -/
theorem decodesTo_written {N : ℕ∞} {m : Request} (h : m.Accepted)
    (hchunked : m.fields.chunked = m.announced) (hN : (m.header.length : ℕ∞) ≤ N) {ps : List Str}
    (hps : ps.flatten = m.body) (hne : m.announced = true → [] ∉ ps) (rest : Str) :
    DecodesTo N (m.header ++ Serializer.encode m.fields.chunked ps ++ rest) m rest := by
  have hbig : ∀ n ≤ 1024 * 1024, (((chunkSize n).length + 6 : Nat) : ℕ∞) ≤ N := by
    intro n hn
    refine (Nat.cast_le.2 ?_).trans hN
    have hdigits := chunkSize_length hn
    have hversion : (versionText m.version).length = 8 := rfl
    have hcrlf : crlf.length = 2 := rfl
    simp only [Request.header, Fields.text, List.length_append, List.length_cons]
    omega
  generalize hbody : Serializer.encode m.fields.chunked ps ++ rest = body
  have hsplit : m.header ++ Serializer.encode m.fields.chunked ps ++ rest =
      m.methodText ++ m.targetText ++ ' ' :: versionText m.version ++ crlf ++
        (m.fields.text ++ body) := by
    rw [← hbody, Request.header]
    simp only [List.append_assoc]
  have hline := parseStartLine_text ({} : Parser).core h.line (m.fields.text ++ body)
  rw [← hsplit] at hline
  have hfields : ∀ {e : BodyEnd}, m.fields.Frames e → FieldLines { ({} : Parser).core with
      state := .fields
      message := { m with fields := [], body := [] } } (m.fields.text ++ body)
      (announce { ({} : Parser).core with
        state := .fields
        message := { m with body := [] } } e) body :=
    fun hframes => fieldLines_text h.fields h.grouped hframes rfl rfl rfl body
  have hlimit : ((m.header ++ Serializer.encode m.fields.chunked ps ++ rest).length : ℕ∞) ≤
      body.length + N := by
    rw [List.append_assoc, hbody, List.length_append, Nat.cast_add, add_comm]
    exact add_le_add_right hN _
  have hplain : m.announced = false → body = m.body ++ rest := by
    intro hannounced
    rw [← hbody, hchunked, hannounced, ← hps]
    rfl
  cases h.framing with
  | length hframe hvalue =>
    have hframes := Fields.Frames.length hframe hvalue
    have hannounced : m.announced = false :=
      Bool.eq_false_iff.2 fun hannounced => by cases hframes.announced.1 hannounced
    have hfields := hfields hframes
    rw [hplain hannounced] at hline hfields hlimit
    have hfinish : ∀ q : Parser, q.contentLength = true → q.len = m.body.length →
        q.bodyLimit = 1024 * 1024 → q.finishHeader =
          ({ q with state := if m.body.length > 0 then .body0 else .complete }, none) := by
      intro q hcl hlen hlimit
      rw [finishHeader, if_pos hcl, hlen, hlimit, if_neg (Nat.not_lt.2 h.body)]
    refine .part (.startLine rfl hline hfields ?_) (fun _ => hlimit) ?_
    · rw [hfinish _ rfl rfl rfl]
    · rw [hfinish _ rfl rfl rfl]
      by_cases hempty : m.body = []
      · rw [hempty]
        exact .of_complete rfl (request_of_body_nil hempty)
      · rw [if_pos (List.length_pos_iff.2 hempty)]
        exact decodes_body rfl rfl rfl
  | chunked hframe hvalue =>
    have hframes := Fields.Frames.chunked hframe hvalue
    have hannounced : m.announced = true := hframes.announced.2 rfl
    refine .part (.startLine rfl hline (hfields hframes) rfl) (fun _ => hlimit) ?_
    have hchunks := decodes_chunks (p := finishHeader { ({} : Parser).core with
      state := .fields
      message := { m with body := [] }
      len := 0
      chunked := true } |>.1.core) hbig rfl (by rw [hps]; exact h.body)
      (by rw [hps]; exact Nat.lt_of_le_of_lt h.body (by decide)) (hne hannounced) rest
    rw [hps] at hchunks
    rw [← hbody, hchunked, hannounced]
    exact hchunks
  | none hunframed hnone =>
    have hframes := Fields.Frames.none hunframed
    have hannounced : m.announced = false :=
      Bool.eq_false_iff.2 fun hannounced => by cases hframes.announced.1 hannounced
    have hfields := hfields hframes
    rw [hplain hannounced, hnone] at hline hfields hlimit
    refine .part (.startLine rfl hline hfields rfl) (fun _ => hlimit) ?_
    exact .of_complete rfl (request_of_body_nil hnone)

end Parser

/-- A write that the socket does not fail puts all of the text on the wire. -/
theorem WriteOutcome.wire_eq {keepAlive : Bool} {text : Str} {k : Sink} {n : Nat} {wire : Str}
    {result : WriteResult} (h : WriteOutcome keepAlive text k n wire result)
    (hok : result.error ≠ k.final) : result.wire = wire ++ text := by
  cases h with
  | complete => rfl
  | close => rfl
  | fail => exact absurd rfl hok

/-- **A request is read as it was written**: whatever pieces its body is written in, none of them
empty if it is chunked, whatever the sockets take and deliver at once, and whatever part of it was
in the buffer before, the request that is read is the one that was written, and nothing is left, in
the buffer or in the stream. -/
theorem asyncRead_written {N : Nat} (hN : N < Parser.headerLimit) {m : Request} (h : m.Accepted)
    (hchunked : m.fields.chunked = m.announced) (hheader : m.header.length ≤ N) {σ : Type _}
    {body : BodyReader σ} {reader reader' : σ} {ps : List Str}
    (hinit : body.init reader = .ok reader') (hps : Serializer.Delivers body reader' ps)
    (hbody : ps.flatten = m.body) (hne : m.announced = true → [] ∉ ps)
    {limit : Option {n : Nat // 0 < n}} {fuel : Nat} {k : Sink} {result : WriteResult}
    (hfuel : (m.header ++ Serializer.encode m.fields.chunked ps).length + ps.length + 1 < fuel)
    (hwrite : writeOp Serializer.isDone fuel (m.source body) { reader, limit } k = some result)
    (hok : result.error ≠ k.final) {b : FlatStaticBuffer N} {stream : Stream}
    (hstream : b.data ++ stream.octets = result.wire) :
    (asyncRead b stream).error = {} ∧ (asyncRead b stream).thrown = none ∧
      (asyncRead b stream).request = m ∧ (asyncRead b stream).buffer.data = [] ∧
      (asyncRead b stream).stream.octets = [] := by
  obtain ⟨result', hwrite', houtcome⟩ :
      ∃ result', writeOp Serializer.isDone fuel (m.source body) { reader, limit } k =
          some result' ∧
        WriteOutcome (m.fields.keepAlive m.version)
          (m.header ++ Serializer.encode m.fields.chunked ps) k 0 [] result' :=
    writeFrom_outcome (.construct (m := m.source body) hinit hps limit) rfl hfuel
  cases hwrite'.symm.trans hwrite
  have hwire : result.wire = m.header ++ Serializer.encode m.fields.chunked ps :=
    houtcome.wire_eq hok
  have hpos : 0 < N := by
    refine Nat.lt_of_lt_of_le ?_ hheader
    rw [Request.header, List.length_append]
    exact Nat.add_pos_right _ (List.length_pos_iff.2 (by rw [Fields.text]; simp [crlf]))
  have hdecodes := Parser.decodesTo_written h hchunked (Nat.cast_le.2 hheader) hbody hne []
  rw [List.append_nil, ← hwire, ← hstream] at hdecodes
  rcases asyncRead_outcome hN hpos b stream with ⟨-, hnone⟩ | ⟨herror, hthrown, -, hd⟩
  · exact absurd hdecodes (hnone m [])
  · obtain ⟨hm, hrest⟩ := hdecodes.det hd
    exact ⟨herror, hthrown, hm, List.append_eq_nil_iff.1 hrest⟩

theorem fortySink_pos : 0 ∉ [40, 7, 100, 100, 100] := by decide

/-- A socket that takes forty octets, then seven, then what there is. -/
def fortySink : Sink := ⟨[40, 7, 100, 100, 100], .eof, fortySink_pos, failed_eof⟩

/-- The octets of the request with its body in two chunks. -/
def twoChunksOctets : Str :=
  "PUT /a HTTP/1.1\r\nTransfer-Encoding: chunked\r\n\r\n1\r\na\r\n2\r\nbc\r\n0\r\n\r\n".toList

theorem twoChunksOctets_ne_nil : twoChunksOctets.drop 50 ≠ [] := by decide

set_option maxRecDepth 10000 in
/-- The octets are what is written for the request when its body is given in two pieces. -/
theorem write_twoChunks :
    writeOp Serializer.isDone 100 (chunkedRequest.source piecesReader)
        { reader := ["a".toList, "bc".toList] } fortySink =
      some ⟨{}, twoChunksOctets.length, twoChunksOctets⟩ := rfl

/-- What a peer sends of the octets of the two chunks behind the first fifty. -/
def twoChunksStream : Stream := .chunk _ twoChunksOctets_ne_nil

/-- The buffer that holds the first fifty of the octets before the read. -/
def twoChunksBuffer : FlatStaticBuffer 64 := ⟨twoChunksOctets.take 50, by decide⟩

set_option maxRecDepth 10000 in
/-- A request whose body is written in two pieces is read. -/
theorem asyncRead_written_chunked :
    (asyncRead twoChunksBuffer twoChunksStream).error = {} ∧
      (asyncRead twoChunksBuffer twoChunksStream).thrown = none ∧
      (asyncRead twoChunksBuffer twoChunksStream).request = chunkedRequest ∧
      (asyncRead twoChunksBuffer twoChunksStream).buffer.data = [] ∧
      (asyncRead twoChunksBuffer twoChunksStream).stream.octets = [] :=
  asyncRead_written (by decide) (decodesTo_chunked.accepted .start) (by decide) (by decide) (by rfl)
    (delivers_pieces ["a".toList, "bc".toList]) (by rfl) (fun _ => by decide) (by decide)
    write_twoChunks (by decide) (by rfl)

end Gomibako.Beast
