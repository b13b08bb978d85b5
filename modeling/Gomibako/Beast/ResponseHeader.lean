import Gomibako.Beast.ResponseParser
import Gomibako.Beast.RoundTrip

/-!
# The header of a response

The status line of a response is scanned (`isScanner_parseStatusLine`) and parsed as it was written,
and with it the header (`readHeader_text`). A header is two parts of the text that are each within
the limit (`HeaderAt`), so that more text behind it changes nothing (`HeaderAt.append`).
-/

namespace Gomibako.Beast

/-! ## The status line -/

/-- The digits of a status are digits for the parser, which gets their values back. -/
theorem isDigit_digit {d : Nat} (h : d < 10) :
    isDigit (digit d) = true ∧ (digit d).toNat - '0'.toNat = d := by
  decide +revert

/-- A status of at most three digits is parsed as it was written. -/
theorem parseStatus_text {n : Nat} (h : n ≤ 999) (s : Str) :
    parseStatus (statusText n ++ ' ' :: s) = .ok (n, s) := by
  obtain ⟨ha, hva⟩ := isDigit_digit (d := n / 100) (by omega)
  obtain ⟨hb, hvb⟩ := isDigit_digit (d := n / 10 % 10) (by omega)
  obtain ⟨hc, hvc⟩ := isDigit_digit (d := n % 10) (by omega)
  have hsum : 100 * (n / 100) + 10 * (n / 10 % 10) + n % 10 = n := by omega
  show (if isDigit (digit (n / 100)) && isDigit (digit (n / 10 % 10)) && isDigit (digit (n % 10)) &&
    ' ' = ' ' then _ else _) = _
  rw [ha, hb, hc, hva, hvb, hvc, hsum]
  rfl

/-- A line without control characters is parsed as it was written, up to its end. -/
theorem parseTokenToEol_text {line : Str} (h : ∀ c ∈ line, isControl c = false) (s : Str) :
    parseTokenToEol (line ++ crlf ++ s) = .ok (some (line, s)) := by
  have hline : ∀ c ∈ line, (!isControl c) = true := fun c hc => by rw [h c hc]; rfl
  have hdrop : (line ++ crlf ++ s).dropWhile (fun c => !isControl c) = crlf ++ s := by
    rw [List.append_assoc, List.dropWhile_append_of_pos hline]
    rfl
  have htake : (line ++ crlf ++ s).takeWhile (fun c => !isControl c) = line := by
    rw [List.append_assoc, List.takeWhile_append_of_pos hline]
    exact List.append_nil _
  rw [parseTokenToEol, hdrop, htake]
  rfl

/-- The reasons of the statuses have no control characters, and neither has the one for the
others. -/
theorem obsoleteReason_noControl (v : Nat) : ∀ c ∈ obsoleteReason v, isControl c = false := by
  have hall : ∀ p ∈ statusReasons, p.2.toList.all (fun c => !isControl c) = true := by
    decide +kernel
  unfold obsoleteReason
  cases hfind : statusReasons.find? fun p => p.1 = v with
  | none => exact noControl_of_all rfl
  | some p => exact noControl_of_all (hall p (List.mem_of_find?_eq_some hfind))

/-- The status line of a response with its line end, as the writer makes it. -/
def Response.statusLine (r : Response) : Str :=
  versionText r.version ++ ' ' :: statusText r.result ++ ' ' :: r.reasonText ++ crlf

/-- A response made of the characters its parts may have. -/
structure Response.WellFormed (r : Response) : Prop where
  version : r.version = 10 ∨ r.version = 11
  result : r.result ≤ 999
  reason : ∀ c ∈ r.reason, isControl c = false
  fields : ∀ f ∈ r.fields, f.WellFormed
  grouped : r.fields.Grouped

/-- The responses that can be read: the header is within the limit. -/
structure Response.Accepted (r : Response) : Prop extends r.WellFormed where
  header : r.header.length ≤ Parser.headerLimit

/-- The reason that is written for a response has no control characters, be it its own or that of
the status. -/
theorem Response.WellFormed.reasonText {r : Response} (h : r.WellFormed) :
    ∀ c ∈ r.reasonText, isControl c = false := by
  unfold Response.reasonText
  split
  · exact obsoleteReason_noControl r.result
  · exact h.reason

/-- The status line is parsed as it was written: the version, the status and the reason come
back. -/
theorem parseStatusLine_text {r : Response} (h : r.WellFormed) (s : Str) :
    parseStatusLine (r.statusLine ++ s) = .ok (⟨r.version, r.result, r.reasonText⟩, s) := by
  have hsplit : r.statusLine ++ s = versionText r.version ++ ' ' ::
      (statusText r.result ++ ' ' :: (r.reasonText ++ crlf ++ s)) := by
    rw [Response.statusLine]
    simp only [List.append_assoc, List.cons_append]
  have hversion : parseVersion (r.statusLine ++ s) =
        .ok (r.version, ' ' :: (statusText r.result ++ ' ' :: (r.reasonText ++ crlf ++ s))) ∧
      (r.version < 10 || r.version > 11) = false := by
    rw [hsplit]
    rcases h.version with hversion | hversion
    · rw [hversion]
      exact ⟨rfl, rfl⟩
    · rw [hversion]
      exact ⟨rfl, rfl⟩
  have hreason : parseReason (r.reasonText ++ crlf ++ s) = .ok (r.reasonText, s) := by
    rw [parseReason, parseTokenToEol_text h.reasonText]
  rw [parseStatusLine, hversion.1]
  simp only [hversion.2, parseStatus_text h.result]
  show (parseReason (r.reasonText ++ crlf ++ s)).bind _ = _
  rw [hreason]
  rfl

/-! ## Scanning the status line -/

/-- No other error is reported as that there is not enough. -/
theorem ParseError.toErrorCode_needMore {e : ParseError}
    (h : e.toErrorCode = ParseError.needMore.toErrorCode) : e = .needMore := by
  have hvalue := congrArg ErrorCode.value h
  cases e <;> first | rfl | exact absurd hvalue (by decide)

/-- The number of four octets that are a status and a space. -/
def statusOf : Str → Option Nat
  | [a, b, c, d] =>
    if isDigit a && isDigit b && isDigit c && d = ' ' then
      some (100 * (a.toNat - '0'.toNat) + 10 * (b.toNat - '0'.toNat) + (c.toNat - '0'.toNat))
    else none
  | _ => none

/-- A status is four octets, three digits and a space, which are taken at once. -/
theorem parseStatus_eq (s : Str) :
    parseStatus s = (IsScanner.take HttpError.needMore.toErrorCode 4 s).bind fun x =>
      match statusOf x.1 with
      | some status => .ok (status, x.2)
      | none => .error HttpError.badStatus.toErrorCode := by
  match s with
  | a :: b :: c :: d :: rest =>
    have htake : IsScanner.take HttpError.needMore.toErrorCode 4 (a :: b :: c :: d :: rest) =
        .ok ([a, b, c, d], rest) := by
      rw [IsScanner.take, if_neg (by simp)]
      rfl
    rw [htake, parseStatus]
    simp only [Except.bind, statusOf]
    split <;> rfl
  | [] | [_] | [_, _] | [_, _, _] => rfl

/-- A status is scanned: what is behind its four octets does not matter. -/
theorem isScanner_parseStatus : IsScanner HttpError.needMore.toErrorCode parseStatus := by
  rw [funext parseStatus_eq]
  refine (IsScanner.isScanner_take HttpError.needMore.toErrorCode 4).bind
    (g := fun x rest => match statusOf x with
      | some status => .ok (status, rest)
      | none => .error HttpError.badStatus.toErrorCode) fun x => ?_
  cases statusOf x with
  | none => exact .throw (by decide)
  | some status => exact .pure _ _

/-- A reason is a line without control characters: the octets up to a CR, and an LF behind it. -/
theorem parseReason_eq (s : Str) :
    parseReason s =
      (IsScanner.span HttpError.needMore.toErrorCode (fun c => !isControl c) s).bind fun x =>
        if x.1.2 = '\r' then
          (IsScanner.take HttpError.needMore.toErrorCode 1 x.2).bind fun y =>
            if y.1 ≠ ['\n'] then .error HttpError.badLineEnding.toErrorCode else .ok (x.1.1, y.2)
        else .error HttpError.badReason.toErrorCode := by
  rw [parseReason, parseTokenToEol, IsScanner.span]
  cases s.dropWhile fun c => !isControl c with
  | nil => rfl
  | cons c rest =>
    simp only [Except.bind]
    split_ifs
    · cases rest with
      | nil => rfl
      | cons d rest =>
        have htake : IsScanner.take HttpError.needMore.toErrorCode 1 (d :: rest) =
            .ok ([d], rest) := by
          rw [IsScanner.take, if_neg (by simp)]
          rfl
        rw [htake]
        simp only [ne_eq, List.cons.injEq, and_true]
        split_ifs <;> rfl
    · rfl

/-- A reason is scanned: what is behind its line end does not matter. -/
theorem isScanner_parseReason : IsScanner HttpError.needMore.toErrorCode parseReason := by
  rw [funext parseReason_eq]
  refine (IsScanner.isScanner_span HttpError.needMore.toErrorCode fun c => !isControl c).bind
    (g := fun x rest => if x.2 = '\r' then
        (IsScanner.take HttpError.needMore.toErrorCode 1 rest).bind fun y =>
          if y.1 ≠ ['\n'] then .error HttpError.badLineEnding.toErrorCode else .ok (x.1, y.2)
      else .error HttpError.badReason.toErrorCode) fun x => .ite ?_ (.throw (by decide)) _
  refine (IsScanner.isScanner_take HttpError.needMore.toErrorCode 1).bind
    (g := fun y rest => if y ≠ ['\n'] then .error HttpError.badLineEnding.toErrorCode
      else .ok (x.1, rest)) fun y => ?_
  exact .ite (.throw (by decide)) (.pure _ _) _

/-- The end of a status line: a space, the status and the reason. -/
def parseStatusLineEnd (version : Nat) (s : Str) : Except ErrorCode (StatusLine × Str) :=
  (IsScanner.take HttpError.needMore.toErrorCode 1 s).bind fun x =>
    if x.1 ≠ [' '] then .error HttpError.badVersion.toErrorCode
    else (parseStatus x.2).bind fun y =>
      (parseReason y.2).bind fun z => .ok (⟨version, y.1, z.1⟩, z.2)

/-- The end of a status line, behind the version, is scanned as a status and a reason are. -/
theorem isScanner_parseStatusLineEnd (version : Nat) :
    IsScanner HttpError.needMore.toErrorCode (parseStatusLineEnd version) := by
  refine (IsScanner.isScanner_take HttpError.needMore.toErrorCode 1).bind
    (g := fun x rest => if x ≠ [' '] then .error HttpError.badVersion.toErrorCode
      else (parseStatus rest).bind fun y =>
        (parseReason y.2).bind fun z => .ok (StatusLine.mk version y.1 z.1, z.2))
    fun x => .ite (.throw (by decide)) ?_ _
  refine isScanner_parseStatus.bind (g := fun y rest =>
    (parseReason rest).bind fun z => .ok (StatusLine.mk version y z.1, z.2)) fun y => ?_
  exact isScanner_parseReason.bind (g := fun z rest => .ok (StatusLine.mk version y z, rest))
    fun z => .pure _ _

/-- A status line by its version and what is behind it. -/
theorem parseStatusLine_eq (s : Str) :
    parseStatusLine s = ((parseVersion s).mapError ParseError.toErrorCode).bind fun x =>
      if x.1 < 10 || x.1 > 11 then .error HttpError.badVersion.toErrorCode
      else parseStatusLineEnd x.1 x.2 := by
  rw [parseStatusLine]
  cases parseVersion s with
  | error e => rfl
  | ok x =>
    obtain ⟨version, rest⟩ := x
    simp only [Except.mapError, Except.bind, parseStatusLineEnd]
    split_ifs
    · rfl
    · cases rest with
      | nil => rfl
      | cons c rest =>
        have htake : IsScanner.take HttpError.needMore.toErrorCode 1 (c :: rest) =
            .ok ([c], rest) := by
          rw [IsScanner.take, if_neg (by simp)]
          rfl
        rw [htake]
        simp only [ne_eq, List.cons.injEq, and_true]
        split_ifs <;> rfl

/-- A status line is scanned, being a sequence of scanners: what is behind it does not matter, and a
prefix of it wants more. -/
theorem isScanner_parseStatusLine : IsScanner HttpError.needMore.toErrorCode parseStatusLine := by
  rw [funext parseStatusLine_eq]
  refine (isScanner_parseVersion.mapError (k := ParseError.toErrorCode)
      fun e => ParseError.toErrorCode_needMore).bind
    (g := fun x rest => if x < 10 || x > 11 then .error HttpError.badVersion.toErrorCode
      else parseStatusLineEnd x rest) fun x => ?_
  exact .ite (.throw (by decide)) (isScanner_parseStatusLineEnd x) _

/-! ## The header -/

namespace Parser

/-- Lines of fields that are all there are parsed without an error. -/
theorem parseFields_lines {p q : Parser} {s t : Str} {fuel : Nat} {step : ParseStep}
    (hlines : FieldLines p s q t) (h : parseFields fuel p s = some step) : step = ⟨q, t, none⟩ := by
  cases parseFields_result h with
  | done hdone =>
    obtain ⟨rfl, rfl⟩ := hlines.det hdone
    rfl
  | more hmore hnot =>
    have hiff := hmore [] q t
    rw [List.append_nil, List.append_nil] at hiff
    exact absurd (hiff.1 hlines) (hnot q t)
  | fail _ hnot =>
    have hnone := hnot [] q t
    rw [List.append_nil] at hnone
    exact absurd hlines hnone

/-- What the parser looks at of a text whose first part is within the limit starts with all of that
part. -/
theorem take_headerLimit {a : Str} (h : a.length ≤ headerLimit) (s : Str) :
    (a ++ s).take headerLimit = a ++ s.take (headerLimit - a.length) := by
  rw [List.take_append, List.take_of_length_le h]

/-- What is behind the pointer is what is behind the part that was parsed. -/
theorem behindLimit_append {a : Str} (h : a.length ≤ headerLimit) (s : Str) :
    behindLimit (a ++ s) (s.take (headerLimit - a.length)) = s := by
  have hlen : ((a ++ s).take headerLimit).length - (s.take (headerLimit - a.length)).length =
      a.length := by
    rw [take_headerLimit h, List.length_append]
    omega
  rw [behindLimit, hlen, List.drop_left]

/-- A text is the part of it that was parsed, and what is behind the pointer. -/
theorem exists_part_of_suffix {s r : Str} (h : r <:+ s.take headerLimit) :
    ∃ a, a.length ≤ headerLimit ∧ s = a ++ behindLimit s r ∧
      r = (behindLimit s r).take (headerLimit - a.length) := by
  obtain ⟨a, ha⟩ := h
  have hlen := congrArg List.length ha
  rw [List.length_append] at hlen
  have hle : a.length ≤ headerLimit := by
    have := List.length_take_le headerLimit s
    omega
  have htake : s.take a.length = a := by
    have := congrArg (List.take a.length) ha
    rw [List.take_left, List.take_take, Nat.min_eq_left hle] at this
    exact this.symm
  have hbehind : behindLimit s r = s.drop a.length := by
    rw [behindLimit, ← hlen, Nat.add_sub_cancel]
  refine ⟨a, hle, ?_, ?_⟩
  · rw [hbehind]
    conv_lhs => rw [← List.take_append_drop a.length s, htake]
  · have hr := congrArg (List.drop a.length) ha
    rw [List.drop_left, List.drop_take] at hr
    rw [hbehind]
    exact hr

end Parser

/-- The text starts with a header, a status line and fields that are each within the limit. -/
inductive HeaderAt (limit : Nat) : Str → StatusLine → Parser → Str → Prop where
  | intro {a b t : Str} {line : StatusLine} {p : Parser} :
      a.length ≤ Parser.headerLimit → b.length ≤ Parser.headerLimit →
      parseStatusLine (a ++ (b ++ t).take (Parser.headerLimit - a.length)) =
        .ok (line, (b ++ t).take (Parser.headerLimit - a.length)) →
      Parser.FieldLines { state := .fields, bodyLimit := limit }
        (b ++ t.take (Parser.headerLimit - b.length)) p
        (t.take (Parser.headerLimit - b.length)) →
      HeaderAt limit (a ++ (b ++ t)) line p t

/-- A text that has a header at its start is read: each of the two parts is within the limit, so
that the parser sees it. -/
theorem HeaderAt.readHeader {limit : Nat} {s t : Str} {line : StatusLine} {p : Parser}
    (h : HeaderAt limit s line p t) : readHeader limit s = .ok (line, p, t) := by
  obtain @⟨a, b, t, line, p, ha, hb, hline, hlines⟩ := h
  rw [← Parser.take_headerLimit ha] at hline
  rw [← Parser.take_headerLimit hb] at hlines
  obtain ⟨step, hstep⟩ : ∃ step, Parser.parseFields ((b ++ t).length + 1)
      { state := .fields, bodyLimit := limit } ((b ++ t).take Parser.headerLimit) = some step :=
    Option.isSome_iff_exists.1 (Parser.parseFields_isSome (by rw [List.length_take]; omega))
  have hread := Parser.parseFields_lines hlines hstep
  unfold Beast.readHeader
  rw [hline]
  simp only [Except.mapError, bind, Except.bind, Parser.behindLimit_append ha,
    Option.get_of_eq_some _ hstep]
  rw [hread]
  simp only [Parser.behindLimit_append hb]
  rfl

/-- If a header is read from a text, the text has it at its start, with both of its parts within the
limit. -/
theorem headerAt_of_readHeader {limit : Nat} {s t : Str} {line : StatusLine} {p : Parser}
    (h : readHeader limit s = .ok (line, p, t)) : HeaderAt limit s line p t := by
  unfold readHeader at h
  cases hline : parseStatusLine (s.take Parser.headerLimit) with
  | error e =>
    rw [hline] at h
    cases h
  | ok x =>
    obtain ⟨line', r⟩ := x
    rw [hline] at h
    obtain ⟨a, ha, hs, hr⟩ :=
      Parser.exists_part_of_suffix (isScanner_parseStatusLine.suffix hline)
    simp only [Except.mapError, bind, Except.bind] at h
    obtain ⟨step, hstep⟩ : ∃ step, Parser.parseFields ((Parser.behindLimit s r).length + 1)
        { state := .fields, bodyLimit := limit }
        ((Parser.behindLimit s r).take Parser.headerLimit) = some step :=
      Option.isSome_iff_exists.1 (Parser.parseFields_isSome (by rw [List.length_take]; omega))
    simp only [Option.get_of_eq_some _ hstep] at h
    cases Parser.parseFields_result hstep with
    | @done q r' hlines =>
      obtain ⟨b, hb, hrest, hr'⟩ :=
        Parser.exists_part_of_suffix ((List.suffix_append _ _).trans hlines.suffix)
      cases h
      generalize Parser.behindLimit s r = rest at hs hr hrest hr' hlines ⊢
      generalize Parser.behindLimit rest r' = t at hrest hr' ⊢
      subst hs hrest hr' hr
      refine .intro ha hb ?_ ?_
      · rw [← Parser.take_headerLimit ha]
        exact hline
      · rw [← Parser.take_headerLimit hb]
        exact hlines
    | more => cases h
    | fail => cases h

/-- More text behind a header does not change it; it is left with the rest. -/
theorem HeaderAt.append {limit : Nat} {s t : Str} {line : StatusLine} {p : Parser}
    (h : HeaderAt limit s line p t) (u : Str) : HeaderAt limit (s ++ u) line p (t ++ u) := by
  obtain @⟨a, b, t, line, p, ha, hb, hline, hlines⟩ := h
  rw [List.append_assoc, List.append_assoc]
  refine .intro ha hb ?_ ?_
  · have hok := isScanner_parseStatusLine.ok
      (u.take (Parser.headerLimit - a.length - (b ++ t).length)) hline
    rw [List.append_assoc, ← List.take_append, List.append_assoc] at hok
    exact hok
  · have hok := hlines.append (u.take (Parser.headerLimit - b.length - t.length))
    rw [List.append_assoc, ← List.take_append] at hok
    exact hok

/-- The header of a response is read as it was written. -/
theorem readHeader_text {r : Response} (h : r.Accepted) {e : BodyEnd} (hframes : r.fields.Frames e)
    (limit : Nat) (s : Str) :
    readHeader limit (r.header ++ s) =
      .ok (⟨r.version, r.result, r.reasonText⟩,
        .announce { state := .fields, bodyLimit := limit, message := { fields := r.fields } } e,
        s) := by
  have hsplit : r.header ++ s = r.statusLine ++ (r.fields.text ++ s) := List.append_assoc ..
  have hlen : r.statusLine.length + r.fields.text.length ≤ Parser.headerLimit := by
    rw [← List.length_append]
    exact h.header
  rw [hsplit]
  refine (HeaderAt.intro (by omega) (by omega) ?_ ?_).readHeader
  · exact parseStatusLine_text h.toWellFormed _
  · exact Parser.fieldLines_text h.fields h.grouped hframes rfl rfl rfl _

end Gomibako.Beast
