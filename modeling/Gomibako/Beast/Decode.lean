import Gomibako.Beast.Lines
import Gomibako.Beast.Parser
import Mathlib.Data.ENat.Basic

/-!
# What a text decodes to

The parser is given a message in pieces and remembers how far it has looked. Here it is said without
pieces what it reads: a message is a sequence of parts (`Part`), each of them being all of the text
that the parser must have seen to go on: the header, a body of a length, the line of a chunk, its
octets, and the last chunk with the trailer. A text decodes to a message if its parts lead to the
end of one (`Decodes`). More text behind changes nothing (`Part.append`), and a part needs nothing
behind it (`Part.of_append`).
-/

namespace Gomibako.Beast

/-- The states up to how the parser got there: those in which it has looked at nothing yet are the
ones in which it goes on. -/
def ParserState.core : ParserState → ParserState
  | .nothingYet => .startLine
  | .body0 => .body
  | .chunkHeader0 => .chunkHeader
  | st => st

namespace Parser

/-- The parser without what it remembers of the octets it will be given again. -/
def core (p : Parser) : Parser :=
  { p with state := p.state.core, skip := 0, finalChunk := false }

/-! ## The parts of a message -/

/-- The lines of fields up to an empty line: the parser `q` has the fields. -/
inductive FieldLines : Parser → Str → Parser → Str → Prop where
  | done {p : Parser} {s : Str} : FieldLines p (crlf ++ s) p s
  | field {p q r : Parser} {s s' t name value : Str} :
      parseField s = .ok (name, value, s') → p.doField name value = .ok q →
      FieldLines (q.onField name value) s' r t → FieldLines p s r t

/-- The text behind the line end of the chunk before. -/
def chunkStart (p : Parser) (s : Str) : Option Str :=
  if p.expectCRLF then parseCrlf s else some s

/-- The line of a chunk: a size, and extensions up to the first line end. -/
inductive ChunkLine (p : Parser) (s : Str) (size : Nat) (eol : Str) : Prop where
  | intro {line q : Str} : p.chunkStart s = some line → parseHex line = some (size, q) →
      findEol q = .ok (some eol) → parseChunkExtensions q = .ok (crlf ++ eol) →
      ChunkLine p s size eol

/-- The parser in front of the octets of a chunk. -/
def startChunk (p : Parser) (size : Nat) : Parser :=
  { p with bodyLimit := p.bodyLimit - size, len := size, expectCRLF := true, state := .chunkBody }

/-- The parser in the state `st` behind a body or a chunk. -/
def takeBody (p : Parser) (s : Str) (st : ParserState) : Parser :=
  { p.onBody (s.take p.len) with len := 0, state := st }

/-- A part of a message that the parser `p` is in front of: the parser behind it and what is left of
the text. -/
inductive Part : Parser → Str → Parser → Str → Prop where
  | startLine {p p₁ p₂ : Parser} {s s₁ t : Str} : p.state = .startLine →
      p.parseStartLine s = .ok (p₁, s₁) → FieldLines p₁ s₁ p₂ t → p₂.finishHeader.2 = none →
      Part p s p₂.finishHeader.1.core t
  | fields {p p₁ : Parser} {s t : Str} : p.state = .fields → FieldLines p s p₁ t →
      p₁.finishHeader.2 = none → Part p s p₁.finishHeader.1.core t
  | body {p : Parser} {s : Str} : p.state = .body → p.len ≤ s.length →
      Part p s (p.takeBody s .complete) (s.drop p.len)
  | chunk {p : Parser} {s t : Str} {size : Nat} : p.state = .chunkHeader → ChunkLine p s size t →
      size ≠ 0 → size ≤ p.bodyLimit → Part p s (p.startChunk size) t
  | chunkBody {p : Parser} {s : Str} : p.state = .chunkBody → p.len ≤ s.length →
      Part p s (p.takeBody s .chunkHeader) (s.drop p.len)
  | lastChunk {p q : Parser} {s s₁ t : Str} : p.state = .chunkHeader → ChunkLine p s 0 s₁ →
      FieldLines p s₁ q t → Part p s { q with state := .complete } t

/-- The parser must see all of the part that it is in front of. -/
def buffers (p : Parser) : Bool :=
  p.state = .startLine || p.state = .fields || p.state = .chunkHeader

/-- **What a text decodes to**: the parser `p` in front of the text `s` reads the message and leaves
`t`, and no part that it must see at once has more than `N` octets. -/
inductive Decodes (N : ℕ∞) : Parser → Str → Request → Str → Prop where
  | complete {p : Parser} {s : Str} : p.state = .complete → Decodes N p s p.message s
  | part {p q : Parser} {s s' t : Str} {m : Request} : Part p s q s' →
      (p.buffers = true → (s.length : ℕ∞) ≤ s'.length + N) → Decodes N q s' m t →
      Decodes N p s m t

/-! ## The header -/

section
variable {p q r : Parser} {s t u : Str}

/-- The line end behind the version, for which `parse_start_line` wants two octets. -/
def parseLineEnd (q : Parser) (s : Str) : Except ParseError (Parser × Str) :=
  (IsScanner.take .needMore 2 s).bind fun x =>
    if x.1 = crlf then .ok (q, x.2) else .error .badVersion

theorem isScanner_parseLineEnd (q : Parser) : IsScanner .needMore (parseLineEnd q) := by
  refine (IsScanner.isScanner_take ParseError.needMore 2).bind
    (g := fun x rest => if x = crlf then .ok (q, rest) else .error .badVersion) fun x => ?_
  refine .ite ?_ ?_ _
  · exact .pure _ _
  · exact .throw (e := ParseError.badVersion) nofun

/-- The end of `parse_start_line`: without two octets it wants more, and other octets than a line
end are a bad version. -/
theorem parseLineEnd_eq (q : Parser) (s : Str) : parseLineEnd q s =
    if s.length < 2 then .error .needMore
    else match parseCrlf s with
      | none => .error .badVersion
      | some s => .ok (q, s) := by
  match s with
  | [] => rfl
  | [_] => rfl
  | c :: d :: s =>
    have htake : IsScanner.take ParseError.needMore 2 (c :: d :: s) = .ok ([c, d], s) := by
      rw [IsScanner.take, if_neg (by simp)]
      rfl
    rw [parseLineEnd, htake, if_neg (by simp)]
    by_cases heq : [c, d] = crlf
    · cases heq
      rfl
    · have hnone : parseCrlf (c :: d :: s) = none := by
        unfold parseCrlf
        split
        · next h =>
          cases h
          exact absurd rfl heq
        · rfl
      rw [hnone]
      exact if_neg heq

/-- The request line is a sequence of scanners: the method, the target, the version, and a line end
behind them. -/
theorem parseStartLine_eq (p : Parser) (s : Str) : p.parseStartLine s =
    (parseMethod s).bind fun x => (parseTarget x.2).bind fun y => (parseVersion y.2).bind fun z =>
      if z.1 < 10 || z.1 > 11 then .error .badVersion
      else parseLineEnd { p.onRequest x.1 y.1 z.1 with state := .fields } z.2 := by
  simp only [parseLineEnd_eq]
  rfl

/-- The request line is scanned, being a sequence of scanners: what is behind it does not matter,
and a prefix of it wants more. -/
theorem isScanner_parseStartLine (p : Parser) : IsScanner .needMore p.parseStartLine := by
  rw [funext (parseStartLine_eq p)]
  refine isScanner_parseMethod.bind
    (g := fun method s => (parseTarget s).bind fun y => (parseVersion y.2).bind fun z =>
      if z.1 < 10 || z.1 > 11 then .error .badVersion
      else parseLineEnd { p.onRequest method y.1 z.1 with state := .fields } z.2)
    fun method => ?_
  refine isScanner_parseTarget.bind
    (g := fun target s => (parseVersion s).bind fun z =>
      if z.1 < 10 || z.1 > 11 then .error .badVersion
      else parseLineEnd { p.onRequest method target z.1 with state := .fields } z.2)
    fun target => ?_
  refine isScanner_parseVersion.bind
    (g := fun version s => if version < 10 || version > 11 then .error .badVersion
      else parseLineEnd { p.onRequest method target version with state := .fields } s)
    fun version => ?_
  refine .ite ?_ ?_ _
  · exact .throw (e := ParseError.badVersion) nofun
  · exact isScanner_parseLineEnd _

/-- A request line ends with a line end, and the parser goes on with the fields behind it. -/
theorem parseStartLine_crlf (h : p.parseStartLine s = .ok (q, t)) :
    crlf ++ t <:+ s ∧ q.state = .fields := by
  rw [parseStartLine_eq] at h
  obtain ⟨x, hx, h⟩ := Except.bind_eq_ok_iff.1 h
  obtain ⟨y, hy, h⟩ := Except.bind_eq_ok_iff.1 h
  obtain ⟨z, hz, h⟩ := Except.bind_eq_ok_iff.1 h
  split at h
  · cases h
  · obtain ⟨w, hw, h⟩ := Except.bind_eq_ok_iff.1 h
    split at h
    · next hcrlf =>
      cases h
      have hsuffix : crlf ++ w.2 <:+ z.2 := by
        unfold IsScanner.take at hw
        split at hw <;> cases hw
        rw [← hcrlf, List.take_append_drop]
      have hmethod := isScanner_parseMethod.suffix hx
      have htarget := isScanner_parseTarget.suffix hy
      have hversion := isScanner_parseVersion.suffix hz
      exact ⟨hsuffix.trans (hversion.trans (htarget.trans hmethod)), rfl⟩
    · cases h

/-- More text behind a field does not change what is read of it; it is left with the rest. -/
theorem parseField_append {name value : Str} (h : parseField s = .ok (name, value, t)) (u : Str) :
    parseField (s ++ u) = .ok (name, value, t ++ u) := by
  have hmap := isScanner_parseField.ok u (s := s) (b := (name, value)) (r := t)
    (Except.map_eq_ok_iff.2 ⟨_, h, rfl⟩)
  obtain ⟨⟨n, v, r⟩, hr, heq⟩ := Except.map_eq_ok_iff.1 hmap
  cases heq
  exact hr

/-- A field needs only what is before the rest, if there is some. -/
theorem parseField_of_append {name value : Str} (h : parseField (s ++ u) = .ok (name, value, t))
    (hlen : u.length < t.length) : ∃ t', t = t' ++ u ∧ parseField s = .ok (name, value, t') := by
  obtain ⟨t', ht, hmap⟩ := isScanner_parseField.of_append (s := s) (b := (name, value)) (r := t)
    (Except.map_eq_ok_iff.2 ⟨_, h, rfl⟩) hlen
  obtain ⟨⟨n, v, r⟩, hr, heq⟩ := Except.map_eq_ok_iff.1 hmap
  cases heq
  exact ⟨r, ht, hr⟩

/-- An error of a field stays one, unless it wants more. -/
theorem parseField_error_append {e : ParseError} (h : parseField s = .error e) (he : e ≠ .needMore)
    (u : Str) : parseField (s ++ u) = .error e := by
  have hmap := isScanner_parseField.error u (s := s) (e := e) (by simp only [h]; rfl) he
  cases hs : parseField (s ++ u) with
  | error e' =>
    simp only [hs, Except.map] at hmap
    cases hmap
    rfl
  | ok x =>
    simp only [hs, Except.map] at hmap
    cases hmap

namespace FieldLines

/-- An empty line is the end of the fields: there is none, and the text behind the line is left. -/
theorem crlf_iff : FieldLines p (crlf ++ s) q t ↔ q = p ∧ t = s := by
  constructor
  · intro h
    generalize hs : crlf ++ s = s' at h
    cases h with
    | done => exact ⟨rfl, (List.append_cancel_left hs).symm⟩
    | field hfield =>
      subst hs
      cases hfield
  · rintro ⟨rfl, rfl⟩
    exact .done

/-- Lines of fields that start with a field are this field and the lines of the others, for the
parser that has stored it. -/
theorem field_iff {name value : Str} (hfield : parseField s = .ok (name, value, u)) :
    FieldLines p s q t ↔
      ∃ q₁, p.doField name value = .ok q₁ ∧ FieldLines (q₁.onField name value) u q t := by
  constructor
  · intro h
    cases h with
    | done => cases hfield
    | field hfield' hdo hrest =>
      cases hfield.symm.trans hfield'
      exact ⟨_, hdo, hrest⟩
  · rintro ⟨q₁, hdo, hrest⟩
    exact .field hfield hdo hrest

/-- A text that does not start with a field can only be an empty line and what is behind it. -/
theorem crlf_of_error {e : ParseError} (hfield : parseField s = .error e)
    (h : FieldLines p s q t) : s = crlf ++ t := by
  cases h with
  | done => rfl
  | field hfield' => cases hfield.symm.trans hfield'

/-- The fields of a text are the same however they are read. -/
theorem det (h : FieldLines p s q t) {q' : Parser} {t' : Str} (h' : FieldLines p s q' t') :
    q' = q ∧ t' = t := by
  induction h with
  | done => exact crlf_iff.1 h'
  | field hfield hdo _ ih =>
    obtain ⟨q₁, hdo', hrest⟩ := (field_iff hfield).1 h'
    cases hdo.symm.trans hdo'
    exact ih hrest

/-- More text behind the fields does not change them; it is left with the rest. -/
theorem append (h : FieldLines p s q t) (u : Str) : FieldLines p (s ++ u) q (t ++ u) := by
  induction h with
  | done =>
    rw [List.append_assoc]
    exact .done
  | field hfield hdo _ ih => exact .field (parseField_append hfield u) hdo ih

/-- The fields end with an empty line, the first one. -/
theorem findEom (h : FieldLines p s q t) : Beast.findEom (crlf ++ s) = some t := by
  induction h with
  | @done p s =>
    have hpre : eom <+: '\r' :: ('\n' :: (crlf ++ s)) := List.prefix_append eom s
    show Beast.findEom ('\r' :: ('\n' :: (crlf ++ s))) = some s
    rw [findEom_cons, if_pos hpre]
    rfl
  | field hfield _ _ ih => rw [(parseField_lines hfield).2.2, ih]

/-- The lines of fields end with a line end, that of the empty line. -/
theorem suffix (h : FieldLines p s q t) : crlf ++ t <:+ s := by
  induction h with
  | done => exact List.suffix_rfl
  | @field p q r s s' t name value hfield _ _ ih =>
    exact ih.trans ((List.suffix_append crlf s').trans (parseField_lines hfield).2.1)

/-- The lines of fields need nothing of the text behind them, as long as all of it is left. -/
theorem of_append (h : FieldLines p (s ++ u) q t) (hlen : u.length ≤ t.length) :
    ∃ t', t = t' ++ u ∧ FieldLines p s q t' := by
  generalize hs : s ++ u = s' at h
  induction h generalizing s with
  | @done p t =>
    obtain ⟨t', rfl⟩ : u <:+ t :=
      List.suffix_of_suffix_length_le (hs ▸ List.suffix_append s u) (List.suffix_append crlf t) hlen
    rw [← List.append_assoc] at hs
    rw [List.append_cancel_right hs]
    exact ⟨t', rfl, .done⟩
  | @field p q r s₀ s₁ t name value hfield hdo hrest ih =>
    subst hs
    have hshort := hrest.suffix.length_le
    rw [List.length_append] at hshort
    have hpos : crlf.length = 2 := rfl
    obtain ⟨s₁', rfl, hfield'⟩ := parseField_of_append hfield (by omega)
    obtain ⟨t', ht, hrest'⟩ := ih hlen rfl
    exact ⟨t', ht, .field hfield' hdo hrest'⟩

end FieldLines

/-! ## The line of a chunk -/

/-- More text behind the extensions of a chunk does not change them; it is left with the rest. -/
theorem parseChunkExtensions_append (h : parseChunkExtensions s = .ok t) (u : Str) :
    parseChunkExtensions (s ++ u) = .ok (t ++ u) := by
  have hmap := (isScanner_chunkExtensionsFrom .next).ok u (s := s) (b := ()) (r := t)
    (Except.map_eq_ok_iff.2 ⟨_, h, rfl⟩)
  obtain ⟨r, hr, heq⟩ := Except.map_eq_ok_iff.1 hmap
  cases heq
  exact hr

/-- Extensions need only what is before the rest, if there is some. -/
theorem parseChunkExtensions_of_append (h : parseChunkExtensions (s ++ u) = .ok t)
    (hlen : u.length < t.length) : ∃ t', t = t' ++ u ∧ parseChunkExtensions s = .ok t' := by
  obtain ⟨t', ht, hmap⟩ := (isScanner_chunkExtensionsFrom .next).of_append (s := s) (b := ())
    (r := t) (Except.map_eq_ok_iff.2 ⟨_, h, rfl⟩) hlen
  obtain ⟨r, hr, heq⟩ := Except.map_eq_ok_iff.1 hmap
  cases heq
  exact ⟨_, ht, hr⟩

/-- A line end is at the start of a text. -/
theorem parseCrlf_eq_some_iff : parseCrlf s = some t ↔ s = crlf ++ t := by
  constructor
  · intro h
    unfold parseCrlf at h
    split at h
    · cases h
      rfl
    · cases h
  · rintro rfl
    rfl

/-- The text behind the line end of the chunk before is what is left of the text without it, if one
is expected. -/
theorem chunkStart_eq_some_iff :
    p.chunkStart s = some t ↔ s = (if p.expectCRLF then crlf else []) ++ t := by
  unfold chunkStart
  split
  · exact parseCrlf_eq_some_iff
  · simp

namespace ChunkLine

variable {size size' : Nat}

/-- The size of a line is the same however it is read. -/
theorem det (h : ChunkLine p s size t) (h' : ChunkLine p s size' u) : size' = size ∧ u = t := by
  obtain ⟨hstart, hhex, heol, -⟩ := h
  obtain ⟨hstart', hhex', heol', -⟩ := h'
  cases hstart.symm.trans hstart'
  cases hhex.symm.trans hhex'
  cases heol.symm.trans heol'
  exact ⟨rfl, rfl⟩

/-- More text behind the line of a chunk does not change its size; it is left with the rest. -/
theorem append (h : ChunkLine p s size t) (u : Str) : ChunkLine p (s ++ u) size (t ++ u) := by
  obtain @⟨line, q, hstart, hhex, heol, hext⟩ := h
  have hq : q ≠ [] := by
    rintro rfl
    cases heol
  refine ⟨?_, parseHex_append hhex hq u, findEol_append heol u, ?_⟩
  · rw [chunkStart_eq_some_iff] at hstart ⊢
    rw [hstart, List.append_assoc]
  · exact parseChunkExtensions_append hext u

/-- The text of the line: the line end before it, the size, extensions and a line end. -/
theorem eq_append (h : ChunkLine p s size t) :
    ∃ l, '\r' ∉ l ∧ s = (if p.expectCRLF then crlf else []) ++ (l ++ (crlf ++ t)) := by
  obtain @⟨line, q, hstart, hhex, heol, -⟩ := h
  obtain ⟨l, hl, rfl⟩ := parseHex_digits hhex
  obtain ⟨l', hl', rfl⟩ := findEol_eq_some_iff.1 heol
  rw [chunkStart_eq_some_iff] at hstart
  refine ⟨l ++ l', by simp [hl, hl'], ?_⟩
  rw [hstart]
  simp only [List.append_assoc]

/-- The line of a chunk ends with a line end. -/
theorem suffix (h : ChunkLine p s size t) : crlf ++ t <:+ s := by
  obtain ⟨l, -, rfl⟩ := h.eq_append
  exact (List.suffix_append l _).trans (List.suffix_append _ _)

/-- The line of a chunk needs nothing of the text behind it, as long as all of it is left. -/
theorem of_append (h : ChunkLine p (s ++ u) size t) (hlen : u.length ≤ t.length) :
    ∃ t', t = t' ++ u ∧ ChunkLine p s size t' := by
  obtain ⟨l, -, heq⟩ := h.eq_append
  obtain @⟨line, q, hstart, hhex, heol, hext⟩ := h
  obtain ⟨t', rfl⟩ : u <:+ t := by
    refine List.suffix_of_suffix_length_le (heq ▸ List.suffix_append s u) ?_ hlen
    exact (List.suffix_append crlf t).trans
      ((List.suffix_append l _).trans (List.suffix_append _ _))
  have hs : s = (if p.expectCRLF then crlf else []) ++ (l ++ (crlf ++ t')) := by
    refine (List.append_left_inj u).1 ?_
    rw [heq]
    simp only [List.append_assoc]
  have hline : line = l ++ (crlf ++ t') ++ u := by
    rw [chunkStart_eq_some_iff, heq] at hstart
    rw [← List.append_cancel_left hstart]
    simp only [List.append_assoc]
  rw [hline] at hhex
  obtain ⟨q', rfl, -, hhex'⟩ := parseHex_of_append (by simp [crlf]) hhex
  obtain ⟨t'', ht, heol'⟩ := findEol_of_append heol hlen
  cases List.append_cancel_right ht
  obtain ⟨t'', ht, hext'⟩ := parseChunkExtensions_of_append hext (by
    simp only [List.length_append, crlf, List.length_cons]
    omega)
  rw [← List.append_assoc] at ht
  cases List.append_cancel_right ht
  exact ⟨t', rfl, chunkStart_eq_some_iff.2 hs, hhex', heol', hext'⟩

end ChunkLine

/-! ## Parts -/

/-- Behind a body, the octets that were taken are the same with more text behind. -/
theorem takeBody_append (hlen : p.len ≤ s.length) (u : Str) (st : ParserState) :
    p.takeBody (s ++ u) st = p.takeBody s st := by
  rw [takeBody, takeBody, List.take_append_of_le_length hlen]

namespace Part

/-- The parts of a text are the same however they are read. -/
theorem det (h : Part p s q t) {q' : Parser} {t' : Str} (h' : Part p s q' t') :
    q' = q ∧ t' = t := by
  cases h with
  | startLine hp hline hfields =>
    cases h' with
    | startLine _ hline' hfields' =>
      cases hline.symm.trans hline'
      obtain ⟨rfl, rfl⟩ := hfields.det hfields'
      exact ⟨rfl, rfl⟩
    | fields hp' | body hp' | chunk hp' | chunkBody hp' | lastChunk hp' => cases hp.symm.trans hp'
  | fields hp hfields =>
    cases h' with
    | fields _ hfields' =>
      obtain ⟨rfl, rfl⟩ := hfields.det hfields'
      exact ⟨rfl, rfl⟩
    | startLine hp' | body hp' | chunk hp' | chunkBody hp' | lastChunk hp' =>
      cases hp.symm.trans hp'
  | body hp =>
    cases h' with
    | body => exact ⟨rfl, rfl⟩
    | startLine hp' | fields hp' | chunk hp' | chunkBody hp' | lastChunk hp' =>
      cases hp.symm.trans hp'
  | chunk hp hline hsize =>
    cases h' with
    | chunk _ hline' =>
      obtain ⟨rfl, rfl⟩ := hline.det hline'
      exact ⟨rfl, rfl⟩
    | lastChunk _ hline' => exact absurd (hline'.det hline).1 hsize
    | startLine hp' | fields hp' | body hp' | chunkBody hp' => cases hp.symm.trans hp'
  | chunkBody hp =>
    cases h' with
    | chunkBody => exact ⟨rfl, rfl⟩
    | startLine hp' | fields hp' | body hp' | chunk hp' | lastChunk hp' => cases hp.symm.trans hp'
  | lastChunk hp hline hfields =>
    cases h' with
    | lastChunk _ hline' hfields' =>
      obtain ⟨-, rfl⟩ := hline.det hline'
      obtain ⟨rfl, rfl⟩ := hfields.det hfields'
      exact ⟨rfl, rfl⟩
    | chunk _ hline' hsize => exact absurd (hline.det hline').1 hsize
    | startLine hp' | fields hp' | body hp' | chunkBody hp' => cases hp.symm.trans hp'

/-- More text behind a part does not change what is read of it; it is left with the rest. -/
theorem append (h : Part p s q t) (u : Str) : Part p (s ++ u) q (t ++ u) := by
  cases h with
  | startLine hp hline hfields hfinish =>
    exact .startLine hp ((isScanner_parseStartLine p).ok u hline) (hfields.append u) hfinish
  | fields hp hfields hfinish => exact .fields hp (hfields.append u) hfinish
  | body hp hlen =>
    rw [← takeBody_append hlen u, ← List.drop_append_of_le_length hlen]
    exact .body hp (by rw [List.length_append]; omega)
  | chunk hp hline hsize hlimit => exact .chunk hp (hline.append u) hsize hlimit
  | chunkBody hp hlen =>
    rw [← takeBody_append hlen u, ← List.drop_append_of_le_length hlen]
    exact .chunkBody hp (by rw [List.length_append]; omega)
  | lastChunk hp hline hfields => exact .lastChunk hp (hline.append u) (hfields.append u)

/-- What is left behind a part is the end of the text. -/
theorem suffix (h : Part p s q t) : t <:+ s := by
  have hcrlf := List.suffix_append crlf t
  cases h with
  | startLine _ hline hfields =>
    exact hcrlf.trans (hfields.suffix.trans ((isScanner_parseStartLine p).suffix hline))
  | fields _ hfields => exact hcrlf.trans hfields.suffix
  | body | chunkBody => exact List.drop_suffix _ _
  | chunk _ hline => exact hcrlf.trans hline.suffix
  | lastChunk _ hline hfields =>
    exact hcrlf.trans (hfields.suffix.trans ((List.suffix_append crlf _).trans hline.suffix))

/-- A part needs nothing of the text behind it, as long as all of it is left. -/
theorem of_append (h : Part p (s ++ u) q t) (hlen : u.length ≤ t.length) :
    ∃ t', t = t' ++ u ∧ Part p s q t' := by
  cases h with
  | startLine hp hline hfields hfinish =>
    have hshort := hfields.suffix.length_le
    rw [List.length_append] at hshort
    have hpos : crlf.length = 2 := rfl
    obtain ⟨s₁, rfl, hline'⟩ := (isScanner_parseStartLine p).of_append hline (by omega)
    obtain ⟨t', rfl, hfields'⟩ := hfields.of_append hlen
    exact ⟨t', rfl, .startLine hp hline' hfields' hfinish⟩
  | fields hp hfields hfinish =>
    obtain ⟨t', rfl, hfields'⟩ := hfields.of_append hlen
    exact ⟨t', rfl, .fields hp hfields' hfinish⟩
  | body hp hle =>
    have hle' : p.len ≤ s.length := by
      simp only [List.length_drop, List.length_append] at hlen hle
      omega
    rw [List.drop_append_of_le_length hle', takeBody_append hle']
    exact ⟨_, rfl, .body hp hle'⟩
  | chunk hp hline hsize hlimit =>
    obtain ⟨t', rfl, hline'⟩ := hline.of_append hlen
    exact ⟨t', rfl, .chunk hp hline' hsize hlimit⟩
  | chunkBody hp hle =>
    have hle' : p.len ≤ s.length := by
      simp only [List.length_drop, List.length_append] at hlen hle
      omega
    rw [List.drop_append_of_le_length hle', takeBody_append hle']
    exact ⟨_, rfl, .chunkBody hp hle'⟩
  | lastChunk hp hline hfields =>
    have hshort := hfields.suffix.length_le
    rw [List.length_append] at hshort
    obtain ⟨s₁, rfl, hline'⟩ := hline.of_append (by omega)
    obtain ⟨t', rfl, hfields'⟩ := hfields.of_append hlen
    exact ⟨t', rfl, .lastChunk hp hline' hfields'⟩

/-- A part has octets, unless it is a body without. -/
theorem shorter (h : Part p s q t) (hp : p.buffers = true ∨ 0 < p.len) : t.length < s.length := by
  have hpos : crlf.length = 2 := rfl
  have hbody : ∀ {st : ParserState}, p.state = st → (st = .body ∨ st = .chunkBody) →
      p.len ≤ s.length → (s.drop p.len).length < s.length := by
    intro st hst hor hlen
    have hlen' : 0 < p.len := hp.resolve_left fun hb => by
      rcases hor with rfl | rfl <;> simp [buffers, hst] at hb
    rw [List.length_drop]
    omega
  cases h with
  | startLine _ hline hfields =>
    have h₁ := hfields.suffix.length_le
    have h₂ := (isScanner_parseStartLine p).length_le hline
    rw [List.length_append] at h₁
    omega
  | fields _ hfields =>
    have h₁ := hfields.suffix.length_le
    rw [List.length_append] at h₁
    omega
  | body hst hlen => exact hbody hst (.inl rfl) hlen
  | chunk _ hline =>
    have h₁ := hline.suffix.length_le
    rw [List.length_append] at h₁
    omega
  | chunkBody hst hlen => exact hbody hst (.inr rfl) hlen
  | lastChunk _ hline hfields =>
    have h₁ := hfields.suffix.length_le
    have h₂ := hline.suffix.length_le
    rw [List.length_append] at h₁ h₂
    omega

/-- The message is complete, and there are no more parts. -/
theorem not_complete (h : Part p s q t) : p.state ≠ .complete := by
  intro hp
  cases h with
  | startLine hp' | fields hp' | body hp' | chunk hp' | chunkBody hp' | lastChunk hp' =>
    cases hp.symm.trans hp'

end Part

namespace Decodes

variable {N M : ℕ∞} {m m' : Request}

/-- **A text decodes to one message**, whatever limits there are. -/
theorem det (h : Decodes N p s m t) (h' : Decodes M p s m' u) : m' = m ∧ u = t := by
  induction h with
  | complete hp =>
    cases h' with
    | complete => exact ⟨rfl, rfl⟩
    | part hpart => exact absurd hp hpart.not_complete
  | part hpart _ _ ih =>
    cases h' with
    | complete hp => exact absurd hp hpart.not_complete
    | part hpart' _ hrest =>
      obtain ⟨rfl, rfl⟩ := hpart.det hpart'
      exact ih hrest

/-- More text behind a message does not change what the text decodes to; it is left with the
rest. -/
theorem append (h : Decodes N p s m t) (u : Str) : Decodes N p (s ++ u) m (t ++ u) := by
  induction h with
  | complete hp => exact .complete hp
  | part hpart hlimit _ ih =>
    refine .part (hpart.append u) (fun hp => ?_) ih
    have := hlimit hp
    rw [List.length_append, List.length_append, Nat.cast_add, Nat.cast_add, add_right_comm]
    exact add_le_add_left this _

end Decodes

end

end Parser

end Gomibako.Beast
