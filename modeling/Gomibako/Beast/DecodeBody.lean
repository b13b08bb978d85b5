import Gomibako.Beast.DecodeHeader

/-!
# The parser and the body of a message

The parser hands over a body or a chunk as its octets arrive (`parseBody_outcome`). Of the lines of
chunks it remembers how far it has looked for the line end, and of the last chunk that its line is
there; what it does is what it would do with all of the line (`parseChunkHeader_outcome`).
-/

namespace Gomibako.Beast.Parser

variable {p q : Parser} {s t r : Str} {fuel : Nat} {step : ParseStep}

/-! ## Octets of a length -/

/-- A body is a part exactly if all of its octets are there, whatever comes behind it. -/
theorem Part.body_iff (hp : p.state = .body) {u : Str} :
    Part p s q u ↔ p.len ≤ s.length ∧ q = p.takeBody s .complete ∧ u = s.drop p.len := by
  constructor
  · intro h
    cases h with
    | body _ hlen => exact ⟨hlen, rfl, rfl⟩
    | startLine hst | fields hst | chunk hst | chunkBody hst | lastChunk hst =>
      cases hp.symm.trans hst
  · rintro ⟨hlen, rfl, rfl⟩
    exact .body hp hlen

/-- The octets of a chunk are a part, whatever comes behind them. -/
theorem Part.chunkBody_iff (hp : p.state = .chunkBody) {u : Str} :
    Part p s q u ↔ p.len ≤ s.length ∧ q = p.takeBody s .chunkHeader ∧ u = s.drop p.len := by
  constructor
  · intro h
    cases h with
    | chunkBody _ hlen => exact ⟨hlen, rfl, rfl⟩
    | startLine hst | fields hst | body hst | chunk hst | lastChunk hst => cases hp.symm.trans hst
  · rintro ⟨hlen, rfl, rfl⟩
    exact .chunkBody hp hlen

/-- The parser that has handed over the octets `s` of a longer body. -/
def restBody (p : Parser) (s : Str) : Parser := { p.onBody s with len := p.len - s.length }

/-- The parser that has handed over the octets of a longer body comes to the same with the octets
that follow as one that gets all of them at once. -/
theorem takeBody_restBody (hlen : s.length < p.len) (t : Str) (st : ParserState) :
    (p.core.len ≤ (s ++ t).length ↔ (p.restBody s).core.len ≤ t.length) ∧
      p.core.takeBody (s ++ t) st = (p.restBody s).core.takeBody t st ∧
      (s ++ t).drop p.core.len = t.drop (p.restBody s).core.len := by
  have hcore : p.core.len = p.len := rfl
  have hrest : (p.restBody s).core.len = p.len - s.length := rfl
  have htake : (s ++ t).take p.len = s ++ t.take (p.len - s.length) := by
    rw [List.take_append, List.take_of_length_le (Nat.le_of_lt hlen)]
  rw [hcore, hrest]
  refine ⟨?_, ?_, ?_⟩
  · rw [List.length_append]
    omega
  · unfold takeBody
    rw [hcore, hrest, htake]
    simp only [restBody, onBody, core, List.append_assoc]
  · rw [List.drop_append, List.drop_of_length_le (Nat.le_of_lt hlen), List.nil_append]

/-- The state `body` of `put`: the octets that are there are handed over, and the body is a part if
they are all. -/
theorem parseBody_outcome (hp : p.state = .body) (hready : Ready p s) :
    Outcome p s (p.parseBody s) := by
  have hcorestate : p.core.state = .body := core_state hp rfl
  have hflags : p.contentLength = true ∧ 0 < p.len := by
    cases hready with
    | body _ hcontent hlen => exact ⟨hcontent, hlen⟩
    | fresh hst | chunkBody hst | lastChunk hst | complete hst => cases hp.symm.trans hst
    | header hst | chunkLine hst => rcases hst with hst | hst <;> cases hp.symm.trans hst
  unfold parseBody
  by_cases hlen : s.length < p.len
  · have hmin : min p.len s.length = s.length := Nat.min_eq_right (Nat.le_of_lt hlen)
    simp only [hmin, List.take_length, List.drop_length]
    rw [if_pos (Nat.sub_pos_of_lt hlen)]
    have hreststate : (p.restBody s).core.state = .body := hcorestate
    refine .wait (q := p.restBody s) (.inr ⟨rfl, rfl⟩) ?_ ?_ (List.nil_suffix)
      (fun t q' u => ?_) (fun q' u hpart => ?_) ?_
    · rw [hreststate]
      nofun
    · simp [buffers, hcorestate, hreststate]
    · obtain ⟨h₁, h₂, h₃⟩ := takeBody_restBody hlen t .complete
      rw [List.nil_append, Part.body_iff hcorestate, Part.body_iff hreststate, h₁, h₂, h₃]
    · obtain ⟨hle, -⟩ := (Part.body_iff hreststate).1 hpart
      have : p.len - s.length ≤ 0 := hle
      omega
    · exact .body (.inr hp) hflags.1 (Nat.sub_pos_of_lt hlen)
  · have hmin : min p.len s.length = p.len := Nat.min_eq_left (Nat.not_lt.1 hlen)
    simp only [hmin, Nat.sub_self]
    rw [if_neg (Nat.lt_irrefl 0)]
    exact .part ((Part.body_iff hcorestate).2 ⟨Nat.not_lt.1 hlen, rfl, rfl⟩) (.complete rfl)

/-- The state `chunk_body` of `put`: the octets that are there are handed over, and the chunk is a
part if they are all. -/
theorem parseChunkBody_outcome (hp : p.state = .chunkBody) (hready : Ready p s) :
    Outcome p s (p.parseChunkBody s) := by
  have hcorestate : p.core.state = .chunkBody := core_state hp rfl
  have hflags : p.chunked = true ∧ p.finalChunk = false ∧ p.expectCRLF = true ∧ p.skip = 2 ∧
      0 < p.len := by
    cases hready with
    | chunkBody _ hchunked hfinal hexpect hskip hlen =>
      exact ⟨hchunked, hfinal, hexpect, hskip, hlen⟩
    | fresh hst | lastChunk hst | complete hst => cases hp.symm.trans hst
    | header hst | chunkLine hst | body hst => rcases hst with hst | hst <;> cases hp.symm.trans hst
  obtain ⟨hchunked, hfinal, hexpect, hskip, hpos⟩ := hflags
  unfold parseChunkBody
  by_cases hlen : s.length < p.len
  · have hmin : min p.len s.length = s.length := Nat.min_eq_right (Nat.le_of_lt hlen)
    simp only [hmin, List.take_length, List.drop_length]
    rw [if_neg (by omega)]
    have hreststate : (p.restBody s).core.state = .chunkBody := hcorestate
    refine .wait (q := p.restBody s) (.inr ⟨rfl, rfl⟩) ?_ ?_ (List.nil_suffix)
      (fun t q' u => ?_) (fun q' u hpart => ?_) ?_
    · rw [hreststate]
      nofun
    · simp [buffers, hcorestate, hreststate]
    · obtain ⟨h₁, h₂, h₃⟩ := takeBody_restBody hlen t .chunkHeader
      rw [List.nil_append, Part.chunkBody_iff hcorestate, Part.chunkBody_iff hreststate, h₁, h₂, h₃]
    · obtain ⟨hle, -⟩ := (Part.chunkBody_iff hreststate).1 hpart
      have : p.len - s.length ≤ 0 := hle
      omega
    · exact .chunkBody hp hchunked hfinal hexpect hskip (Nat.sub_pos_of_lt hlen)
  · have hmin : min p.len s.length = p.len := Nat.min_eq_left (Nat.not_lt.1 hlen)
    simp only [hmin, Nat.sub_self]
    refine .part ((Part.chunkBody_iff hcorestate).2 ⟨Nat.not_lt.1 hlen, rfl, ?_⟩)
      (.chunkLine (.inr rfl) hchunked hfinal (.inl ?_))
    · rfl
    · show p.skip = if p.expectCRLF then 2 else 0
      rw [hexpect, hskip]
      rfl

/-! ## The line of a chunk -/

/-- A part from the line of a chunk on has such a line, whose size is within the limit or is that of
the last chunk. -/
theorem Part.exists_chunkLine (hp : p.state = .chunkHeader) {u : Str} (h : Part p s q u) :
    ∃ size eol, ChunkLine p s size eol ∧
      (size ≠ 0 ∧ size ≤ p.bodyLimit ∨ size = 0 ∧ ∃ q', FieldLines p eol q' u) := by
  cases h with
  | chunk _ hline hsize hlimit => exact ⟨_, _, hline, .inl ⟨hsize, hlimit⟩⟩
  | lastChunk _ hline hlines => exact ⟨0, _, hline, .inr ⟨rfl, _, hlines⟩⟩
  | startLine hst | fields hst | body hst | chunkBody hst => cases hp.symm.trans hst

/-- The line end before the line is as long as said. -/
theorem length_lineStart (p : Parser) :
    (if p.expectCRLF then crlf else []).length = p.lineStart := by
  unfold lineStart
  split <;> rfl

namespace LineSeen

/-- The place to go on from is not before the end of the line end that comes first. -/
theorem le (h : p.LineSeen s) : p.lineStart ≤ p.skip := by
  rcases h with h | ⟨h, -⟩
  · exact Nat.le_of_eq h.symm
  · exact h

/-- Octets without a CR behind the line end before the line. -/
theorem not_mem (h : p.LineSeen s) : '\r' ∉ (s.take p.skip).drop p.lineStart := by
  rcases h with h | ⟨-, -, h⟩
  · intro hmem
    have hlen := List.length_pos_of_mem hmem
    rw [List.length_drop, List.length_take] at hlen
    omega
  · exact h

/-- More octets behind the text do not change what has been looked at. -/
theorem append (h : p.LineSeen s) (t : Str) : p.LineSeen (s ++ t) := by
  rcases h with h | ⟨h₁, h₂, h₃⟩
  · exact .inl h
  · refine .inr ⟨h₁, ?_, ?_⟩
    · rw [List.length_append]
      omega
    · rw [List.take_append_of_le_length h₂]
      exact h₃

/-- A complete line is found from the place to go on. -/
theorem findEol (h : p.LineSeen s) {size : Nat} {eol : Str} (hline : ChunkLine p.core s size eol) :
    p.skip + 2 ≤ s.length ∧ Beast.findEol (s.drop p.skip) = .ok (some eol) := by
  obtain ⟨l, hl, heq⟩ := hline.eq_append
  have hstart : (if p.core.expectCRLF then crlf else []).length = p.lineStart := length_lineStart p
  generalize (if p.core.expectCRLF then crlf else []) = before at heq hstart
  have hbetween := h.not_mem
  -- the line end is not before the place to go on
  have hle : p.skip ≤ p.lineStart + l.length := by
    by_contra hlt
    refine hbetween ?_
    rw [heq, List.drop_take, ← hstart, List.drop_left]
    have hmem : '\r' ∈ (l ++ (crlf ++ eol)).take (l.length + 1) := by
      rw [List.take_append]
      simp [crlf]
    have hsub : l.length + 1 ≤ p.skip - before.length := by omega
    exact List.take_subset_take_left _ hsub hmem
  have hdrop : s.drop p.skip = l.drop (p.skip - p.lineStart) ++ crlf ++ eol := by
    have hskip : p.skip = before.length + (p.skip - p.lineStart) := by
      have := h.le
      omega
    rw [heq, hskip, ← List.drop_drop, List.drop_left, hstart, Nat.add_sub_cancel_left,
      List.drop_append_of_le_length (by omega), List.append_assoc]
  constructor
  · rw [heq]
    simp only [List.length_append, crlf, List.length_cons, List.length_nil]
    omega
  · exact findEol_eq_some_iff.2 ⟨_, fun hmem => hl (List.mem_of_mem_drop hmem), hdrop⟩

/-- The line end that is found is the first one of the line. -/
theorem findEol_start (h : p.LineSeen s) {line eol : Str} (hstart : p.chunkStart s = some line)
    (hle : p.skip ≤ s.length) (heol : Beast.findEol (s.drop p.skip) = .ok (some eol)) :
    Beast.findEol line = .ok (some eol) := by
  obtain ⟨l, hl, heq⟩ := findEol_eq_some_iff.1 heol
  have hbefore := length_lineStart p
  rw [chunkStart_eq_some_iff] at hstart
  generalize (if p.expectCRLF then crlf else []) = before at hstart hbefore
  have hline : line = (s.take p.skip).drop p.lineStart ++ l ++ crlf ++ eol := by
    have hsplit : s = s.take p.skip ++ (l ++ crlf ++ eol) := by
      rw [← heq, List.take_append_drop]
    have hdrop : s.drop p.lineStart = line := by
      rw [hstart, ← hbefore, List.drop_left]
    rw [← hdrop]
    conv_lhs => rw [hsplit]
    rw [List.drop_append_of_le_length]
    · simp only [List.append_assoc]
    · have := h.le
      rw [List.length_take]
      omega
  refine findEol_eq_some_iff.2 ⟨_, ?_, hline⟩
  intro hmem
  rcases List.mem_append.1 hmem with hmem | hmem
  · exact h.not_mem hmem
  · exact hl hmem

/-- If more octets have been looked at and there is no CR in them either, the parser may go on
behind them. -/
theorem advance (h : p.LineSeen s) {n : Nat} (hn : p.skip ≤ n) (hs : n ≤ s.length)
    (hnot : '\r' ∉ (s.drop p.skip).take (n - p.skip)) :
    LineSeen { p with skip := n } s := by
  refine .inr ⟨h.le.trans hn, hs, ?_⟩
  intro hmem
  have hsplit : s.take n = s.take p.skip ++ (s.drop p.skip).take (n - p.skip) := by
    have hsum : n = p.skip + (n - p.skip) := by omega
    conv_lhs => rw [hsum]
    exact List.take_add
  have hmem' : '\r' ∈ (s.take n).drop p.lineStart := hmem
  rw [hsplit, List.drop_append] at hmem'
  rcases List.mem_append.1 hmem' with hmem' | hmem'
  · exact h.not_mem hmem'
  · exact hnot (List.mem_of_mem_drop hmem')

end LineSeen

/-- The start of the line of a chunk: its size, and where the line ends. -/
structure SizeRead (p : Parser) (s : Str) (size : Nat) (q eol : Str) : Prop where
  hex : ∃ line, p.chunkStart s = some line ∧ parseHex line = some (size, q)
  eol : findEol q = .ok (some eol)

namespace SizeRead

variable {size : Nat} {eol x : Str}

/-- More octets behind the text do not change the size that is read; they are left with the
extensions and the rest. -/
theorem append (h : p.SizeRead s size x eol) (t : Str) :
    p.SizeRead (s ++ t) size (x ++ t) (eol ++ t) := by
  obtain ⟨⟨line, hstart, hhex⟩, heol⟩ := h
  have hx : x ≠ [] := by
    rintro rfl
    cases heol
  refine ⟨⟨line ++ t, ?_, parseHex_append hhex hx t⟩, findEol_append heol t⟩
  rw [chunkStart_eq_some_iff] at hstart ⊢
  rw [hstart, List.append_assoc]

/-- If the line of a chunk is complete, its size is the one that is read, and the extensions end
where the line does. -/
theorem of_chunkLine (h : p.SizeRead s size x eol) {t u : Str} {size' : Nat}
    (hline : ChunkLine p.core (s ++ t) size' u) :
    size' = size ∧ u = eol ++ t ∧ parseChunkExtensions x = .ok (crlf ++ eol) := by
  obtain ⟨⟨line, hstart, hhex⟩, heol⟩ := h.append t
  obtain ⟨hstart', hhex', heol', hext⟩ := hline
  cases hstart.symm.trans hstart'
  cases hhex.symm.trans hhex'
  cases heol.symm.trans heol'
  obtain ⟨v, hv, hext'⟩ := parseChunkExtensions_of_append hext (by
    simp only [List.length_append, crlf, List.length_cons]
    omega)
  rw [← List.append_assoc] at hv
  cases List.append_cancel_right hv
  exact ⟨rfl, rfl, hext'⟩

/-- A text with a line whose extensions are bad is no part, whatever follows it. -/
theorem not_part (h : p.SizeRead s size x eol) (hp : p.state = .chunkHeader)
    (hext : parseChunkExtensions x ≠ .ok (crlf ++ eol)) (t : Str) (q' : Parser) (u : Str) :
    ¬ Part p.core (s ++ t) q' u := by
  intro hpart
  obtain ⟨size', eol', hline, -⟩ := hpart.exists_chunkLine (core_state hp rfl)
  exact hext (h.of_chunkLine hline).2.2

/-- The line is complete if its extensions end where it does. -/
theorem chunkLine (h : p.SizeRead s size x eol) {y : Str} (hext : parseChunkExtensions x = .ok y)
    (hlen : y.length = eol.length + 2) :
    ChunkLine p.core s size eol ∧ parseChunkExtensions x = .ok (crlf ++ eol) := by
  obtain ⟨⟨line, hstart, hhex⟩, heol⟩ := h
  obtain ⟨l, -, hx⟩ := findEol_eq_some_iff.1 heol
  have hy : y <:+ x := (isScanner_chunkExtensionsFrom .next).suffix (b := ())
    (Except.map_eq_ok_iff.2 ⟨y, hext, rfl⟩)
  have hend : crlf ++ eol <:+ x := ⟨l, by rw [hx, List.append_assoc]⟩
  have heq : y = crlf ++ eol := by
    refine (List.suffix_of_suffix_length_le hy hend ?_).eq_of_length ?_
    · rw [hlen, List.length_append, Nat.add_comm]
      exact Nat.le_refl _
    · rw [hlen, List.length_append, Nat.add_comm]
      rfl
  rw [heq] at hext
  exact ⟨.intro hstart hhex heol hext, hext⟩

end SizeRead

/-- The parser waits for more of a line that is bad. -/
theorem Outcome.stuck (hp : p.core.state = .chunkHeader) (hq : q.core.state = .chunkHeader)
    (hnone : ∀ t q' u, ¬ Part p.core (s ++ t) q' u)
    (hnone' : ∀ t q' u, ¬ Part q.core (s ++ t) q' u) (hready : Ready q s) :
    Outcome p s ⟨q, s, some .needMore⟩ := by
  have hbuffers : ∀ {p : Parser}, p.state = .chunkHeader → p.buffers = true := fun h => by
    simp [buffers, h]
  refine .wait (.inl ⟨rfl, hbuffers hq⟩) (state_ne_of_buffers (hbuffers hq))
    ((hbuffers hp).trans (hbuffers hq).symm) List.suffix_rfl
    (fun t q' u => iff_of_false (hnone t q' u) (hnone' t q' u)) (fun q' u hpart => ?_) hready
  rw [← List.append_nil s] at hpart
  exact hnone' [] q' u hpart

/-! ## The trailer -/

/-- A value that ends before an empty line is complete. -/
theorem parseValueFrom_eom (pos : ValuePos) (buf rev s : Str) :
    parseValueFrom pos buf rev (s ++ eom) ≠ .error .needMore := by
  have hchars : eom = ['\r', '\n', '\r', '\n'] := rfl
  induction s generalizing pos buf rev with
  | nil =>
    have heol : ∀ rev', parseValueFrom .eol buf rev' ['\r', '\n'] ≠ .error .needMore := by
      intro rev'
      rw [parseValueFrom]
      simp only
      split_ifs <;> rintro ⟨⟩
    rw [List.nil_append, hchars]
    cases pos with
    | lead => exact heol []
    | text => exact heol rev
    | cr => rintro ⟨⟩
    | eol =>
      rw [parseValueFrom]
      simp only
      split_ifs <;> rintro ⟨⟩
  | cons c s ih =>
    rw [List.cons_append]
    cases pos with
    | lead =>
      rw [parseValueFrom]
      split_ifs
      · exact ih _ _ _
      · exact ih _ _ _
      · exact ih _ _ _
      · rintro ⟨⟩
    | text =>
      rw [parseValueFrom]
      split_ifs
      · exact ih _ _ _
      · exact ih _ _ _
      · rintro ⟨⟩
    | cr =>
      rw [parseValueFrom]
      split_ifs
      · exact ih _ _ _
      · rintro ⟨⟩
    | eol =>
      rw [parseValueFrom]
      simp only
      split_ifs <;> first | exact ih _ _ _ | rintro ⟨⟩

/-- In a text that ends with an empty line a field does not want more. -/
theorem parseField_eom (s : Str) : parseField (s ++ eom) ≠ .error .needMore := by
  intro h
  unfold parseField at h
  split at h
  · next hnil =>
    have hmem : '\r' ∈ s ++ eom := List.mem_append_right _ (List.mem_cons_self ..)
    have hall : ∀ c ∈ s ++ eom, isTokenChar c = true := List.dropWhile_eq_nil_iff.1 hnil
    cases hall _ hmem
  · next c rest hrest =>
    have hsuffix : c :: rest <:+ s ++ eom := hrest ▸ List.dropWhile_suffix _
    by_cases hcolon : c ≠ ':'
    · rw [if_pos hcolon] at h
      cases h
    · rw [if_neg hcolon] at h
      split at h
      · cases h
      · -- the colon is not in the empty line
        have hlong : eom.length ≤ rest.length := by
          by_contra hlt
          have hsub : c :: rest <:+ eom :=
            List.suffix_of_suffix_length_le hsuffix (List.suffix_append s eom)
              (by rw [List.length_cons]; omega)
          have hmem : ':' ∈ eom := (not_not.1 hcolon) ▸ hsub.subset List.mem_cons_self
          revert hmem
          decide
        obtain ⟨w, hw⟩ : eom <:+ rest :=
          List.suffix_of_suffix_length_le (List.suffix_append s eom)
            ((List.suffix_cons c rest).trans hsuffix) hlong
        cases hv : parseValueFrom .lead [] [] rest with
        | ok x =>
          rw [hv] at h
          cases h
        | error e =>
          rw [hv] at h
          cases h
          rw [← hw] at hv
          exact parseValueFrom_eom _ _ _ _ hv

/-- The fields of a trailer do not want more, as `find_eom` has found the empty line behind them. -/
theorem parseFields_eom (heom : eom <:+ crlf ++ s) (h : parseFields fuel p s = some step) :
    step.ec ≠ some .needMore := by
  induction fuel generalizing p s with
  | zero => cases h
  | succ fuel ih =>
    unfold parseFields at h
    split at h
    · next c d rest =>
      split at h
      · cases h
        simp only
        split <;> nofun
      · next hc =>
        have hlen : 4 ≤ (c :: d :: rest).length := by
          obtain ⟨l, hl⟩ := heom
          by_contra hlt
          match rest, hlt with
          | [], _ =>
            have : l = [] := by
              have := congrArg List.length hl
              simp only [eom, crlf, List.length_append, List.length_cons, List.length_nil] at this
              exact List.length_eq_zero_iff.1 (by omega)
            subst this
            simp only [eom, crlf, List.nil_append, List.cons_append, List.cons.injEq] at hl
            exact hc hl.2.2.1.symm
          | [e], _ =>
            obtain ⟨x, rfl⟩ : ∃ x, l = [x] := by
              have := congrArg List.length hl
              simp only [eom, crlf, List.length_append, List.length_cons, List.length_nil] at this
              exact List.length_eq_one_iff.1 (by omega)
            simp only [eom, crlf, List.nil_append, List.cons_append, List.cons.injEq] at hl
            exact absurd hl.2.1 (by decide)
          | _ :: _ :: _, hlt => simp at hlt
        obtain ⟨w, hw⟩ : eom <:+ c :: d :: rest :=
          List.suffix_of_suffix_length_le heom (List.suffix_append crlf _) hlen
        split at h
        · next e hfield =>
          cases h
          simp only
          rintro ⟨rfl⟩
          rw [← hw] at hfield
          exact parseField_eom w hfield
        · next name value rest' hfield =>
          split at h
          · next e hdo =>
            cases h
            simp only
            rintro ⟨rfl⟩
            exact doField_error hdo rfl
          · refine ih ?_ h
            obtain ⟨hne, hsuffix, -⟩ := parseField_lines hfield
            have hwhole : crlf ++ rest' <:+ crlf ++ (c :: d :: rest) :=
              hsuffix.trans (List.suffix_append crlf _)
            by_cases hshort : 4 ≤ (crlf ++ rest').length
            · exact List.suffix_of_suffix_length_le heom hwhole hshort
            · -- the line end of the field would overlap with the empty line
              have hsub : crlf ++ rest' <:+ eom :=
                List.suffix_of_suffix_length_le hwhole heom (by simp [eom, crlf] at hshort ⊢; omega)
              match rest', hne with
              | [x], _ =>
                obtain ⟨l, hl⟩ := hsub
                obtain ⟨y, rfl⟩ : ∃ y, l = [y] := by
                  have := congrArg List.length hl
                  simp only [eom, crlf, List.length_append, List.length_cons, List.length_nil]
                    at this
                  exact List.length_eq_one_iff.1 (by omega)
                simp only [eom, crlf, List.nil_append, List.cons_append, List.cons.injEq] at hl
                exact absurd hl.2.1 (by decide)
              | _ :: _ :: _, _ => simp [crlf] at hshort
    · next hshort =>
      cases h
      obtain ⟨l, hl⟩ := heom
      have hlen := congrArg List.length hl
      match s, hshort with
      | c :: d :: rest, hshort => exact absurd rfl (hshort c d rest)
      | [], _ | [_], _ => simp [eom, crlf] at hlen

/-- The trailer that is looked at is what is before the rest. -/
theorem trailer_eq {eol rest : Str} (h : findEom (crlf ++ eol) = some rest) :
    eol.take (eol.length - rest.length) ++ rest = eol ∧
      eom <:+ crlf ++ eol.take (eol.length - rest.length) := by
  obtain ⟨l, hl⟩ := eq_of_findEom h
  have hlen := congrArg List.length hl
  simp only [eom, crlf, List.length_append, List.length_cons, List.length_nil] at hlen
  have hsuffix : rest <:+ eol :=
    List.suffix_of_suffix_length_le ⟨l ++ eom, hl.symm⟩ (List.suffix_append crlf eol) (by omega)
  have htrailer : eol.take (eol.length - rest.length) ++ rest = eol := by
    have hdrop := List.suffix_iff_eq_drop.1 hsuffix
    conv_lhs => rw [hdrop, ← hdrop]
    conv_lhs =>
      arg 2
      rw [hdrop]
    exact List.take_append_drop _ _
  refine ⟨htrailer, l, ?_⟩
  refine (List.append_left_inj rest).1 ?_
  rw [List.append_assoc, List.append_assoc, htrailer, hl, List.append_assoc]

/-- The search for the end of the trailer may go on three octets before the end. -/
theorem findEom_trailer {before eol : Str} (hbefore : before ≠ [])
    (hnone : findEom (crlf ++ eol) = none) (t : Str) :
    findEom ((before ++ (crlf ++ eol) ++ t).drop ((before ++ (crlf ++ eol)).length - 3)) =
      findEom (crlf ++ (eol ++ t)) := by
  have hassoc : crlf ++ (eol ++ t) = crlf ++ eol ++ t := (List.append_assoc _ _ _).symm
  rw [hassoc]
  by_cases heol : eol = []
  · subst heol
    -- the octet before the line end does not start an empty line
    obtain ⟨w, c, rfl⟩ := (List.eq_nil_or_concat' before).resolve_left hbefore
    have hdrop : (w ++ [c] ++ (crlf ++ []) ++ t).drop ((w ++ [c] ++ (crlf ++ [])).length - 3) =
        c :: (crlf ++ t) := by
      have hlen : (w ++ [c] ++ (crlf ++ [])).length - 3 = w.length := by simp [crlf]
      rw [hlen, List.append_assoc, List.append_assoc, List.drop_left]
      rfl
    have hnot : ¬ eom <+: c :: (crlf ++ t) := by
      intro hpre
      have h₂ := (List.cons_prefix_cons.1 (List.cons_prefix_cons.1 hpre).2).1
      revert h₂
      decide
    rw [hdrop, findEom_cons, if_neg hnot, List.append_nil]
  · have hlen : (before ++ (crlf ++ eol)).length - 3 =
        before.length + ((crlf ++ eol).length - 3) := by
      have := List.length_pos_iff.2 heol
      simp only [List.length_append, crlf, List.length_cons, List.length_nil]
      omega
    rw [hlen, ← List.drop_drop, List.append_assoc before, List.drop_left]
    exact (findEom_resume hnone t).symm

/-- The end of `parse_chunk_header`: the parser has read the line of the last chunk, and it knows
from where to look for the end of the trailer. -/
theorem parseLastChunk_outcome {x eol : Str} (hp : p.state = .chunkHeader)
    (hchunked : p.chunked = true) (hfinal : p.finalChunk = true) (hsize : p.SizeRead s 0 x eol)
    (hseen : ∀ t, findEom ((s ++ t).drop p.skip) = findEom (crlf ++ (eol ++ t)))
    (h : p.parseLastChunk fuel s x eol = some step) : Outcome p s step := by
  have hcorestate : p.core.state = .chunkHeader := core_state hp rfl
  have hbuffers : p.core.buffers = true := by simp [buffers, hcorestate]
  have hfind : findEom (s.drop p.skip) = findEom (crlf ++ eol) := by
    have := hseen []
    rwa [List.append_nil, List.append_nil] at this
  -- a part that is complete has the trailer
  have htrailer : ∀ {t : Str} {q' : Parser} {u : Str}, Part p.core (s ++ t) q' u →
      ∃ q'', FieldLines p.core (eol ++ t) q'' u := by
    intro t q' u hpart
    obtain ⟨size, eol', hline, hor⟩ := hpart.exists_chunkLine hcorestate
    obtain ⟨rfl, rfl, -⟩ := hsize.of_chunkLine hline
    rcases hor with ⟨hne, -⟩ | ⟨-, hlines⟩
    · exact absurd rfl hne
    · exact hlines
  obtain ⟨line, hstart, hhex⟩ := hsize.hex
  have hready : Ready p s := .lastChunk hp hchunked hfinal (.intro hstart hhex hsize.eol hseen)
  unfold parseLastChunk at h
  rw [hfind] at h
  cases heom : findEom (crlf ++ eol) with
  | none =>
    rw [heom] at h
    cases h
    have hnone : ∀ q' u, ¬ Part p.core s q' u := by
      intro q' u hpart
      rw [← List.append_nil s] at hpart
      obtain ⟨q'', hlines⟩ := htrailer hpart
      rw [List.append_nil] at hlines
      cases heom.symm.trans hlines.findEom
    refine .stay rfl hbuffers hnone (.lastChunk hp hchunked hfinal
      (.intro hstart hhex hsize.eol fun t => ?_))
    obtain ⟨l, -, hx⟩ := findEol_eq_some_iff.1 hsize.eol
    -- the size is before the line end
    obtain ⟨before, hbefore, hs⟩ : ∃ before : Str, before ≠ [] ∧ s = before ++ (crlf ++ eol) := by
      obtain ⟨ds, -, hds⟩ := parseHex_digits hhex
      refine ⟨(if p.expectCRLF then crlf else []) ++ (ds ++ l), ?_, ?_⟩
      · intro hnil
        have hempty := (List.append_eq_nil_iff.1 (List.append_eq_nil_iff.1 hnil).2)
        rw [hds, hx, hempty.1, hempty.2] at hhex
        cases hhex
      · rw [chunkStart_eq_some_iff.1 hstart, hds, hx]
        simp only [List.append_assoc]
    subst hs
    exact findEom_trailer hbefore heom t
  | some rest =>
    rw [heom] at h
    simp only at h
    cases hext : parseChunkExtensions x with
    | error e =>
      rw [hext] at h
      cases h
      have hnone := hsize.not_part hp (by rw [hext]; rintro ⟨⟩)
      by_cases he : e = .needMore
      · subst he
        exact .stuck hcorestate hcorestate hnone hnone hready
      · exact .fail he hnone
    | ok y =>
      rw [hext] at h
      simp only at h
      by_cases hlen : y.length ≠ eol.length + 2
      · rw [if_pos hlen] at h
        cases h
        refine .fail (by rintro ⟨⟩) (hsize.not_part hp fun hext' => ?_)
        rw [hext] at hext'
        cases hext'
        exact hlen (by rw [List.length_append, Nat.add_comm]; rfl)
      · rw [if_neg hlen] at h
        obtain ⟨lines, hlines, rfl⟩ := Option.map_eq_some_iff.1 h
        obtain ⟨hsplit, hend⟩ := trailer_eq heom
        have hcomplete := parseFields_eom hend hlines
        have hcore : parseFields fuel p.core (eol.take (eol.length - rest.length)) =
            some { lines with parser := lines.parser.core } := by
          rw [parseFields_core, hlines]
          rfl
        have hresult := parseFields_result hcore
        obtain ⟨q, r, ec⟩ := lines
        simp only at hresult hcomplete ⊢
        cases hresult with
        | done hdone =>
          have hall := hdone.append rest
          rw [hsplit] at hall
          have hrest := hall.findEom
          rw [heom] at hrest
          have hline := (hsize.chunkLine hext (not_not.1 hlen)).1
          refine .part ?_ (.complete rfl)
          rw [← Option.some.inj hrest] at hall
          exact .lastChunk hcorestate hline hall
        | more => exact absurd rfl hcomplete
        | fail he hfail =>
          refine .fail he fun t q' u hpart => ?_
          obtain ⟨q'', hlines'⟩ := htrailer hpart
          rw [← hsplit, List.append_assoc] at hlines'
          exact hfail _ _ _ hlines'

/-! ## The header of a chunk -/

/-- A bad line end is not for want of octets. -/
theorem findEol_error {e : ParseError} (h : findEol s = .error e) : e ≠ .needMore := by
  induction s with
  | nil => cases h
  | cons c s ih =>
    unfold findEol at h
    split at h
    · split at h
      · cases h
      · split at h <;> cases h
        nofun
    · exact ih h

/-- Where the line of the last chunk was found, the search for the end of the trailer starts at its
line end. -/
theorem drop_eol {eol : Str} {n : Nat} (hn : n ≤ s.length)
    (h : findEol (s.drop n) = .ok (some eol)) :
    s.drop (s.length - eol.length - 2) = crlf ++ eol ∧ n ≤ s.length - eol.length - 2 ∧
      '\r' ∉ (s.drop n).take (s.length - eol.length - 2 - n) := by
  obtain ⟨l, hl, heq⟩ := findEol_eq_some_iff.1 h
  have hlen := congrArg List.length heq
  simp only [crlf, List.length_drop, List.length_append, List.length_cons, List.length_nil] at hlen
  have hskip : s.length - eol.length - 2 = n + l.length := by omega
  refine ⟨?_, by omega, ?_⟩
  · rw [hskip, ← List.drop_drop, heq, List.append_assoc, List.drop_left]
  · rw [hskip, Nat.add_sub_cancel_left, heq, List.append_assoc, List.take_left]
    exact hl

/-- The header of a chunk whose line is not known to be that of the last chunk. -/
theorem parseChunkHeader_outcome (hp : p.state = .chunkHeader) (hchunked : p.chunked = true)
    (hfinal : p.finalChunk = false) (hseen : p.LineSeen s)
    (h : p.parseChunkHeader fuel s = some step) : Outcome p s step := by
  have hcorestate : p.core.state = .chunkHeader := core_state hp rfl
  have hbuffers : p.core.buffers = true := by simp [buffers, hcorestate]
  have hready : Ready p s := .chunkLine (.inr hp) hchunked hfinal hseen
  have hstart : (if p.expectCRLF then parseCrlf s else some s) = p.chunkStart s := rfl
  unfold parseChunkHeader at h
  rw [hstart] at h
  simp only [hfinal, Bool.not_false, if_true] at h
  -- a complete line is found from where the parser goes on
  have hfound : ∀ {t : Str} {q' : Parser} {u : Str}, Part p.core (s ++ t) q' u →
      p.skip + 2 ≤ (s ++ t).length ∧
        ∃ size eol, ChunkLine p.core (s ++ t) size eol ∧
          findEol ((s ++ t).drop p.skip) = .ok (some eol) := by
    intro t q' u hpart
    obtain ⟨size, eol, hline, -⟩ := hpart.exists_chunkLine hcorestate
    obtain ⟨hlen, heol⟩ := (hseen.append t).findEol hline
    exact ⟨hlen, size, eol, hline, heol⟩
  by_cases hshort : s.length < p.skip + 2
  · rw [if_pos hshort] at h
    cases h
    refine .stay rfl hbuffers (fun q' u hpart => ?_) hready
    rw [← List.append_nil s] at hpart
    have := (hfound hpart).1
    rw [List.append_nil] at this
    omega
  · rw [if_neg hshort] at h
    have hle : p.skip ≤ s.length := by omega
    have hdrop : ∀ t, (s ++ t).drop p.skip = s.drop p.skip ++ t := fun t =>
      List.drop_append_of_le_length hle
    cases hline : p.chunkStart s with
    | none =>
      rw [hline] at h
      cases h
      refine .fail (by rintro ⟨⟩) fun t q' u hpart => ?_
      obtain ⟨-, size, eol, hchunk, -⟩ := hfound hpart
      obtain ⟨l, -, heq⟩ := hchunk.eq_append
      -- the line end of the chunk before is within the octets
      have hbefore := length_lineStart p
      obtain ⟨w, hw⟩ : (if p.expectCRLF then crlf else []) <+: s := by
        refine List.prefix_of_prefix_length_le ⟨_, heq.symm⟩ (List.prefix_append s t) ?_
        have := hseen.le
        have hlt : (if p.core.expectCRLF then crlf else []).length = p.lineStart := hbefore
        omega
      rw [chunkStart_eq_some_iff.2 hw.symm] at hline
      cases hline
    | some line =>
      rw [hline] at h
      simp only at h
      cases heol : findEol (s.drop p.skip) with
      | error e =>
        rw [heol] at h
        cases h
        refine .fail (findEol_error heol) fun t q' u hpart => ?_
        obtain ⟨-, size, eol, -, heol'⟩ := hfound hpart
        rw [hdrop, findEol_error_append heol t] at heol'
        cases heol'
      | ok found =>
        rw [heol] at h
        cases found with
        | none =>
          cases h
          have hnone : ∀ q' u, ¬ Part p.core s q' u := by
            intro q' u hpart
            rw [← List.append_nil s] at hpart
            obtain ⟨-, size, eol, -, heol'⟩ := hfound hpart
            rw [List.append_nil] at heol'
            cases heol.symm.trans heol'
          refine .stay rfl hbuffers hnone
            (.chunkLine (.inr hp) hchunked rfl (hseen.advance (by omega) (by omega) ?_))
          have hnot := not_mem_of_findEol_none heol
          rw [List.length_drop] at hnot
          have hsame : s.length - 1 - p.skip = s.length - p.skip - 1 := by omega
          rw [hsame]
          exact hnot
        | some eol =>
          simp only at h
          obtain ⟨hdropEol, hskip, hnot⟩ := drop_eol hle heol
          have hseen' : LineSeen { p with skip := s.length - eol.length - 2 } s :=
            hseen.advance hskip (by omega) hnot
          have hlineEol := hseen.findEol_start hline hle heol
          cases hhex : parseHex line with
          | none =>
            rw [hhex] at h
            cases h
            refine .fail (by rintro ⟨⟩) fun t q' u hpart => ?_
            obtain ⟨size, eol', ⟨hstart', hhex', -, -⟩, -⟩ := hpart.exists_chunkLine hcorestate
            have hstart'' : p.core.chunkStart (s ++ t) = some (line ++ t) := by
              have heq := chunkStart_eq_some_iff.1 hline
              refine chunkStart_eq_some_iff.2 ?_
              rw [heq, List.append_assoc]
              rfl
            cases hstart''.symm.trans hstart'
            obtain ⟨l, -, heq⟩ := findEol_eq_some_iff.1 hlineEol
            have hmem : '\r' ∈ line := by
              rw [heq]
              simp [crlf]
            obtain ⟨r', -, -, hhex''⟩ := parseHex_of_append hmem hhex'
            cases hhex.symm.trans hhex''
          | some found =>
            obtain ⟨size, x⟩ := found
            rw [hhex] at h
            simp only at h
            -- the digits of the size are before the line end
            have hx : findEol x = .ok (some eol) := by
              obtain ⟨ds, hds, heq⟩ := parseHex_digits hhex
              rw [heq, findEol_append_left hds] at hlineEol
              exact hlineEol
            have hsize : p.SizeRead s size x eol := ⟨⟨line, hline, hhex⟩, hx⟩
            split at h
            · next hzero =>
              subst hzero
              have hlast := parseLastChunk_outcome
                (p := { p with skip := s.length - eol.length - 2, finalChunk := true }) hp hchunked
                rfl ⟨hsize.hex, hx⟩ (fun t => ?_) h
              · exact .of_iff (q := { p with skip := _, finalChunk := true })
                  (fun _ _ _ => Iff.rfl) rfl List.suffix_rfl hlast
              · show findEom ((s ++ t).drop (s.length - eol.length - 2)) = _
                rw [List.drop_append_of_le_length (by omega), hdropEol, List.append_assoc]
            · next hne =>
              split at h
              · next hlimit =>
                cases h
                refine .fail (by rintro ⟨⟩) fun t q' u hpart => ?_
                obtain ⟨size', eol', hchunk, hor⟩ := hpart.exists_chunkLine hcorestate
                obtain ⟨rfl, -, -⟩ := hsize.of_chunkLine hchunk
                rcases hor with ⟨-, hle'⟩ | ⟨hzero, -⟩
                · have : size' ≤ p.bodyLimit := hle'
                  omega
                · exact hne hzero
              · next hlimit =>
                cases hext : parseChunkExtensions x with
                | error e =>
                  rw [hext] at h
                  cases h
                  have hbad : parseChunkExtensions x ≠ .ok (crlf ++ eol) := by
                    rw [hext]
                    rintro ⟨⟩
                  by_cases he : e = .needMore
                  · subst he
                    exact .stuck hcorestate (core_state hp rfl) (hsize.not_part hp hbad)
                      (SizeRead.not_part ⟨hsize.hex, hx⟩ hp hbad)
                      (.chunkLine (.inr hp) hchunked rfl hseen')
                  · exact .fail he (hsize.not_part hp hbad)
                | ok y =>
                  rw [hext] at h
                  simp only at h
                  by_cases hlen : y.length ≠ eol.length + 2
                  · rw [if_pos hlen] at h
                    cases h
                    refine .fail (by rintro ⟨⟩) (hsize.not_part hp fun hext' => ?_)
                    rw [hext] at hext'
                    cases hext'
                    exact hlen (by rw [List.length_append, Nat.add_comm]; rfl)
                  · rw [if_neg hlen] at h
                    cases h
                    have hchunk := (hsize.chunkLine hext (not_not.1 hlen)).1
                    exact .part (.chunk hcorestate hchunk hne (Nat.not_lt.1 hlimit))
                      (.chunkBody rfl hchunked rfl rfl rfl (Nat.pos_of_ne_zero hne))

/-- The header of the last chunk again, when more of the trailer is there. -/
theorem parseChunkHeader_last_outcome (hp : p.state = .chunkHeader) (hchunked : p.chunked = true)
    (hfinal : p.finalChunk = true) (hlast : p.LastSeen s)
    (h : p.parseChunkHeader fuel s = some step) : Outcome p s step := by
  obtain ⟨hline, hhex, heol, hseen⟩ := hlast
  have hstart : (if p.expectCRLF then parseCrlf s else some s) = p.chunkStart s := rfl
  unfold parseChunkHeader at h
  rw [hstart] at h
  simp only [hfinal, Bool.not_true, hline, Option.bind_some, hhex, heol, Bool.false_eq_true,
    if_false] at h
  exact parseLastChunk_outcome hp hchunked hfinal ⟨⟨_, hline, hhex⟩, heol⟩ hseen h

end Gomibako.Beast.Parser
