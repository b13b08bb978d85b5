import Gomibako.Http.RoutePath
import Mathlib.Data.List.Forall2

/-!
# Route templates

A template is a path whose literal text has no metacharacter of the regular expressions. It is split
at the slashes into segments, each a literal prefix and possibly a component. The route of a
template accepts the URIs that fit it segment by segment, up to one slash at their end, and binds
the names to the texts of the segments (`Route.match_template`). The pattern is lexed and parsed
piece by piece (`compile_template`), its matches are the texts that fit the pieces
(`mem_run_pieces`), and these are the texts whose segments are accepted (`fits_iff_segments`).
-/

namespace Gomibako

open Ecma (Regex Node State Token PState Frame)

/-! ## Templates -/

/-- The metacharacters of the regular expressions, which a template does not have in its literal
text. -/
def isMeta (c : Char) : Bool := c ∈ "^$\\.*+?()[]\x7b\x7d|".toList

/-- A segment of a template: its literal prefix, and the name of its component if there is one. -/
structure Segment where
  lit : Str
  name : Option Str
deriving DecidableEq, Repr

/-- A segment is split at its first colon: the literal prefix is before it, and the name behind
it. -/
def Segment.ofStr (s : Str) : Segment where
  lit := s.takeWhile (· != ':')
  name := if ':' ∈ s then some (s.dropWhile (· != ':')).tail else none

/-- The segments of a path, which are what its slashes separate. -/
def segments (path : Str) : List Segment := (path.splitOn '/').map .ofStr

/-- The texts a segment stands for: its literal prefix, and a text that is not empty for its
component. -/
def Segment.Accepts (seg : Segment) (text : Str) : Prop :=
  match seg.name with
  | none => text = seg.lit
  | some _ => ∃ t, t ≠ [] ∧ text = seg.lit ++ t

/-- What the names of the segments are bound to by the texts of a URI. -/
def bindings (segs : List Segment) (texts : List Str) : List (Str × Str) :=
  (segs.zip texts).filterMap fun p => p.1.name.map fun name => (name, p.2.drop p.1.lit.length)

/-- The pieces of a segment: the characters of its prefix, and the component if there is one. -/
def Segment.pieces (seg : Segment) : List Piece :=
  seg.lit.map .lit ++ (seg.name.map .comp).toList

/-- A path without a slash is one segment, whose pieces are those of the path. -/
theorem pieces_segment {s : Str} (h : '/' ∉ s) : pieces s = (Segment.ofStr s).pieces := by
  by_cases hs : ':' ∈ s
  · obtain ⟨l, r, rfl, hl⟩ := List.eq_append_cons_of_mem hs
    have hr : ∀ c ∈ r, (c != '/') = true := fun c hc => by
      simpa using fun hz : c = '/' => h (List.mem_append_right _ (.tail _ (hz ▸ hc)))
    have hl' : ∀ c ∈ l, (c != ':') = true := fun c hc => by
      simpa using fun hz : c = ':' => hl (hz ▸ hc)
    rw [pieces_split hl, List.takeWhile_eq_self_iff.2 hr, List.dropWhile_eq_nil_iff.2 hr]
    simp [Segment.pieces, Segment.ofStr, List.takeWhile_append_of_pos hl',
      List.dropWhile_append_of_pos hl']
  · have hs' : ∀ c ∈ s, (c != ':') = true := fun c hc => by
      simpa using fun hz : c = ':' => hs (hz ▸ hc)
    simp [pieces_of_no_colon hs, Segment.pieces, Segment.ofStr, hs,
      List.takeWhile_eq_self_iff.2 hs']

/-- The first slash ends a component, or stands for itself. -/
theorem pieces_append_slash {s : Str} (h : '/' ∉ s) (rest : Str) :
    pieces (s ++ '/' :: rest) = pieces s ++ .lit '/' :: pieces rest := by
  by_cases hs : ':' ∈ s
  · obtain ⟨l, r, rfl, hl⟩ := List.eq_append_cons_of_mem hs
    have hr : ∀ c ∈ r, (c != '/') = true := fun c hc => by
      simpa using fun hz : c = '/' => h (List.mem_append_right _ (.tail _ (hz ▸ hc)))
    rw [List.append_assoc, List.cons_append, pieces_split hl, pieces_split hl,
      List.takeWhile_append_of_pos hr, List.dropWhile_append_of_pos hr,
      List.takeWhile_eq_self_iff.2 hr, List.dropWhile_eq_nil_iff.2 hr]
    simp [pieces_lit]
  · rw [pieces_append hs, pieces_lit (by decide), pieces_of_no_colon hs]

/-- Induction over the segments of a text: it is the last of them, or one with a slash and the
others behind it. -/
theorem segment_induction {P : Str → Prop} (last : ∀ s, '/' ∉ s → P s)
    (slash : ∀ s rest, '/' ∉ s → P rest → P (s ++ '/' :: rest)) (path : Str) : P path := by
  induction hn : path.length using Nat.strong_induction_on generalizing path with
  | _ n ih =>
    by_cases h : '/' ∈ path
    · obtain ⟨s, rest, rfl, hs⟩ := List.eq_append_cons_of_mem h
      refine slash s rest hs (ih rest.length ?_ rest rfl)
      simp only [List.length_append, List.length_cons] at hn
      omega
    · exact last path h

theorem segments_of_no_slash {s : Str} (h : '/' ∉ s) : segments s = [.ofStr s] := by
  rw [segments, List.splitOn_eq_singleton h, List.map_singleton]

theorem segments_append_slash {s : Str} (h : '/' ∉ s) (rest : Str) :
    segments (s ++ '/' :: rest) = .ofStr s :: segments rest := by
  rw [segments, List.splitOn_append_cons_self_of_not_mem h, List.map_cons, ← segments]

/-! ## The pattern of a template -/

/-- The tokens of a piece at position `pos` of a pattern. -/
def Piece.tokens (pos : Nat) : Piece → List Token
  | .lit c => [.char c]
  | .comp _ => [.openGroup, .openCapture (pos + 3), .bracket true [.single '/'],
      .quant 1 none false, .close, .close]

/-- The tokens of pieces from position `pos` on, which matters to the groups of the components. -/
def piecesTokens (pos : Nat) : List Piece → List Token
  | [] => []
  | p :: ps => p.tokens pos ++ piecesTokens (pos + p.render.length) ps

/-- What `replaceRe` is parsed to as the group `n`: one or more characters that are no slash, as few
as possible. -/
def componentNode (n : Nat) : Node :=
  .seq (.group n (.seq (.rep 1 none false (.bracket true [.single '/'])) .empty)) .empty

/-- The terms of pieces behind `n` groups: characters for the literal text, and a group for each
component. -/
def pieceNodes (n : Nat) : List Piece → List Node
  | [] => []
  | .lit c :: ps => .char c :: pieceNodes n ps
  | .comp _ :: ps => componentNode (n + 1) :: pieceNodes (n + 1) ps

/-- The literal text of pieces has no metacharacter, so each of its characters is a token of its
own. -/
def CleanPieces (ps : List Piece) : Prop := ∀ c, .lit c ∈ ps → ¬ isMeta c

theorem plainStep_clean {c : Char} (h : ¬ isMeta c) (pos : Nat) :
    Ecma.Mode.plainStep pos c = .ok ([.char c], .plain) := by
  unfold Ecma.Mode.plainStep
  split <;> simp_all [isMeta]

theorem lexFrom_piece {p : Piece} (h : CleanPieces [p]) (pos : Nat) :
    Ecma.lexFrom pos .plain p.render = .ok (p.tokens pos, .plain) := by
  cases p with
  | lit c =>
    have hc : ¬ isMeta c := h c List.mem_cons_self
    simp [Piece.render, Ecma.lexFrom, Ecma.Mode.step, plainStep_clean hc, Piece.tokens,
      Except.bind, Except.map]
  | comp name => rfl

theorem lexFrom_pieces {ps : List Piece} (h : CleanPieces ps) (pos : Nat) :
    Ecma.lexFrom pos .plain (ps.flatMap Piece.render) = .ok (piecesTokens pos ps, .plain) := by
  induction ps generalizing pos with
  | nil => rfl
  | cons p ps ih =>
    have hp : CleanPieces [p] := fun c hc => h c (by simp_all)
    have hps : CleanPieces ps := fun c hc => h c (.tail _ hc)
    rw [List.flatMap_cons]
    exact Ecma.lexFrom_append_eq_ok.2 ⟨_, _, _, lexFrom_piece hp pos, ih hps _, rfl⟩

/-- The tokens of the pattern of a template: the caret, those of its pieces, and the optional slash
with the end behind it. -/
theorem lex_patternOf {path : Str} (h : CleanPieces (pieces path)) :
    Ecma.lex (patternOf path) = .ok (.bol :: (piecesTokens 1 (pieces path) ++
      [.char '/', .quant 0 (some 1) true, .eol])) := by
  refine Ecma.lex_eq_ok.2 ⟨_, .plain, [], ?_, rfl, List.append_nil _⟩
  refine Ecma.lexFrom_cons_eq_ok.2 ⟨[.bol], .plain, _, rfl, ?_, rfl⟩
  exact Ecma.lexFrom_append_eq_ok.2 ⟨_, _, _, lexFrom_pieces h 1, rfl, rfl⟩

theorem parseTokens_piece (st : PState) (p : Piece) (pos : Nat) :
    Ecma.parseTokens st (p.tokens pos) =
      .ok { st with
        frame := ⟨st.frame.alts, (pieceNodes st.opened [p]).reverse ++ st.frame.terms, true⟩
        opened := st.opened + (componentNames [p]).length } := by
  cases p <;> rfl

/-- The terms of pieces join the innermost frame, whatever was read before them, and their groups
are counted. -/
theorem parseTokens_pieces (st : PState) (ps : List Piece) (pos : Nat) :
    ∃ q, Ecma.parseTokens st (piecesTokens pos ps) =
      .ok { st with
        frame := ⟨st.frame.alts, (pieceNodes st.opened ps).reverse ++ st.frame.terms, q⟩
        opened := st.opened + (componentNames ps).length } := by
  induction ps generalizing st pos with
  | nil => exact ⟨_, rfl⟩
  | cons p ps ih =>
    rw [piecesTokens, Ecma.parseTokens_append, parseTokens_piece]
    obtain ⟨q, hq⟩ := ih { st with
        frame := ⟨st.frame.alts, (pieceNodes st.opened [p]).reverse ++ st.frame.terms, true⟩
        opened := st.opened + (componentNames [p]).length } (pos + p.render.length)
    refine ⟨q, hq.trans ?_⟩
    cases p <;> simp [pieceNodes, componentNames, Nat.add_assoc, Nat.add_comm 1]

theorem backrefs_pieces (ps : List Piece) (pos : Nat) :
    Ecma.backrefs (piecesTokens pos ps) = [] := by
  induction ps generalizing pos with
  | nil => rfl
  | cons p ps ih =>
    have happ : ∀ ts ts' : List Token,
        Ecma.backrefs (ts ++ ts') = Ecma.backrefs ts ++ Ecma.backrefs ts' := fun ts ts' => by
      simp [Ecma.backrefs]
    rw [piecesTokens, happ, ih]
    cases p <;> rfl

theorem openPositions_pieces (ps : List Piece) (pos : Nat) :
    (Ecma.openPositions (piecesTokens pos ps)).length = (componentNames ps).length := by
  induction ps generalizing pos with
  | nil => rfl
  | cons p ps ih =>
    rw [piecesTokens, Ecma.openPositions_append, List.length_append, ih]
    cases p <;> simp [Piece.tokens, Ecma.openPositions, componentNames, Nat.add_comm]

/-- The tree of the pattern of a template: the start, the terms of its pieces, an optional slash,
and the end. -/
def templateNode (ps : List Piece) : Node :=
  Node.seqs (.bol :: (pieceNodes 0 ps ++ [.rep 0 (some 1) true (.char '/'), .eol]))

/-- What the pattern of a template compiles to: every component is a group, and nothing else is. -/
theorem compile_template {path : Str} (h : CleanPieces (pieces path)) :
    ∃ re, regex (patternOf path) = .ok re ∧ re.node = templateNode (pieces path) ∧
      re.markCount = (componentNames (pieces path)).length := by
  obtain ⟨q, hq⟩ := parseTokens_pieces (PState.init.push .bol false) (pieces path) 1
  have hparse : ∃ st, Ecma.parseTokens .init (.bol :: (piecesTokens 1 (pieces path) ++
      [.char '/', .quant 0 (some 1) true, .eol])) = .ok st ∧ st.stack = [] ∧
      st.frame.node = templateNode (pieces path) := by
    refine ⟨_, (Ecma.parseTokens_append ..).trans (by rw [hq]; rfl), rfl, ?_⟩
    simp [Frame.node, Frame.push, PState.push, PState.init, Frame.init, templateNode]
  obtain ⟨st, hst, hstack, hnode⟩ := hparse
  have hback : Ecma.backrefs (.bol :: (piecesTokens 1 (pieces path) ++
      [.char '/', .quant 0 (some 1) true, .eol])) = [] := by
    have := backrefs_pieces (pieces path) 1
    simp only [Ecma.backrefs] at this
    simp [Ecma.backrefs, this]
  have hopen := openPositions_pieces (pieces path) 1
  refine ⟨⟨st.frame.node, Ecma.openPositions (.bol :: (piecesTokens 1 (pieces path) ++
      [.char '/', .quant 0 (some 1) true, .eol]))⟩, ?_, hnode, ?_⟩
  · rw [regex, Ecma.compile_eq_ok.2 ⟨_, st, lex_patternOf h, hst, hstack, by simp [hback], rfl⟩]
    rfl
  · simpa [Regex.markCount, Ecma.openPositions] using hopen

/-! ## The matches of a template -/

/-- The text fits the pieces, the components standing for the texts listed. -/
inductive Fits : List Piece → Str → List Str → Prop where
  | nil : Fits [] [] []
  | lit : Fits ps s ts → Fits (.lit c :: ps) (c :: s) ts
  | comp : t ≠ [] → '/' ∉ t → Fits ps s ts → Fits (.comp name :: ps) (t ++ s) (t :: ts)

/-- The captures once the groups behind the `n`-th have taken the texts listed. -/
def setCaps (n : Nat) (caps : Nat → Option Str) : List Str → Nat → Option Str
  | [] => caps
  | t :: ts => setCaps (n + 1) (Function.update caps (n + 1) (some t)) ts

/-- A component takes a text that is not empty and has no slash. -/
theorem mem_run_componentNode {n : Nat} {x y : State} :
    y ∈ (componentNode n).run x ↔ ∃ t r, x.rest = t ++ r ∧ t ≠ [] ∧ '/' ∉ t ∧
      y = { x.consume t r with caps := Function.update x.caps n (some t) } := by
  have hcap : ∀ t r : Str, x.rest = t ++ r →
      x.capture n (x.consume t r) =
        { x.consume t r with caps := Function.update x.caps n (some t) } := fun t r hx => by
    simp [State.capture, hx]
  have hslash : ∀ t : Str, (∀ c ∈ t, Ecma.bracketContains true [.single '/'] c) ↔ '/' ∉ t :=
    fun t => by
      rw [bracketContains_notSlash]
      exact ⟨fun h hm => by simpa using h _ hm, fun h c hc => by
        simpa using fun hz : c = '/' => h (hz ▸ hc)⟩
  simp only [componentNode, Ecma.mem_run_seq, Ecma.mem_run_group, Ecma.mem_run_rep_bracket,
    Ecma.mem_run_empty, hslash]
  constructor
  · rintro ⟨_, ⟨_, ⟨_, ⟨t, r, hx, hne, ht, rfl⟩, rfl⟩, rfl⟩, rfl⟩
    exact ⟨t, r, hx, hne, ht, hcap t r hx⟩
  · rintro ⟨t, r, hx, hne, ht, rfl⟩
    exact ⟨_, ⟨_, ⟨_, ⟨t, r, hx, hne, ht, rfl⟩, rfl⟩, hcap t r hx⟩, rfl⟩

/-- The terms of pieces consume the texts that fit the pieces. -/
theorem mem_run_pieces {ps : List Piece} {n : Nat} {x y : State} :
    y ∈ (Node.seqs (pieceNodes n ps)).run x ↔ ∃ s r ts, x.rest = s ++ r ∧ Fits ps s ts ∧
      y = { x.consume s r with caps := setCaps n x.caps ts } := by
  induction ps generalizing n x with
  | nil =>
    simp only [pieceNodes, Node.seqs, Ecma.mem_run_empty]
    constructor
    · rintro rfl
      exact ⟨[], _, [], rfl, .nil, rfl⟩
    · rintro ⟨s, r, ts, hx, ⟨⟩, rfl⟩
      exact State.consume_nil (by simpa using hx)
  | cons p ps ih =>
    cases p with
    | lit c =>
      simp only [pieceNodes, Node.seqs, Ecma.mem_run_seq, Ecma.mem_run_char, ih]
      constructor
      · rintro ⟨_, ⟨r, hx, rfl⟩, s, r', ts, hr, hfits, rfl⟩
        exact ⟨c :: s, r', ts, by simp_all, .lit hfits, by simp [State.consume]⟩
      · rintro ⟨_, r', ts, hx, hfits, rfl⟩
        cases hfits with
        | @lit _ s _ _ hfits =>
          exact ⟨_, ⟨s ++ r', hx, rfl⟩, s, r', ts, rfl, hfits, by simp [State.consume]⟩
    | comp name =>
      simp only [pieceNodes, Node.seqs, Ecma.mem_run_seq, mem_run_componentNode, ih]
      constructor
      · rintro ⟨_, ⟨t, r, hx, hne, ht, rfl⟩, s, r', ts, hr, hfits, rfl⟩
        exact ⟨t ++ s, r', t :: ts, by simp_all, .comp hne ht hfits,
          by simp [State.consume, setCaps]⟩
      · rintro ⟨_, r', _, hx, hfits, rfl⟩
        cases hfits with
        | @comp t _ s ts _ hne ht hfits =>
          exact ⟨_, ⟨t, s ++ r', by simp [hx], hne, ht, rfl⟩, s, r', ts, rfl, hfits,
            by simp [State.consume, setCaps]⟩

/-- The pattern of a template matches the texts that fit its pieces, and those with a slash behind
them. -/
theorem mem_run_template {ps : List Piece} {s : Str} {y : State} :
    y ∈ (templateNode ps).run (.start s) ↔ ∃ u ts, (s = u ∨ s = u ++ ['/']) ∧ Fits ps u ts ∧
      y = ⟨s.reverse, [], setCaps 0 (fun _ => none) ts⟩ := by
  simp only [templateNode, Node.seqs, Ecma.mem_run_seq, Ecma.mem_run_bol, Ecma.mem_run_seqs_append,
    mem_run_pieces, Ecma.mem_run_optional, Ecma.mem_run_eol, Ecma.mem_run_empty, Ecma.mem_run_char]
  constructor
  · rintro ⟨_, ⟨-, rfl⟩, _, ⟨u, r, ts, hx, hfits, rfl⟩, z, hz, _, ⟨hr, rfl⟩, rfl⟩
    rcases hz with rfl | ⟨⟨r', hr', rfl⟩, -⟩
    · obtain rfl : r = [] := hr
      obtain rfl : s = u := by simpa [State.start] using hx
      exact ⟨s, ts, .inl rfl, hfits, by simp [State.consume, State.start]⟩
    · obtain rfl : r' = [] := hr
      obtain rfl : r = ['/'] := hr'
      obtain rfl : s = u ++ ['/'] := hx
      refine ⟨u, ts, .inr rfl, hfits, ?_⟩
      simp [State.consume, State.reset, State.start, Node.captures]
  · rintro ⟨u, ts, hs, hfits, rfl⟩
    rcases hs with rfl | rfl
    · refine ⟨_, ⟨rfl, rfl⟩, _, ⟨s, [], ts, by simp [State.start], hfits, rfl⟩, _, .inl rfl, _,
        ⟨rfl, rfl⟩, ?_⟩
      simp [State.consume, State.start]
    · refine ⟨_, ⟨rfl, rfl⟩, _, ⟨u, ['/'], ts, rfl, hfits, rfl⟩, _,
        .inr ⟨⟨[], rfl, rfl⟩, by simp⟩, _, ⟨rfl, rfl⟩, ?_⟩
      simp [State.consume, State.reset, State.start, Node.captures]

/-! ## Fitting segment by segment -/

/-- A text that fits one sequence of pieces and then another is the one's text and the other's. -/
theorem fits_append {ps qs : List Piece} {s : Str} {ts : List Str} :
    Fits (ps ++ qs) s ts ↔ ∃ s₁ s₂ ts₁ ts₂, s = s₁ ++ s₂ ∧ ts = ts₁ ++ ts₂ ∧ Fits ps s₁ ts₁ ∧
      Fits qs s₂ ts₂ := by
  induction ps generalizing s ts with
  | nil =>
    constructor
    · intro h
      exact ⟨[], s, [], ts, rfl, rfl, .nil, h⟩
    · rintro ⟨_, s₂, _, ts₂, rfl, rfl, ⟨⟩, h⟩
      exact h
  | cons p ps ih =>
    constructor
    · intro h
      cases h with
      | lit h =>
        obtain ⟨s₁, s₂, ts₁, ts₂, rfl, rfl, h₁, h₂⟩ := ih.1 h
        exact ⟨_ :: s₁, s₂, ts₁, ts₂, rfl, rfl, .lit h₁, h₂⟩
      | comp hne ht h =>
        obtain ⟨s₁, s₂, ts₁, ts₂, rfl, rfl, h₁, h₂⟩ := ih.1 h
        exact ⟨_ ++ s₁, s₂, _ :: ts₁, ts₂, by simp, rfl, .comp hne ht h₁, h₂⟩
    · rintro ⟨_, s₂, _, ts₂, rfl, rfl, h₁, h₂⟩
      cases h₁ with
      | lit h₁ => exact .lit (ih.2 ⟨_, s₂, _, ts₂, rfl, rfl, h₁, h₂⟩)
      | comp hne ht h₁ =>
        rw [List.append_assoc]
        exact .comp hne ht (ih.2 ⟨_, s₂, _, ts₂, rfl, rfl, h₁, h₂⟩)

/-- Literal characters fit themselves, and no component takes part. -/
theorem fits_map_lit {l s : Str} {ts : List Str} :
    Fits (l.map .lit) s ts ↔ s = l ∧ ts = [] := by
  induction l generalizing s with
  | nil =>
    constructor
    · rintro ⟨⟩
      exact ⟨rfl, rfl⟩
    · rintro ⟨rfl, rfl⟩
      exact .nil
  | cons c l ih =>
    constructor
    · intro h
      cases h with
      | lit h =>
        obtain ⟨rfl, rfl⟩ := ih.1 h
        exact ⟨rfl, rfl⟩
    · rintro ⟨rfl, rfl⟩
      exact .lit (ih.2 ⟨rfl, rfl⟩)

/-- The texts of the components of a segment: what is behind its prefix, if it has a component. -/
def Segment.texts (seg : Segment) (text : Str) : List Str :=
  match seg.name with
  | none => []
  | some _ => [text.drop seg.lit.length]

/-- The texts that fit a segment are those it stands for, without a slash. -/
theorem fits_segment {seg : Segment} {s : Str} {ts : List Str} (h : '/' ∉ seg.lit) :
    Fits seg.pieces s ts ↔ seg.Accepts s ∧ '/' ∉ s ∧ ts = seg.texts s := by
  obtain ⟨lit, name⟩ := seg
  rw [Segment.pieces, fits_append]
  cases name with
  | none =>
    simp only [Segment.Accepts, Segment.texts, fits_map_lit, Option.map_none, Option.toList_none]
    constructor
    · rintro ⟨_, _, _, _, rfl, rfl, ⟨rfl, rfl⟩, ⟨⟩⟩
      simpa using h
    · rintro ⟨rfl, -, rfl⟩
      exact ⟨s, [], [], [], by simp, rfl, ⟨rfl, rfl⟩, .nil⟩
  | some name =>
    simp only [Segment.Accepts, Segment.texts, fits_map_lit, Option.map_some, Option.toList_some]
    constructor
    · rintro ⟨_, _, _, _, rfl, rfl, ⟨rfl, rfl⟩, hcomp⟩
      cases hcomp with
      | @comp t _ _ _ _ hne ht hnil =>
        cases hnil
        simp_all
    · rintro ⟨⟨t, hne, rfl⟩, hs, rfl⟩
      refine ⟨lit, t, [], [t], rfl, by simp, ⟨rfl, rfl⟩, ?_⟩
      have hcomp : Fits [.comp name] (t ++ []) [t] :=
        .comp hne (fun ht => hs (List.mem_append_right _ ht)) .nil
      simpa using hcomp

theorem ofStr_lit_slash {s : Str} (h : '/' ∉ s) : '/' ∉ (Segment.ofStr s).lit := fun hm =>
  h ((List.takeWhile_sublist _).subset hm)

/-- A list of one segment accepts texts of one segment. -/
theorem accepts_last {seg : Segment} {s : Str} :
    List.Forall₂ Segment.Accepts [seg] (s.splitOn '/') ↔ seg.Accepts s ∧ '/' ∉ s := by
  induction s using segment_induction with
  | last s hs => simp [List.splitOn_eq_singleton hs, hs]
  | slash s rest hs _ =>
    rw [List.splitOn_append_cons_self_of_not_mem hs]
    constructor
    · intro h
      cases h with
      | cons _ h => exact absurd (List.forall₂_nil_left_iff.1 h) (List.splitOn_ne_nil '/' rest)
    · intro h
      exact absurd (by simp) h.2

/-- Behind its first segment, a template goes on with a text that goes on behind its first
segment. -/
theorem accepts_slash {seg : Segment} {segs : List Segment} {s : Str} (hsegs : segs ≠ []) :
    List.Forall₂ Segment.Accepts (seg :: segs) (s.splitOn '/') ↔
      ∃ s₁ s₂, s = s₁ ++ '/' :: s₂ ∧ '/' ∉ s₁ ∧ seg.Accepts s₁ ∧
        List.Forall₂ Segment.Accepts segs (s₂.splitOn '/') := by
  constructor
  · intro h
    induction s using segment_induction with
    | last s hs =>
      rw [List.splitOn_eq_singleton hs] at h
      cases h with
      | cons _ h => cases h; exact absurd rfl hsegs
    | slash s rest hs _ =>
      rw [List.splitOn_append_cons_self_of_not_mem hs] at h
      cases h with
      | cons h₁ h₂ => exact ⟨s, rest, rfl, hs, h₁, h₂⟩
  · rintro ⟨s₁, s₂, rfl, hs, h₁, h₂⟩
    rw [List.splitOn_append_cons_self_of_not_mem hs]
    exact .cons h₁ h₂

theorem segments_ne_nil (path : Str) : segments path ≠ [] := by
  simp [segments]

theorem bindings_cons_texts (seg : Segment) (segs : List Segment) (s : Str) (texts : List Str) :
    (bindings (seg :: segs) (s :: texts)).map (·.2) =
      seg.texts s ++ (bindings segs texts).map (·.2) := by
  obtain ⟨lit, _ | name⟩ := seg <;> rfl

/-- **Fitting is segment by segment**: the texts of the components are those the segments are bound
to. -/
theorem fits_iff_segments {path s : Str} {ts : List Str} :
    Fits (pieces path) s ts ↔
      List.Forall₂ Segment.Accepts (segments path) (s.splitOn '/') ∧
        ts = (bindings (segments path) (s.splitOn '/')).map (·.2) := by
  induction path using segment_induction generalizing s ts with
  | last path hp =>
    rw [pieces_segment hp, segments_of_no_slash hp, fits_segment (ofStr_lit_slash hp), accepts_last,
      and_assoc]
    refine and_congr_right fun _ => and_congr_right fun hs => ?_
    rw [List.splitOn_eq_singleton hs, bindings_cons_texts]
    simp [bindings]
  | slash seg rest hseg ih =>
    rw [pieces_append_slash hseg, pieces_segment hseg, segments_append_slash hseg, fits_append,
      accepts_slash (segments_ne_nil rest)]
    constructor
    · rintro ⟨s₁, _, ts₁, _, rfl, rfl, h₁, h₂⟩
      cases h₂ with
      | @lit _ s₂ ts₂ _ h₂ =>
        obtain ⟨hacc, hs₁, rfl⟩ := (fits_segment (ofStr_lit_slash hseg)).1 h₁
        obtain ⟨hrest, rfl⟩ := ih.1 h₂
        refine ⟨⟨s₁, s₂, rfl, hs₁, hacc, hrest⟩, ?_⟩
        rw [List.splitOn_append_cons_self_of_not_mem hs₁, bindings_cons_texts]
    · rintro ⟨⟨s₁, s₂, rfl, hs₁, hacc, hrest⟩, rfl⟩
      rw [List.splitOn_append_cons_self_of_not_mem hs₁, bindings_cons_texts]
      exact ⟨s₁, '/' :: s₂, _, _, rfl, rfl,
        (fits_segment (ofStr_lit_slash hseg)).2 ⟨hacc, hs₁, rfl⟩, .lit (ih.2 ⟨hrest, rfl⟩)⟩

/-! ## The route of a template -/

/-- The names of the components of a path are those of its segments, in order. -/
theorem componentNames_pieces (path : Str) :
    componentNames (pieces path) = (segments path).filterMap (·.name) := by
  have hseg : ∀ seg : Segment, componentNames seg.pieces = seg.name.toList := fun seg => by
    rw [Segment.pieces, componentNames_append, componentNames_map_lit]
    cases seg.name <;> rfl
  induction path using segment_induction with
  | last path hp =>
    rw [pieces_segment hp, segments_of_no_slash hp, hseg]
    cases h : (Segment.ofStr path).name <;> simp [h]
  | slash seg rest hs ih =>
    rw [pieces_append_slash hs, pieces_segment hs, segments_append_slash hs,
      componentNames_append, hseg]
    have hslash : componentNames (.lit '/' :: pieces rest) = componentNames (pieces rest) := rfl
    rw [hslash, ih]
    cases h : (Segment.ofStr seg).name <;> simp [h]

/-- The literal text of a template is clean when that of its segments is. -/
theorem cleanPieces_segments {path : Str}
    (h : ∀ seg ∈ segments path, ∀ c ∈ seg.lit, ¬ isMeta c) : CleanPieces (pieces path) := by
  have hseg : ∀ seg : Segment, (∀ c ∈ seg.lit, ¬ isMeta c) → CleanPieces seg.pieces :=
    fun seg hc c hm => by
      rw [Segment.pieces, List.mem_append] at hm
      rcases hm with hm | hm
      · exact hc c (by simpa using hm)
      · cases hn : seg.name <;> simp [hn] at hm
  induction path using segment_induction with
  | last path hp =>
    rw [pieces_segment hp]
    exact hseg _ (h _ (by simp [segments_of_no_slash hp]))
  | slash seg rest hs ih =>
    rw [segments_append_slash hs] at h
    rw [pieces_append_slash hs, pieces_segment hs]
    intro c hm
    rcases List.mem_append.1 hm with hm | hm
    · exact hseg _ (h _ List.mem_cons_self) c hm
    · cases hm with
      | head => decide
      | tail _ hm => exact ih (fun seg hseg => h seg (.tail _ hseg)) c hm

/-- The names that are bound are those of the components. -/
theorem bindings_names {segs : List Segment} {texts : List Str} (h : segs.length = texts.length) :
    (bindings segs texts).map (·.1) = segs.filterMap (·.name) := by
  induction segs generalizing texts with
  | nil => simp [bindings]
  | cons seg segs ih =>
    cases texts with
    | nil => simp at h
    | cons t texts =>
      have hlen : segs.length = texts.length := by simpa using h
      have := ih hlen
      simp only [bindings] at this ⊢
      cases hn : seg.name <;> simp [hn, this]

/-- Earlier groups keep their captures when later ones take their texts. -/
theorem setCaps_of_le {n k : Nat} (h : k ≤ n) (caps : Nat → Option Str) (ts : List Str) :
    setCaps n caps ts k = caps k := by
  induction ts generalizing n caps with
  | nil => rfl
  | cons t ts ih =>
    rw [setCaps, ih (Nat.le_succ_of_le h), Function.update_of_ne (by omega)]

/-- The groups hold the texts in order, once all of them have taken theirs. -/
theorem map_setCaps (n : Nat) (caps : Nat → Option Str) (ts : List Str) :
    (List.range ts.length).map (fun i => setCaps n caps ts (n + i + 1)) = ts.map some := by
  induction ts generalizing n caps with
  | nil => rfl
  | cons t ts ih =>
    have hfirst : setCaps n caps (t :: ts) (n + 0 + 1) = some t := by
      rw [setCaps, setCaps_of_le (Nat.le_refl _), Nat.add_zero, Function.update_self]
    rw [List.length_cons, List.range_succ_eq_map, List.map_cons, List.map_map, hfirst,
      List.map_cons, ← ih (n + 1) (Function.update caps (n + 1) (some t))]
    congr 1
    refine List.map_congr_left fun i _ => ?_
    simp only [Function.comp_apply, setCaps, Nat.succ_eq_add_one]
    congr 1
    omega

/-- The first index of a name, and the text at that index. -/
theorem find?_range_eq_lookup {keys ts : List Str} (h : keys.length = ts.length) (name : Str) :
    ((List.range ts.length).find? fun i => keys[i]? = some name).map (fun i => (ts[i]?).getD []) =
      (keys.zip ts).lookup name := by
  induction keys generalizing ts with
  | nil =>
    obtain rfl : ts = [] := List.length_eq_zero_iff.1 h.symm
    rfl
  | cons k keys ih =>
    cases ts with
    | nil => simp at h
    | cons t ts =>
      rw [List.length_cons, List.range_succ_eq_map, List.find?_cons, List.zip_cons_cons,
        List.lookup_cons]
      by_cases hk : k = name
      · simp [hk]
      · have hk' : (name == k) = false := by simpa using fun hn : name = k => hk hn.symm
        rw [← ih (by simpa using h)]
        simp [hk, hk', Function.comp_def]

/-- The loop over the groups binds the names to the texts of the groups. -/
theorem components_find_lookup {keys ts : List Str} (h : keys.length = ts.length)
    {result : Ecma.MatchResults} (hg : result.groups = ts.map some) {m : Matches}
    (hm : Route.components keys result ts.length = .ok m) (name : Str) :
    m.find name = (keys.zip ts).lookup name := by
  have hstr : ∀ i, result.str (i + 1) = (ts[i]?).getD [] := fun i => by
    rw [Ecma.MatchResults.str, hg, List.getElem?_map]
    cases ts[i]? <;> rfl
  rw [Route.components_find hm, ← find?_range_eq_lookup h]
  simp only [hstr]

/-- The text `u` fits the template `path`, and the URI is `u` up to a slash at its end. -/
structure TemplateAccepts (path uri u : Str) : Prop where
  slash : uri = u ∨ uri = u ++ ['/']
  segments : List.Forall₂ Segment.Accepts (segments path) (u.splitOn '/')

/-- A template accepts a URI with its last slash or without it, but not both ways. -/
theorem TemplateAccepts.unique {path uri u v : Str} (hu : TemplateAccepts path uri u)
    (hv : TemplateAccepts path uri v) : u = v := by
  have hlen : (u.splitOn '/').length = (v.splitOn '/').length :=
    hu.segments.length_eq.symm.trans hv.segments.length_eq
  have hslash : ∀ w : Str, ((w ++ ['/']).splitOn '/').length = (w.splitOn '/').length + 1 :=
    fun w => by
      rw [List.splitOn_append_cons_self, List.length_append]
      rfl
  rcases hu.slash with rfl | rfl <;> rcases hv.slash with h | h
  · exact h
  · rw [h, hslash] at hlen
    omega
  · rw [← h, hslash] at hlen
    omega
  · exact List.append_cancel_right h

/-- A segment without a colon has no component, so it stands for itself only. -/
theorem accepts_ofStr {s t : Str} (h : ':' ∉ s) : (Segment.ofStr s).Accepts t ↔ t = s := by
  have hs : ∀ c ∈ s, (c != ':') = true := fun c hc => by
    simpa using fun hz : c = ':' => h (hz ▸ hc)
  simp [Segment.ofStr, h, Segment.Accepts, List.takeWhile_eq_self_iff.2 hs]

/-- Segments without colons stand for themselves, so they accept the same segments only. -/
theorem forall₂_accepts_ofStr {ss texts : List Str} (h : ∀ s ∈ ss, ':' ∉ s) :
    List.Forall₂ Segment.Accepts (ss.map .ofStr) texts ↔ texts = ss := by
  induction ss generalizing texts with
  | nil => simp
  | cons s ss ih =>
    rw [List.map_cons, List.forall₂_cons_left_iff]
    simp only [accepts_ofStr (h s List.mem_cons_self), ih fun s hs => h s (.tail _ hs)]
    constructor
    · intro haccepts
      obtain ⟨_, _, hs, hss, htexts⟩ := haccepts
      rw [htexts, hs, hss]
    · intro htexts
      exact ⟨_, _, rfl, rfl, htexts⟩

/-- A template without components accepts its path, up to one slash at the end. -/
theorem templateAccepts_literal {path uri : Str} (h : ∀ s ∈ path.splitOn '/', ':' ∉ s) :
    (∃ u, TemplateAccepts path uri u) ↔ uri = path ∨ uri = path ++ ['/'] := by
  have hu : ∀ u : Str, List.Forall₂ Segment.Accepts (segments path) (u.splitOn '/') ↔ u = path :=
    fun u => by
      rw [segments, forall₂_accepts_ofStr h]
      refine ⟨fun heq => ?_, fun heq => by rw [heq]⟩
      calc u = ['/'].intercalate (u.splitOn '/') := (List.intercalate_splitOn '/').symm
        _ = path := by rw [heq, List.intercalate_splitOn]
  constructor
  · rintro ⟨u, hslash, hseg⟩
    obtain rfl := (hu u).1 hseg
    exact hslash
  · intro hslash
    exact ⟨path, hslash, (hu path).2 rfl⟩

/-- What the groups hold when the text `u` fits the template. -/
def templateTexts (path u : Str) : List Str :=
  (bindings (segments path) (u.splitOn '/')).map (·.2)

/-- If a text fits a template, its expression matches the URI, and the groups hold the texts of the
components. -/
theorem regexMatch_template {path : Str} {re : Regex} (hnode : re.node = templateNode (pieces path))
    (hcount : re.markCount = (componentNames (pieces path)).length) {uri u : Str}
    (hu : TemplateAccepts path uri u) :
    ∃ result, Ecma.regexMatch uri re = some result ∧
      result.groups = (templateTexts path u).map some ∧
      (componentNames (pieces path)).length = (templateTexts path u).length := by
  set y : State := ⟨uri.reverse, [], setCaps 0 (fun _ => none) (templateTexts path u)⟩ with hy
  have hall : ∀ z ∈ re.node.run (.start uri), z = y := fun z hz => by
    rw [hnode, mem_run_template] at hz
    obtain ⟨v, ts, hv, hfits, rfl⟩ := hz
    obtain ⟨hseg, rfl⟩ := fits_iff_segments.1 hfits
    obtain rfl := hu.unique ⟨hv, hseg⟩
    rfl
  have hmem : y ∈ re.node.run (.start uri) := by
    rw [hnode, mem_run_template]
    exact ⟨u, _, hu.slash, fits_iff_segments.2 ⟨hu.segments, rfl⟩, rfl⟩
  have hfind : (re.node.run (.start uri)).find? (·.rest.isEmpty) = some y := by
    cases hf : (re.node.run (.start uri)).find? (·.rest.isEmpty) with
    | none => exact absurd rfl (List.find?_eq_none.1 hf y hmem)
    | some z => rw [hall z (List.mem_of_find?_eq_some hf)]
  have hlen : (componentNames (pieces path)).length = (templateTexts path u).length := by
    have := congrArg List.length (bindings_names hu.segments.length_eq)
    rw [componentNames_pieces, ← this, templateTexts, List.length_map, List.length_map]
  refine ⟨_, by rw [Ecma.regexMatch, hfind]; rfl, ?_, hlen⟩
  have hcaps := map_setCaps 0 (fun _ => none) (templateTexts path u)
  simp only [Nat.zero_add] at hcaps
  rw [← hcaps, Regex.results, hcount, hlen]

/-- The expression of a template matches only texts that fit the template, up to a slash at the
end. -/
theorem regexMatch_template_none {path : Str} {re : Regex}
    (hnode : re.node = templateNode (pieces path)) {uri : Str}
    (h : ¬ ∃ u, TemplateAccepts path uri u) : Ecma.regexMatch uri re = none := by
  have hnone : ∀ z, z ∉ re.node.run (.start uri) := fun z hz => by
    rw [hnode, mem_run_template] at hz
    obtain ⟨v, ts, hv, hfits, rfl⟩ := hz
    exact h ⟨v, hv, (fits_iff_segments.1 hfits).1⟩
  rw [Ecma.regexMatch, List.eq_nil_iff_forall_not_mem.2 hnone]
  rfl

/-- The literal text of a template has no metacharacter; its components may have any name. -/
def isTemplate (path : Str) : Bool := (segments path).all fun seg => seg.lit.all fun c => !isMeta c

theorem isTemplate_iff {path : Str} :
    isTemplate path = true ↔ ∀ seg ∈ segments path, ∀ c ∈ seg.lit, ¬ isMeta c := by
  simp [isTemplate]

namespace Route

variable {H : Type _} {r : Route H} {path : Str}

/-- The route is that of a template: its expression is the one of the template, and its keys are the
names. -/
structure IsTemplate (r : Route H) (path : Str) : Prop where
  node : r.path.node = templateNode (pieces path)
  markCount : r.path.markCount = (componentNames (pieces path)).length
  keys : r.keys = componentNames (pieces path)

/-- A template can be constructed: its pattern compiles, to the expression of the template. -/
theorem ctor_template (path : CStr) (fn : H) (h : isTemplate path.chars = true) :
    ∃ r, ctor path fn = .ok r ∧ r.callback = fn ∧ r.IsTemplate path.chars := by
  obtain ⟨re, hre, hnode, hcount⟩ := compile_template (cleanPieces_segments (isTemplate_iff.1 h))
  refine ⟨⟨fn, re, componentNames (pieces path.chars)⟩, ?_, rfl, hnode, hcount, rfl⟩
  rw [ctor_eq, hre]
  rfl

/-- A URI that fits the template is matched, and the names are bound to its texts. -/
theorem IsTemplate.match_of_accepts (h : r.IsTemplate path) {uri : CStr} {u : Str}
    (hu : TemplateAccepts path uri.chars u) : ∃ m, r.match uri = .ok (some m) ∧
      ∀ name, m.find name = (bindings (Gomibako.segments path) (u.splitOn '/')).lookup name := by
  obtain ⟨result, hmatch, hgroups, hlen⟩ := regexMatch_template h.node h.markCount hu
  have hsize : result.size - 1 = (templateTexts path u).length := by
    simp [Ecma.MatchResults.size, hgroups]
  obtain ⟨m, hm⟩ := (components_isOk (componentNames (pieces path)) result _).2
    (Nat.le_of_eq hlen.symm)
  refine ⟨m, by simp only [Route.match, hmatch, h.keys, hsize, hm]; rfl, fun name => ?_⟩
  have hzip := List.zip_unzip (bindings (Gomibako.segments path) (u.splitOn '/'))
  rw [List.unzip_eq_map] at hzip
  rw [components_find_lookup hlen hgroups hm, templateTexts, componentNames_pieces,
    ← bindings_names hu.segments.length_eq]
  exact congrArg _ hzip

/-- The route of a template matches no URI that does not fit it. -/
theorem IsTemplate.match_of_not_accepts (h : r.IsTemplate path) {uri : CStr}
    (hu : ¬ ∃ u, TemplateAccepts path uri.chars u) : r.match uri = .ok none := by
  simp only [Route.match, regexMatch_template_none h.node hu]

/-- A match of a template binds the names of all its components. -/
theorem IsTemplate.find_of_mem (h : r.IsTemplate path) {uri : CStr} {m : Matches} {name : Str}
    (hname : name ∈ (Gomibako.segments path).filterMap (·.name)) (hm : r.match uri = .ok (some m)) :
    ∃ text, m.find name = some text := by
  by_cases hu : ∃ u, TemplateAccepts path uri.chars u
  · obtain ⟨u, hu⟩ := hu
    obtain ⟨m', hmatch, hfind⟩ := h.match_of_accepts hu
    cases hmatch.symm.trans hm
    rw [hfind]
    refine Option.ne_none_iff_exists'.1 fun hnone => ?_
    rw [← bindings_names hu.segments.length_eq] at hname
    obtain ⟨p, hp, rfl⟩ := List.mem_map.1 hname
    simpa using List.lookup_eq_none_iff.1 hnone p hp
  · cases (h.match_of_not_accepts hu).symm.trans hm

end Route

/-- **A template accepts its own language**: the route matches the URIs that fit the template up to
one slash at their end, and binds the names, the first of equal ones, to the texts of their
segments. -/
theorem Route.match_template {H : Type _} (path : CStr) (fn : H)
    (hlit : ∀ seg ∈ segments path.chars, ∀ c ∈ seg.lit, ¬ isMeta c) :
    ∃ r, Route.ctor path fn = .ok r ∧ r.callback = fn ∧ ∀ uri : CStr, ∃ m?, r.match uri = .ok m? ∧
      (m?.isSome ↔ ∃ u, TemplateAccepts path.chars uri.chars u) ∧
      ∀ m, m? = some m → ∀ u, TemplateAccepts path.chars uri.chars u → ∀ name,
        m.find name = (bindings (segments path.chars) (u.splitOn '/')).lookup name := by
  obtain ⟨r, hr, hcallback, htemplate⟩ := ctor_template path fn (isTemplate_iff.2 hlit)
  refine ⟨r, hr, hcallback, fun uri => ?_⟩
  by_cases hu : ∃ u, TemplateAccepts path.chars uri.chars u
  · obtain ⟨u, hu⟩ := hu
    obtain ⟨m, hmatch, hfind⟩ := htemplate.match_of_accepts hu
    refine ⟨some m, hmatch, by simpa using ⟨u, hu⟩, ?_⟩
    intro m' hm' v hv name
    cases hm'
    obtain rfl := hu.unique hv
    exact hfind name
  · refine ⟨none, htemplate.match_of_not_accepts hu, by simpa using hu, ?_⟩
    intro m hm
    cases hm

/-- The template `/status/:code`, as `main` registers it, is constructed and matches what fits
it. -/
theorem Route.match_template_status :
    ∃ r, Route.ctor ⟨"/status/:code".toList, by decide⟩ () = .ok r ∧ r.callback = () ∧
      ∀ uri : CStr, ∃ m?, r.match uri = .ok m? ∧
      (m?.isSome ↔ ∃ u, TemplateAccepts "/status/:code".toList uri.chars u) ∧
      ∀ m, m? = some m → ∀ u, TemplateAccepts "/status/:code".toList uri.chars u → ∀ name,
        m.find name = (bindings [⟨[], none⟩, ⟨"status".toList, none⟩, ⟨[], some "code".toList⟩]
          (u.splitOn '/')).lookup name := by
  have hclean : isTemplate "/status/:code".toList = true := by decide
  exact Route.match_template ⟨"/status/:code".toList, by decide⟩ () (isTemplate_iff.1 hclean)

end Gomibako
