import Gomibako.Ecma.Before
import Gomibako.Ecma.Surround
import Gomibako.Http.RoutePath

/-!
# Routes of regular expressions

The path of a route may be a regular expression. The constructor puts a caret before its text and an
optional slash with a dollar behind it, without parentheses around it. So the slash belongs to the
last alternative of the path only, and this alternative sees it: the route accepts what the path
matches, and what its last alternative matches before a slash (`compile_patternOf`). This is the
path with an optional slash exactly if the last alternative makes no difference
(`Route.trailingSlash_iff`); for a path without alternatives, dollars and lookaheads it does not
(`Route.slashAgrees_of_plain`).
-/

namespace Gomibako

open Ecma (Regex Node State Token PState Frame regexMatch regexMatch_isSome_iff)

/-! ## The pattern of a regular expression -/

theorem patternOf_of_no_colon {path : Str} (h : ':' ∉ path) :
    patternOf path = '^' :: (path ++ "\\/?$".toList) := by
  rw [patternOf, pieces_of_no_colon h, render_map_lit]

/-- The terms that the constructor puts behind the text of a path: an optional slash, and the
end. -/
def slashNodes : List Node := [.rep 0 (some 1) true (.char '/'), .eol]

/-- They match a slash, or nothing, at the end of a text. -/
theorem exists_run_slashNodes {z : State} :
    (∃ y ∈ (Node.seqs slashNodes).run z, y.rest = []) ↔ z.rest = [] ∨ z.rest = ['/'] := by
  simp only [slashNodes, Node.seqs, Ecma.mem_run_seq, Ecma.mem_run_optional, Ecma.mem_run_char,
    Ecma.mem_run_eol, Ecma.mem_run_empty]
  constructor
  · intro h
    obtain ⟨_, ⟨w, hw, _, ⟨hrest, rfl⟩, rfl⟩, -⟩ := h
    rcases hw with rfl | ⟨⟨r, hr, rfl⟩, -⟩
    · exact .inl hrest
    · have hnil : r = [] := hrest
      exact .inr (hnil ▸ hr)
  · intro h
    rcases h with hrest | hrest
    · exact ⟨z, ⟨z, .inl rfl, z, ⟨hrest, rfl⟩, rfl⟩, hrest⟩
    · refine ⟨z.consume ['/'] [], ⟨_, .inr ⟨⟨[], hrest, ?_⟩, ?_⟩, _, ⟨rfl, rfl⟩, rfl⟩, rfl⟩
      · exact congrArg (State.consume · ['/'] []) (State.reset_nil z).symm
      · rw [hrest]
        exact Nat.zero_lt_one

/-- The pattern of a regular expression without components and capture groups is compiled to that of
the expression, with a caret before the first alternative and the slash behind the last one. -/
theorem compile_patternOf_frame {path : Str} (hcolon : ':' ∉ path) {re : Regex}
    (hre : Ecma.compile path = .ok re) (hgroups : re.groups = []) :
    ∃ f f' : Frame, f.Before .bol f' ∧ re.node = f.node ∧
      Ecma.compile (patternOf path) =
        .ok ⟨(Frame.mk f'.alts (slashNodes.reverse ++ f'.terms) false).node, []⟩ := by
  obtain ⟨ts, st, hlex, hparse, hstack, hback, rfl⟩ := Ecma.compile_eq_ok.1 hre
  have hopen : Ecma.openPositions ts = [] := hgroups
  -- the tokens of the path stay as they are
  have hlex' : Ecma.lex (patternOf path) =
      .ok (.bol :: (ts ++ [.char '/', .quant 0 (some 1) true, .eol])) := by
    rw [patternOf_of_no_colon hcolon]
    have hcaret : Ecma.Mode.plainStep 0 '^' = .ok ([.bol], .plain) := rfl
    have hslash : ∀ pos, Ecma.lexFrom pos .plain ('\\' :: "/?$".toList) =
        .ok ([.char '/', .quant 0 (some 1) true, .eol], .plain) := fun _ => rfl
    exact Ecma.lex_surround hlex hopen hcaret hslash
  -- the parser has the caret before the first alternative when it comes to the slash
  have hcaret : PState.Before .bol .init (PState.init.push .bol false) :=
    .outermost (.current [] false) 0
  obtain ⟨st', hparse', hbefore⟩ := Ecma.parseTokens_before hcaret hparse
  obtain ⟨f, stack, n⟩ := st
  cases hstack
  obtain ⟨f', hf, rfl⟩ := hbefore.exists_frame
  have hrun : Ecma.parseTokens .init
      (.bol :: (ts ++ [.char '/', .quant 0 (some 1) true, .eol])) =
        .ok ⟨⟨f'.alts, slashNodes.reverse ++ f'.terms, false⟩, [], n⟩ := by
    show Ecma.parseTokens (PState.init.push .bol false) _ = _
    rw [Ecma.parseTokens_append, hparse']
    rfl
  have hback' : ∀ m ∈ Ecma.backrefs (.bol :: (ts ++ [.char '/', .quant 0 (some 1) true, .eol])),
      m ≤ n := by
    intro m hm
    refine hback m ?_
    simpa [Ecma.backrefs] using hm
  have hopen' : Ecma.openPositions
      (.bol :: (ts ++ [.char '/', .quant 0 (some 1) true, .eol])) = [] := by
    show Ecma.openPositions (ts ++ [.char '/', .quant 0 (some 1) true, .eol]) = []
    rw [Ecma.openPositions_append, hopen]
    rfl
  refine ⟨f, f', hf, rfl, ?_⟩
  rw [← hopen']
  exact Ecma.compile_eq_ok.2 ⟨_, _, hlex', hrun, rfl, hback', rfl⟩

/-- Its matches to the end of a text: those of the expression, and those of the last alternative to
a slash at the end. -/
theorem exists_run_slash {f f' : Frame} (hf : f.Before .bol f') {x : State} (hx : x.prev = []) :
    (∃ y ∈ (Frame.mk f'.alts (slashNodes.reverse ++ f'.terms) false).node.run x, y.rest = []) ↔
      (∃ y ∈ f.node.run x, y.rest = []) ∨ ∃ z ∈ f.node.lastAlt.run x, z.rest = ['/'] := by
  rw [Frame.lastAlt_node]
  constructor
  · intro h
    obtain ⟨y, hy, hrest⟩ := h
    rcases (Frame.mem_run_surround hf hx slashNodes false).1 hy with hy | ⟨z, hz, hy⟩
    · exact .inl ⟨y, Frame.mem_run_node.2 (.inl hy), hrest⟩
    · rcases exists_run_slashNodes.1 ⟨y, hy, hrest⟩ with hend | hslash
      · exact .inl ⟨z, Frame.mem_run_node.2 (.inr hz), hend⟩
      · exact .inr ⟨z, hz, hslash⟩
  · intro h
    rcases h with ⟨y, hy, hrest⟩ | ⟨z, hz, hslash⟩
    · rcases Frame.mem_run_node.1 hy with hy | hy
      · exact ⟨y, (Frame.mem_run_surround hf hx slashNodes false).2 (.inl hy), hrest⟩
      · obtain ⟨w, hw, hw'⟩ := exists_run_slashNodes.2 (.inl hrest)
        exact ⟨w, (Frame.mem_run_surround hf hx slashNodes false).2 (.inr ⟨y, hy, hw⟩), hw'⟩
    · obtain ⟨w, hw, hw'⟩ := exists_run_slashNodes.2 (.inr hslash)
      exact ⟨w, (Frame.mem_run_surround hf hx slashNodes false).2 (.inr ⟨z, hz, hw⟩), hw'⟩

/-- **What the pattern of a regular expression accepts**, if the expression has no component and no
capture group: what the expression matches, and what its last alternative matches before a slash. -/
theorem compile_patternOf {path : Str} (hcolon : ':' ∉ path) {re : Regex}
    (hre : Ecma.compile path = .ok re) (hgroups : re.groups = []) :
    ∃ re', Ecma.compile (patternOf path) = .ok re' ∧ re'.groups = [] ∧
      ∀ u, (regexMatch u re').isSome ↔ (regexMatch u re).isSome ∨
        ∃ v, u = v ++ ['/'] ∧ re.node.lastAlt.MatchesBefore v ['/'] := by
  obtain ⟨f, f', hf, hnode, hcompile⟩ := compile_patternOf_frame hcolon hre hgroups
  refine ⟨_, hcompile, rfl, fun u => ?_⟩
  simp only [regexMatch_isSome_iff, hnode]
  refine (exists_run_slash hf rfl).trans (or_congr_right ?_)
  rw [List.append_nil]
  constructor
  · intro h
    obtain ⟨z, hz, hslash⟩ := h
    -- what was consumed is what is before the slash
    obtain ⟨v, hv⟩ := Ecma.run_suffix hz
    rw [hslash] at hv
    have hu : u = v ++ ['/'] := hv.symm
    exact ⟨v, hu, z, hu ▸ hz, hslash⟩
  · intro h
    obtain ⟨v, rfl, z, hz, hslash⟩ := h
    exact ⟨z, hz, hslash⟩

/-! ## The route of a regular expression -/

namespace Route

variable {H : Type _}

/-- The route accepts the URI if the regular expression matches it, or what is before a slash at its
end, and only then. -/
def TrailingSlash (r : Route H) (re : Regex) (uri : CStr) : Prop :=
  (∃ m, r.match uri = .ok (some m)) ↔ (regexMatch uri.chars re).isSome ∨
    ∃ v, uri.chars = v ++ ['/'] ∧ (regexMatch v re).isSome

/-- If the expression does not match the URI, and there is a slash at its end, then the last
alternative matches what is before the slash, seeing the slash, exactly if the expression matches
it. -/
def SlashAgrees (re : Regex) (uri : CStr) : Prop :=
  ∀ v, uri.chars = v ++ ['/'] → ¬ (regexMatch uri.chars re).isSome →
    (re.node.lastAlt.MatchesBefore v ['/'] ↔ (regexMatch v re).isSome)

/-- Without capture groups nothing is looked up in the keys. -/
theorem match_isSome_iff {r : Route H} (h : r.path.groups = []) {uri : CStr} :
    (∃ m, r.match uri = .ok (some m)) ↔ (regexMatch uri.chars r.path).isSome := by
  unfold «match»
  cases hm : regexMatch uri.chars r.path with
  | none => simp
  | some result =>
    have hsize : result.size - 1 = 0 := by
      rw [Ecma.MatchResults.size, Ecma.regexMatch_groups_length hm, Regex.markCount, h]
      rfl
    simp [hsize, components, Except.map]

/-- **A regular expression with one alternative, and without dollars and lookaheads, is accepted
with an optional slash.** -/
theorem slashAgrees_of_plain {re : Regex} (hplain : re.node.plain = true)
    (hlast : re.node.lastAlt = re.node) (uri : CStr) : SlashAgrees re uri := by
  intro v _ _
  rw [hlast, regexMatch_isSome_iff]
  exact Node.matchesBefore_iff hplain rfl

/-- **When the route of a regular expression accepts it with an optional slash**, for an expression
without components and capture groups. -/
theorem trailingSlash_iff {path : CStr} (fn : H) (hcolon : ':' ∉ path.chars) {re : Regex}
    (hre : regex path.chars = .ok re) (hgroups : re.groups = []) :
    ∃ r, ctor path fn = .ok r ∧ ∀ uri, r.TrailingSlash re uri ↔ SlashAgrees re uri := by
  obtain ⟨re', hre', hgroups', haccepts⟩ :=
    compile_patternOf hcolon (regex_eq_ok_iff.1 hre) hgroups
  refine ⟨⟨fn, re', componentNames (pieces path.chars)⟩, ?_, fun uri => ?_⟩
  · rw [ctor_eq, regex_eq_ok_iff.2 hre']
    rfl
  · rw [TrailingSlash, match_isSome_iff hgroups', haccepts]
    constructor
    · intro h v hv hnot
      constructor
      · intro hbefore
        obtain ⟨w, hw, hmatch⟩ := (h.1 (.inr ⟨v, hv, hbefore⟩)).resolve_left hnot
        rwa [List.append_cancel_right (hv.symm.trans hw)]
      · intro hmatch
        obtain ⟨w, hw, hbefore⟩ := (h.2 (.inr ⟨v, hv, hmatch⟩)).resolve_left hnot
        rwa [List.append_cancel_right (hv.symm.trans hw)]
    · intro h
      by_cases hmatch : (regexMatch uri.chars re).isSome
      · exact ⟨fun _ => .inl hmatch, fun _ => .inl hmatch⟩
      · exact or_congr_right (exists_congr fun v => and_congr_right fun hv => h v hv hmatch)

/-- The expression `/a+b?`, without groups and without alternatives. -/
def plainRegex : Regex where
  node := .seq (.char '/') (.seq (.rep 1 none true (.char 'a'))
    (.seq (.rep 0 (some 1) true (.char 'b')) .empty))
  groups := []

/-- Its route accepts a text of the expression with an optional slash behind it. -/
theorem trailingSlash_iff_plain : ∃ r, ctor ⟨"/a+b?".toList, by decide⟩ (0 : Nat) = .ok r ∧
    r.TrailingSlash plainRegex ⟨"/aab/".toList, by decide⟩ := by
  have hre : regex "/a+b?".toList = .ok plainRegex := rfl
  have hcolon : ':' ∉ (⟨"/a+b?".toList, by decide⟩ : CStr).chars := by decide
  obtain ⟨r, hr, h⟩ := trailingSlash_iff 0 hcolon hre rfl
  exact ⟨r, hr, (h _).2 (slashAgrees_of_plain rfl rfl _)⟩

/-- The expression `/a|/b`, whose alternatives the constructor does not put in a group. -/
def alternativesRegex : Regex where
  node := .alt (.seq (.char '/') (.seq (.char 'a') .empty))
    (.seq (.char '/') (.seq (.char 'b') .empty))
  groups := []

/-- Its route does not accept its first alternative with a slash. -/
theorem not_trailingSlash_alternatives : ∃ r, regex "/a|/b".toList = .ok alternativesRegex ∧
    ctor ⟨"/a|/b".toList, by decide⟩ (0 : Nat) = .ok r ∧
      ¬ r.TrailingSlash alternativesRegex ⟨"/a/".toList, by decide⟩ := by
  refine ⟨_, rfl, rfl, fun h => ?_⟩
  obtain ⟨m, hm⟩ := h.2 (.inr ⟨"/a".toList, rfl, rfl⟩)
  cases hm

end Route

end Gomibako
