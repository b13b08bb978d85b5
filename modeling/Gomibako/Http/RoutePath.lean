import Gomibako.Http.Route

/-!
# The components of a path

A path is a sequence of characters and of components `:name`, a name running to the next slash
(`pieces`). `Route.ctor` finds the components with a regular expression, twice: once to collect
their names and once to replace them. Both scans are computed here (`Route.ctor_eq`): the keys are
the names in order, and the compiled pattern is the path with `replaceRe` for every component,
behind a caret and before an optional slash and a dollar.
-/

namespace Gomibako

open Ecma (Regex Node State Found)

/-- A piece of a path: a character of its literal text, or a component with its name. -/
inductive Piece where
  | lit (c : Char)
  | comp (name : Str)
deriving DecidableEq, Repr

/-- The pieces of a path, inside a component whose name so far is `name`, latest character first, or
outside of one. -/
def piecesFrom : Option Str → Str → List Piece
  | none, [] => []
  | some name, [] => [.comp name.reverse]
  | none, c :: s => if c = ':' then piecesFrom (some []) s else .lit c :: piecesFrom none s
  | some name, c :: s =>
    if c = '/' then .comp name.reverse :: .lit '/' :: piecesFrom none s
    else piecesFrom (some (c :: name)) s

/-- The pieces of a path: a colon and what is behind it up to a slash are a component, everything
else is literal. -/
def pieces (path : Str) : List Piece := piecesFrom none path

/-- The names of the components among pieces, in order; a lone colon has an empty one. -/
def componentNames (ps : List Piece) : List Str :=
  ps.filterMap fun
    | .lit _ => none
    | .comp name => some name

/-- The text that stands for a piece in the pattern. -/
def Piece.render : Piece → Str
  | .lit c => [c]
  | .comp _ => replaceRe

/-- The pattern of a path: a caret, its pieces with the components replaced, and an optional slash
at the end. -/
def patternOf (path : Str) : Str :=
  '^' :: ((pieces path).flatMap Piece.render ++ "\\/?$".toList)

/-! ## Splitting a path -/

@[simp] theorem pieces_nil : pieces [] = [] := rfl

theorem pieces_lit {c : Char} (h : c ≠ ':') (s : Str) : pieces (c :: s) = .lit c :: pieces s := by
  simp [pieces, piecesFrom, h]

/-- Inside a component the name runs to the next slash. -/
theorem piecesFrom_some (name s : Str) :
    piecesFrom (some name) s =
      .comp (name.reverse ++ s.takeWhile (· != '/')) :: pieces (s.dropWhile (· != '/')) := by
  induction s generalizing name with
  | nil => simp [piecesFrom]
  | cons c s ih =>
    rw [piecesFrom]
    split
    · next h =>
      subst h
      simp [pieces, piecesFrom]
    · next h => simp [ih, h]

/-- A component is a colon and a name that runs to the next slash. -/
theorem pieces_comp (s : Str) :
    pieces (':' :: s) = .comp (s.takeWhile (· != '/')) :: pieces (s.dropWhile (· != '/')) := by
  rw [pieces, piecesFrom, if_pos rfl, piecesFrom_some]
  rfl

/-- A text without colons in front is copied character by character. -/
theorem pieces_append {l : Str} (h : ':' ∉ l) (s : Str) :
    pieces (l ++ s) = l.map .lit ++ pieces s := by
  induction l with
  | nil => rfl
  | cons c l ih =>
    have hc : c ≠ ':' := fun hc => h (hc ▸ List.mem_cons_self)
    rw [List.cons_append, pieces_lit hc, ih fun hl => h (.tail _ hl)]
    rfl

/-! ## The scan for components -/

/-- What `componentRe` compiles to: a colon, and a group of characters that are no slash, which may
be missing. -/
def componentRegex : Regex where
  node := .seq (.char ':') (.seq (.rep 0 (some 1) true (.group 1
    (.seq (.rep 1 none true (.bracket true [.single '/'])) .empty))) .empty)
  groups := [1]

theorem regex_componentRe : regex componentRe = .ok componentRegex := by decide

/-- The characters that a name is made of are all but the slash. -/
theorem bracketContains_notSlash :
    Ecma.bracketContains true [.single '/'] = (· != '/') := by
  funext c
  simp [Ecma.bracketContains, Ecma.ClassItem.contains, bne]

/-- The preferred match of the name behind a colon, which may be empty. -/
theorem head?_run_name (x : State) :
    ((Node.rep 0 (some 1) true (.group 1
      (.seq (.rep 1 none true (.bracket true [.single '/'])) .empty))).run x).head? =
      let name := x.rest.takeWhile (· != '/')
      if name = [] then some x
      else some ((x.reset [1]).capture 1
        ((x.reset [1]).consume name (x.rest.dropWhile (· != '/')))) := by
  set A : Node := .rep 1 none true (.bracket true [.single '/']) with hA
  have hgroup : ∀ z : State, (Node.group 1 (.seq A .empty)).run z =
      (A.run z).map (z.capture 1) := fun z => by
    simp [Ecma.run_group, Ecma.run_seq, Ecma.run_empty]
  have hhead := @Ecma.head?_run_rep_bracket true [.single '/'] (x.reset [1])
  rw [bracketContains_notSlash, ← hA] at hhead
  have hrest : (x.reset [1]).rest = x.rest := rfl
  rw [Ecma.run_rep]
  by_cases hx : x.rest = []
  · simp [Ecma.repeated, Ecma.repLoop, hx]
  · rw [Ecma.repeated, Ecma.repLoop_optional _ _ hx _ (Nat.le_refl _)]
    · have hcap : (Node.group 1 (.seq A .empty)).captures = [1] := by
        simp [hA, Node.captures]
      simp only [hcap, hgroup, List.head?_append, List.head?_map, hhead, hrest]
      split <;> simp_all
    · intro y hy
      have hcap : (Node.group 1 (.seq A .empty)).captures = [1] := by
        simp [hA, Node.captures]
      simp only [hcap, hgroup, List.mem_map] at hy
      obtain ⟨z, hz, rfl⟩ := hy
      obtain ⟨s, r, hs, hne, -, rfl⟩ := Ecma.mem_run_rep_bracket.1 hz
      have hpos := List.length_pos_iff.2 hne
      have hlen : x.rest.length = s.length + r.length := by
        rw [← hrest, hs, List.length_append]
      show r.length < x.rest.length
      omega

/-- The component that is found at a colon: its name runs to the next slash. -/
def foundAt (prev skipped r : Str) : Found where
  skipped := skipped
  results :=
    { text := ':' :: r.takeWhile (· != '/')
      groups := [if r.takeWhile (· != '/') = [] then none else some (r.takeWhile (· != '/'))] }
  prev := (r.takeWhile (· != '/')).reverse ++ ':' :: prev
  rest := r.dropWhile (· != '/')

theorem foundAt_str (prev skipped r : Str) :
    (foundAt prev skipped r).results.str 1 = r.takeWhile (· != '/') := by
  simp only [foundAt, Ecma.MatchResults.str]
  split <;> simp_all

/-- The matches of a term behind a character are those of the term behind it, if the text starts
with the character. -/
theorem run_char_seq (c : Char) (a : Node) (x : State) :
    (Node.seq (.char c) (.seq a .empty)).run x =
      match x.rest with
      | [] => []
      | d :: r => if d = c then a.run (x.consume [d] r) else [] := by
  rw [Ecma.run_seq, Ecma.run_char]
  cases hx : x.rest with
  | nil => simp [Ecma.one, hx]
  | cons d r =>
    by_cases hd : d = c <;> simp [Ecma.run_seq, Ecma.run_empty, Ecma.one, hx, hd]

/-- Without a condition on the match the preferred one is taken. -/
theorem find?_preferred (xs : List State) (n : Nat) :
    xs.find? (fun y => !false || decide (y.rest.length < n)) = xs.head? := by
  cases xs <;> simp

/-- At a colon there is a component, whose name goes up to the next slash. -/
theorem matchAt_colon (prev r : Str) :
    Ecma.matchAt componentRegex false prev (':' :: r) = some (foundAt prev [] r) := by
  have hr : r.takeWhile (· != '/') ++ r.dropWhile (· != '/') = r := List.takeWhile_append_dropWhile
  simp only [Ecma.matchAt, find?_preferred, componentRegex, run_char_seq, if_true, head?_run_name,
    State.consume_rest, foundAt]
  by_cases hn : r.takeWhile (· != '/') = []
  · rw [hn, List.nil_append] at hr
    simp [hn, hr, Regex.results, Regex.markCount, State.consume]
  · have hlen : r.length + 1 - (r.dropWhile (· != '/')).length =
        (r.takeWhile (· != '/')).length + 1 := by
      have := congrArg List.length hr
      rw [List.length_append] at this
      omega
    have htake : r.take (r.takeWhile (· != '/')).length = r.takeWhile (· != '/') :=
      (List.prefix_iff_eq_take.1 (List.takeWhile_prefix _)).symm
    have hlen' : r.length - (r.dropWhile (· != '/')).length = (r.takeWhile (· != '/')).length := by
      omega
    simp [hn, Regex.results, Regex.markCount, State.consume, State.capture, State.reset, hlen,
      hlen', htake]

/-- At another character there is no component, as the expression starts with a colon. -/
theorem matchAt_of_ne {c : Char} (h : c ≠ ':') (notNull : Bool) (prev r : Str) :
    Ecma.matchAt componentRegex notNull prev (c :: r) = none := by
  simp [Ecma.matchAt, componentRegex, run_char_seq, h]

theorem matchAt_nil (notNull : Bool) (prev : Str) :
    Ecma.matchAt componentRegex notNull prev [] = none := by
  simp [Ecma.matchAt, componentRegex, run_char_seq]

/-- The search for a component skips the text before the first colon and finds the component
there. -/
theorem regexSearch_component {l : Str} (h : ':' ∉ l) (prev r : Str) :
    Ecma.regexSearch componentRegex prev (l ++ ':' :: r) =
      some (foundAt (l.reverse ++ prev) l r) := by
  induction l generalizing prev with
  | nil => simp [Ecma.regexSearch, matchAt_colon]
  | cons c l ih =>
    have hc : c ≠ ':' := fun hc => h (hc ▸ List.mem_cons_self)
    rw [List.cons_append, Ecma.regexSearch, matchAt_of_ne hc, ih fun hl => h (.tail _ hl)]
    simp [foundAt]

/-- In a text without a colon the search finds no component. -/
theorem regexSearch_none {s : Str} (h : ':' ∉ s) (prev : Str) :
    Ecma.regexSearch componentRegex prev s = none := by
  induction s generalizing prev with
  | nil => rw [Ecma.regexSearch, matchAt_nil]
  | cons c s ih =>
    have hc : c ≠ ':' := fun hc => h (hc ▸ List.mem_cons_self)
    rw [Ecma.regexSearch, matchAt_of_ne hc, ih fun hs => h (.tail _ hs)]
    rfl

/-- What the replacement makes of the matches `fs` of a text `s`. -/
def replaced (fs : List Found) (s : Str) : Str :=
  fs.flatMap (fun f => f.skipped ++ Ecma.format f replaceRe) ++ (fs.getLast?.map (·.rest)).getD s

/-- `replaceRe` refers to nothing in the match, so each component is replaced by the same text. -/
theorem format_replaceRe (f : Found) : Ecma.format f replaceRe = replaceRe := rfl

theorem replaced_cons (f : Found) (fs : List Found) (s : Str) :
    replaced (f :: fs) s = f.skipped ++ (replaceRe ++ replaced fs f.rest) := by
  cases fs <;> simp [replaced, format_replaceRe, List.getLast?_cons]

/-- The text without a component is copied: its pieces are its characters. -/
theorem pieces_of_no_colon {s : Str} (h : ':' ∉ s) : pieces s = s.map .lit := by
  simpa using pieces_append h []

/-- The text before the first component is copied, the component replaced. -/
theorem pieces_split {l : Str} (h : ':' ∉ l) (r : Str) :
    pieces (l ++ ':' :: r) = l.map .lit ++
      .comp (r.takeWhile (· != '/')) :: pieces (r.dropWhile (· != '/')) := by
  rw [pieces_append h, pieces_comp]

theorem componentNames_append (ps qs : List Piece) :
    componentNames (ps ++ qs) = componentNames ps ++ componentNames qs := by
  simp [componentNames]

theorem componentNames_map_lit (l : Str) : componentNames (l.map .lit) = [] := by
  induction l <;> simp_all [componentNames]

theorem render_map_lit (l : Str) : (l.map Piece.lit).flatMap Piece.render = l := by
  induction l <;> simp_all [Piece.render]

/-- The iteration finds the components in order, and replacing what it finds gives the pattern of
the pieces. -/
theorem iterate_components {fuel : Nat} {s : Str} (prev : Str) (h : s.length < fuel) :
    (Ecma.iterate componentRegex fuel false prev s).map (·.results.str 1) =
        componentNames (pieces s) ∧
      replaced (Ecma.iterate componentRegex fuel false prev s) s =
        (pieces s).flatMap Piece.render := by
  induction fuel generalizing prev s with
  | zero => exact absurd h (Nat.not_lt_zero _)
  | succ fuel ih =>
    rw [Ecma.iterate]
    by_cases hs : ':' ∈ s
    · obtain ⟨l, r, rfl, hl⟩ := List.eq_append_cons_of_mem hs
      have hlen : (r.dropWhile (· != '/')).length < fuel := by
        have := (List.dropWhile_sublist (· != '/') (l := r)).length_le
        simp only [List.length_append, List.length_cons] at h
        omega
      obtain ⟨hnames, hrender⟩ := ih (foundAt (l.reverse ++ prev) l r).prev hlen
      simp only [regexSearch_component hl, pieces_split hl]
      constructor
      · rw [componentNames_append, componentNames_map_lit, List.map_cons, foundAt_str]
        exact congrArg _ hnames
      · rw [replaced_cons, List.flatMap_append, render_map_lit, List.flatMap_cons]
        exact congrArg (fun t => l ++ (replaceRe ++ t)) hrender
    · rw [regexSearch_none hs, pieces_of_no_colon hs, componentNames_map_lit, render_map_lit]
      simp [replaced]

/-- **The constructor**: the keys are the names of the components, and the path is compiled with
`replaceRe` in their place. -/
theorem Route.ctor_eq {H : Type _} (path : CStr) (fn : H) :
    Route.ctor path fn = (regex (patternOf path.chars)).map
      fun re => ⟨fn, re, componentNames (pieces path.chars)⟩ := by
  have hlen : ('^' :: path.chars).length < 2 * ('^' :: path.chars).length + 2 := by omega
  obtain ⟨hnames, hrender⟩ := iterate_components [] hlen
  have hcaret : pieces ('^' :: path.chars) = .lit '^' :: pieces path.chars :=
    pieces_lit (by decide) _
  rw [hcaret] at hnames hrender
  have hpat : Ecma.regexReplace ('^' :: path.chars) componentRegex replaceRe ++ "\\/?$".toList =
      patternOf path.chars := by
    rw [patternOf, ← List.cons_append]
    exact congrArg (· ++ _) hrender
  simp only [Route.ctor, regex_componentRe, bind, Except.bind]
  rw [hpat, Ecma.sregexIterator, hnames]
  cases regex (patternOf path.chars) <;> rfl

end Gomibako
