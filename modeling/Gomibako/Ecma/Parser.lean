import Gomibako.Ecma.Lexer

/-!
# Parsing the tokens of a pattern

A shift-reduce parser. Its stack holds one frame for every open parenthesis and one for the whole
pattern; a frame collects the finished alternatives and the terms of the current one. A token is
shifted by `PState.step`, and the fold over the tokens (`parseTokens`) is again compositional over
appends. A capture group gets the number of its opening parenthesis.
-/

namespace Ecma

/-- What an open parenthesis will build: a capture group, a group that does not capture, or a
lookahead. -/
inductive FrameKind where
  | capture (n : Nat)
  | group
  | look (neg : Bool)
deriving DecidableEq, Repr

/-- The part of the disjunction inside a parenthesis that has been read: the finished alternatives
and the terms of the current one, both latest first, and whether a quantifier may follow. -/
structure Frame where
  alts : List Node
  terms : List Node
  quantifiable : Bool
deriving DecidableEq, Repr

namespace Frame

/-- The frame of which nothing has been read: no alternative is finished, and the current one is
empty. -/
def init : Frame := ⟨[], [], false⟩

/-- A term is appended to the current alternative; a quantifier may follow it, or may not. -/
def push (f : Frame) (a : Node) (quantifiable : Bool) : Frame :=
  { f with terms := a :: f.terms, quantifiable }

/-- The disjunction that has been read: the finished alternatives, and the current one as the last
of them. -/
def node (f : Frame) : Node :=
  match f.alts.reverse with
  | [] => Node.seqs f.terms.reverse
  | a :: as => Node.alts a (as ++ [Node.seqs f.terms.reverse])

end Frame

/-- The state of the parser: the innermost frame, the frames around it with what their open
parenthesis builds, and the number of capture groups opened so far. -/
structure PState where
  frame : Frame
  stack : List (FrameKind × Frame)
  opened : Nat
deriving DecidableEq, Repr

namespace PState

/-- The state before the first token, with no parenthesis open and no group counted. -/
def init : PState := ⟨.init, [], 0⟩

/-- A term joins the innermost frame, that of the parenthesis which was opened last. -/
def push (st : PState) (a : Node) (quantifiable : Bool) : PState :=
  { st with frame := st.frame.push a quantifiable }

/-- A parenthesis opens: a new frame becomes the innermost one, and the one around it waits. -/
def enter (st : PState) (k : FrameKind) : PState :=
  { st with frame := .init, stack := (k, st.frame) :: st.stack }

/-- The term that a closed parenthesis is, by what it was opened for. -/
def closeNode : FrameKind → Node → Node
  | .capture n, a => .group n a
  | .group, a => a
  | .look neg, a => .look neg a

/-- The parser shifts a token. A quantifier needs an atom before it: assertions, lookaheads and
quantified atoms take none. -/
def step (st : PState) : Token → Except Error PState
  | .char c => .ok (st.push (.char c) true)
  | .any => .ok (st.push .any true)
  | .bracket neg items => .ok (st.push (.bracket neg items) true)
  | .backref n => .ok (st.push (.backref n) true)
  | .bol => .ok (st.push .bol false)
  | .eol => .ok (st.push .eol false)
  | .wordBoundary neg => .ok (st.push (.wordBoundary neg) false)
  | .openCapture _ => .ok { st.enter (.capture (st.opened + 1)) with opened := st.opened + 1 }
  | .openGroup => .ok (st.enter .group)
  | .openLook neg => .ok (st.enter (.look neg))
  | .close =>
    match st.stack with
    | [] => .error .paren
    | (k, f) :: stack =>
      .ok { st with
        frame := f.push (closeNode k st.frame.node) (match k with | .look _ => false | _ => true)
        stack := stack }
  | .alt =>
    .ok { st with
      frame := ⟨Node.seqs st.frame.terms.reverse :: st.frame.alts, [], false⟩ }
  | .quant min max greedy =>
    match st.frame.quantifiable, st.frame.terms with
    | true, a :: terms =>
      .ok { st with frame := ⟨st.frame.alts, .rep min max greedy a :: terms, false⟩ }
    | _, _ => .error .badrepeat

end PState

/-- The parser over a list of tokens, which stops at the first error. -/
def parseTokens : PState → List Token → Except Error PState
  | st, [] => .ok st
  | st, t :: ts => (st.step t).bind fun st => parseTokens st ts

/-- A compiled pattern: its syntax tree, and for every capture group the position of its opening
parenthesis. -/
structure Regex where
  node : Node
  groups : List Nat
deriving DecidableEq, Repr

/-- `mark_count`: the number of capture groups, by which the results of a match are counted. -/
def Regex.markCount (re : Regex) : Nat := re.groups.length

/-- The back references among tokens, by the numbers of the groups that they are to. -/
def backrefs (ts : List Token) : List Nat :=
  ts.filterMap fun
    | .backref n => some n
    | _ => none

/-- The end of the pattern: every parenthesis must be closed, and a back reference must refer to a
group of the pattern. -/
def PState.finish (st : PState) (ts : List Token) : Except Error Regex :=
  if st.stack ≠ [] then .error .paren
  else if (backrefs ts).all (· ≤ st.opened) then .ok ⟨st.frame.node, openPositions ts⟩
  else .error .backref

/-- The `std::regex` constructor: the pattern is cut into tokens, these are parsed, and the end is
checked. Reference: `Router::Route::Route` (`router.cpp:22`). -/
def compile (s : List Char) : Except Error Regex :=
  (lex s).bind fun ts => (parseTokens .init ts).bind fun st => st.finish ts

/-! ## Runs of the parser -/

@[simp] theorem parseTokens_nil (st : PState) : parseTokens st [] = .ok st := rfl

/-- A run over an append is a run over both parts. -/
theorem parseTokens_append (st : PState) (ts ts' : List Token) :
    parseTokens st (ts ++ ts') = (parseTokens st ts).bind fun st => parseTokens st ts' := by
  induction ts generalizing st with
  | nil => rfl
  | cons t ts ih =>
    rw [List.cons_append, parseTokens, parseTokens]
    cases h : st.step t with
    | error e => rfl
    | ok st' => exact ih st'

/-- What a pattern compiles to: all steps succeed, every parenthesis is closed, and every back
reference is to a group. -/
theorem compile_eq_ok {s : List Char} {re : Regex} :
    compile s = .ok re ↔ ∃ ts st, lex s = .ok ts ∧ parseTokens .init ts = .ok st ∧
      st.stack = [] ∧ (∀ n ∈ backrefs ts, n ≤ st.opened) ∧
      re = ⟨st.frame.node, openPositions ts⟩ := by
  simp only [compile, Except.bind_eq_ok_iff, PState.finish]
  constructor
  · rintro ⟨ts, hl, st, hp, hf⟩
    split at hf
    · cases hf
    · next hs =>
      split at hf
      · next hb =>
        cases hf
        exact ⟨ts, st, hl, hp, not_not.1 hs, by simpa using hb, rfl⟩
      · cases hf
  · rintro ⟨ts, st, hl, hp, hs, hb, rfl⟩
    exact ⟨ts, hl, st, hp, by rw [if_neg (not_not.2 hs), if_pos (by simpa using hb)]⟩

end Ecma
