import Gomibako.Ecma.Parser
import Mathlib.Logic.Function.Basic

/-!
# Matching

The backtracking semantics of ECMAScript. `Node.run` lists the states in which a match of a tree can
end, in the order in which backtracking reaches them; a disjunction appends, a sequence binds. An
iteration of a quantifier forgets the captures inside its atom, and beyond the minimum it must
consume a character, so as many iterations as there are characters left are enough
(`repLoop`).
-/

namespace Ecma

/-- The state of a match: the text consumed, latest character first, the text left, and what the
capture groups hold. -/
@[ext] structure State where
  prev : List Char
  rest : List Char
  caps : Nat → Option (List Char)

namespace State

/-- The start of a match of the text `s`: nothing is consumed, and no group has captured. -/
def start (s : List Char) : State := ⟨[], s, fun _ => none⟩

/-- The text `s` is consumed, and `rest` is left; the captures stay. -/
def consume (x : State) (s : List Char) (rest : List Char) : State :=
  { x with prev := s.reverse ++ x.prev, rest }

theorem consume_nil {x : State} {r : List Char} (h : x.rest = r) : x.consume [] r = x := by
  subst h; rfl

@[simp] theorem consume_rest (x : State) (s r : List Char) : (x.consume s r).rest = r := rfl
@[simp] theorem consume_caps (x : State) (s r : List Char) : (x.consume s r).caps = x.caps := rfl
@[simp] theorem consume_prev (x : State) (s r : List Char) :
    (x.consume s r).prev = s.reverse ++ x.prev := rfl

theorem consume_consume (x : State) (s s' r r' : List Char) :
    (x.consume s r).consume s' r' = x.consume (s ++ s') r' := by
  simp [consume]

/-- A capture group closes over the text consumed since the state `x`. -/
def capture (n : Nat) (x y : State) : State :=
  { y with
    caps := Function.update y.caps n (some (x.rest.take (x.rest.length - y.rest.length))) }

/-- The captures of the groups `ns` are forgotten, as at the start of an iteration. -/
def reset (ns : List Nat) (x : State) : State :=
  { x with caps := fun n => if n ∈ ns then none else x.caps n }

@[simp] theorem reset_nil (x : State) : x.reset [] = x := by
  simp [reset]

end State

/-- A character that makes words: a letter, a digit or an underscore; there is none before the text
and behind it. -/
def isWord (c : Option Char) : Bool := c.any CharClass.word.contains

/-- A match of one character that satisfies `p`; there is none at the end of the text. -/
def one (p : Char → Bool) (x : State) : List State :=
  match x.rest with
  | [] => []
  | c :: r => if p c then [x.consume [c] r] else []

/-- The iterations of a quantifier beyond its minimum: a greedy one tries another iteration first, a
lazy one stops first. -/
def repLoop (m : State → List State) (greedy : Bool) : Nat → Option Nat → State → List State
  | 0, _, x => [x]
  | fuel + 1, max, x =>
    if max = some 0 then [x]
    else
      let more := ((m x).filter fun y => y.rest.length < x.rest.length).flatMap
        (repLoop m greedy fuel (max.map (· - 1)))
      if greedy then more ++ [x] else x :: more

/-- The iterations of a quantifier: as many as its minimum says, and then those beyond it. -/
def repeated (m : State → List State) (greedy : Bool) : Nat → Option Nat → State → List State
  | 0, max, x => repLoop m greedy x.rest.length max x
  | min + 1, max, x => (m x).flatMap (repeated m greedy min (max.map (· - 1)))

/-- The states in which a match can end, the preferred ones first. -/
def Node.run : Node → State → List State
  | .empty, x => [x]
  | .char c, x => one (· == c) x
  | .any, x => one (fun c => c != '\n' && c != '\r') x
  | .bracket neg items, x => one (bracketContains neg items) x
  | .backref n, x =>
    match x.caps n with
    | none => [x]
    | some s => if s.isPrefixOf x.rest then [x.consume s (x.rest.drop s.length)] else []
  | .bol, x => if x.prev = [] then [x] else []
  | .eol, x => if x.rest = [] then [x] else []
  | .wordBoundary neg, x =>
    if (isWord x.prev.head? != isWord x.rest.head?) != neg then [x] else []
  | .seq a b, x => (a.run x).flatMap b.run
  | .alt a b, x => a.run x ++ b.run x
  | .group n a, x => (a.run x).map (x.capture n)
  | .look neg a, x =>
    match (a.run x).head? with
    | some y => if neg then [] else [{ x with caps := y.caps }]
    | none => if neg then [x] else []
  | .rep min max greedy a, x =>
    repeated (fun x => a.run (x.reset a.captures)) greedy min max x

section
variable (x : State) (a b : Node)

theorem run_empty : Node.empty.run = fun x => [x] := rfl
theorem run_char (c : Char) : (Node.char c).run x = one (· == c) x := rfl
theorem run_bracket (neg : Bool) (items : List ClassItem) :
    (Node.bracket neg items).run x = one (bracketContains neg items) x := rfl
theorem run_bol : Node.bol.run x = if x.prev = [] then [x] else [] := rfl
theorem run_eol : Node.eol.run x = if x.rest = [] then [x] else [] := rfl
theorem run_seq : (Node.seq a b).run x = (a.run x).flatMap b.run := rfl
theorem run_alt : (Node.alt a b).run x = a.run x ++ b.run x := rfl
theorem run_group (n : Nat) : (Node.group n a).run x = (a.run x).map (x.capture n) := rfl
theorem run_rep (min : Nat) (max : Option Nat) (greedy : Bool) :
    (Node.rep min max greedy a).run x =
      repeated (fun x => a.run (x.reset a.captures)) greedy min max x := rfl

end

/-! ## Where a match can end -/

section
variable {x y : State} {a b : Node}

@[simp] theorem mem_run_empty : y ∈ Node.empty.run x ↔ y = x := by
  simp [run_empty]

@[simp] theorem mem_run_seq : y ∈ (Node.seq a b).run x ↔ ∃ z ∈ a.run x, y ∈ b.run z := by
  simp [run_seq]

@[simp] theorem mem_run_alt : y ∈ (Node.alt a b).run x ↔ y ∈ a.run x ∨ y ∈ b.run x := by
  simp [run_alt]

@[simp] theorem mem_run_group {n : Nat} :
    y ∈ (Node.group n a).run x ↔ ∃ z ∈ a.run x, x.capture n z = y := by
  simp [run_group]

@[simp] theorem mem_run_bol : y ∈ Node.bol.run x ↔ x.prev = [] ∧ y = x := by
  rw [run_bol]
  split <;> simp_all

@[simp] theorem mem_run_eol : y ∈ Node.eol.run x ↔ x.rest = [] ∧ y = x := by
  rw [run_eol]
  split <;> simp_all

/-- A match of one character consumes it, and exists exactly if there is one that satisfies `p`. -/
theorem mem_one {p : Char → Bool} :
    y ∈ one p x ↔ ∃ c r, x.rest = c :: r ∧ p c ∧ y = x.consume [c] r := by
  rw [one]
  cases x.rest with
  | nil => simp
  | cons c r => by_cases hc : p c <;> simp [hc]

@[simp] theorem mem_run_char {c : Char} :
    y ∈ (Node.char c).run x ↔ ∃ r, x.rest = c :: r ∧ y = x.consume [c] r := by
  simp [run_char, mem_one]

/-- A sequence of terms matches what its first terms match, and behind it the others. -/
theorem mem_run_seqs_append {as bs : List Node} :
    y ∈ (Node.seqs (as ++ bs)).run x ↔
      ∃ z ∈ (Node.seqs as).run x, y ∈ (Node.seqs bs).run z := by
  induction as generalizing x with
  | nil => simp [Node.seqs]
  | cons a as ih =>
    simp only [List.cons_append, Node.seqs, mem_run_seq, ih]
    constructor
    · rintro ⟨z, hz, w, hw, hy⟩
      exact ⟨w, ⟨z, hz, hw⟩, hy⟩
    · rintro ⟨w, ⟨z, hz, hw⟩, hy⟩
      exact ⟨z, hz, w, hw, hy⟩

end

/-! ## Repeating one character -/

/-- The iterations of a one-character match consume characters it accepts. -/
theorem mem_repLoop_one {p : Char → Bool} {greedy : Bool} {fuel : Nat} {x y : State}
    (hf : x.rest.length ≤ fuel) :
    y ∈ repLoop (one p) greedy fuel none x ↔
      ∃ s r, x.rest = s ++ r ∧ (∀ c ∈ s, p c) ∧ y = x.consume s r := by
  induction fuel generalizing x with
  | zero =>
    have hx : x.rest = [] := List.length_eq_zero_iff.1 (Nat.le_zero.1 hf)
    simp only [repLoop, List.mem_singleton, hx]
    constructor
    · rintro rfl
      exact ⟨[], [], rfl, by simp, (State.consume_nil hx).symm⟩
    · rintro ⟨s, r, hsr, -, rfl⟩
      obtain ⟨rfl, rfl⟩ := List.append_eq_nil_iff.1 hsr.symm
      exact State.consume_nil hx
  | succ fuel ih =>
    have hmem : y ∈ repLoop (one p) greedy (fuel + 1) none x ↔
        y = x ∨ ∃ z ∈ one p x, y ∈ repLoop (one p) greedy fuel none z := by
      have hlt : ∀ z ∈ one p x, z.rest.length < x.rest.length := fun z hz => by
        obtain ⟨c, r, hx, -, rfl⟩ := mem_one.1 hz
        simp [hx]
      have hfil : ((one p x).filter fun z => z.rest.length < x.rest.length) = one p x :=
        List.filter_eq_self.2 fun z hz => by simpa using hlt z hz
      rw [repLoop]
      simp only [reduceCtorEq, if_false, hfil, Option.map_none]
      cases greedy <;> simp [or_comm]
    rw [hmem]
    constructor
    · rintro (rfl | ⟨z, hz, hy⟩)
      · exact ⟨[], y.rest, rfl, by simp, (State.consume_nil rfl).symm⟩
      · obtain ⟨c, r, hx, hc, rfl⟩ := mem_one.1 hz
        have hr : r.length ≤ fuel := by
          rw [hx, List.length_cons] at hf
          omega
        obtain ⟨s, r', hs, hp, rfl⟩ := (ih hr).1 hy
        refine ⟨c :: s, r', ?_, by simpa using ⟨hc, hp⟩, State.consume_consume ..⟩
        rw [hx, List.cons_append, ← hs, State.consume_rest]
    · rintro ⟨s, r, hx, hp, rfl⟩
      cases s with
      | nil => exact .inl (State.consume_nil hx)
      | cons c s =>
        have hr : (s ++ r).length ≤ fuel := by
          rw [hx, List.cons_append, List.length_cons] at hf
          omega
        refine .inr ⟨x.consume [c] (s ++ r), mem_one.2 ⟨c, s ++ r, hx, hp c (by simp), rfl⟩, ?_⟩
        exact (ih hr).2 ⟨s, r, rfl, fun d hd => hp d (.tail _ hd),
          (State.consume_consume x [c] s _ r).symm⟩

/-- A bracket expression repeated at least once consumes a non-empty text of its characters. -/
theorem mem_run_rep_bracket {neg greedy : Bool} {items : List ClassItem} {x y : State} :
    y ∈ (Node.rep 1 none greedy (.bracket neg items)).run x ↔
      ∃ s r, x.rest = s ++ r ∧ s ≠ [] ∧ (∀ c ∈ s, bracketContains neg items c) ∧
        y = x.consume s r := by
  have hrun : (fun x => (Node.bracket neg items).run (x.reset (Node.bracket neg items).captures)) =
      one (bracketContains neg items) := funext fun x => by simp [run_bracket, Node.captures]
  rw [run_rep, hrun]
  simp only [repeated, Option.map_none, List.mem_flatMap]
  constructor
  · rintro ⟨z, hz, hy⟩
    obtain ⟨c, r, hx, hc, rfl⟩ := mem_one.1 hz
    obtain ⟨s, r', hs, hp, rfl⟩ := (mem_repLoop_one (Nat.le_refl _)).1 hy
    refine ⟨c :: s, r', ?_, by simp, by simpa using ⟨hc, hp⟩, State.consume_consume ..⟩
    rw [hx, List.cons_append, ← hs, State.consume_rest]
  · rintro ⟨s, r, hx, hne, hp, rfl⟩
    obtain ⟨c, s, rfl⟩ := List.exists_cons_of_ne_nil hne
    refine ⟨x.consume [c] (s ++ r), mem_one.2 ⟨c, s ++ r, hx, hp c (by simp), rfl⟩, ?_⟩
    exact (mem_repLoop_one (Nat.le_refl _)).2 ⟨s, r, rfl, fun d hd => hp d (.tail _ hd),
      (State.consume_consume x [c] s _ r).symm⟩

/-- An optional term is skipped or matched once, and then it consumes something. -/
theorem mem_run_optional {greedy : Bool} {a : Node} {x y : State} :
    y ∈ (Node.rep 0 (some 1) greedy a).run x ↔
      y = x ∨ (y ∈ a.run (x.reset a.captures) ∧ y.rest.length < x.rest.length) := by
  rw [run_rep, repeated]
  have hone : ∀ (m : State → List State) (fuel : Nat) (z : State),
      repLoop m greedy fuel (some 0) z = [z] := fun m fuel z => by
    cases fuel <;> simp [repLoop]
  cases hlen : x.rest.length with
  | zero => simp [repLoop]
  | succ n => cases greedy <;> simp [repLoop, hone, hlen, or_comm]

/-! ## The preferred match of a greedy repetition -/

/-- An optional match is empty or one match that is not. -/
theorem repLoop_optional (m : State → List State) (fuel : Nat) {x : State} (hx : x.rest ≠ [])
    (hm : ∀ y ∈ m x, y.rest.length < x.rest.length) (hf : x.rest.length ≤ fuel) :
    repLoop m true fuel (some 1) x = m x ++ [x] := by
  cases fuel with
  | zero => exact absurd (List.length_eq_zero_iff.1 (Nat.le_zero.1 hf)) hx
  | succ fuel =>
    have hone : repLoop m true fuel (some 0) = fun z => [z] := by
      funext z
      cases fuel <;> simp [repLoop]
    have hfil : (m x).filter (fun y => y.rest.length < x.rest.length) = m x :=
      List.filter_eq_self.2 fun y hy => by simpa using hm y hy
    simp [repLoop, hone, hfil]

/-- A greedy repetition of one character first takes all it can. -/
theorem head?_repLoop_one {p : Char → Bool} {fuel : Nat} {x : State}
    (hf : x.rest.length ≤ fuel) :
    (repLoop (one p) true fuel none x).head? =
      some (x.consume (x.rest.takeWhile p) (x.rest.dropWhile p)) := by
  induction fuel generalizing x with
  | zero =>
    have hx : x.rest = [] := List.length_eq_zero_iff.1 (Nat.le_zero.1 hf)
    simp [repLoop, hx, State.consume_nil hx]
  | succ fuel ih =>
    rw [repLoop]
    cases hx : x.rest with
    | nil => simp [one, hx, State.consume_nil hx]
    | cons c r =>
      by_cases hc : p c
      · have hr : r.length ≤ fuel := by
          rw [hx, List.length_cons] at hf
          omega
        simp [one, hx, hc, ih (x := x.consume [c] r) hr, State.consume_consume]
      · simp [one, hx, hc, State.consume_nil hx]

/-- A greedy bracket expression repeated at least once first takes all it can. -/
theorem head?_run_rep_bracket {neg : Bool} {items : List ClassItem} {x : State} :
    ((Node.rep 1 none true (.bracket neg items)).run x).head? =
      let s := x.rest.takeWhile (bracketContains neg items)
      if s = [] then none
      else some (x.consume s (x.rest.dropWhile (bracketContains neg items))) := by
  have hrun : (fun x => (Node.bracket neg items).run (x.reset (Node.bracket neg items).captures)) =
      one (bracketContains neg items) := funext fun x => by simp [run_bracket, Node.captures]
  rw [run_rep, hrun]
  simp only [repeated, Option.map_none]
  cases hx : x.rest with
  | nil => simp [one, hx]
  | cons c r =>
    by_cases hc : bracketContains neg items c
    · have hr := head?_repLoop_one (p := bracketContains neg items) (x := x.consume [c] r)
        (Nat.le_refl r.length)
      simp only [State.consume_rest, State.consume_consume] at hr
      simp [one, hx, hc, hr]
    · simp [one, hx, hc]

end Ecma
