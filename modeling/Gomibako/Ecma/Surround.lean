import Gomibako.Ecma.Match

/-!
# A pattern with text around it

A character before a pattern and an escape behind it leave its tokens as they are, if it has no
capture group (`lex_surround`): what has been read at the end of the pattern is complete, and the
positions do not matter. The parser does not see the pattern as a whole, however. A term before it
joins its first alternative (`parseTokens_before`), and terms behind it join its last one
(`mem_run_surround`).
-/

namespace Ecma

/-! ## The position of a pattern -/

/-- The token of a pattern that begins `k` characters later. -/
def Token.shift (k : Nat) : Token → Token
  | .openCapture pos => .openCapture (pos + k)
  | t => t

/-- The state of the lexer in a pattern that begins `k` characters later. -/
def Mode.shift (k : Nat) : Mode → Mode
  | .paren pos => .paren (pos + k)
  | m => m

/-- What the lexer gives for a pattern that begins `k` characters later. -/
def shifted (k : Nat) (r : List Token × Mode) : List Token × Mode :=
  (r.1.map (Token.shift k), r.2.shift k)

/-- The position of a pattern matters to its tokens by the capture groups only, so without them it
may be shifted. -/
theorem map_shift_of_openPositions {ts : List Token} (h : openPositions ts = []) (k : Nat) :
    ts.map (Token.shift k) = ts := by
  induction ts with
  | nil => rfl
  | cons t ts ih =>
    cases t with
    | openCapture pos => cases h
    | _ => exact congrArg (_ :: ·) (ih h)

theorem shift_of_pending {m : Mode} (h : m.pending = []) (k : Nat) : m.shift k = m := by
  cases m with
  | paren pos => cases h
  | _ => rfl

section
variable (k pos : Nat)

theorem plainStep_shift (c : Char) :
    Mode.plainStep (pos + k) c = (Mode.plainStep pos c).map (shifted k) := by
  unfold Mode.plainStep
  split <;> rfl

/-- Inside of a bracket expression a step does not depend on the position. -/
theorem step_shift_of_inBracket {m : Mode} (hm : m.inBracket = true) (c : Char)
    (hpos : (m.shift k).step (pos + k) c = m.step pos c) :
    (m.shift k).step (pos + k) c = (m.step pos c).map (shifted k) := by
  rw [hpos]
  cases h : m.step pos c with
  | error e => rfl
  | ok r =>
    obtain ⟨ts, m'⟩ := r
    obtain ⟨hopen, hpending, -⟩ := step_of_inBracket hm h
    show _ = Except.ok (ts.map (Token.shift k), m'.shift k)
    rw [map_shift_of_openPositions hopen, shift_of_pending hpending]

/-- A step depends on the position only in the positions it gives. -/
theorem step_shift (m : Mode) (c : Char) :
    (m.shift k).step (pos + k) c = (m.step pos c).map (shifted k) := by
  cases m with
  | plain => exact plainStep_shift k pos c
  | quant min max =>
    show Mode.step (pos + k) (.quant min max) c = _
    simp only [Mode.step, plainStep_shift]
    split
    · rfl
    · cases Mode.plainStep pos c <;> rfl
  | paren p =>
    show Mode.step (pos + k) (.paren (p + k)) c = _
    simp only [Mode.step, plainStep_shift]
    split
    · rfl
    · cases Mode.plainStep pos c <;> rfl
  | parenQ =>
    show Mode.step (pos + k) .parenQ c = _
    simp only [Mode.step]
    split <;> rfl
  | brace n =>
    show Mode.step (pos + k) (.brace n) c = _
    simp only [Mode.step]
    split
    · rfl
    · rfl
    · split
      · rfl
      · split <;> rfl
  | braceMax min n =>
    show Mode.step (pos + k) (.braceMax min n) c = _
    simp only [Mode.step]
    split
    · rfl
    · split
      · split <;> rfl
      · rfl
  | esc e =>
    show Mode.step (pos + k) (.esc e) c = _
    simp only [Mode.step]
    cases e.step c with
    | error e => rfl
    | ok out => cases out <;> rfl
  | decimal n =>
    show Mode.step (pos + k) (.decimal n) c = _
    simp only [Mode.step, plainStep_shift]
    split
    · split <;> rfl
    · cases n <;> cases Mode.plainStep pos c <;> rfl
  | _ => exact step_shift_of_inBracket k pos rfl c rfl

/-- A run depends on the position only in the positions it gives. -/
theorem lexFrom_shift (m : Mode) (s : List Char) :
    lexFrom (pos + k) (m.shift k) s = (lexFrom pos m s).map (shifted k) := by
  induction s generalizing pos m with
  | nil => rfl
  | cons c s ih =>
    have hpos : pos + k + 1 = pos + 1 + k := by omega
    rw [lexFrom, lexFrom, step_shift, hpos]
    cases m.step pos c with
    | error e => rfl
    | ok r =>
      obtain ⟨ts, m'⟩ := r
      show (lexFrom (pos + 1 + k) (m'.shift k) s).map _ = _
      rw [ih]
      show _ = ((lexFrom (pos + 1) m' s).map _).map _
      cases lexFrom (pos + 1) m' s with
      | error e => rfl
      | ok r' =>
        show Except.ok (ts.map (Token.shift k) ++ r'.1.map (Token.shift k), r'.2.shift k) =
          Except.ok ((ts ++ r'.1).map (Token.shift k), r'.2.shift k)
        rw [List.map_append]

end

/-! ## What is read at the end of a pattern -/

/-- A pattern that ends here could be followed by an escape: it completes what has been read. -/
theorem lexFrom_escape {m m' : Mode} {s : List Char} {t ts : List Token} {pos : Nat}
    (hm : m.finish = .ok t) (hs : lexFrom pos .plain ('\\' :: s) = .ok (ts, m')) :
    lexFrom pos m ('\\' :: s) = .ok (t ++ ts, m') := by
  obtain ⟨t₁, m₁, t₂, h₁, h₂, rfl⟩ := lexFrom_cons_eq_ok.1 hs
  cases h₁
  refine lexFrom_cons_eq_ok.2 ⟨t, .esc .start, t₂, ?_, h₂, rfl⟩
  cases m with
  | plain | quant min max | decimal n => cases hm; rfl
  | _ => cases hm

/-- **The tokens of a pattern with text around it**: a character before it that is a token, and an
escape behind it. -/
theorem lex_surround {s s' : List Char} {c : Char} {t ts ts' : List Token} (h : lex s = .ok ts)
    (hopen : openPositions ts = []) (hc : Mode.plainStep 0 c = .ok (t, .plain))
    (hs' : ∀ pos, lexFrom pos .plain ('\\' :: s') = .ok (ts', .plain)) :
    lex (c :: (s ++ '\\' :: s')) = .ok (t ++ (ts ++ ts')) := by
  obtain ⟨t₁, m, t₂, hs, hm, rfl⟩ := lex_eq_ok.1 h
  rw [openPositions_append, List.append_eq_nil_iff] at hopen
  have hpending : m.pending = [] := by
    cases m with
    | paren pos => cases hm
    | _ => rfl
  have hshift := lexFrom_shift 1 0 .plain s
  rw [hs] at hshift
  have hs₁ : lexFrom 1 .plain s = .ok (t₁, m) := by
    refine hshift.trans ?_
    show Except.ok (t₁.map (Token.shift 1), m.shift 1) = _
    rw [map_shift_of_openPositions hopen.1, shift_of_pending hpending]
  refine lex_eq_ok.2 ⟨_, .plain, [], ?_, rfl, List.append_nil _⟩
  refine lexFrom_cons_eq_ok.2 ⟨t, .plain, _, hc, ?_, rfl⟩
  exact lexFrom_append_eq_ok.2
    ⟨t₁, m, t₂ ++ ts', hs₁, lexFrom_escape hm (hs' _), (List.append_assoc ..).symm⟩

/-! ## A term before a pattern -/

/-- The frame that differs from another one in a term `a` before its first alternative. -/
inductive Frame.Before (a : Node) : Frame → Frame → Prop where
  | current (terms : List Node) (quantifiable : Bool) :
    Before a ⟨[], terms, quantifiable⟩ ⟨[], terms ++ [a], quantifiable⟩
  | finished (alts : List Node) (b : Node) (terms : List Node) (quantifiable : Bool) :
    Before a ⟨alts ++ [b], terms, quantifiable⟩ ⟨alts ++ [.seq a b], terms, quantifiable⟩

/-- The state of the parser that differs from another one in a term before the pattern. -/
inductive PState.Before (a : Node) : PState → PState → Prop where
  | outermost {f f' : Frame} (h : f.Before a f') (opened : Nat) :
    Before a ⟨f, [], opened⟩ ⟨f', [], opened⟩
  | inner (g : Frame) (stack : List (FrameKind × Frame)) (k : FrameKind) {f f' : Frame}
    (h : f.Before a f') (opened : Nat) :
    Before a ⟨g, stack ++ [(k, f)], opened⟩ ⟨g, stack ++ [(k, f')], opened⟩

section
variable {a : Node}

theorem Frame.Before.push {f f' : Frame} (h : f.Before a f') (b : Node) (quantifiable : Bool) :
    (f.push b quantifiable).Before a (f'.push b quantifiable) := by
  cases h with
  | current terms q => exact .current (b :: terms) quantifiable
  | finished alts c terms q => exact .finished alts c (b :: terms) quantifiable

/-- Outside of all parentheses the term is in the frame. -/
theorem PState.Before.exists_frame {f : Frame} {n : Nat} {st' : PState}
    (h : PState.Before a ⟨f, [], n⟩ st') : ∃ f', f.Before a f' ∧ st' = ⟨f', [], n⟩ := by
  generalize hst : PState.mk f [] n = st at h
  cases h with
  | outermost h _ =>
    cases hst
    exact ⟨_, h, rfl⟩
  | inner _ stack _ _ _ =>
    have hstack : [] = stack ++ [_] := congrArg PState.stack hst
    exact absurd hstack.symm (List.append_ne_nil_of_right_ne_nil _ (List.cons_ne_nil _ _))

theorem PState.Before.push {st st' : PState} (h : st.Before a st') (b : Node)
    (quantifiable : Bool) : (st.push b quantifiable).Before a (st'.push b quantifiable) := by
  cases h with
  | outermost h n => exact .outermost (h.push b quantifiable) n
  | inner g stack k h n => exact .inner (g.push b quantifiable) stack k h n

theorem PState.Before.enter {st st' : PState} (h : st.Before a st') (kind : FrameKind) :
    (st.enter kind).Before a (st'.enter kind) := by
  cases h with
  | outermost h n => exact .inner .init [] kind h n
  | inner g stack k h n => exact .inner .init ((kind, g) :: stack) k h n

/-- The number of groups is the same, and may be changed. -/
theorem PState.Before.opened {st st' : PState} (h : st.Before a st') :
    st'.opened = st.opened ∧
      ∀ n, PState.Before a { st with opened := n } { st' with opened := n } := by
  cases h with
  | outermost h n => exact ⟨rfl, fun n => .outermost h n⟩
  | inner g stack k h n => exact ⟨rfl, fun n => .inner g stack k h n⟩

/-- The alternative that is finished keeps the term before it. -/
theorem Frame.Before.alt {f f' : Frame} (h : f.Before a f') :
    Frame.Before a ⟨Node.seqs f.terms.reverse :: f.alts, [], false⟩
      ⟨Node.seqs f'.terms.reverse :: f'.alts, [], false⟩ := by
  cases h with
  | current terms q =>
    rw [List.reverse_append]
    exact .finished [] (Node.seqs terms.reverse) [] false
  | finished alts b terms q => exact .finished (Node.seqs terms.reverse :: alts) b [] false

/-- A quantifier takes the last term, which is not the one before the pattern. -/
theorem Frame.Before.quant {b : Node} {alts terms : List Node} {q : Bool} {f' : Frame}
    (h : Frame.Before a ⟨alts, b :: terms, q⟩ f') : ∃ terms', f'.quantifiable = q ∧
      f'.terms = b :: terms' ∧
        ∀ c, Frame.Before a ⟨alts, c :: terms, false⟩ ⟨f'.alts, c :: terms', false⟩ := by
  cases h with
  | current _ _ => exact ⟨terms ++ [a], rfl, rfl, fun c => .current (c :: terms) false⟩
  | finished alts d _ _ => exact ⟨terms, rfl, rfl, fun c => .finished alts d (c :: terms) false⟩

/-- **A step of the parser keeps the term before the pattern.** -/
theorem PState.Before.step {st st' st₁ : PState} (h : st.Before a st') {t : Token}
    (hstep : st.step t = .ok st₁) : ∃ st₁', st'.step t = .ok st₁' ∧ st₁.Before a st₁' := by
  cases t with
  | char c => cases hstep; exact ⟨_, rfl, h.push _ _⟩
  | any => cases hstep; exact ⟨_, rfl, h.push _ _⟩
  | bracket neg items => cases hstep; exact ⟨_, rfl, h.push _ _⟩
  | backref n => cases hstep; exact ⟨_, rfl, h.push _ _⟩
  | bol => cases hstep; exact ⟨_, rfl, h.push _ _⟩
  | eol => cases hstep; exact ⟨_, rfl, h.push _ _⟩
  | wordBoundary neg => cases hstep; exact ⟨_, rfl, h.push _ _⟩
  | openCapture pos =>
    cases hstep
    refine ⟨_, rfl, ?_⟩
    rw [h.opened.1]
    exact (h.enter _).opened.2 _
  | openGroup => cases hstep; exact ⟨_, rfl, h.enter .group⟩
  | openLook neg => cases hstep; exact ⟨_, rfl, h.enter (.look neg)⟩
  | close =>
    cases h with
    | outermost h n => cases hstep
    | inner g stack k h n =>
      cases stack with
      | nil => cases hstep; exact ⟨_, rfl, .outermost (h.push _ _) n⟩
      | cons e stack =>
        obtain ⟨k', f⟩ := e
        cases hstep
        exact ⟨_, rfl, .inner _ stack k h n⟩
  | alt =>
    cases hstep
    refine ⟨_, rfl, ?_⟩
    cases h with
    | outermost h n => exact .outermost h.alt n
    | inner g stack k h n => exact .inner _ stack k h n
  | quant min max greedy =>
    obtain ⟨⟨alts, terms, q⟩, stack, n⟩ := st
    cases q with
    | false => cases hstep
    | true =>
      cases terms with
      | nil => cases hstep
      | cons b terms =>
        cases hstep
        cases h with
        | @outermost _ f' h _ =>
          obtain ⟨terms', hq, hterms, hbefore⟩ := h.quant
          refine ⟨_, ?_, .outermost (hbefore (.rep min max greedy b)) n⟩
          simp only [PState.step, hq, hterms]
        | inner _ stack k h _ => exact ⟨_, rfl, .inner _ stack k h n⟩

/-- A run of the parser keeps the term before the pattern. -/
theorem parseTokens_before {st st' st₁ : PState} (h : st.Before a st') {ts : List Token}
    (hrun : parseTokens st ts = .ok st₁) :
    ∃ st₁', parseTokens st' ts = .ok st₁' ∧ st₁.Before a st₁' := by
  induction ts generalizing st st' with
  | nil =>
    cases hrun
    exact ⟨st', rfl, h⟩
  | cons t ts ih =>
    rw [parseTokens, Except.bind_eq_ok_iff] at hrun
    obtain ⟨st₂, hstep, hrun⟩ := hrun
    obtain ⟨st₂', hstep', h'⟩ := h.step hstep
    obtain ⟨st₁', hrun', h''⟩ := ih h' hrun
    exact ⟨st₁', by rw [parseTokens, hstep']; exact hrun', h''⟩

end

/-! ## The alternatives of a pattern -/

/-- The last alternative of a disjunction, and the tree itself if it is none. -/
def Node.lastAlt : Node → Node
  | .alt _ b => b.lastAlt
  | a => a

theorem Node.lastAlt_seqs (as : List Node) : (Node.seqs as).lastAlt = Node.seqs as := by
  cases as <;> rfl

theorem Node.lastAlt_alts (a : Node) (bs : List Node) (b : Node) :
    (Node.alts a (bs ++ [b])).lastAlt = b.lastAlt := by
  induction bs generalizing a with
  | nil => rfl
  | cons c bs ih => exact ih c

/-- A disjunction matches exactly what one of its alternatives matches. -/
theorem mem_run_alts {a : Node} {bs : List Node} {x y : State} :
    y ∈ (Node.alts a bs).run x ↔ y ∈ a.run x ∨ ∃ b ∈ bs, y ∈ b.run x := by
  induction bs generalizing a with
  | nil => simp [Node.alts]
  | cons b bs ih => simp [Node.alts, mem_run_alt, ih]

namespace Frame

variable {f : Frame} {x y : State}

/-- The last alternative of what has been read is the current one, with its terms in order. -/
theorem lastAlt_node (f : Frame) : f.node.lastAlt = Node.seqs f.terms.reverse := by
  rw [node]
  split
  · exact Node.lastAlt_seqs _
  · rw [Node.lastAlt_alts, Node.lastAlt_seqs]

/-- The matches of a frame are those of the finished alternatives and of the current one. -/
theorem mem_run_node : y ∈ f.node.run x ↔
    (∃ a ∈ f.alts, y ∈ a.run x) ∨ y ∈ (Node.seqs f.terms.reverse).run x := by
  have hmem : ∀ a, a ∈ f.alts ↔ a ∈ f.alts.reverse := fun a => List.mem_reverse.symm
  simp only [hmem]
  rw [node]
  split
  · next h => simp [h]
  · next a as h =>
    rw [mem_run_alts, h]
    simp only [List.mem_append, List.mem_cons, List.not_mem_nil, or_false, or_and_right,
      exists_or, exists_eq_left, or_assoc]

/-- **The matches of a pattern with a caret before it and terms behind it**: those of the finished
alternatives, and those of the last one with the terms behind it. -/
theorem mem_run_surround {f' : Frame} (h : f.Before .bol f') (hx : x.prev = []) (tail : List Node)
    (q : Bool) : y ∈ (Frame.mk f'.alts (tail.reverse ++ f'.terms) q).node.run x ↔
      (∃ a ∈ f.alts, y ∈ a.run x) ∨
        ∃ z ∈ (Node.seqs f.terms.reverse).run x, y ∈ (Node.seqs tail).run z := by
  have hbol : ∀ (a : Node) z, z ∈ (Node.seq .bol a).run x ↔ z ∈ a.run x := fun a z => by
    simp [mem_run_seq, mem_run_bol, hx]
  rw [mem_run_node]
  cases h with
  | current terms _ =>
    have hterms : (tail.reverse ++ (terms ++ [Node.bol])).reverse =
        .bol :: (terms.reverse ++ tail) := by simp
    simp only [hterms, Node.seqs, hbol, mem_run_seqs_append]
  | finished alts b terms _ =>
    have hterms : (tail.reverse ++ terms).reverse = terms.reverse ++ tail := by simp
    simp only [hterms, mem_run_seqs_append, List.mem_append, List.mem_singleton, or_and_right,
      exists_or, exists_eq_left, hbol]

end Frame

end Ecma
