import Gomibako.Ecma.Syntax
import Gomibako.Lib.Scanner

/-!
# Lexing a pattern

The lexer reads a pattern one character at a time. Its state between two characters is a `Mode`;
`Mode.step` reads a character and emits the tokens it completes, and `lexFrom` runs it over a text.
Because a run over an append is a run over both parts (`lexFrom_append_eq_ok`), the tokens of a
pattern that is put together from pieces are read off piece by piece.
-/

namespace Ecma

/-! ## Bracket expressions -/

/-- The atom that was read last in a bracket expression: a character may still begin a range, and a
dash after it, or after a class, awaits its meaning. -/
inductive LastAtom where
  | none
  | char (c : Char)
  | charDash (c : Char)
  | cls
  | clsDash
deriving DecidableEq, Repr

/-- A bracket expression that is being read, its complete items latest first. -/
structure Bracket where
  neg : Bool
  items : List ClassItem
  last : LastAtom
deriving DecidableEq, Repr

namespace Bracket

/-- A character is read as an atom of a bracket expression; behind a dash it ends a range, whose
ends must be in order. -/
def addChar (b : Bracket) (c : Char) : Except Error Bracket :=
  match b.last with
  | .none | .cls => .ok { b with last := .char c }
  | .char d => .ok { b with items := .single d :: b.items, last := .char c }
  | .charDash d =>
    if d ≤ c then .ok { b with items := .range d c :: b.items, last := .none } else .error .range
  | .clsDash => .error .range

/-- A class is read; it neither begins nor ends a range. -/
def addItem (b : Bracket) (i : ClassItem) : Except Error Bracket :=
  match b.last with
  | .none | .cls => .ok { b with items := i :: b.items, last := .cls }
  | .char d => .ok { b with items := i :: .single d :: b.items, last := .cls }
  | .charDash _ | .clsDash => .error .range

/-- A dash is read: an atom where no range can begin, else the middle of a range. -/
def addDash (b : Bracket) : Except Error Bracket :=
  match b.last with
  | .char d => .ok { b with last := .charDash d }
  | .cls => .ok { b with last := .clsDash }
  | _ => b.addChar '-'

/-- The items once the bracket is closed: a dash that ended up last is an atom. -/
def close (b : Bracket) : List ClassItem :=
  (match b.last with
  | .none | .cls => b.items
  | .char d => .single d :: b.items
  | .charDash d => .single '-' :: .single d :: b.items
  | .clsDash => .single '-' :: b.items).reverse

end Bracket

/-! ## Escapes -/

/-- Where the lexer is in an escape: behind the backslash, behind `\c`, or before the last `left`
hexadecimal digits. -/
inductive Esc where
  | start
  | ctl
  | hex (left acc : Nat)
deriving DecidableEq, Repr

/-- What an escape stands for, or that it goes on. -/
inductive EscOut where
  | more (e : Esc)
  | char (c : Char)
  | cls (neg : Bool) (k : CharClass)
  | boundary (neg : Bool)
  | digit (d : Nat)
deriving DecidableEq, Repr

/-- The value of a hexadecimal digit, and nothing for a character that is none. -/
def hexVal (c : Char) : Option Nat :=
  let n := c.toNat
  if 48 ≤ n && n ≤ 57 then some (n - 48)
  else if 65 ≤ n && n ≤ 70 then some (n - 55)
  else if 97 ≤ n && n ≤ 102 then some (n - 87)
  else none

/-- The value of a decimal digit, and nothing for a character that is none. -/
def decVal (c : Char) : Option Nat :=
  let n := c.toNat
  if 48 ≤ n && n ≤ 57 then some (n - 48) else none

/-- The escape goes on with a character. Every character that starts no other escape stands for
itself; a `\u` escape whose value is more than a `char` holds is an error. -/
def Esc.step : Esc → Char → Except Error EscOut
  | .start, c =>
    match c with
    | 'b' => .ok (.boundary false)
    | 'B' => .ok (.boundary true)
    | 'd' => .ok (.cls false .digit)
    | 'D' => .ok (.cls true .digit)
    | 's' => .ok (.cls false .space)
    | 'S' => .ok (.cls true .space)
    | 'w' => .ok (.cls false .word)
    | 'W' => .ok (.cls true .word)
    | 'f' => .ok (.char '\x0c')
    | 'n' => .ok (.char '\x0a')
    | 'r' => .ok (.char '\x0d')
    | 't' => .ok (.char '\x09')
    | 'v' => .ok (.char '\x0b')
    | 'c' => .ok (.more .ctl)
    | 'x' => .ok (.more (.hex 2 0))
    | 'u' => .ok (.more (.hex 4 0))
    | c =>
      match decVal c with
      | some d => .ok (.digit d)
      | none => .ok (.char c)
  | .ctl, c =>
    if CharClass.alpha.contains c then .ok (.char (Char.ofNat (c.toNat % 32))) else .error .escape
  | .hex left acc, c =>
    match hexVal c with
    | none => .error .escape
    | some d =>
      if 1 < left then .ok (.more (.hex (left - 1) (16 * acc + d)))
      else if 16 * acc + d ≤ 255 then .ok (.char (Char.ofNat (16 * acc + d)))
      else .error .escape

/-! ## The lexer -/

/-- The state of the lexer between two characters: what has been read of a token that is not
complete. -/
inductive Mode where
  /-- Between two tokens. -/
  | plain
  /-- Behind a quantifier, which a question mark would make lazy. -/
  | quant (min : Nat) (max : Option Nat)
  /-- Behind a parenthesis at `pos`, which captures unless a question mark follows. -/
  | paren (pos : Nat)
  | parenQ
  /-- In a brace: its first number, or its second. -/
  | brace (n : Option Nat)
  | braceMax (min : Nat) (n : Option Nat)
  | esc (e : Esc)
  /-- In a decimal escape. -/
  | decimal (n : Nat)
  /-- Behind the opening bracket, and further in. -/
  | bracketStart
  | bracket (b : Bracket)
  | bracketEsc (b : Bracket) (e : Esc)
  | bracketZero (b : Bracket)
  | bracketOpen (b : Bracket)
  /-- In a class, collating element or equivalence class; its name read so far, latest first. -/
  | bracketName (b : Bracket) (kind : Char) (name : List Char)
  | bracketNameEnd (b : Bracket) (kind : Char) (name : List Char)
deriving DecidableEq, Repr

namespace Mode

/-- A character outside brackets and escapes, at position `pos`: it is a token, or it starts one. -/
def plainStep (pos : Nat) (c : Char) : Except Error (List Token × Mode) :=
  match c with
  | '^' => .ok ([.bol], plain)
  | '$' => .ok ([.eol], plain)
  | '.' => .ok ([.any], plain)
  | '|' => .ok ([.alt], plain)
  | '\\' => .ok ([], esc .start)
  | '[' => .ok ([], bracketStart)
  | '(' => .ok ([], paren pos)
  | ')' => .ok ([.close], plain)
  | '*' => .ok ([], quant 0 none)
  | '+' => .ok ([], quant 1 none)
  | '?' => .ok ([], quant 0 (some 1))
  | '\x7b' => .ok ([], brace none)
  | ']' => .error .brack
  | '\x7d' => .error .brace
  | c => .ok ([.char c], plain)

/-- The token of a decimal escape: `\0` is the NUL character. -/
def decimalToken : Nat → Token
  | 0 => .char '\x00'
  | n => .backref n

/-- A character in a bracket expression: it closes it, starts a named class or an escape in it, or
is an atom. -/
def bracketStep (b : Bracket) (c : Char) : Except Error (List Token × Mode) :=
  match c with
  | ']' => .ok ([.bracket b.neg b.close], plain)
  | '\\' => .ok ([], bracketEsc b .start)
  | '[' => .ok ([], bracketOpen b)
  | '-' => b.addDash.map fun b => ([], bracket b)
  | c => (b.addChar c).map fun b => ([], bracket b)

/-- The end of a named item of a bracket expression. -/
def nameItem (b : Bracket) (kind : Char) (name : List Char) : Except Error Bracket :=
  match kind with
  | ':' =>
    match CharClass.ofName name with
    | some k => b.addItem (.cls false k)
    | none => .error .ctype
  | '=' =>
    match collate name with
    | some c => b.addItem (.single c)
    | none => .error .collate
  | _ =>
    match collate name with
    | some c => b.addChar c
    | none => .error .collate

/-- The lexer reads the character `c` at position `pos`: the tokens it completes and the next
state. -/
def step (pos : Nat) : Mode → Char → Except Error (List Token × Mode)
  | plain, c => plainStep pos c
  | quant min max, c =>
    if c = '?' then .ok ([.quant min max false], plain)
    else (plainStep pos c).map fun r => (.quant min max true :: r.1, r.2)
  | paren p, c =>
    if c = '?' then .ok ([], parenQ)
    else (plainStep pos c).map fun r => (.openCapture p :: r.1, r.2)
  | parenQ, c =>
    match c with
    | ':' => .ok ([.openGroup], plain)
    | '=' => .ok ([.openLook false], plain)
    | '!' => .ok ([.openLook true], plain)
    | _ => .error .paren
  | brace n, c =>
    match decVal c, n with
    | some d, n => .ok ([], brace (some (10 * n.getD 0 + d)))
    | none, none => .error .badbrace
    | none, some min =>
      if c = ',' then .ok ([], braceMax min none)
      else if c = '\x7d' then .ok ([], quant min (some min))
      else .error .badbrace
  | braceMax min n, c =>
    match decVal c with
    | some d => .ok ([], braceMax min (some (10 * n.getD 0 + d)))
    | none =>
      if c = '\x7d' then
        if n.all (min ≤ ·) then .ok ([], quant min n) else .error .badbrace
      else .error .badbrace
  | esc e, c =>
    (e.step c).map fun
      | .more e => ([], esc e)
      | .char c => ([.char c], plain)
      | .cls neg k => ([.bracket false [.cls neg k]], plain)
      | .boundary neg => ([.wordBoundary neg], plain)
      | .digit d => ([], decimal d)
  | decimal n, c =>
    match decVal c with
    | some d => if n = 0 then .error .escape else .ok ([], decimal (10 * n + d))
    | none => (plainStep pos c).map fun r => (decimalToken n :: r.1, r.2)
  | bracketStart, c =>
    if c = '^' then .ok ([], bracket ⟨true, [], .none⟩) else bracketStep ⟨false, [], .none⟩ c
  | bracket b, c => bracketStep b c
  | bracketEsc b e, c =>
    (e.step c).bind fun
      | .more e => .ok ([], bracketEsc b e)
      | .char c => (b.addChar c).map fun b => ([], bracket b)
      | .cls neg k => (b.addItem (.cls neg k)).map fun b => ([], bracket b)
      | .boundary neg => (b.addChar (if neg then 'B' else '\x08')).map fun b => ([], bracket b)
      | .digit d => if d = 0 then .ok ([], bracketZero b) else .error .escape
  | bracketZero b, c =>
    match decVal c with
    | some _ => .error .escape
    | none => (b.addChar '\x00').bind fun b => bracketStep b c
  | bracketOpen b, c =>
    if c = ':' ∨ c = '.' ∨ c = '=' then .ok ([], bracketName b c [])
    else (b.addChar '[').bind fun b => bracketStep b c
  | bracketName b kind name, c =>
    if c = kind then .ok ([], bracketNameEnd b kind name)
    else .ok ([], bracketName b kind (c :: name))
  | bracketNameEnd b kind name, c =>
    if c = ']' then (nameItem b kind name.reverse).map fun b => ([], bracket b)
    else if c = kind then .ok ([], bracketNameEnd b kind (kind :: name))
    else .ok ([], bracketName b kind (c :: kind :: name))

/-- The end of the pattern completes the last token, or shows that something was left open. -/
def finish : Mode → Except Error (List Token)
  | plain => .ok []
  | quant min max => .ok [.quant min max true]
  | decimal n => .ok [decimalToken n]
  | paren _ | parenQ => .error .paren
  | brace _ | braceMax _ _ => .error .brace
  | esc _ => .error .escape
  | _ => .error .brack

/-- The lexer is inside a bracket expression, where most characters are atoms. -/
def inBracket : Mode → Bool
  | bracketStart | bracket _ | bracketEsc _ _ | bracketZero _ | bracketOpen _
  | bracketName _ _ _ | bracketNameEnd _ _ _ => true
  | _ => false

end Mode

/-- The lexer from the state `m` over the text `s` that begins at position `pos`. -/
def lexFrom (pos : Nat) (m : Mode) : List Char → Except Error (List Token × Mode)
  | [] => .ok ([], m)
  | c :: s =>
    (m.step pos c).bind fun r =>
      (lexFrom (pos + 1) r.2 s).map fun r' => (r.1 ++ r'.1, r'.2)

/-- The tokens of a pattern, read character by character from the start. -/
def lex (s : List Char) : Except Error (List Token) :=
  (lexFrom 0 .plain s).bind fun r => r.2.finish.map (r.1 ++ ·)

/-! ## Runs of the lexer -/

/-- The run over a non-empty text starts with one step. -/
theorem lexFrom_cons_eq_ok {pos : Nat} {m m' : Mode} {c : Char} {s : List Char}
    {ts : List Token} :
    lexFrom pos m (c :: s) = .ok (ts, m') ↔
      ∃ t₁ m₁ t₂, m.step pos c = .ok (t₁, m₁) ∧ lexFrom (pos + 1) m₁ s = .ok (t₂, m') ∧
        t₁ ++ t₂ = ts := by
  simp only [lexFrom, Except.bind_eq_ok_iff, Except.map_eq_ok_iff, Prod.exists, Prod.mk.injEq]
  constructor
  · rintro ⟨t₁, m₁, h₁, t₂, m₂, h₂, ht, rfl⟩
    exact ⟨t₁, m₁, t₂, h₁, h₂, ht⟩
  · rintro ⟨t₁, m₁, t₂, h₁, h₂, ht⟩
    exact ⟨t₁, m₁, h₁, t₂, m', h₂, ht, rfl⟩

/-- A run over an append is a run over both parts. -/
theorem lexFrom_append_eq_ok {pos : Nat} {m m' : Mode} {s s' : List Char} {ts : List Token} :
    lexFrom pos m (s ++ s') = .ok (ts, m') ↔
      ∃ t₁ m₁ t₂, lexFrom pos m s = .ok (t₁, m₁) ∧
        lexFrom (pos + s.length) m₁ s' = .ok (t₂, m') ∧ t₁ ++ t₂ = ts := by
  induction s generalizing pos m ts with
  | nil => simp [lexFrom]
  | cons c s ih =>
    have hlen : pos + 1 + s.length = pos + (c :: s).length := by
      rw [List.length_cons]
      omega
    rw [List.cons_append, lexFrom_cons_eq_ok]
    constructor
    · rintro ⟨t₁, m₁, t, hc, hs, rfl⟩
      obtain ⟨t₂, m₂, t₃, h₂, h₃, rfl⟩ := ih.1 hs
      exact ⟨t₁ ++ t₂, m₂, t₃, lexFrom_cons_eq_ok.2 ⟨t₁, m₁, t₂, hc, h₂, rfl⟩, hlen ▸ h₃,
        List.append_assoc ..⟩
    · rintro ⟨t, m₂, t₃, h, h₃, rfl⟩
      obtain ⟨t₁, m₁, t₂, hc, h₂, rfl⟩ := lexFrom_cons_eq_ok.1 h
      exact ⟨t₁, m₁, t₂ ++ t₃, hc, ih.2 ⟨t₂, m₂, t₃, h₂, hlen ▸ h₃, rfl⟩,
        (List.append_assoc ..).symm⟩

/-- The tokens of a pattern are those of the run and of its end. -/
theorem lex_eq_ok {s : List Char} {ts : List Token} :
    lex s = .ok ts ↔ ∃ t₁ m t₂, lexFrom 0 .plain s = .ok (t₁, m) ∧ m.finish = .ok t₂ ∧
      t₁ ++ t₂ = ts := by
  simp only [lex, Except.bind_eq_ok_iff, Except.map_eq_ok_iff, Prod.exists]
  constructor
  · rintro ⟨t₁, m, h₁, t₂, h₂, ht⟩
    exact ⟨t₁, m, t₂, h₁, h₂, ht⟩
  · rintro ⟨t₁, m, t₂, h₁, h₂, ht⟩
    exact ⟨t₁, m, h₁, t₂, h₂, ht⟩

/-- The opening parentheses of capture groups among tokens, by position. -/
def openPositions (ts : List Token) : List Nat :=
  ts.filterMap fun
    | .openCapture p => some p
    | _ => none

@[simp] theorem openPositions_append (ts ts' : List Token) :
    openPositions (ts ++ ts') = openPositions ts ++ openPositions ts' := by
  simp [openPositions]

/-! ## Which parentheses open groups -/

/-- The position of a parenthesis that opens a group unless a question mark follows. -/
def Mode.pending : Mode → List Nat
  | paren p => [p]
  | _ => []

/-- Outside of escapes and brackets no character opens a group by itself. -/
theorem plainStep_openPositions {pos : Nat} {m' : Mode} {c : Char} {ts : List Token}
    (h : Mode.plainStep pos c = .ok (ts, m')) : openPositions ts = [] := by
  unfold Mode.plainStep at h
  split at h <;> cases h <;> rfl

theorem plainStep_pending {pos : Nat} {m' : Mode} {c : Char} {ts : List Token}
    (h : Mode.plainStep pos c = .ok (ts, m')) :
    m'.pending = [] ∨ c = '(' ∧ m'.pending = [pos] := by
  unfold Mode.plainStep at h
  split at h <;> cases h <;> simp [Mode.pending]

theorem bracketStep_spec {b : Bracket} {m' : Mode} {c : Char} {ts : List Token}
    (h : Mode.bracketStep b c = .ok (ts, m')) :
    openPositions ts = [] ∧ m'.pending = [] ∧ (c ≠ ']' → m'.inBracket = true) := by
  unfold Mode.bracketStep at h
  split at h <;> simp only [Except.map_eq_ok_iff, Except.ok.injEq, Prod.mk.injEq] at h
  all_goals grind [openPositions, Mode.pending, Mode.inBracket]

/-- A step in a bracket expression opens no group, and only a closing bracket leaves it. -/
theorem step_of_inBracket {pos : Nat} {m m' : Mode} {c : Char} {ts : List Token}
    (hm : m.inBracket = true) (h : m.step pos c = .ok (ts, m')) :
    openPositions ts = [] ∧ m'.pending = [] ∧ (c ≠ ']' → m'.inBracket = true) := by
  cases m with
  | bracketStart =>
    rw [Mode.step] at h
    split at h
    · cases h
      simp [openPositions, Mode.pending, Mode.inBracket]
    · exact bracketStep_spec h
  | bracket b => exact bracketStep_spec h
  | bracketEsc b e =>
    rw [Mode.step, Except.bind_eq_ok_iff] at h
    obtain ⟨a, -, h⟩ := h
    cases a <;> simp only [Except.map_eq_ok_iff, Except.ok.injEq, Prod.mk.injEq] at h
    all_goals grind [openPositions, Mode.pending, Mode.inBracket]
  | bracketZero b =>
    rw [Mode.step] at h
    split at h
    · cases h
    · obtain ⟨b', -, h⟩ := Except.bind_eq_ok_iff.1 h
      exact bracketStep_spec h
  | bracketOpen b =>
    rw [Mode.step] at h
    split at h
    · cases h
      simp [openPositions, Mode.pending, Mode.inBracket]
    · obtain ⟨b', -, h⟩ := Except.bind_eq_ok_iff.1 h
      exact bracketStep_spec h
  | bracketName b kind name =>
    rw [Mode.step] at h
    split at h <;> cases h <;> simp [openPositions, Mode.pending, Mode.inBracket]
  | bracketNameEnd b kind name =>
    rw [Mode.step] at h
    split at h
    · simp only [Except.map_eq_ok_iff, Prod.mk.injEq] at h
      obtain ⟨b', -, rfl, rfl⟩ := h
      simp [openPositions, Mode.pending, Mode.inBracket]
    · split at h <;> cases h <;> simp [openPositions, Mode.pending, Mode.inBracket]
  | _ => cases hm

/-- A character completes a pending parenthesis, which opens a group unless the character is a
question mark; a parenthesis is pending right behind it. -/
theorem step_openPositions {pos : Nat} {m m' : Mode} {c : Char} {ts : List Token}
    (h : m.step pos c = .ok (ts, m')) :
    openPositions ts = (if c = '?' then [] else m.pending) ∧
      (m'.pending = [] ∨ c = '(' ∧ m'.pending = [pos]) := by
  have hnil : m.pending = [] → openPositions ts = [] →
      openPositions ts = (if c = '?' then [] else m.pending) := fun hm ht => by
    rw [hm, ht, ite_self]
  cases m with
  | plain => exact ⟨hnil rfl (plainStep_openPositions h), plainStep_pending h⟩
  | quant min max =>
    rw [Mode.step] at h
    split at h
    · cases h
      exact ⟨hnil rfl rfl, .inl rfl⟩
    · obtain ⟨⟨t, m⟩, hp, heq⟩ := Except.map_eq_ok_iff.1 h
      cases heq
      exact ⟨hnil rfl (plainStep_openPositions hp :), plainStep_pending hp⟩
  | paren p =>
    rw [Mode.step] at h
    split at h
    · next hc =>
      cases h
      exact ⟨by rw [if_pos hc]; rfl, .inl rfl⟩
    · next hc =>
      obtain ⟨⟨t, m⟩, hp, heq⟩ := Except.map_eq_ok_iff.1 h
      cases heq
      rw [if_neg hc]
      exact ⟨congrArg (p :: ·) (plainStep_openPositions hp), plainStep_pending hp⟩
  | parenQ =>
    simp only [Mode.step] at h
    split at h <;> cases h <;> exact ⟨hnil rfl rfl, .inl rfl⟩
  | brace n =>
    simp only [Mode.step] at h
    split at h
    · cases h
      exact ⟨hnil rfl rfl, .inl rfl⟩
    · cases h
    · split at h
      · cases h
        exact ⟨hnil rfl rfl, .inl rfl⟩
      · split at h <;> cases h
        exact ⟨hnil rfl rfl, .inl rfl⟩
  | braceMax min n =>
    simp only [Mode.step] at h
    split at h
    · cases h
      exact ⟨hnil rfl rfl, .inl rfl⟩
    · split at h
      · split at h <;> cases h
        exact ⟨hnil rfl rfl, .inl rfl⟩
      · cases h
  | esc e =>
    obtain ⟨a, -, heq⟩ := Except.map_eq_ok_iff.1 h
    cases a <;> cases heq <;> exact ⟨hnil rfl rfl, .inl rfl⟩
  | decimal n =>
    rw [Mode.step] at h
    split at h
    · split at h <;> cases h
      exact ⟨hnil rfl rfl, .inl rfl⟩
    · obtain ⟨⟨t, m⟩, hp, heq⟩ := Except.map_eq_ok_iff.1 h
      cases heq
      have ht : openPositions (Mode.decimalToken n :: t) = openPositions t := by
        cases n <;> rfl
      exact ⟨hnil rfl (ht.trans (plainStep_openPositions hp)), plainStep_pending hp⟩
  | _ =>
    obtain ⟨h₁, h₂, -⟩ := step_of_inBracket rfl h
    exact ⟨hnil rfl h₁, .inl h₂⟩

/-- A parenthesis outside of a bracket expression is pending, unless it is escaped. -/
theorem step_paren {pos : Nat} {m m' : Mode} {ts : List Token} (hm : m.inBracket = false)
    (h : m.step pos '(' = .ok (ts, m')) : m' = .paren pos ∨ m' = .plain := by
  cases m with
  | plain => cases h; exact .inl rfl
  | quant min max => cases h; exact .inl rfl
  | paren p => cases h; exact .inl rfl
  | decimal n => cases h; exact .inl rfl
  | parenQ => cases h
  | brace n => cases n <;> cases h
  | braceMax min n => cases h
  | esc e =>
    cases e with
    | start => cases h; exact .inr rfl
    | ctl => cases h
    | hex left acc => cases h
  | _ => cases hm

/-- The end of a pattern opens no group: what it completes is a quantifier or a decimal escape. -/
theorem finish_openPositions {m : Mode} {ts : List Token} (h : m.finish = .ok ts) :
    openPositions ts = [] := by
  cases m with
  | plain | quant min max => cases h; rfl
  | decimal n => cases n <;> cases h <;> rfl
  | _ => cases h

/-- A text without parentheses opens no group unless one is pending. -/
theorem lexFrom_openPositions_of_not_mem {pos : Nat} {m m' : Mode} {s : List Char}
    {ts : List Token} (hs : '(' ∉ s) (hm : m.pending = []) (h : lexFrom pos m s = .ok (ts, m')) :
    openPositions ts = [] ∧ m'.pending = [] := by
  induction s generalizing pos m ts with
  | nil =>
    cases h
    exact ⟨rfl, hm⟩
  | cons c s ih =>
    obtain ⟨t₁, m₁, t₂, h₁, h₂, rfl⟩ := lexFrom_cons_eq_ok.1 h
    obtain ⟨ht, hp⟩ := step_openPositions h₁
    rw [hm, ite_self] at ht
    have hm₁ : m₁.pending = [] :=
      hp.resolve_right fun hc => hs (hc.1 ▸ List.mem_cons_self)
    obtain ⟨ht₂, hm'⟩ := ih (fun hc => hs (.tail _ hc)) hm₁ h₂
    exact ⟨by rw [openPositions_append, ht, ht₂]; rfl, hm'⟩

/-- In a bracket expression no token is pending: it becomes one at the closing bracket. -/
theorem Mode.pending_of_inBracket {m : Mode} (hm : m.inBracket = true) : m.pending = [] := by
  cases m <;> first | rfl | cases hm

/-- A text without closing brackets stays in a bracket expression. -/
theorem lexFrom_of_inBracket {pos : Nat} {m m' : Mode} {s : List Char} {ts : List Token}
    (hs : ']' ∉ s) (hm : m.inBracket = true) (h : lexFrom pos m s = .ok (ts, m')) :
    openPositions ts = [] ∧ m'.inBracket = true := by
  induction s generalizing pos m ts with
  | nil =>
    cases h
    exact ⟨rfl, hm⟩
  | cons c s ih =>
    obtain ⟨t₁, m₁, t₂, h₁, h₂, rfl⟩ := lexFrom_cons_eq_ok.1 h
    obtain ⟨ht, -, hin⟩ := step_of_inBracket hm h₁
    obtain ⟨ht₂, hm'⟩ := ih (fun hc => hs (.tail _ hc)) (hin fun hc => hs (hc ▸ .head _)) h₂
    exact ⟨by rw [openPositions_append, ht, ht₂]; rfl, hm'⟩

end Ecma
