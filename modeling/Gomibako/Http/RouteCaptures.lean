import Gomibako.Http.RoutePath

/-!
# Captures and keys

The keys of a route are the components of its path in order, and `match` stores the text of the
group `i + 1` under the key `i`. This is the group that was inserted for the component `i` only if
the literal text of the path opens no group of its own before it and no component before it got into
a bracket expression, where its parentheses are plain characters. `scan` finds both in a path, and
`captures_aligned_iff` says from them when the captures and the keys of a route are aligned.
-/

namespace Gomibako

open Ecma (Regex MatchResults Mode Token)

/-! ## The inserted groups -/

/-- The positions, in the pattern, of the capturing parentheses that are inserted for the
components. -/
def insertedFrom (pos : Nat) : List Piece → List Nat
  | [] => []
  | .lit _ :: ps => insertedFrom (pos + 1) ps
  | .comp _ :: ps => (pos + 3) :: insertedFrom (pos + replaceRe.length) ps

/-- The positions of the groups inserted for the components of a path. -/
def insertedGroups (path : Str) : List Nat := insertedFrom 1 (pieces path)

/-- The match of a URI has as many groups as there are keys, and what `match` stores under a name is
the text of the group that was inserted for the first component of that name. -/
structure CapturesAligned {H : Type _} (path : Str) (r : Route H) (uri : CStr)
    (result : MatchResults) : Prop where
  groupCount : result.groups.length = r.keys.length
  stored : ∃ m, r.match uri = .ok (some m) ∧
    ∀ i name, r.keys[i]? = some name → name ∉ r.keys.take i →
      m.find name = some (result.str (i + 1)) ∧ r.path.groups[i]? = (insertedGroups path)[i]?

/-! ## Scanning a path -/

/-- What concerns the groups of a path: a parenthesis of its literal text that opens a capture
group, or a component, the parenthesis inserted for it being at `pos`. -/
inductive GroupEvent where
  | user (pos : Nat)
  | comp (name : Str) (pos : Nat) (inBracket : Bool)
deriving DecidableEq, Repr

namespace GroupEvent

/-- The position of the parenthesis, of the literal text or inserted, in the pattern. -/
def pos : GroupEvent → Nat
  | user p | comp _ p _ => p

/-- The name of a component, which a parenthesis of the literal text has not. -/
def name? : GroupEvent → Option Str
  | user _ => none
  | comp name _ _ => some name

/-- The position of a parenthesis that was inserted for a component, also in a bracket
expression. -/
def inserted? : GroupEvent → Option Nat
  | user _ => none
  | comp _ p _ => some p

/-- The position of a parenthesis that opens a group, as one in a bracket expression does not. -/
def opened? : GroupEvent → Option Nat
  | user p | comp _ p false => some p
  | comp _ _ true => none

/-- The event is a group that the literal text of the path opens. -/
def isUser : GroupEvent → Bool
  | user _ => true
  | comp _ _ _ => false

/-- The event is a component in a bracket expression, where the inserted parenthesis is a
character. -/
def isBracketed : GroupEvent → Bool
  | user _ => false
  | comp _ _ b => b

section
variable (name : Str) (p : Nat) (b : Bool)

@[simp] theorem name?_user : (user p).name? = none := rfl
@[simp] theorem name?_comp : (comp name p b).name? = some name := rfl
@[simp] theorem inserted?_user : (user p).inserted? = none := rfl
@[simp] theorem inserted?_comp : (comp name p b).inserted? = some p := rfl
@[simp] theorem opened?_user : (user p).opened? = some p := rfl
@[simp] theorem opened?_comp : (comp name p false).opened? = some p := rfl
@[simp] theorem opened?_bracketed : (comp name p true).opened? = none := rfl
@[simp] theorem isUser_user : (user p).isUser = true := rfl
@[simp] theorem isUser_comp : (comp name p b).isUser = false := rfl
@[simp] theorem isBracketed_user : (user p).isBracketed = false := rfl
@[simp] theorem isBracketed_comp : (comp name p b).isBracketed = b := rfl

end

end GroupEvent

/-- The events of pieces that are read from the state `m` on, as the pattern's lexer reads them. A
parenthesis in front of a component, or at the end, opens a group, for no question mark follows. -/
def scan (pos : Nat) (m : Mode) : List Piece → List GroupEvent
  | [] => m.pending.map .user
  | .lit c :: ps =>
    match m.step pos c with
    | .ok (ts, m') => (Ecma.openPositions ts).map .user ++ scan (pos + 1) m' ps
    | .error _ => []
  | .comp name :: ps =>
    match Ecma.lexFrom pos m replaceRe with
    | .ok (_, m') =>
      m.pending.map .user ++
        .comp name (pos + 3) m.inBracket :: scan (pos + replaceRe.length) m' ps
    | .error _ => []

/-- The events of a path, as its pieces are read behind the caret that the constructor puts in
front. -/
def groupEvents (path : Str) : List GroupEvent := scan 1 .plain (pieces path)

/-- The literal text opens as many groups as there are components in bracket expressions, and the
first component of every name is outside of them with equally many of both before it. -/
structure GroupsBalanced (es : List GroupEvent) : Prop where
  count : es.countP GroupEvent.isUser = es.countP GroupEvent.isBracketed
  first : ∀ l name p b r, es = l ++ .comp name p b :: r → name ∉ l.filterMap GroupEvent.name? →
    b = false ∧ l.countP GroupEvent.isUser = l.countP GroupEvent.isBracketed

/-! ## The events of a pattern -/

/-- Outside of a bracket expression the inserted group is opened, and the lexer is behind it. -/
theorem lexFrom_replaceRe {pos : Nat} {m m' : Mode} {ts : List Token} (hm : m.inBracket = false)
    (h : Ecma.lexFrom pos m replaceRe = .ok (ts, m')) :
    Ecma.openPositions ts = m.pending ++ [pos + 3] ∧ m'.pending = [] := by
  obtain ⟨t₁, m₁, t₂, h₁, h₂, rfl⟩ := Ecma.lexFrom_cons_eq_ok.1 h
  obtain ⟨ht₁, -⟩ := Ecma.step_openPositions h₁
  rw [if_neg (by decide)] at ht₁
  have ht₂ : Ecma.openPositions t₂ = [pos + 3] ∧ m'.pending = [] := by
    rcases Ecma.step_paren hm h₁ with rfl | rfl
    · cases h₂
      exact ⟨rfl, rfl⟩
    · cases h₂
      exact ⟨rfl, rfl⟩
  rw [Ecma.openPositions_append, ht₁, ht₂.1]
  exact ⟨rfl, ht₂.2⟩

/-- In a bracket expression the inserted text is plain characters. -/
theorem lexFrom_replaceRe_inBracket {pos : Nat} {m m' : Mode} {ts : List Token}
    (hm : m.inBracket = true) (h : Ecma.lexFrom pos m replaceRe = .ok (ts, m')) :
    Ecma.openPositions ts = [] ∧ m'.pending = [] := by
  have hsplit : replaceRe = "(?:(".toList ++ "[^\\/]+?))".toList := rfl
  rw [hsplit] at h
  obtain ⟨t₁, m₁, t₂, h₁, h₂, rfl⟩ := Ecma.lexFrom_append_eq_ok.1 h
  obtain ⟨ht₁, hm₁⟩ := Ecma.lexFrom_of_inBracket (by decide) hm h₁
  obtain ⟨ht₂, hm'⟩ := Ecma.lexFrom_openPositions_of_not_mem (by decide)
    (Mode.pending_of_inBracket hm₁) h₂
  rw [Ecma.openPositions_append, ht₁, ht₂]
  exact ⟨rfl, hm'⟩

/-- What closes a pattern opens no group of its own, so that it opens only one that was pending. -/
theorem lexFrom_tail {pos : Nat} {m m' : Mode} {ts : List Token}
    (h : Ecma.lexFrom pos m "\\/?$".toList = .ok (ts, m')) :
    Ecma.openPositions ts = m.pending := by
  obtain ⟨t₁, m₁, t₂, h₁, h₂, rfl⟩ := Ecma.lexFrom_cons_eq_ok.1 h
  obtain ⟨ht₁, hm₁⟩ := Ecma.step_openPositions h₁
  rw [if_neg (by decide)] at ht₁
  have hm₁' : m₁.pending = [] := hm₁.resolve_right fun hc => absurd hc.1 (by decide)
  rw [Ecma.openPositions_append, ht₁,
    (Ecma.lexFrom_openPositions_of_not_mem (by decide) hm₁' h₂).1, List.append_nil]

/-- Events of the literal text only open groups, at their positions, and insert and name none. -/
theorem filterMap_user (l : List Nat) :
    (l.map GroupEvent.user).filterMap GroupEvent.opened? = l ∧
      (l.map GroupEvent.user).filterMap GroupEvent.inserted? = [] ∧
      (l.map GroupEvent.user).filterMap GroupEvent.name? = [] := by
  induction l with
  | nil => exact ⟨rfl, rfl, rfl⟩
  | cons p l ih => simp_all

/-- The scan tells the groups that the pattern opens, those that were inserted, and the names of the
components. -/
theorem scan_spec {ps : List Piece} {pos : Nat} {m m' : Mode} {ts : List Token}
    (h : Ecma.lexFrom pos m (ps.flatMap Piece.render ++ "\\/?$".toList) = .ok (ts, m')) :
    (scan pos m ps).filterMap GroupEvent.opened? = Ecma.openPositions ts ∧
      (scan pos m ps).filterMap GroupEvent.inserted? = insertedFrom pos ps ∧
      (scan pos m ps).filterMap GroupEvent.name? = componentNames ps := by
  induction ps generalizing pos m ts with
  | nil =>
    obtain ⟨ho, hi, hn⟩ := filterMap_user m.pending
    exact ⟨ho.trans (lexFrom_tail h).symm, hi, hn⟩
  | cons p ps ih =>
    rw [List.flatMap_cons, List.append_assoc] at h
    cases p with
    | lit c =>
      obtain ⟨t₁, m₁, t₂, h₁, h₂, rfl⟩ := Ecma.lexFrom_cons_eq_ok.1 h
      obtain ⟨ho, hi, hn⟩ := ih h₂
      obtain ⟨hu₁, hu₂, hu₃⟩ := filterMap_user (Ecma.openPositions t₁)
      simp only [scan, h₁, List.filterMap_append, ho, hi, hn, hu₁, hu₂, hu₃,
        Ecma.openPositions_append]
      exact ⟨trivial, rfl, rfl⟩
    | comp name =>
      obtain ⟨t₁, m₁, t₂, h₁, h₂, rfl⟩ := Ecma.lexFrom_append_eq_ok.1 h
      obtain ⟨ho, hi, hn⟩ := ih h₂
      obtain ⟨hu₁, hu₂, hu₃⟩ := filterMap_user m.pending
      have hr : Ecma.lexFrom pos m replaceRe = .ok (t₁, m₁) := h₁
      have hlen : (Piece.comp name).render.length = replaceRe.length := rfl
      rw [hlen] at ho hi hn
      simp only [scan, hr, List.filterMap_append, hu₁, hu₂, hu₃, Ecma.openPositions_append,
        List.filterMap_cons, GroupEvent.inserted?_comp, GroupEvent.name?_comp, hi, hn]
      refine ⟨?_, rfl, rfl⟩
      cases hb : m.inBracket with
      | false =>
        rw [(lexFrom_replaceRe hb hr).1, ← ho]
        simp
      | true =>
        rw [(lexFrom_replaceRe_inBracket hb hr).1, ← ho, Mode.pending_of_inBracket hb]
        simp

/-- Nothing is pending behind an inserted text, which ends with a parenthesis that closes. -/
theorem lexFrom_replaceRe_pending {pos : Nat} {m m' : Mode} {ts : List Token}
    (h : Ecma.lexFrom pos m replaceRe = .ok (ts, m')) : m'.pending = [] := by
  cases hb : m.inBracket with
  | false => exact (lexFrom_replaceRe hb h).2
  | true => exact (lexFrom_replaceRe_inBracket hb h).2

/-- The events of a scan are at the pending parenthesis or further on. -/
theorem scan_pos {ps : List Piece} {pos : Nat} {m : Mode} {e : GroupEvent}
    (he : e ∈ scan pos m ps) : e.pos ∈ m.pending ∨ pos ≤ e.pos := by
  induction ps generalizing pos m with
  | nil =>
    obtain ⟨p, hp, rfl⟩ := List.mem_map.1 he
    exact .inl hp
  | cons p ps ih =>
    cases p with
    | lit c =>
      cases hs : m.step pos c with
      | error err => simp [scan, hs] at he
      | ok r =>
        obtain ⟨ts, m'⟩ := r
        obtain ⟨ht, hm'⟩ := Ecma.step_openPositions hs
        simp only [scan, hs, List.mem_append, List.mem_map] at he
        rcases he with ⟨p, hp, rfl⟩ | he
        · rw [ht] at hp
          split at hp
          · cases hp
          · exact .inl hp
        · rcases ih he with hp | hp
          · rcases hm' with hm' | ⟨-, hm'⟩
            · rw [hm'] at hp
              cases hp
            · rw [hm', List.mem_singleton] at hp
              exact .inr (Nat.le_of_eq hp.symm)
          · exact .inr (Nat.le_of_succ_le hp)
    | comp name =>
      cases hs : Ecma.lexFrom pos m replaceRe with
      | error err => simp [scan, hs] at he
      | ok r =>
        obtain ⟨ts, m'⟩ := r
        simp only [scan, hs, List.mem_append, List.mem_map, List.mem_cons] at he
        rcases he with ⟨p, hp, rfl⟩ | rfl | he
        · exact .inl hp
        · exact .inr (Nat.le_add_right pos 3)
        · rcases ih he with hp | hp
          · rw [lexFrom_replaceRe_pending hs] at hp
            cases hp
          · exact .inr (Nat.le_of_add_right_le hp)

/-- At most one parenthesis is pending, so those that are pending are in order. -/
theorem pending_pairwise (m : Mode) :
    (m.pending.map GroupEvent.user).Pairwise (·.pos < ·.pos) := by
  cases m <;> simp [Mode.pending]

/-- The events of a scan are in the order of their positions. -/
theorem scan_pairwise {ps : List Piece} {pos : Nat} {m : Mode} (hm : ∀ p ∈ m.pending, p < pos) :
    (scan pos m ps).Pairwise (·.pos < ·.pos) := by
  induction ps generalizing pos m with
  | nil => exact pending_pairwise m
  | cons p ps ih =>
    cases p with
    | lit c =>
      cases hs : m.step pos c with
      | error err => simp [scan, hs]
      | ok r =>
        obtain ⟨ts, m'⟩ := r
        obtain ⟨ht, hm'⟩ := Ecma.step_openPositions hs
        have hlt : ∀ p ∈ m'.pending, p = pos := fun p hp => by
          rcases hm' with hm' | ⟨-, hm'⟩ <;> simp_all
        have hsub : ∀ p ∈ Ecma.openPositions ts, p < pos := fun p hp => by
          rw [ht] at hp
          split at hp
          · cases hp
          · exact hm p hp
        simp only [scan, hs, List.pairwise_append]
        refine ⟨?_, ih fun p hp => by rw [hlt p hp]; exact Nat.lt_succ_self pos, ?_⟩
        · rw [ht]
          split
          · exact List.Pairwise.nil
          · exact pending_pairwise m
        · rintro e he e' he'
          obtain ⟨p, hp, rfl⟩ := List.mem_map.1 he
          refine Nat.lt_of_lt_of_le (hsub p hp) ?_
          rcases scan_pos he' with h | h
          · exact Nat.le_of_eq (hlt _ h).symm
          · exact Nat.le_of_succ_le h
    | comp name =>
      cases hs : Ecma.lexFrom pos m replaceRe with
      | error err => simp [scan, hs]
      | ok r =>
        obtain ⟨ts, m'⟩ := r
        have hnil := lexFrom_replaceRe_pending hs
        have hrest : ∀ e ∈ scan (pos + replaceRe.length) m' ps, pos + 3 < e.pos := fun e he => by
          rcases scan_pos he with h | h
          · rw [hnil] at h
            cases h
          · have hlen : replaceRe.length = 13 := rfl
            omega
        simp only [scan, hs, List.pairwise_append, List.pairwise_cons]
        refine ⟨pending_pairwise m, ⟨hrest, ih (by simp [hnil])⟩, ?_⟩
        rintro e he e' he'
        obtain ⟨p, hp, rfl⟩ := List.mem_map.1 he
        have hp' := hm p hp
        rcases List.mem_cons.1 he' with rfl | he'
        · show p < pos + 3
          omega
        · have := hrest e' he'
          show p < e'.pos
          omega

/-! ## Balanced events -/

section
variable {es l r : List GroupEvent}

/-- Every component inserts a parenthesis and has a name, so there are as many of both. -/
theorem length_inserted (es : List GroupEvent) :
    (es.filterMap GroupEvent.inserted?).length = (es.filterMap GroupEvent.name?).length := by
  induction es with
  | nil => rfl
  | cons e es ih => cases e <;> simp [List.filterMap_cons, ih]

/-- The groups are those of the literal text and those of the components outside of brackets. -/
theorem length_opened (es : List GroupEvent) :
    (es.filterMap GroupEvent.opened?).length + es.countP GroupEvent.isBracketed =
      (es.filterMap GroupEvent.name?).length + es.countP GroupEvent.isUser := by
  induction es with
  | nil => rfl
  | cons e es ih =>
    rcases e with p | ⟨name, p, b⟩
    · simp [List.filterMap_cons, List.countP_cons]
      omega
    · cases b <;> simp [List.filterMap_cons, List.countP_cons] <;> omega

/-- An opened group is at the position of its event. -/
theorem opened?_pos {e : GroupEvent} {p : Nat} (h : e.opened? = some p) : e.pos = p := by
  rcases e with q | ⟨name, q, _ | _⟩ <;> simp_all [GroupEvent.pos]

/-- The component of an index: the name there belongs to one, with as many components before it. -/
theorem exists_comp_of_name {i : Nat} {name : Str}
    (h : (es.filterMap GroupEvent.name?)[i]? = some name) :
    ∃ l p b r, es = l ++ .comp name p b :: r ∧ (l.filterMap GroupEvent.name?).length = i := by
  induction es generalizing i with
  | nil => simp at h
  | cons e es ih =>
    cases e with
    | user q =>
      obtain ⟨l, p, b, r, rfl, rfl⟩ := ih h
      exact ⟨.user q :: l, p, b, r, rfl, rfl⟩
    | comp n q c =>
      cases i with
      | zero =>
        obtain rfl : n = name := by simpa using h
        exact ⟨[], q, c, es, rfl, rfl⟩
      | succ i =>
        obtain ⟨l, p, b, r, rfl, rfl⟩ := ih (i := i) (by simpa using h)
        exact ⟨.comp n q c :: l, p, b, r, rfl, by simp⟩

/-- The group of the index `i` is the one of a component exactly if that component opens it as the
group of this index. -/
theorem opened_getElem_iff {name : Str} {p i : Nat} {b : Bool}
    (hpos : (l ++ .comp name p b :: r).Pairwise (·.pos < ·.pos)) :
    ((l ++ .comp name p b :: r).filterMap GroupEvent.opened?)[i]? = some p ↔
      b = false ∧ (l.filterMap GroupEvent.opened?).length = i := by
  obtain ⟨-, hr, hlr⟩ := List.pairwise_append.1 hpos
  have hl : p ∉ l.filterMap GroupEvent.opened? := fun hm => by
    obtain ⟨e, he, hp⟩ := List.mem_filterMap.1 hm
    have : e.pos < p := hlr e he _ List.mem_cons_self
    exact absurd (opened?_pos hp) (Nat.ne_of_lt this)
  have hr' : p ∉ r.filterMap GroupEvent.opened? := fun hm => by
    obtain ⟨e, he, hp⟩ := List.mem_filterMap.1 hm
    have : p < e.pos := (List.pairwise_cons.1 hr).1 e he
    exact absurd (opened?_pos hp) (Nat.ne_of_gt this)
  rw [List.filterMap_append]
  constructor
  · intro h
    have hmem := List.mem_of_getElem? h
    cases b with
    | true =>
      have hcons : (GroupEvent.comp name p true :: r).filterMap GroupEvent.opened? =
          r.filterMap GroupEvent.opened? := rfl
      rw [hcons, List.mem_append] at hmem
      exact absurd hmem (not_or.2 ⟨hl, hr'⟩)
    | false =>
      refine ⟨rfl, ?_⟩
      rw [List.getElem?_append] at h
      split at h
      · exact absurd (List.mem_of_getElem? h) hl
      · next hi =>
        have hcons : (GroupEvent.comp name p false :: r).filterMap GroupEvent.opened? =
            p :: r.filterMap GroupEvent.opened? := rfl
        rw [hcons] at h
        cases hd : i - (l.filterMap GroupEvent.opened?).length with
        | zero => omega
        | succ d =>
          rw [hd, List.getElem?_cons_succ] at h
          exact absurd (List.mem_of_getElem? h) hr'
  · rintro ⟨rfl, rfl⟩
    rw [List.getElem?_append_right (Nat.le_refl _), Nat.sub_self]
    rfl

/-- **Balance is alignment** of the groups that are opened with those that were inserted. -/
theorem balanced_iff (hpos : es.Pairwise (·.pos < ·.pos)) :
    GroupsBalanced es ↔
      (es.filterMap GroupEvent.opened?).length = (es.filterMap GroupEvent.name?).length ∧
      ∀ i name, (es.filterMap GroupEvent.name?)[i]? = some name →
        name ∉ (es.filterMap GroupEvent.name?).take i →
        (es.filterMap GroupEvent.opened?)[i]? = (es.filterMap GroupEvent.inserted?)[i]? := by
  have hlen := length_opened es
  have hins : ∀ l name p b r, (l ++ GroupEvent.comp name p b :: r).filterMap GroupEvent.inserted? =
      l.filterMap GroupEvent.inserted? ++ p :: r.filterMap GroupEvent.inserted? :=
    fun l name p b r => List.filterMap_append
  have hnames : ∀ l name p b r, (l ++ GroupEvent.comp name p b :: r).filterMap GroupEvent.name? =
      l.filterMap GroupEvent.name? ++ name :: r.filterMap GroupEvent.name? :=
    fun l name p b r => List.filterMap_append
  constructor
  · rintro ⟨hcount, hfirst⟩
    refine ⟨by omega, fun i name hi hnew => ?_⟩
    obtain ⟨l, p, b, r, rfl, rfl⟩ := exists_comp_of_name hi
    rw [hnames, List.take_left' rfl] at hnew
    obtain ⟨rfl, hl⟩ := hfirst l name p b r rfl hnew
    have hlenl := length_opened l
    rw [(opened_getElem_iff hpos).2 ⟨rfl, by omega⟩, hins, ← length_inserted,
      List.getElem?_append_right (Nat.le_refl _), Nat.sub_self]
    rfl
  · rintro ⟨hcount, hfirst⟩
    refine ⟨by omega, fun l name p b r hes hnew => ?_⟩
    subst hes
    have hi : ((l ++ GroupEvent.comp name p b :: r).filterMap GroupEvent.name?)[
        (l.filterMap GroupEvent.name?).length]? = some name := by
      rw [hnames, List.getElem?_append_right (Nat.le_refl _), Nat.sub_self]
      rfl
    have h := hfirst _ name hi (by rwa [hnames, List.take_left' rfl])
    rw [hins, ← length_inserted, List.getElem?_append_right (Nat.le_refl _), Nat.sub_self] at h
    obtain ⟨hb, hl⟩ := (opened_getElem_iff hpos).1 h
    have hlenl := length_opened l
    have := length_inserted l
    exact ⟨hb, by omega⟩

end

/-! ## Alignment of a route -/

/-- The groups of a compiled path are those its scan says are opened. -/
theorem groupEvents_spec {path : Str} {re : Regex} (h : regex (patternOf path) = .ok re) :
    (groupEvents path).filterMap GroupEvent.opened? = re.groups ∧
      (groupEvents path).filterMap GroupEvent.inserted? = insertedGroups path ∧
      (groupEvents path).filterMap GroupEvent.name? = componentNames (pieces path) := by
  obtain ⟨ts, st, hlex, -, -, -, rfl⟩ := Ecma.compile_eq_ok.1 (regex_eq_ok_iff.1 h)
  obtain ⟨t₁, m, t₂, h₁, h₂, rfl⟩ := Ecma.lex_eq_ok.1 hlex
  obtain ⟨_, _, t₃, hcaret, h₃, rfl⟩ := Ecma.lexFrom_cons_eq_ok.1 h₁
  cases hcaret
  obtain ⟨ho, hi, hn⟩ := scan_spec h₃
  refine ⟨?_, hi, hn⟩
  rw [Ecma.openPositions_append, Ecma.finish_openPositions h₂, List.append_nil]
  exact ho

/-- **When the captures are aligned with the keys**: exactly if the literal text of the path opens
as many groups as there are components in bracket expressions, and the first component of every name
is outside of them with equally many of both before it. -/
theorem Route.captures_aligned_iff {H : Type _} {path : CStr} {fn : H} {r : Route H}
    (hr : Route.ctor path fn = .ok r) {uri : CStr} {result : MatchResults}
    (hm : Ecma.regexMatch uri.chars r.path = some result) :
    CapturesAligned path.chars r uri result ↔ GroupsBalanced (groupEvents path.chars) := by
  rw [Route.ctor_eq] at hr
  obtain ⟨re, hre, rfl⟩ := Except.map_eq_ok_iff.1 hr
  obtain ⟨ho, hi, hn⟩ := groupEvents_spec hre
  have hsize : result.groups.length = re.groups.length := Ecma.regexMatch_groups_length hm
  have hpos : (groupEvents path.chars).Pairwise (·.pos < ·.pos) :=
    scan_pairwise (by simp [Mode.pending])
  rw [balanced_iff hpos, ho, hi, hn]
  constructor
  · rintro ⟨hcount, m, -, hown⟩
    exact ⟨hsize ▸ hcount, fun i name hk hnew => (hown i name hk hnew).2⟩
  · rintro ⟨hcount, hown⟩
    have hlen : result.size - 1 = (componentNames (pieces path.chars)).length :=
      hsize.trans hcount
    obtain ⟨m, hc⟩ := (Route.components_isOk _ result _).2 (Nat.le_of_eq hlen)
    refine ⟨hlen, m, by simp only [Route.match, hm, hc]; rfl, fun i name hk hnew => ?_⟩
    have hlt : i < result.size - 1 := hlen ▸ (List.getElem?_eq_some_iff.1 hk).1
    exact ⟨Route.components_find_first hc hk hlt hnew, hown i name hk hnew⟩

/-- The path `:x` on the URI `a`, whose only group was inserted for its only component. -/
theorem Route.captures_aligned_iff_component : ∃ (r : Route Unit) (result : MatchResults),
    Route.ctor ⟨":x".toList, by decide⟩ () = .ok r ∧
      (CapturesAligned ":x".toList r ⟨"a".toList, by decide⟩ result ↔
        GroupsBalanced (groupEvents ":x".toList)) := by
  refine ⟨⟨(), ⟨.seq .bol (.seq (.seq (.group 1 (.seq (.rep 1 none false (.bracket true
    [.single '/'])) .empty)) .empty) (.seq (.rep 0 (some 1) true (.char '/')) (.seq .eol .empty))),
    [4]⟩, ["x".toList]⟩, ⟨"a".toList, [some "a".toList]⟩, rfl, ?_⟩
  have hr : Route.ctor ⟨":x".toList, by decide⟩ () = .ok _ := rfl
  exact Route.captures_aligned_iff hr rfl

/-- The group of the path `/(a)` has no key: the loop reads `keys` out of bounds. -/
theorem Route.captures_not_aligned : ∃ (r : Route Unit) (result : MatchResults),
    Route.ctor ⟨"/(a)".toList, by decide⟩ () = .ok r ∧
      Ecma.regexMatch "/a".toList r.path = some result ∧
      r.match ⟨"/a".toList, by decide⟩ = .error .vectorBounds ∧
      ¬ CapturesAligned "/(a)".toList r ⟨"/a".toList, by decide⟩ result := by
  refine ⟨⟨(), ⟨.seq .bol (.seq (.char '/') (.seq (.group 1 (.seq (.char 'a') .empty))
    (.seq (.rep 0 (some 1) true (.char '/')) (.seq .eol .empty)))), [2]⟩, []⟩,
    ⟨"/a".toList, [some "a".toList]⟩, rfl, rfl, rfl, fun h => ?_⟩
  exact absurd h.groupCount (by decide)

end Gomibako
