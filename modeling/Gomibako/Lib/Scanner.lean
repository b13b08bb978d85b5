import Mathlib.Data.List.Infix
import Mathlib.Data.List.TakeWhile

/-!
# Scanners

A scanner reads a value from the start of a text and returns it with what is behind it. One of its
errors, `more`, says that the text ends too early. If a scanner obeys the laws of `IsScanner`, more
text behind the text it has scanned changes nothing but an error `more`, so that a text may be
scanned as it arrives. Scanners are composed (`IsScanner.bind`) of those that read some characters
(`take`) or those of a kind (`span`), and one that goes from character to character is known by its
steps (`IsScanner.of_steps`).

Scanners, like all fallible code, are `Except` computations. A successful computation that is a
sequence of two was two successful ones, and one that failed did so in one of them; models are taken
apart with these equivalences (`Except.bind_eq_ok_iff`, `Except.bind_eq_error_iff`) instead of by
unfolding `bind`.
-/

/-! ## Computations that may fail -/

namespace Except

variable {ε α β : Type _}

/-- A sequence of two computations succeeds exactly if the first one does, and the second one does
with its result. -/
theorem bind_eq_ok_iff {x : Except ε α} {f : α → Except ε β} {b : β} :
    x.bind f = .ok b ↔ ∃ a, x = .ok a ∧ f a = .ok b := by
  cases x <;> simp [Except.bind]

/-- A mapped computation succeeds exactly if the computation does, and the result is the mapped
one. -/
theorem map_eq_ok_iff {x : Except ε α} {f : α → β} {b : β} :
    x.map f = .ok b ↔ ∃ a, x = .ok a ∧ f a = b := by
  cases x <;> simp [Except.map]

/-- A sequence fails when its first part does, or its second part behind it. -/
theorem bind_eq_error_iff {x : Except ε α} {f : α → Except ε β} {e : ε} :
    x.bind f = .error e ↔ x = .error e ∨ ∃ a, x = .ok a ∧ f a = .error e := by
  cases x <;> simp [Except.bind]

/-- A mapped computation fails exactly as the computation does, with the same error. -/
theorem map_eq_error_iff {x : Except ε α} {f : α → β} {e : ε} :
    x.map f = .error e ↔ x = .error e := by
  cases x <;> simp [Except.map]

end Except

/-! ## The laws -/

/-- The laws of a scanner: it returns the end of its text; what it returns, and every error but
`more`, are the same with more text behind; and where it wants more, it uses up all of its text. -/
structure IsScanner {α β ε : Type _} (more : ε) (f : List α → Except ε (β × List α)) : Prop where
  suffix : ∀ {s b r}, f s = .ok (b, r) → r <:+ s
  ok : ∀ {s b r} t, f s = .ok (b, r) → f (s ++ t) = .ok (b, r ++ t)
  error : ∀ {s e} t, f s = .error e → e ≠ more → f (s ++ t) = .error e
  more : ∀ {s t b r}, f s = .error more → f (s ++ t) = .ok (b, r) → r.length ≤ t.length

namespace IsScanner

variable {α β γ ε : Type _} {more : ε} {f : List α → Except ε (β × List α)}

/-- What a scanner returns is not longer than the text it was given, since it is the end of it. -/
theorem length_le (hf : IsScanner more f) {s r : List α} {b : β} (h : f s = .ok (b, r)) :
    r.length ≤ s.length :=
  (hf.suffix h).length_le

/-- A scanner that leaves some of a text needs no more than what is before the rest. -/
theorem of_append (hf : IsScanner more f) {s t r : List α} {b : β} (h : f (s ++ t) = .ok (b, r))
    (hlen : t.length < r.length) : ∃ r', r = r' ++ t ∧ f s = .ok (b, r') := by
  cases hs : f s with
  | ok x =>
    obtain ⟨b', r'⟩ := x
    have hsame := hf.ok t hs
    rw [h] at hsame
    cases hsame
    exact ⟨r', rfl, rfl⟩
  | error e =>
    by_cases he : e = more
    · subst he
      have := hf.more hs h
      omega
    · have hsame := hf.error t hs he
      rw [h] at hsame
      cases hsame

/-- A scanner may return a value and read nothing: the whole text is left. -/
theorem pure (more : ε) (b : β) : IsScanner more fun s : List α => .ok (b, s) where
  suffix h := by
    cases h
    exact List.suffix_rfl
  ok t h := by
    cases h
    rfl
  error t h := by cases h
  more h := by cases h

/-- A scanner may report an error that does not depend on the text, if it is not that for more of
it. -/
theorem throw {e : ε} (he : e ≠ more) :
    IsScanner more fun _ : List α => (.error e : Except ε (β × List α)) where
  suffix h := by cases h
  ok t h := by cases h
  error t h _ := h
  more h := by
    cases h
    exact absurd rfl he

/-- One scanner behind another one is a scanner: the second one reads what the first one has
left. -/
theorem bind (hf : IsScanner more f) {g : β → List α → Except ε (γ × List α)}
    (hg : ∀ b, IsScanner more (g b)) :
    IsScanner more fun s => (f s).bind fun x => g x.1 x.2 where
  suffix {s c r} h := by
    cases hs : f s with
    | error e =>
      rw [hs] at h
      cases h
    | ok x =>
      rw [hs] at h
      exact ((hg x.1).suffix h).trans (hf.suffix hs)
  ok {s c r} t h := by
    cases hs : f s with
    | error e =>
      rw [hs] at h
      cases h
    | ok x =>
      rw [hs] at h
      show (f (s ++ t)).bind _ = _
      rw [hf.ok t hs]
      exact (hg x.1).ok t h
  error {s e} t h he := by
    show (f (s ++ t)).bind _ = _
    cases hs : f s with
    | error e' =>
      rw [hs] at h
      cases h
      rw [hf.error t hs he]
      rfl
    | ok x =>
      rw [hs] at h
      rw [hf.ok t hs]
      exact (hg x.1).error t h he
  more {s t c r} h hok := by
    cases hs : f s with
    | error e =>
      rw [hs] at h
      cases h
      cases hst : f (s ++ t) with
      | error e' =>
        simp only [hst, Except.bind] at hok
        cases hok
      | ok x =>
        simp only [hst, Except.bind] at hok
        exact Nat.le_trans ((hg x.1).length_le hok) (hf.more hs hst)
    | ok x =>
      rw [hs] at h
      simp only [hf.ok t hs, Except.bind] at hok
      exact (hg x.1).more h hok

/-- What a scanner reads may be renamed, which does not change what it leaves. -/
theorem map (hf : IsScanner more f) (k : β → γ) :
    IsScanner more fun s => (f s).map fun x => (k x.1, x.2) := by
  have hbind : (fun s => (f s).map fun x => (k x.1, x.2)) =
      fun s => (f s).bind fun x => .ok (k x.1, x.2) := by
    funext s
    cases f s <;> rfl
  rw [hbind]
  exact hf.bind fun b => .pure more (k b)

/-- The errors of a scanner may be renamed, if no other error becomes the one for more text. -/
theorem mapError {ε' : Type _} (hf : IsScanner more f) {k : ε → ε'}
    (hk : ∀ e, k e = k more → e = more) : IsScanner (k more) fun s => (f s).mapError k where
  suffix {s b r} h := by
    cases hs : f s with
    | error e =>
      rw [hs] at h
      cases h
    | ok x =>
      rw [hs] at h
      cases h
      exact hf.suffix hs
  ok {s b r} t h := by
    cases hs : f s with
    | error e =>
      rw [hs] at h
      cases h
    | ok x =>
      rw [hs] at h
      cases h
      show (f (s ++ t)).mapError k = _
      rw [hf.ok t hs]
      rfl
  error {s e} t h he := by
    cases hs : f s with
    | error e' =>
      rw [hs] at h
      cases h
      show (f (s ++ t)).mapError k = _
      rw [hf.error t hs fun hmore => he (congrArg k hmore)]
      rfl
    | ok x =>
      rw [hs] at h
      cases h
  more {s t b r} h hok := by
    cases hs : f s with
    | error e =>
      rw [hs] at h
      have he : k e = k more := Except.error.inj h
      rw [hk e he] at hs
      cases hst : f (s ++ t) with
      | error e' =>
        rw [hst] at hok
        cases hok
      | ok x =>
        rw [hst] at hok
        cases hok
        exact hf.more hs hst
    | ok x =>
      rw [hs] at h
      cases h

/-- A scanner may be chosen by a condition that does not depend on the text. -/
theorem ite {g : List α → Except ε (β × List α)} (hf : IsScanner more f) (hg : IsScanner more g)
    (p : Prop) [Decidable p] : IsScanner more fun s => if p then f s else g s := by
  split
  · exact hf
  · exact hg

/-- The scanner of as many characters as are asked for, whatever they are; it wants more of a
shorter text. -/
def take (more : ε) (n : Nat) (s : List α) : Except ε (List α × List α) :=
  if s.length < n then .error more else .ok (s.take n, s.drop n)

theorem isScanner_take (more : ε) (n : Nat) : IsScanner more (take more n (α := α)) where
  suffix {s b r} h := by
    unfold take at h
    split at h <;> cases h
    exact List.drop_suffix n s
  ok {s b r} t h := by
    unfold take at h ⊢
    split at h
    · cases h
    · next hlen =>
      cases h
      have hle : n ≤ s.length := Nat.not_lt.1 hlen
      rw [if_neg (by rw [List.length_append]; omega), List.take_append_of_le_length hle,
        List.drop_append_of_le_length hle]
  error {s e} t h he := by
    unfold take at h
    split at h <;> cases h
    exact absurd rfl he
  more {s t b r} h hok := by
    unfold take at h hok
    split at h
    · split at hok
      · cases hok
      · cases hok
        rw [List.length_drop, List.length_append]
        omega
    · cases h

/-- The characters at the start of the text that are of a kind, and the first one behind them. -/
def span (more : ε) (p : α → Bool) (s : List α) : Except ε ((List α × α) × List α) :=
  match s.dropWhile p with
  | [] => .error more
  | c :: rest => .ok ((s.takeWhile p, c), rest)

/-- What is not of the kind comes behind the same characters, whatever is behind it. -/
theorem span_append {p : α → Bool} {s rest : List α} {c : α} (h : s.dropWhile p = c :: rest)
    (t : List α) :
    (s ++ t).dropWhile p = c :: (rest ++ t) ∧ (s ++ t).takeWhile p = s.takeWhile p := by
  have hnotall : (s.takeWhile p).length ≠ s.length := by
    have hlen := congrArg List.length (List.takeWhile_append_dropWhile (p := p) (l := s))
    rw [h, List.length_append, List.length_cons] at hlen
    omega
  constructor
  · rw [List.dropWhile_append, h]
    rfl
  · rw [List.takeWhile_append, if_neg hnotall]

theorem isScanner_span (more : ε) (p : α → Bool) : IsScanner more (span more p) where
  suffix {s b r} h := by
    unfold span at h
    split at h
    · cases h
    · next c rest hrest =>
      cases h
      exact (List.suffix_cons c _).trans (hrest ▸ List.dropWhile_suffix p)
  ok {s b r} t h := by
    unfold span at h ⊢
    split at h
    · cases h
    · next c rest hrest =>
      cases h
      obtain ⟨hdrop, htake⟩ := span_append hrest t
      rw [hdrop, htake]
  error {s e} t h he := by
    unfold span at h
    split at h
    · cases h
      exact absurd rfl he
    · cases h
  more {s t b r} h hok := by
    unfold span at h hok
    split at h
    · next hnil =>
      have hdrop : (s ++ t).dropWhile p = t.dropWhile p := by
        rw [List.dropWhile_append, hnil]
        rfl
      have hlen := List.length_dropWhile_le p t
      rw [hdrop] at hok
      split at hok
      · cases hok
      · next c rest hrest =>
        rw [hrest, List.length_cons] at hlen
        cases hok
        omega
    · cases h

/-- What a scanner that goes from character to character does at the character `c`, `g` being the
function of what is behind it: it goes on, it stops in front of the character, or it reports an
error. -/
inductive Step {σ : Type _} (more : ε) (f : σ → List α → Except ε (β × List α)) (c : α)
    (g : List α → Except ε (β × List α)) : Prop where
  | next (y : σ) (h : ∀ s, g s = f y s) : Step more f c g
  | stop (b : β) (h : ∀ s, g s = .ok (b, c :: s)) : Step more f c g
  | fail (e : ε) (he : e ≠ more) (h : ∀ s, g s = .error e) : Step more f c g

section
variable {σ : Type _} {f : σ → List α → Except ε (β × List α)}

/-- A step may be chosen by a condition, which is usually one on the character it is for. -/
theorem Step.ite {c : α} {g g' : List α → Except ε (β × List α)} (h : Step more f c g)
    (h' : Step more f c g') {p : Prop} [Decidable p] :
    Step more f c fun s => if p then g s else g' s := by
  split
  · exact h
  · exact h'

/-- A scanner made of steps returns an end of its text, by induction on the text: each step goes one
character on. -/
theorem suffix_of_steps (hnil : ∀ x, f x [] = .error more)
    (hstep : ∀ x c, Step more f c fun s => f x (c :: s)) {x : σ} {s r : List α} {b : β}
    (h : f x s = .ok (b, r)) : r <:+ s := by
  induction s generalizing x with
  | nil =>
    rw [hnil] at h
    cases h
  | cons c s ih =>
    cases hstep x c with
    | next y hy =>
      rw [hy] at h
      exact (ih h).trans (List.suffix_cons c s)
    | stop b' hb =>
      rw [hb] at h
      cases h
      exact List.suffix_rfl
    | fail e he hfail =>
      rw [hfail] at h
      cases h

/-- **A scanner by its steps**: one that wants more at the end of the text and else does a step at
every character. -/
theorem of_steps (hnil : ∀ x, f x [] = .error more)
    (hstep : ∀ x c, Step more f c fun s => f x (c :: s)) (x : σ) : IsScanner more (f x) where
  suffix h := suffix_of_steps hnil hstep h
  ok {s b r} t h := by
    induction s generalizing x with
    | nil =>
      rw [hnil] at h
      cases h
    | cons c s ih =>
      rw [List.cons_append]
      cases hstep x c with
      | next y hy =>
        rw [hy] at h ⊢
        exact ih y h
      | stop b' hb =>
        rw [hb] at h ⊢
        cases h
        rfl
      | fail e he hfail =>
        rw [hfail] at h
        cases h
  error {s e} t h he := by
    induction s generalizing x with
    | nil =>
      rw [hnil] at h
      cases h
      exact absurd rfl he
    | cons c s ih =>
      rw [List.cons_append]
      cases hstep x c with
      | next y hy =>
        rw [hy] at h ⊢
        exact ih y h
      | stop b' hb =>
        rw [hb] at h
        cases h
      | fail e' he' hfail =>
        rw [hfail] at h ⊢
        exact h
  more {s t b r} h hok := by
    induction s generalizing x with
    | nil => exact (suffix_of_steps hnil hstep hok).length_le
    | cons c s ih =>
      rw [List.cons_append] at hok
      cases hstep x c with
      | next y hy =>
        rw [hy] at h hok
        exact ih y h hok
      | stop b' hb =>
        rw [hb] at h
        cases h
      | fail e he hfail =>
        rw [hfail] at h
        cases h
        exact absurd rfl he

end

end IsScanner
