import Gomibako.Ecma.Search

/-!
# Matches before a text

A tree may match a text differently if there is more text behind it: a dollar and a lookahead see
what follows. All other assertions and atoms do not, as long as no word goes on behind the text
(`Node.matchesBefore_iff`).
-/

namespace Ecma

/-- The tree matches the text `s` at the start of the text `s ++ r`. -/
def Node.MatchesBefore (a : Node) (s r : List Char) : Prop :=
  ∃ y ∈ a.run (.start (s ++ r)), y.rest = r

instance (a : Node) (s r : List Char) : Decidable (a.MatchesBefore s r) :=
  inferInstanceAs (Decidable (∃ y ∈ a.run (.start (s ++ r)), y.rest = r))

/-- `regex_match` matches a text exactly if the tree matches it with nothing behind it. -/
theorem regexMatch_isSome_iff {s : List Char} {re : Regex} :
    (regexMatch s re).isSome ↔ re.node.MatchesBefore s [] := by
  simp [regexMatch, Node.MatchesBefore, List.find?_isSome]

/-! ## The iterations of a quantifier -/

section
variable {m : State → List State} {greedy : Bool} {x y : State} {max : Option Nat}

/-- There are no more iterations, or there is one more that consumes something. -/
theorem mem_repLoop {fuel : Nat} (hf : x.rest.length ≤ fuel) :
    y ∈ repLoop m greedy fuel max x ↔ y = x ∨ (max ≠ some 0 ∧
      ∃ z ∈ m x, z.rest.length < x.rest.length ∧
        y ∈ repLoop m greedy (fuel - 1) (max.map (· - 1)) z) := by
  cases fuel with
  | zero =>
    have hx : x.rest.length = 0 := Nat.le_zero.1 hf
    simp [repLoop, hx]
  | succ fuel =>
    rw [repLoop]
    by_cases hmax : max = some 0
    · simp [hmax]
    · cases greedy <;> simp [hmax, or_comm, and_assoc]

/-- Iterations do not give back what has been consumed, if the atom does not. -/
theorem repLoop_suffix (hm : ∀ x, ∀ y ∈ m x, y.rest <:+ x.rest) {fuel : Nat}
    (hf : x.rest.length ≤ fuel) (h : y ∈ repLoop m greedy fuel max x) : y.rest <:+ x.rest := by
  induction fuel generalizing x max with
  | zero =>
    rcases (mem_repLoop hf).1 h with rfl | ⟨-, z, -, hlt, -⟩
    · exact List.suffix_rfl
    · omega
  | succ fuel ih =>
    rcases (mem_repLoop hf).1 h with rfl | ⟨-, z, hz, hlt, hy⟩
    · exact List.suffix_rfl
    · exact (ih (by omega) hy).trans (hm x z hz)

theorem repeated_suffix (hm : ∀ x, ∀ y ∈ m x, y.rest <:+ x.rest) {min : Nat}
    (h : y ∈ repeated m greedy min max x) : y.rest <:+ x.rest := by
  induction min generalizing x max with
  | zero => exact repLoop_suffix hm (Nat.le_refl _) h
  | succ min ih =>
    rw [repeated, List.mem_flatMap] at h
    obtain ⟨z, hz, hy⟩ := h
    exact (ih hy).trans (hm x z hz)

end

theorem one_suffix {p : Char → Bool} {x y : State} (h : y ∈ one p x) : y.rest <:+ x.rest := by
  obtain ⟨c, r, hx, -, rfl⟩ := mem_one.1 h
  exact ⟨[c], hx.symm⟩

/-- A back reference consumes what its group holds, or nothing if it holds nothing. -/
theorem mem_run_backref {n : Nat} {x y : State} : y ∈ (Node.backref n).run x ↔
    x.caps n = none ∧ y = x ∨ ∃ s r, x.caps n = some s ∧ x.rest = s ++ r ∧ y = x.consume s r := by
  rw [Node.run]
  cases x.caps n with
  | none => simp
  | some s =>
    by_cases hs : s <+: x.rest
    · obtain ⟨r, hr⟩ := hs
      simp [← hr]
    · have hnot : ∀ r, x.rest ≠ s ++ r := fun r hr => hs ⟨r, hr.symm⟩
      simp [hs, hnot]

/-- A word boundary consumes nothing, and is there if exactly one of its two sides is part of a
word. -/
theorem mem_run_wordBoundary {neg : Bool} {x y : State} : y ∈ (Node.wordBoundary neg).run x ↔
    ((isWord x.prev.head? != isWord x.rest.head?) != neg) = true ∧ y = x := by
  have hrun : (Node.wordBoundary neg).run x =
    if (isWord x.prev.head? != isWord x.rest.head?) != neg then [x] else [] := rfl
  rw [hrun]
  cases (isWord x.prev.head? != isWord x.rest.head?) != neg <;> simp

/-- A lookahead consumes nothing, whatever its inside has consumed. -/
theorem run_look_rest {neg : Bool} {a : Node} {x y : State} (h : y ∈ (Node.look neg a).run x) :
    y.rest = x.rest := by
  rw [Node.run] at h
  cases hhead : (a.run x).head? with
  | none =>
    rw [hhead] at h
    cases neg with
    | false => cases h
    | true => rw [List.mem_singleton.1 h]
  | some z =>
    rw [hhead] at h
    cases neg with
    | false => rw [List.mem_singleton.1 h]
    | true => cases h

/-- A match leaves the end of the text it was started on, by induction on the tree. -/
theorem run_suffix {a : Node} {x y : State} (h : y ∈ a.run x) : y.rest <:+ x.rest := by
  induction a generalizing x y with
  | empty => exact mem_run_empty.1 h ▸ List.suffix_rfl
  | char c => exact one_suffix h
  | any => exact one_suffix h
  | bracket neg items => exact one_suffix h
  | backref n =>
    rcases mem_run_backref.1 h with ⟨-, rfl⟩ | ⟨s, r, -, hx, rfl⟩
    · exact List.suffix_rfl
    · exact ⟨s, hx.symm⟩
  | bol => exact (mem_run_bol.1 h).2 ▸ List.suffix_rfl
  | eol => exact (mem_run_eol.1 h).2 ▸ List.suffix_rfl
  | wordBoundary neg => exact (mem_run_wordBoundary.1 h).2 ▸ List.suffix_rfl
  | seq a b iha ihb =>
    obtain ⟨z, hz, hy⟩ := mem_run_seq.1 h
    exact (ihb hy).trans (iha hz)
  | alt a b iha ihb =>
    rcases mem_run_alt.1 h with h | h
    · exact iha h
    · exact ihb h
  | group n a ih =>
    obtain ⟨z, hz, rfl⟩ := mem_run_group.1 h
    exact ih (y := z) hz
  | look neg a ih => exact run_look_rest h ▸ List.suffix_rfl
  | rep min max greedy a ih =>
    rw [run_rep] at h
    exact repeated_suffix (fun x y hy => ih (x := x.reset a.captures) hy) h

/-! ## A text behind the state -/

/-- The state with the text `r` behind what is left. -/
def State.append (x : State) (r : List Char) : State := { x with rest := x.rest ++ r }

/-- The tree does not see more of the text than what it consumes, but for a word that goes on. -/
def Node.plain : Node → Bool
  | .eol | .look _ _ => false
  | .seq a b | .alt a b => a.plain && b.plain
  | .group _ a | .rep _ _ _ a => a.plain
  | _ => true

/-- A matcher is not influenced by the text `r` behind the state, as long as it leaves this text. -/
def Blind (r : List Char) (m : State → List State) : Prop :=
  ∀ x y', r.length ≤ y'.rest.length →
    (y' ∈ m (x.append r) ↔ ∃ y ∈ m x, y.append r = y')

section
variable {r : List Char} {m : State → List State} {greedy : Bool}

/-- A test that does not see the text is blind. -/
theorem test_blind {p : State → Prop} (hm : ∀ x y, y ∈ m x ↔ p x ∧ y = x)
    (hp : ∀ x, p (x.append r) ↔ p x) : Blind r m := by
  intro x y' _
  simp only [hm, hp]
  constructor
  · intro h
    exact ⟨x, ⟨h.1, rfl⟩, h.2.symm⟩
  · intro h
    obtain ⟨y, ⟨hx, rfl⟩, rfl⟩ := h
    exact ⟨hx, rfl⟩

theorem one_blind (p : Char → Bool) : Blind r (one p) := by
  intro x y' hy'
  rw [mem_one]
  constructor
  · intro h
    obtain ⟨c, t, hx, hc, rfl⟩ := h
    cases hrest : x.rest with
    | nil =>
      -- the character is the first one of the text behind the state
      have hr : r = c :: t := by simpa [State.append, hrest] using hx
      rw [hr] at hy'
      exact absurd hy' (by simp)
    | cons d u =>
      obtain ⟨rfl, rfl⟩ : d = c ∧ u ++ r = t := by simpa [State.append, hrest] using hx
      exact ⟨_, mem_one.2 ⟨d, u, hrest, hc, rfl⟩, rfl⟩
  · intro h
    obtain ⟨y, hy, rfl⟩ := h
    obtain ⟨c, t, hx, hc, rfl⟩ := mem_one.1 hy
    exact ⟨c, t ++ r, by simp [State.append, hx], hc, rfl⟩

theorem length_append_rest (x : State) : (x.append r).rest.length = x.rest.length + r.length :=
  List.length_append

/-- If a matcher is blind and gives nothing back, its iterations are blind too, though there is more
fuel for the longer text. -/
theorem repLoop_blind (hm : Blind r m) (hsuffix : ∀ x, ∀ y ∈ m x, y.rest <:+ x.rest)
    {max : Option Nat} {fuel fuel' : Nat} {x y' : State} (hf : x.rest.length ≤ fuel)
    (hf' : (x.append r).rest.length ≤ fuel') (hy' : r.length ≤ y'.rest.length) :
    y' ∈ repLoop m greedy fuel' max (x.append r) ↔
      ∃ y ∈ repLoop m greedy fuel max x, y.append r = y' := by
  induction hn : x.rest.length using Nat.strongRecOn generalizing x max fuel fuel' with
  | ind n ih =>
    simp only [mem_repLoop hf, mem_repLoop hf']
    -- what one more iteration consumes is the same with the text behind it and without
    have hmore : ∀ z, z.rest.length < x.rest.length →
        (y' ∈ repLoop m greedy (fuel' - 1) (max.map (· - 1)) (z.append r) ↔
          ∃ y ∈ repLoop m greedy (fuel - 1) (max.map (· - 1)) z, y.append r = y') := by
      intro z hz
      have hlen := length_append_rest (r := r) z
      have hlen' := length_append_rest (r := r) x
      exact ih z.rest.length (by omega) (by omega) (by omega) rfl
    constructor
    · intro h
      rcases h with rfl | ⟨hmax, z', hz', hlt, hy⟩
      · exact ⟨x, .inl rfl, rfl⟩
      · have hlen' := length_append_rest (r := r) x
        have hz'len := (repLoop_suffix hsuffix (by omega) hy).length_le
        obtain ⟨z, hz, rfl⟩ := (hm x z' (by omega)).1 hz'
        have hlen := length_append_rest (r := r) z
        have hlt' : z.rest.length < x.rest.length := by omega
        obtain ⟨y, hyz, rfl⟩ := (hmore z hlt').1 hy
        exact ⟨y, .inr ⟨hmax, z, hz, hlt', hyz⟩, rfl⟩
    · intro h
      obtain ⟨y, rfl | ⟨hmax, z, hz, hlt, hy⟩, rfl⟩ := h
      · exact .inl rfl
      · have hlen := length_append_rest (r := r) z
        have hlen' := length_append_rest (r := r) x
        refine .inr ⟨hmax, z.append r, (hm x _ (by omega)).2 ⟨z, hz, rfl⟩, by omega, ?_⟩
        exact (hmore z hlt).2 ⟨y, hy, rfl⟩

theorem repeated_blind (hm : Blind r m) (hsuffix : ∀ x, ∀ y ∈ m x, y.rest <:+ x.rest)
    (min : Nat) (max : Option Nat) : Blind r (repeated m greedy min max) := by
  induction min generalizing max with
  | zero =>
    intro x y' hy'
    exact repLoop_blind hm hsuffix (Nat.le_refl _) (Nat.le_refl _) hy'
  | succ min ih =>
    intro x y' hy'
    simp only [repeated, List.mem_flatMap]
    constructor
    · intro h
      obtain ⟨z', hz', hy⟩ := h
      have hlen := (repeated_suffix hsuffix hy).length_le
      obtain ⟨z, hz, rfl⟩ := (hm x z' (by omega)).1 hz'
      obtain ⟨y, hyz, rfl⟩ := (ih _ z y' hy').1 hy
      exact ⟨y, ⟨z, hz, hyz⟩, rfl⟩
    · intro h
      obtain ⟨y, ⟨z, hz, hy⟩, rfl⟩ := h
      have hlen : r.length ≤ (z.append r).rest.length := by
        rw [length_append_rest]
        omega
      exact ⟨z.append r, (hm x _ hlen).2 ⟨z, hz, rfl⟩, (ih _ z _ hy').2 ⟨y, hy, rfl⟩⟩

theorem backref_blind (n : Nat) : Blind r (Node.backref n).run := by
  intro x y' hy'
  rw [mem_run_backref]
  constructor
  · intro h
    rcases h with ⟨hn, rfl⟩ | ⟨s, t, hn, hx, rfl⟩
    · exact ⟨x, mem_run_backref.2 (.inl ⟨hn, rfl⟩), rfl⟩
    · -- the text of the group ends before the text behind the state
      obtain ⟨u, rfl⟩ : r <:+ t :=
        List.suffix_of_suffix_length_le ⟨x.rest, rfl⟩ ⟨s, hx.symm⟩ hy'
      have hrest : x.rest = s ++ u := by
        have hx' : x.rest ++ r = s ++ (u ++ r) := hx
        rw [← List.append_assoc] at hx'
        exact List.append_cancel_right hx'
      exact ⟨_, mem_run_backref.2 (.inr ⟨s, u, hn, hrest, rfl⟩), rfl⟩
  · intro h
    obtain ⟨y, hy, rfl⟩ := h
    rcases mem_run_backref.1 hy with ⟨hn, rfl⟩ | ⟨s, t, hn, hx, rfl⟩
    · exact .inl ⟨hn, rfl⟩
    · exact .inr ⟨s, t ++ r, hn, by simp [State.append, hx], rfl⟩

theorem seq_blind {a b : Node} (ha : Blind r a.run) (hb : Blind r b.run) :
    Blind r (Node.seq a b).run := by
  intro x y' hy'
  simp only [mem_run_seq]
  constructor
  · intro h
    obtain ⟨z', hz', hy⟩ := h
    have hlen := (run_suffix hy).length_le
    obtain ⟨z, hz, rfl⟩ := (ha x z' (by omega)).1 hz'
    obtain ⟨y, hyz, rfl⟩ := (hb z y' hy').1 hy
    exact ⟨y, ⟨z, hz, hyz⟩, rfl⟩
  · intro h
    obtain ⟨y, ⟨z, hz, hy⟩, rfl⟩ := h
    have hlen : r.length ≤ (z.append r).rest.length := by
      rw [length_append_rest]
      omega
    exact ⟨z.append r, (ha x _ hlen).2 ⟨z, hz, rfl⟩, (hb z _ hy').2 ⟨y, hy, rfl⟩⟩

/-- A capture takes what has been consumed, whatever is behind it. -/
theorem capture_append (n : Nat) {x y : State} :
    (x.append r).capture n (y.append r) = (x.capture n y).append r := by
  have hlen : (x.append r).rest.length - (y.append r).rest.length =
      x.rest.length - y.rest.length := by
    rw [length_append_rest, length_append_rest]
    omega
  have htake : (x.rest ++ r).take (x.rest.length - y.rest.length) =
      x.rest.take (x.rest.length - y.rest.length) :=
    List.take_append_of_le_length (Nat.sub_le _ _)
  rw [State.capture, State.capture, hlen]
  show State.mk y.prev (y.rest ++ r) (Function.update y.caps n (some ((x.rest ++ r).take _))) = _
  rw [htake]
  rfl

/-- **A plain tree is blind** for a text that does not go on with a word. -/
theorem run_blind {a : Node} (ha : a.plain = true) (hr : isWord r.head? = false) :
    Blind r a.run := by
  induction a with
  | empty => exact test_blind (p := fun _ => True) (fun _ _ => by simp) fun _ => Iff.rfl
  | char c => exact one_blind _
  | any => exact one_blind _
  | bracket neg items => exact one_blind _
  | backref n => exact backref_blind n
  | bol => exact test_blind (p := fun x => x.prev = []) (fun _ _ => mem_run_bol) fun _ => Iff.rfl
  | eol => cases ha
  | wordBoundary neg =>
    refine test_blind (fun _ _ => mem_run_wordBoundary) fun x => ?_
    -- at the end of the text there is no word, and neither is there one behind it
    have hhead : isWord (x.append r).rest.head? = isWord x.rest.head? := by
      show isWord (x.rest ++ r).head? = _
      cases x.rest with
      | nil => exact hr
      | cons c s => rfl
    rw [hhead]
    rfl
  | seq a b iha ihb =>
    obtain ⟨ha, hb⟩ := Bool.and_eq_true_iff.1 ha
    exact seq_blind (iha ha) (ihb hb)
  | alt a b iha ihb =>
    obtain ⟨ha, hb⟩ := Bool.and_eq_true_iff.1 ha
    intro x y' hy'
    simp only [mem_run_alt, iha ha x y' hy', ihb hb x y' hy', or_and_right, exists_or]
  | group n a ih =>
    intro x y' hy'
    simp only [mem_run_group]
    constructor
    · intro h
      obtain ⟨z', hz', rfl⟩ := h
      obtain ⟨z, hz, rfl⟩ := (ih ha x z' hy').1 hz'
      exact ⟨_, ⟨z, hz, rfl⟩, (capture_append n).symm⟩
    · intro h
      obtain ⟨_, ⟨z, hz, rfl⟩, rfl⟩ := h
      exact ⟨z.append r, (ih ha x (z.append r) hy').2 ⟨z, hz, rfl⟩, capture_append n⟩
  | look neg a ih => cases ha
  | rep min max greedy a ih =>
    have hm : Blind r fun x => a.run (x.reset a.captures) := fun x => ih ha (x.reset a.captures)
    exact repeated_blind hm (fun x _ hy => run_suffix (x := x.reset a.captures) hy) min max

end

/-- **A plain tree matches a text in the same way before another one.** -/
theorem Node.matchesBefore_iff {a : Node} (ha : a.plain = true) {s r : List Char}
    (hr : isWord r.head? = false) : a.MatchesBefore s r ↔ a.MatchesBefore s [] := by
  have hstart : State.start (s ++ r) = (State.start s).append r := rfl
  rw [Node.MatchesBefore, Node.MatchesBefore, hstart, List.append_nil]
  constructor
  · intro h
    obtain ⟨y', hy', hrest⟩ := h
    obtain ⟨y, hy, rfl⟩ := (run_blind ha hr _ y' (Nat.le_of_eq (congrArg _ hrest.symm))).1 hy'
    exact ⟨y, hy, List.append_left_eq_self.1 hrest⟩
  · intro h
    obtain ⟨y, hy, hrest⟩ := h
    have hr' : (y.append r).rest = r := by
      show y.rest ++ r = r
      rw [hrest, List.nil_append]
    have hle := Nat.le_of_eq (congrArg List.length hr'.symm)
    exact ⟨y.append r, (run_blind ha hr _ _ hle).2 ⟨y, hy, rfl⟩, hr'⟩

end Ecma
