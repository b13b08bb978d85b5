import Gomibako.Beast.Scanners

/-!
# Line ends and empty lines

`find_eom` goes on up to four octets at a time, but it finds the first empty line (`findEom_cons`),
and it may go on three octets before the end of what it has seen (`findEom_resume`). There is no
empty line in a field (`parseField_lines`).
-/

namespace Gomibako.Beast

/-! ## Line ends -/

/-- The end of a line, a CR with an LF behind it. -/
def crlf : Str := ['\r', '\n']

/-- A line does not end at an octet other than a CR, so `find_eol` goes on behind it. -/
theorem findEol_cons_of_ne {c : Char} (hc : c ≠ '\r') (s : Str) : findEol (c :: s) = findEol s := by
  rw [findEol.eq_def]
  exact if_neg hc

/-- No line ends in a text without a CR, so `find_eol` goes on behind it. -/
theorem findEol_append_left {l : Str} (hl : '\r' ∉ l) (s : Str) : findEol (l ++ s) = findEol s := by
  induction l with
  | nil => rfl
  | cons c l ih =>
    have hc : c ≠ '\r' := fun h => hl (h ▸ List.mem_cons_self)
    rw [List.cons_append, findEol_cons_of_ne hc]
    exact ih fun h => hl (.tail _ h)

/-- A line end is found behind what has no CR. -/
theorem findEol_eq_some_iff {s r : Str} :
    findEol s = .ok (some r) ↔ ∃ l, '\r' ∉ l ∧ s = l ++ crlf ++ r := by
  constructor
  · intro h
    induction s with
    | nil => cases h
    | cons c s ih =>
      unfold findEol at h
      split at h
      · next hc =>
        split at h
        · cases h
        · next d s =>
          split at h
          · next hd =>
            cases h
            exact ⟨[], List.not_mem_nil, by rw [hc, hd]; rfl⟩
          · cases h
      · next hc =>
        obtain ⟨l, hl, rfl⟩ := ih h
        refine ⟨c :: l, fun hmem => ?_, rfl⟩
        rcases List.mem_cons.1 hmem with heq | hmem
        · exact hc heq.symm
        · exact hl hmem
  · rintro ⟨l, hl, rfl⟩
    rw [List.append_assoc, findEol_append_left hl]
    rfl

/-- A line end stays where it is when there is more text behind it. -/
theorem findEol_append {s r : Str} (h : findEol s = .ok (some r)) (t : Str) :
    findEol (s ++ t) = .ok (some (r ++ t)) := by
  obtain ⟨l, hl, rfl⟩ := findEol_eq_some_iff.1 h
  exact findEol_eq_some_iff.2 ⟨l, hl, by simp only [List.append_assoc]⟩

/-- A line end is found in what it is in. -/
theorem findEol_of_append {s t r : Str} (h : findEol (s ++ t) = .ok (some r))
    (hlen : t.length ≤ r.length) : ∃ r', r = r' ++ t ∧ findEol s = .ok (some r') := by
  obtain ⟨l, hl, heq⟩ := findEol_eq_some_iff.1 h
  obtain ⟨r', rfl⟩ : t <:+ r :=
    List.suffix_of_suffix_length_le (List.suffix_append s t) ⟨l ++ crlf, heq.symm⟩ hlen
  rw [← List.append_assoc] at heq
  exact ⟨r', rfl, findEol_eq_some_iff.2 ⟨l, hl, List.append_cancel_right heq⟩⟩

/-- A bad line end, a CR without an LF behind it, stays one when there is more text. -/
theorem findEol_error_append {s : Str} {e : ParseError} (h : findEol s = .error e) (t : Str) :
    findEol (s ++ t) = .error e := by
  induction s with
  | nil => cases h
  | cons c s ih =>
    rw [List.cons_append]
    unfold findEol at h ⊢
    split at h
    · next hc =>
      rw [if_pos hc]
      split at h
      · cases h
      · next d s =>
        split at h
        · cases h
        · next hd =>
          rw [List.cons_append]
          simp only [if_neg hd]
          exact h
    · next hc =>
      rw [if_neg hc]
      exact ih h

/-- Where no line end is found, a CR can only be the last octet. -/
theorem not_mem_of_findEol_none {s : Str} (h : findEol s = .ok none) :
    '\r' ∉ s.take (s.length - 1) := by
  induction s with
  | nil => exact List.not_mem_nil
  | cons c s ih =>
    unfold findEol at h
    split at h
    · split at h
      · exact List.not_mem_nil
      · split at h <;> cases h
    · next hc =>
      have hs := ih h
      cases s with
      | nil => exact List.not_mem_nil
      | cons d s =>
        simp only [List.length_cons, Nat.add_sub_cancel, List.take_succ_cons] at hs ⊢
        intro hmem
        rcases List.mem_cons.1 hmem with heq | hmem
        · exact hc heq.symm
        · exact hs hmem

/-! ## Empty lines -/

/-- What `find_eom` looks for: the end of a line and an empty line. -/
def eom : Str := crlf ++ crlf

/-- **`find_eom` finds the first empty line**, although it does not look at every octet. -/
theorem findEom_cons (c : Char) (s : Str) :
    findEom (c :: s) = if eom <+: c :: s then some (s.drop 3) else findEom s := by
  induction hn : s.length using Nat.strong_induction_on generalizing c s with
  | _ n ih =>
    match s, hn with
    | [], _ | [_], _ | [_, _], _ =>
      have hshort : ∀ {u : Str}, u.length < 4 → ¬ eom <+: u := fun hu hpre => by
        have := hpre.length_le
        simp only [eom, crlf, List.length_append, List.length_cons, List.length_nil] at this
        omega
      rw [if_neg (hshort (by simp))]
      rfl
    | b :: d :: e :: s, hn =>
      simp only [List.length_cons] at hn
      have h₁ : findEom (e :: s) = if eom <+: e :: s then some (s.drop 3) else findEom s :=
        ih s.length (by omega) e s rfl
      have h₂ : findEom (d :: e :: s) =
          if eom <+: d :: e :: s then some ((e :: s).drop 3) else findEom (e :: s) :=
        ih (e :: s).length (by simp only [List.length_cons]; omega) d (e :: s) rfl
      have h₃ : findEom (b :: d :: e :: s) =
          if eom <+: b :: d :: e :: s then some ((d :: e :: s).drop 3)
            else findEom (d :: e :: s) :=
        ih (d :: e :: s).length (by simp only [List.length_cons]; omega) b (d :: e :: s) rfl
      simp only [eom, crlf, List.cons_append, List.nil_append, List.cons_prefix_cons] at h₁ h₂ h₃ ⊢
      rw [findEom]
      by_cases he : e = '\n'
      · subst he
        by_cases hd : d = '\r'
        · subst hd
          by_cases hb : b = '\n'
          · subst hb
            by_cases hc : c = '\r'
            · subst hc
              simp
            · have hc' : ¬ '\r' = c := fun h => hc h.symm
              simp [hc, hc', h₃]
          · have hb' : ¬ '\n' = b := fun h => hb h.symm
            simp [hb, hb', h₃]
        · have hd' : ¬ '\r' = d := fun h => hd h.symm
          simp [hd, hd', h₁, h₂, h₃]
      · have he' : ¬ '\n' = e := fun h => he h.symm
        by_cases her : e = '\r'
        · simp [her]
        · have her' : ¬ '\r' = e := fun h => her h.symm
          simp [he, he', her, her', h₁, h₂, h₃]

/-- An empty line does not start at an octet other than a CR, so `find_eom` goes on behind it. -/
theorem findEom_cons_of_ne {c : Char} (hc : c ≠ '\r') (s : Str) : findEom (c :: s) = findEom s := by
  rw [findEom_cons, if_neg]
  intro hpre
  exact hc (List.cons_prefix_cons.1 hpre).1.symm

/-- A line that starts with another octet is not empty. -/
theorem findEom_crlf_cons {c : Char} (hc : c ≠ '\r') (s : Str) :
    findEom (crlf ++ c :: s) = findEom s := by
  have hnot : ¬ eom <+: '\r' :: '\n' :: c :: s := fun hpre =>
    hc (List.cons_prefix_cons.1 (List.cons_prefix_cons.1
      (List.cons_prefix_cons.1 hpre).2).2).1.symm
  show findEom ('\r' :: '\n' :: c :: s) = findEom s
  rw [findEom_cons, if_neg hnot, findEom_cons_of_ne (by decide), findEom_cons_of_ne hc]

/-- What `find_eom` returns is the text behind an empty line. -/
theorem eq_of_findEom {s r : Str} (h : findEom s = some r) : ∃ l, s = l ++ eom ++ r := by
  induction s with
  | nil => cases h
  | cons c s ih =>
    rw [findEom_cons] at h
    split at h
    · next hpre =>
      obtain ⟨t, ht⟩ := hpre
      cases ht
      cases h
      exact ⟨[], rfl⟩
    · obtain ⟨l, rfl⟩ := ih h
      exact ⟨c :: l, rfl⟩

/-- If there is an empty line in a text, `find_eom` finds one, though it may be another one. -/
theorem findEom_isSome (l r : Str) : (findEom (l ++ eom ++ r)).isSome := by
  induction l with
  | nil =>
    have hpre : eom <+: '\r' :: ('\n' :: (crlf ++ r)) := List.prefix_append eom r
    show (findEom ('\r' :: ('\n' :: (crlf ++ r)))).isSome
    rw [findEom_cons, if_pos hpre]
    rfl
  | cons c l ih =>
    show (findEom (c :: (l ++ eom ++ r))).isSome
    rw [findEom_cons]
    split
    · rfl
    · exact ih

/-- With more text behind, an empty line starts at the same octets, if the text is long enough. -/
theorem eom_prefix_append {s : Str} (hs : 4 ≤ s.length) (t : Str) :
    eom <+: s ++ t ↔ eom <+: s := by
  refine ⟨fun h => ?_, fun h => h.trans (List.prefix_append s t)⟩
  exact List.prefix_of_prefix_length_le h (List.prefix_append s t) hs

/-- **Where the search may go on**: three octets before the end of a text without an empty line. -/
theorem findEom_resume {s : Str} (h : findEom s = none) (t : Str) :
    findEom (s ++ t) = findEom ((s ++ t).drop (s.length - 3)) := by
  induction s with
  | nil => rfl
  | cons c s ih =>
    by_cases hlen : s.length < 3
    · have hzero : (c :: s).length - 3 = 0 := by
        rw [List.length_cons]
        omega
      rw [hzero, List.drop_zero]
    · have hfour : 4 ≤ (c :: s).length := by
        rw [List.length_cons]
        omega
      have heom : eom <+: c :: (s ++ t) ↔ eom <+: c :: s := eom_prefix_append hfour t
      have hnext : (c :: s).length - 3 = (s.length - 3) + 1 := by
        rw [List.length_cons]
        omega
      rw [findEom_cons] at h
      split at h
      · cases h
      · next hpre =>
        rw [hnext, List.cons_append, List.drop_succ_cons, findEom_cons,
          if_neg (mt heom.1 hpre)]
        exact ih h

/-! ## The lines of a field -/

/-- What is left of the text before the scanner of a value: behind a CR, or behind a line end, a
line end has started. -/
def ValuePos.before : ValuePos → Str
  | .lead | .text => []
  | .cr => ['\r']
  | .eol => crlf

/-- Behind the end of a line, a value goes on with a space or it ends. -/
theorem parseValueFrom_eol {buf rev s value r : Str} {c : Char}
    (h : parseValueFrom .eol buf rev (c :: s) = .ok (value, r)) :
    (isOws c = true ∧ ∃ buf', parseValueFrom .lead buf' [] s = .ok (value, r)) ∨ r = c :: s := by
  rw [parseValueFrom] at h
  simp only at h
  split_ifs at h with hlimit hows
  all_goals first
    | exact .inl ⟨by assumption, _, h⟩
    | cases h; exact .inr rfl

/-- A value ends with a line end, and there is no empty line in it. -/
theorem parseValueFrom_lines {pos : ValuePos} {buf rev s value r : Str}
    (h : parseValueFrom pos buf rev s = .ok (value, r)) :
    r ≠ [] ∧ crlf ++ r <:+ pos.before ++ s ∧ findEom (pos.before ++ s) = findEom (crlf ++ r) := by
  induction s generalizing pos buf rev with
  | nil =>
    rw [parseValueFrom] at h
    cases h
  | cons c s ih =>
    -- an octet that is no CR is before the line end
    have hskip : ∀ {pos' : ValuePos}, pos'.before = [] → c ≠ '\r' →
        (r ≠ [] ∧ crlf ++ r <:+ pos'.before ++ s ∧
          findEom (pos'.before ++ s) = findEom (crlf ++ r)) →
        r ≠ [] ∧ crlf ++ r <:+ c :: s ∧ findEom (c :: s) = findEom (crlf ++ r) := by
      intro pos' hpos hc hr
      rw [hpos, List.nil_append] at hr
      rw [findEom_cons_of_ne hc]
      exact ⟨hr.1, hr.2.1.trans (List.suffix_cons c s), hr.2.2⟩
    cases pos with
    | lead =>
      rw [parseValueFrom] at h
      split_ifs at h with hows hcontrol hcr
      · exact @hskip .lead rfl (by rintro rfl; cases hows) (ih h)
      · exact @hskip .text rfl (by rintro rfl; cases hcontrol) (ih h)
      · subst hcr
        exact ih h
    | text =>
      rw [parseValueFrom] at h
      split_ifs at h with hcontrol hcr
      · exact @hskip .text rfl (by rintro rfl; cases hcontrol) (ih h)
      · subst hcr
        exact ih h
    | cr =>
      rw [parseValueFrom] at h
      split_ifs at h with hlf
      subst hlf
      exact ih h
    | eol =>
      rcases parseValueFrom_eol h with ⟨hows, buf', h⟩ | rfl
      · have hc : c ≠ '\r' := by
          rintro rfl
          cases hows
        obtain ⟨hr, hsuffix, heom⟩ := ih h
        refine ⟨hr, hsuffix.trans ?_, ?_⟩
        · exact (List.suffix_cons c s).trans (List.suffix_append crlf _)
        · rw [← heom]
          exact findEom_crlf_cons hc s
      · exact ⟨List.cons_ne_nil _ _, List.suffix_rfl, rfl⟩

/-- A field ends with a line end, there is something behind it, and there is no empty line in it nor
before it. -/
theorem parseField_lines {s name value r : Str} (h : parseField s = .ok (name, value, r)) :
    r ≠ [] ∧ crlf ++ r <:+ s ∧ findEom (crlf ++ s) = findEom (crlf ++ r) := by
  unfold parseField at h
  split at h
  · cases h
  · next c behind hbehind =>
    split_ifs at h with hcolon hname
    obtain ⟨⟨v, r'⟩, hv, heq⟩ := Except.map_eq_ok_iff.1 h
    cases heq
    have hcolon' : c = ':' := not_not.1 hcolon
    obtain ⟨hr, hsuffix, heom⟩ := parseValueFrom_lines hv
    simp only [ValuePos.before, List.nil_append] at hsuffix heom
    have hs : s = s.takeWhile isTokenChar ++ ':' :: behind := by
      rw [← hcolon', ← hbehind, List.takeWhile_append_dropWhile]
    have hskip : ∀ w : Str, (∀ d ∈ w, isTokenChar d = true) →
        findEom (w ++ ':' :: behind) = findEom behind := by
      intro w
      induction w with
      | nil => exact fun _ => findEom_cons_of_ne (by decide) behind
      | cons d w ih =>
        intro hw
        have hd : d ≠ '\r' := by
          rintro rfl
          cases hw _ List.mem_cons_self
        rw [List.cons_append, findEom_cons_of_ne hd]
        exact ih fun e he => hw e (.tail _ he)
    have htoken : ∀ d ∈ s.takeWhile isTokenChar, isTokenChar d = true :=
      fun d hd => List.mem_takeWhile_imp hd
    refine ⟨hr, hsuffix.trans ?_, ?_⟩
    · rw [hs]
      exact (List.suffix_cons ':' behind).trans (List.suffix_append _ _)
    · rw [← heom, ← hskip _ htoken, ← hs]
      -- the name starts with another octet than CR
      cases s with
      | nil => cases hbehind
      | cons d s =>
        have hd : d ≠ '\r' := by
          rintro rfl
          exact hname rfl
        rw [findEom_cons_of_ne hd]
        exact findEom_crlf_cons hd s

/-! ## The size of a chunk -/

/-- The digits of a number are followed by another octet, whatever is behind. -/
theorem parseHexFrom_append {v w : Nat} {s r : Str} (h : parseHexFrom v s = some (w, r))
    (hr : r ≠ []) (t : Str) : parseHexFrom v (s ++ t) = some (w, r ++ t) := by
  induction s generalizing v with
  | nil =>
    cases h
    exact absurd rfl hr
  | cons c s ih =>
    rw [List.cons_append]
    unfold parseHexFrom at h ⊢
    cases hd : unhex c with
    | none =>
      rw [hd] at h
      cases h
      rfl
    | some d =>
      rw [hd] at h
      simp only at h ⊢
      split at h
      · cases h
      · next hlt =>
        rw [if_neg hlt]
        exact ih h

/-- The number before a CR needs no more than what is before it. -/
theorem parseHexFrom_of_append {v w : Nat} {s t r : Str} (hs : '\r' ∈ s)
    (h : parseHexFrom v (s ++ t) = some (w, r)) :
    ∃ r', r = r' ++ t ∧ r' ≠ [] ∧ parseHexFrom v s = some (w, r') := by
  induction s generalizing v with
  | nil => cases hs
  | cons c s ih =>
    rw [List.cons_append] at h
    unfold parseHexFrom at h ⊢
    cases hd : unhex c with
    | none =>
      rw [hd] at h
      cases h
      exact ⟨c :: s, rfl, List.cons_ne_nil _ _, rfl⟩
    | some d =>
      have hmem : '\r' ∈ s := by
        rcases List.mem_cons.1 hs with rfl | hs
        · cases hd
        · exact hs
      rw [hd] at h
      simp only at h ⊢
      split at h
      · cases h
      · next hlt =>
        rw [if_neg hlt]
        exact ih hmem h

/-- There is no CR in the digits of a number that `parse_hex` goes on with. -/
theorem parseHexFrom_digits {v w : Nat} {s r : Str} (h : parseHexFrom v s = some (w, r)) :
    ∃ l, '\r' ∉ l ∧ s = l ++ r := by
  induction s generalizing v with
  | nil =>
    cases h
    exact ⟨[], List.not_mem_nil, rfl⟩
  | cons c s ih =>
    unfold parseHexFrom at h
    cases hd : unhex c with
    | none =>
      rw [hd] at h
      cases h
      exact ⟨[], List.not_mem_nil, rfl⟩
    | some d =>
      rw [hd] at h
      simp only at h
      split at h
      · cases h
      · obtain ⟨l, hl, rfl⟩ := ih h
        refine ⟨c :: l, fun hmem => ?_, rfl⟩
        rcases List.mem_cons.1 hmem with rfl | hmem
        · cases hd
        · exact hl hmem

/-- A number stays the same if there is something behind it. -/
theorem parseHex_append {v : Nat} {s r : Str} (h : parseHex s = some (v, r)) (hr : r ≠ [])
    (t : Str) : parseHex (s ++ t) = some (v, r ++ t) := by
  cases s with
  | nil => cases h
  | cons c s =>
    obtain ⟨d, hd, hfrom⟩ := Option.bind_eq_some_iff.1 h
    exact Option.bind_eq_some_iff.2 ⟨d, hd, parseHexFrom_append hfrom hr t⟩

/-- The number before a CR needs no more than what is before it. -/
theorem parseHex_of_append {v : Nat} {s t r : Str} (hs : '\r' ∈ s)
    (h : parseHex (s ++ t) = some (v, r)) :
    ∃ r', r = r' ++ t ∧ r' ≠ [] ∧ parseHex s = some (v, r') := by
  cases s with
  | nil => cases hs
  | cons c s =>
    obtain ⟨d, hd, hfrom⟩ := Option.bind_eq_some_iff.1 h
    have hmem : '\r' ∈ s := by
      rcases List.mem_cons.1 hs with rfl | hs
      · cases hd
      · exact hs
    obtain ⟨r', hr, hne, hs'⟩ := parseHexFrom_of_append hmem hfrom
    exact ⟨r', hr, hne, Option.bind_eq_some_iff.2 ⟨d, hd, hs'⟩⟩

/-- There is no CR in a number that `parse_hex` reads. -/
theorem parseHex_digits {v : Nat} {s r : Str} (h : parseHex s = some (v, r)) :
    ∃ l, '\r' ∉ l ∧ s = l ++ r := by
  cases s with
  | nil => cases h
  | cons c s =>
    obtain ⟨d, hd, hfrom⟩ := Option.bind_eq_some_iff.1 h
    obtain ⟨l, hl, rfl⟩ := parseHexFrom_digits hfrom
    refine ⟨c :: l, fun hmem => ?_, rfl⟩
    rcases List.mem_cons.1 hmem with rfl | hmem
    · cases hd
    · exact hl hmem

end Gomibako.Beast
