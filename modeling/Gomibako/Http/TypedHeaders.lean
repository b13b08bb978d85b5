import Gomibako.Beast.Message

/-!
# Typed headers

`ETag` of the typed headers: the encoder `ETag.value`, which escapes nothing, and the decoder
`ETag.parse`, which looks for the first and for the last double quote and takes what lies between.
Parsing undoes encoding for every tag whatsoever (`ETag.parse_value`). The grammar of entity-tags
the class documents is `EntityTag`; the decoder accepts every string with a quote in it
(`ETag.parse_of_quote`), so it agrees with the grammar on a string only if the string has no quote
or is an entity-tag (`ETag.parseExact_iff`). Of the other headers there is only what `set` is given.
-/

namespace Gomibako

/-- The `ETag` header: a tag, and whether it is a weak one. Reference: `ETag`
(`typed_headers.hpp:45`). -/
structure ETag where
  tag : Str
  weak : Bool
deriving DecidableEq, Repr

namespace ETag

/-- The `QUOTE` of the source, a double quote. -/
def quote : Str := ['"']

/-- `ETag::parse`: the text between the first and the last double quote is the tag, which is weak if
`W/` is before the first. Reference: `ETag::parse` (`typed_headers.cpp:13`). -/
def parse (rawHeader : Str) : Except StdException (Option ETag) := do
  match rawHeader.find quote with
  | none => return none
  | some left =>
    let weak ← if left > 0 then rawHeader.compareEq 0 left ['W', '/'] else .ok false
    match rawHeader.findLastOf quote with
    | none => return none
    | some right =>
      let tag ← rawHeader.substr (left + 1) (sizeSub (sizeSub right left) 1)
      return some ⟨tag, weak⟩

/-- `ETag::value`: the tag between two double quotes, and `W/` before them if it is weak. Reference:
`ETag::value` (`typed_headers.cpp:32`). -/
def value (e : ETag) : Str :=
  (if e.weak then ['W', '/', '"'] else ['"']) ++ e.tag ++ ['"']

/-! ## What the decoder computes -/

/-- The decoder on a string with quotes: the first is after `l`, the last before `r`. The weak flag
is the comparison of `l`, and the text runs from the first quote over the wrapped distance. -/
theorem parse_of_quotes {raw l l' r r' : Str} (hl : raw = l ++ '"' :: r) (hln : '"' ∉ l)
    (hr : raw = l' ++ '"' :: r') (hrn : '"' ∉ r') :
    parse raw = .ok (some ⟨r.take (sizeSub (sizeSub l'.length l.length) 1), l == ['W', '/']⟩) := by
  have hf : raw.find quote = some l.length := Str.find_single_eq_some.2 ⟨l, r, hl, hln, rfl⟩
  have hg : raw.findLastOf quote = some l'.length :=
    Str.findLastOf_single_eq_some.2 ⟨l', r', hr, hrn, rfl⟩
  have hs : ∀ n, raw.substr (l.length + 1) n = .ok (r.take n) := fun n => by
    rw [Str.substr, if_pos (by simp [hl]), hl, ← List.singleton_append, ← List.append_assoc]
    rw [List.drop_left' (by simp)]
  have hw : 0 < l.length → raw.compareEq 0 l.length ['W', '/'] = .ok (l == ['W', '/']) :=
    fun _ => by simp [Str.compareEq, Str.substr, hl, Except.map]
  simp only [parse, hf, hg, hs, bind, Except.bind, pure, Except.pure]
  split
  · next hpos => rw [hw hpos]
  · next hpos =>
    obtain rfl : l = [] := List.length_eq_zero_iff.1 (by omega)
    rfl

/-- A string without a quote has no entity-tag in it. -/
theorem parse_of_no_quote {raw : Str} (h : '"' ∉ raw) : parse raw = .ok none := by
  simp only [parse, quote, Str.find_single_eq_none.2 h]
  rfl

/-- A string with a quote is accepted, whatever else is in it. -/
theorem parse_of_quote {raw : Str} (h : '"' ∈ raw) : ∃ e, parse raw = .ok (some e) := by
  obtain ⟨l, r, hl, hln⟩ := List.eq_append_cons_of_mem h
  obtain ⟨r', l', hr, hrn⟩ := List.eq_append_cons_of_mem (List.mem_reverse.2 h)
  have hr' : raw = l'.reverse ++ '"' :: r'.reverse := by simpa using congrArg List.reverse hr
  exact ⟨_, parse_of_quotes hl hln hr' (by simpa using hrn)⟩

/-- A quoted text after a prefix without quotes parses to the text between the outer quotes,
quotes inside it included: the last quote is the closing one. -/
theorem parse_quoted {l : Str} (tag : Str) (hl : '"' ∉ l) :
    parse (l ++ '"' :: (tag ++ ['"'])) = .ok (some ⟨tag, l == ['W', '/']⟩) := by
  have hlast : l ++ '"' :: (tag ++ ['"']) = (l ++ '"' :: tag) ++ '"' :: [] := by simp
  rw [parse_of_quotes rfl hl hlast (by simp)]
  have hlen : sizeSub (sizeSub (l ++ '"' :: tag).length l.length) 1 = tag.length := by
    simp only [List.length_append, List.length_cons, sizeSub]
    split <;> split <;> omega
  rw [hlen, List.take_left' rfl]

/-! ## Parsing undoes encoding -/

/-- What `value` writes before the opening quote: `W/` for a weak tag, and nothing for a strong
one. -/
def weakPrefix (weak : Bool) : Str := if weak then ['W', '/'] else []

theorem value_eq (e : ETag) : e.value = weakPrefix e.weak ++ '"' :: (e.tag ++ ['"']) := by
  obtain ⟨tag, weak⟩ := e
  cases weak <;> rfl

/-- Neither prefix holds a quote, and the two are told apart by the comparison with `W/`. -/
theorem weakPrefix_spec (weak : Bool) :
    '"' ∉ weakPrefix weak ∧ (weakPrefix weak == ['W', '/']) = weak := by
  cases weak <;> decide

/-- The decoder on a prefix of the encoder and a quoted text. -/
theorem parse_weakPrefix (weak : Bool) (tag : Str) :
    parse (weakPrefix weak ++ '"' :: (tag ++ ['"'])) = .ok (some ⟨tag, weak⟩) := by
  rw [parse_quoted tag (weakPrefix_spec weak).1, (weakPrefix_spec weak).2]

/-- **Parsing undoes encoding**, for every tag: empty, with quotes in it, or starting with `W/`.
So `value` determines the tag and the flag. -/
theorem parse_value : (∀ e : ETag, parse e.value = .ok (some e)) ∧ Function.Injective value := by
  have h : ∀ e : ETag, parse e.value = .ok (some e) := fun e => by
    rw [value_eq, parse_weakPrefix]
  refine ⟨h, fun e e' he => ?_⟩
  have := (h e).symm.trans (he ▸ h e')
  simpa using this

/-! ## The documented grammar -/

/-- `etagc`: a visible character other than the double quote, or an obs-text byte. -/
def isEtagc (c : Char) : Bool :=
  c.toNat = 0x21 || (0x23 ≤ c.toNat && c.toNat ≤ 0x7E) || (0x80 ≤ c.toNat && c.toNat ≤ 0xFF)

/-- The entity-tags: an optional `W/`, and `etagc` characters between two quotes. -/
def EntityTag (raw : Str) (e : ETag) : Prop :=
  raw = (if e.weak then ['W', '/'] else []) ++ '"' :: (e.tag ++ ['"']) ∧ e.tag.all isEtagc

/-- On `raw` the decoder is the grammar's: it returns the entity-tag that `raw` is, and nothing for
a string that is none; the length it hands to `substr` does not wrap; and the encoder gives `raw`
back. -/
structure ParseExact (raw : Str) : Prop where
  accepts : ∀ e, parse raw = .ok (some e) ↔ EntityTag raw e
  rejects : (¬ ∃ e, EntityTag raw e) → parse raw = .ok none
  noWrap : ∀ left right, raw.find quote = some left → raw.findLastOf quote = some right →
    left + 1 ≤ right
  reencodes : ∀ e, parse raw = .ok (some e) → e.value = raw

/-- The decoder returns the entity-tag that a string is, as there is no quote in its tag. -/
theorem EntityTag.parse {raw : Str} {e : ETag} (h : EntityTag raw e) :
    parse raw = .ok (some e) := by
  rw [h.1]
  exact parse_weakPrefix e.weak e.tag

/-- In an entity-tag the closing quote is after the opening one. -/
theorem EntityTag.noWrap {raw : Str} {e : ETag} (h : EntityTag raw e) {left right : Nat}
    (hl : raw.find quote = some left) (hr : raw.findLastOf quote = some right) :
    left + 1 ≤ right := by
  have hraw : raw = weakPrefix e.weak ++ '"' :: (e.tag ++ ['"']) := h.1
  have hf := Str.find_single_eq_some.2 ⟨_, _, hraw, (weakPrefix_spec e.weak).1, rfl⟩
  have hg : raw.findLastOf ['"'] = some (weakPrefix e.weak ++ '"' :: e.tag).length :=
    Str.findLastOf_single_eq_some.2 ⟨_, [], by simp [hraw], by simp, rfl⟩
  cases hf.symm.trans hl
  cases hg.symm.trans hr
  simp

/-- **When the decoder is exact**: on the strings without a quote and on the entity-tags, and on no
others, since every string with a quote is accepted. -/
theorem parseExact_iff (raw : Str) :
    ParseExact raw ↔ '"' ∉ raw ∨ ∃ e, EntityTag raw e := by
  constructor
  · intro h
    by_cases hq : '"' ∈ raw
    · obtain ⟨e, he⟩ := parse_of_quote hq
      exact .inr ⟨e, (h.accepts e).1 he⟩
    · exact .inl hq
  · rintro (hq | ⟨e, he⟩)
    · have hnone := parse_of_no_quote hq
      refine ⟨fun e => ⟨fun h => ?_, fun h => h.parse⟩, fun _ => hnone, fun _ _ hl => ?_,
        fun e h => ?_⟩
      · cases hnone.symm.trans h
      · rw [quote, Str.find_single_eq_none.2 hq] at hl
        cases hl
      · cases hnone.symm.trans h
    · have huniq : ∀ e', ETag.parse raw = .ok (some e') → e = e' := fun e' h => by
        simpa using he.parse.symm.trans h
      refine ⟨fun e' => ⟨fun h => huniq e' h ▸ he, fun h => h.parse⟩, fun h => absurd ⟨e, he⟩ h,
        fun _ _ => he.noWrap, fun e' h => ?_⟩
      rw [← huniq e' h, value_eq, he.1]
      rfl

/-- A lone quote has no closing quote, but it is accepted as the empty strong tag. -/
theorem parse_lone_quote : ¬ ParseExact ['"'] := fun h => by
  have := (h.accepts ⟨[], false⟩).1 (by decide)
  simp [EntityTag] at this

end ETag

/-! ## The other headers -/

/-- `TypedHeader`, by what its members return: the name of the field, and its value. Reference:
`TypedHeader` (`typed_headers.hpp:34`). -/
structure TypedHeader where
  name : Str
  value : Str
deriving DecidableEq, Repr

namespace TypedHeader

/-- The `Server` header, with the name of the server as its value. Reference: `Server`
(`typed_headers.hpp:75`). -/
def server (name : Str) : TypedHeader := ⟨"Server".toList, name⟩

/-- The `ContentType` header, with the media type as its value. Reference: `ContentType`
(`typed_headers.cpp:54`). -/
def contentType (type : Str) : TypedHeader := ⟨"Content-Type".toList, type⟩

/-- `ContentType::json`, which the handlers set for a property tree. Reference: `ContentType::json`
(`typed_headers.cpp:57`). -/
def json : TypedHeader := contentType "application/json".toList

/-- `ContentType::plain_text`, which the listener sets for its error responses. -/
def plainText : TypedHeader := contentType "text/plain".toList

/-- `ContentType::html`, which the page of the root is sent as. -/
def html : TypedHeader := contentType "text/html".toList

/-- `ContentType::octet_stream`, which random bytes are sent as. -/
def octetStream : TypedHeader := contentType "application/octet_stream".toList

end TypedHeader

/-- `header::set`: the field of the typed header is set to its value. Reference: `header::set`
(`typed_headers.hpp:24`). -/
def Beast.Response.setHeader (message : Beast.Response) (header : TypedHeader) :
    Except StdException Beast.Response :=
  message.set header.name header.value

end Gomibako
