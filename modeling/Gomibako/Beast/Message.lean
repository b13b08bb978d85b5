import Gomibako.Beast.Rfc7230
import Gomibako.Lib.Scanner

/-!
# Messages

The fields of a message as `basic_fields` keeps them in its list, the request methods (`verb`) and
their conversion from the text of a request line, requests and responses with a `dynamic_body`, and
`prepare_payload`. Setting a field replaces those of its name and no others
(`Fields.named_set`), so `prepare_payload` leaves one Content-Length, the length of the body
(`Fields.named_contentLength`).
-/

namespace Gomibako.Beast

/-! ## Fields -/

/-- An element of `basic_fields`, with its name as it was given and its value. Reference:
`basic_fields::value_type` (`fields.ipp:275`). -/
structure Field where
  name : Str
  value : Str
deriving DecidableEq, Repr

/-- The list of `basic_fields`, in the order it is iterated in. -/
abbrev Fields := List Field

/-- The field has the name, up to the case of the letters, which is how fields are looked up. -/
def Field.is (name : Str) (e : Field) : Bool := iequals name e.name

/-- `new_element`: the value is trimmed, and both texts must fit a 16-bit offset. Reference:
`basic_fields::new_element` (`fields.ipp:1126`). -/
def newElement (sname value : Str) : Except StdException Field :=
  if sname.length + 2 > 65535 then .error .lengthError
  else if value.length + 2 > 65535 then .error .lengthError
  else .ok ⟨sname, trim value⟩

namespace Fields

/-- A new element goes behind the last one of its name, which keeps duplicates together, or to the
end. Reference: `basic_fields::insert` (`fields.ipp:549`). -/
def insertElement (e : Field) : Fields → Fields
  | [] => [e]
  | f :: fs =>
    if Field.is e.name f && !fs.any (Field.is e.name) then f :: e :: fs
    else f :: insertElement e fs

/-- `insert`: a new field is added, and those of its name stay; what throws is the making of the
element. Reference: `basic_fields::insert` (`fields.ipp:544`). -/
def insert (fs : Fields) (sname value : Str) : Except StdException Fields :=
  (newElement sname value).map fun e => insertElement e fs

/-- `erase` of a name: all fields that have it are taken out. Reference: `basic_fields::erase`
(`fields.ipp:628`). -/
def erase (fs : Fields) (name : Str) : Fields := fs.filter fun f => !Field.is name f

/-- `set_element`: the elements of the name are replaced by the new one. Reference:
`basic_fields::set_element` (`fields.ipp:1166`). -/
def setElement (fs : Fields) (e : Field) : Fields := erase fs e.name ++ [e]

/-- `set`: the fields of the name are replaced by a new one; what throws is the making of the
element. Reference: `basic_fields::set` (`fields.ipp:595`). -/
def set (fs : Fields) (sname value : Str) : Except StdException Fields :=
  (newElement sname value).map (setElement fs)

/-- `find`: the first field of the name, in the order of the list. Reference: `basic_fields::find`
(`fields.ipp:697`). -/
def find (fs : Fields) (name : Str) : Option Field := fs.find? (Field.is name)

/-- `filter_token_list_last`: a last token that is `chunked` goes, the others are joined again. -/
def filterChunkedLast (value : Str) : Str :=
  let tokens := tokenList value
  ", ".toList.intercalate
    (if tokens.getLast?.any (iequals "chunked".toList) then tokens.dropLast else tokens)

/-- `set_chunked_impl(false)`: the last coding is taken out of the Transfer-Encoding if it is
`chunked`, and the field is erased if it has no other one. Reference:
`basic_fields::set_chunked_impl` (`fields.ipp:973`). -/
def unsetChunked (fs : Fields) : Except StdException Fields :=
  match fs.find "Transfer-Encoding".toList with
  | none => .ok fs
  | some e =>
    let buf := filterChunkedLast e.value
    if buf = [] then .ok (fs.erase "Transfer-Encoding".toList)
    else fs.set "Transfer-Encoding".toList buf

/-- `message::content_length(n)`: the length of the body is set, and chunks are no longer announced.
Reference: `message::content_length` (`message.ipp:331`). -/
def contentLength (fs : Fields) (n : Nat) : Except StdException Fields :=
  (fs.set "Content-Length".toList (Nat.toDigits 10 n)).bind unsetChunked

end Fields

/-! ## Requests and responses -/

/-- `verb`: the methods that have a name, in the order of the source. Reference: `verb`
(`verb.hpp:26`). -/
inductive Verb where
  | unknown
  | delete | get | head | post | put | connect | options | trace
  | copy | lock | mkcol | move | propfind | proppatch | search | unlock | bind | rebind | unbind
  | acl
  | report | mkactivity | checkout | merge
  | msearch | notify | subscribe | unsubscribe
  | patch | purge
  | mkcalendar
  | link | unlink
deriving DecidableEq, Repr

namespace Verb

/-- The texts of the methods, with the verb that each of them is for. -/
def texts : List (String × Verb) :=
  [("DELETE", delete), ("GET", get), ("HEAD", head), ("POST", post), ("PUT", put),
    ("CONNECT", connect), ("OPTIONS", options), ("TRACE", trace), ("COPY", copy), ("LOCK", lock),
    ("MKCOL", mkcol), ("MOVE", move), ("PROPFIND", propfind), ("PROPPATCH", proppatch),
    ("SEARCH", search), ("UNLOCK", unlock), ("BIND", bind), ("REBIND", rebind), ("UNBIND", unbind),
    ("ACL", acl), ("REPORT", report), ("MKACTIVITY", mkactivity), ("CHECKOUT", checkout),
    ("MERGE", merge), ("M-SEARCH", msearch), ("NOTIFY", notify), ("SUBSCRIBE", subscribe),
    ("UNSUBSCRIBE", unsubscribe), ("PATCH", patch), ("PURGE", purge), ("MKCALENDAR", mkcalendar),
    ("LINK", link), ("UNLINK", unlink)]

end Verb

/-- `string_to_verb`: the verb of a text, which is `unknown` for a text that is none of a method.
Reference: `string_to_verb` (`verb.ipp:79`). -/
def stringToVerb (s : Str) : Verb :=
  ((Verb.texts.find? fun p => p.1.toList == s).map (·.2)).getD .unknown

/-- `request<dynamic_body>`, with what the code reads of it; a new one has the defaults of the
source. -/
structure Request where
  method : Verb := .unknown
  methodString : Str := []
  target : Str := []
  version : Nat := 11
  fields : Fields := []
  body : Str := []
deriving DecidableEq, Repr

/-- `response<dynamic_body>`, with what the code reads of it; `result` is the number of the
status. -/
structure Response where
  version : Nat := 11
  result : Nat := 200
  reason : Str := []
  fields : Fields := []
  body : Str := []
deriving DecidableEq, Repr

/-- The status codes that have a name, in the order of the source. -/
def statusCodes : List Nat :=
  [100, 101, 102, 200, 201, 202, 203, 204, 205, 206, 207, 208, 226, 300, 301, 302, 303, 304, 305,
    307, 308, 400, 401, 402, 403, 404, 405, 406, 407, 408, 409, 410, 411, 412, 413, 414, 415, 416,
    417, 421, 422, 423, 424, 426, 428, 429, 431, 444, 451, 499, 500, 501, 502, 503, 504, 505, 506,
    507, 508, 510, 511, 599]

/-- `int_to_status`: a number without a name is `unknown`, which is zero. Reference: `int_to_status`
(`status.ipp:23`). -/
def intToStatus (v : Nat) : Nat := if v ∈ statusCodes then v else 0

namespace Response

/-- `result(unsigned)`: a number above 999 is refused, and any other one is the status. Reference:
`header<false>::result` (`message.ipp:141`). -/
def setResult (r : Response) (v : Nat) : Except StdException Response :=
  if v > 999 then .error (.invalidArgument "invalid status-code".toList)
  else .ok { r with result := v }

/-- `result(status)`: an enumerator is the status, whatever its number is. Reference:
`header<false>::result` (`message.ipp:132`). -/
def setStatus (r : Response) (v : Nat) : Response := { r with result := v }

/-- `set` of the fields of the response, which leaves the rest of it as it is. -/
def set (r : Response) (name value : Str) : Except StdException Response :=
  (r.fields.set name value).map fun fields => { r with fields }

/-- `ostream(body()) << text`: the text is appended to the body. Reference: `ostream`
(`ostream.hpp:91`). -/
def write (r : Response) (text : Str) : Response := { r with body := r.body ++ text }

/-- `status_class::informational`, an enumerator that no status has the value of. Reference:
`status_class` (`status.hpp:108`). -/
def informational : Nat := 1

/-- The responses whose body `prepare_payload` refuses. The status is not converted to its class
with `to_status_class` but cast to one, so that it is compared with the number of the class itself,
and a response of the status 100 is not refused (`forbidsBody_iff`). -/
def forbidsBody (r : Response) : Bool :=
  let result := intToStatus r.result
  result == informational || result == 204 || result == 304

/-- `prepare_payload` of a response, for a `dynamic_body`, which has a size: the length is set, or a
body that the status does not allow is refused. Reference: `message::prepare_payload`
(`message.ipp:382`). -/
def preparePayload (r : Response) : Except StdException Response :=
  let n := r.body.length
  if r.forbidsBody && n > 0 then .error (.invalidArgument "invalid response body".toList)
  else (r.fields.contentLength n).map fun fields => { r with fields }

end Response

/-! ## The fields of a name -/

namespace Fields

/-- The fields that have the name, up to the case of the letters, in the order of the list. -/
def named (fs : Fields) (name : Str) : Fields := fs.filter (Field.is name)

/-- A field that is set replaces those of its name and leaves the others alone. -/
theorem named_setElement (fs : Fields) (e : Field) (name : Str) :
    (fs.setElement e).named name = if iequals name e.name then [e] else fs.named name := by
  have herase : (fs.erase e.name).named name =
      if iequals name e.name then [] else fs.named name := by
    unfold erase named
    rw [List.filter_filter]
    split
    · next h =>
      refine List.filter_eq_nil_iff.2 fun f _ => ?_
      simp [Field.is, iequals_trans h]
    · next h =>
      refine List.filter_congr fun f _ => ?_
      cases hf : iequals name f.name with
      | false => simp [Field.is, hf]
      | true =>
        have hother : iequals e.name f.name = false := by
          rw [Bool.not_eq_true, iequals_trans hf, iequals_comm] at h
          exact h
        simp [Field.is, hf, hother]
  unfold setElement named
  rw [List.filter_append, ← named, herase]
  cases h : iequals name e.name <;> simp [named, Field.is, h]

/-- A field can be set if its texts are short enough. -/
theorem set_ok_iff {fs fs' : Fields} {sname value : Str} :
    fs.set sname value = .ok fs' ↔ sname.length ≤ 65533 ∧ value.length ≤ 65533 ∧
      fs' = fs.setElement ⟨sname, trim value⟩ := by
  unfold set newElement
  split
  · simp [Except.map]
    omega
  · split
    · simp [Except.map]
      omega
    · have : sname.length ≤ 65533 ∧ value.length ≤ 65533 := by omega
      simp [Except.map, this, eq_comm]

/-- The fields of a name after one is set: only the new one if it has the name, and those before if
it has not. -/
theorem named_set {fs fs' : Fields} {sname value : Str} (h : fs.set sname value = .ok fs')
    (name : Str) :
    fs'.named name = if iequals name sname then [⟨sname, trim value⟩] else fs.named name := by
  obtain ⟨-, -, rfl⟩ := set_ok_iff.1 h
  exact named_setElement fs _ name

/-- Erasing the fields of a name leaves the others alone. -/
theorem named_erase (fs : Fields) {name name' : Str} (h : iequals name name' = false) :
    (fs.erase name').named name = fs.named name := by
  have := named_setElement fs ⟨name', []⟩ name
  simpa [setElement, named, h, Field.is] using this

/-- No field is found exactly if none has the name. -/
theorem find_eq_none_iff {fs : Fields} {name : Str} : fs.find name = none ↔ fs.named name = [] := by
  rw [find, named, List.find?_eq_none, List.filter_eq_nil_iff]

/-- `set_chunked_impl(false)` changes the Transfer-Encoding only: the fields of another name are the
same. -/
theorem named_unsetChunked {fs fs' : Fields} (h : fs.unsetChunked = .ok fs') {name : Str}
    (hname : iequals name "Transfer-Encoding".toList = false) : fs'.named name = fs.named name := by
  unfold unsetChunked at h
  split at h
  · cases h
    rfl
  · simp only at h
    split at h
    · cases h
      exact named_erase fs hname
    · rw [named_set h, hname]
      rfl

/-- A message without Transfer-Encoding is not changed by `set_chunked_impl(false)`, which then
erases nothing. -/
theorem unsetChunked_of_none {fs : Fields} (h : fs.named "Transfer-Encoding".toList = []) :
    fs.unsetChunked = .ok fs := by
  rw [unsetChunked, find_eq_none_iff.2 h]

/-- The digits of a length are not trimmed, since there is no space among them. -/
theorem trim_toDigits (n : Nat) : trim (Nat.toDigits 10 n) = Nat.toDigits 10 n := by
  have hnot : ∀ s : Str, (∀ c ∈ s, c.isDigit = true) → s.dropWhile isOws = s := by
    intro s hs
    cases s with
    | nil => rfl
    | cons c s =>
      have hc : isOws c = false := by
        have := hs c (by simp)
        unfold isOws
        rw [Bool.or_eq_false_iff, beq_eq_false_iff_ne, beq_eq_false_iff_ne]
        constructor <;> rintro rfl <;> simp at this
      simp [hc]
  have hdigits : ∀ c ∈ Nat.toDigits 10 n, c.isDigit = true :=
    fun c hc => Nat.isDigit_of_mem_toDigits (by decide) (by decide) hc
  rw [trim, skipOws, hnot _ hdigits, hnot _ (by simpa using hdigits), List.reverse_reverse]

/-- A message whose length is set has the length in decimal as its only Content-Length, and the
fields it had, up to Transfer-Encoding. -/
theorem named_contentLength {fs fs' : Fields} {n : Nat} (h : fs.contentLength n = .ok fs')
    {name : Str} (hname : iequals name "Transfer-Encoding".toList = false) :
    fs'.named name = if iequals name "Content-Length".toList
      then [⟨"Content-Length".toList, Nat.toDigits 10 n⟩] else fs.named name := by
  obtain ⟨fs₁, hset, hchunked⟩ := Except.bind_eq_ok_iff.1 h
  rw [named_unsetChunked hchunked hname, named_set hset, trim_toDigits]

/-- A message without Transfer-Encoding gets none when its length is set. -/
theorem transferEncoding_contentLength {fs fs' : Fields} {n : Nat}
    (h : fs.contentLength n = .ok fs') (hnone : fs.named "Transfer-Encoding".toList = []) :
    fs'.named "Transfer-Encoding".toList = [] := by
  obtain ⟨fs₁, hset, hchunked⟩ := Except.bind_eq_ok_iff.1 h
  have hnone₁ : fs₁.named "Transfer-Encoding".toList = [] := by
    rw [named_set hset, hnone]
    rfl
  rw [unsetChunked_of_none hnone₁] at hchunked
  cases hchunked
  exact hnone₁

/-- The length of a body that fits the memory can be set on a message without Transfer-Encoding. -/
theorem contentLength_of_none {fs : Fields} {n : Nat} (hn : n < 2 ^ 64)
    (h : fs.named "Transfer-Encoding".toList = []) :
    fs.contentLength n = .ok (fs.setElement ⟨"Content-Length".toList, Nat.toDigits 10 n⟩) := by
  have hlen : (Nat.toDigits 10 n).length ≤ 65533 := by
    have : (Nat.toDigits 10 n).length ≤ 20 :=
      (Nat.length_toDigits_le_iff (by decide) (by decide)).2 (by omega)
    omega
  have hset : fs.set "Content-Length".toList (Nat.toDigits 10 n) =
      .ok (fs.setElement ⟨"Content-Length".toList, Nat.toDigits 10 n⟩) :=
    set_ok_iff.2 ⟨by decide, hlen, by rw [trim_toDigits]⟩
  rw [contentLength, hset]
  refine unsetChunked_of_none ?_
  rw [named_setElement, h]
  rfl

/-- What setting a field throws is that a text is too long. -/
theorem set_error {fs : Fields} {sname value : Str} {e : StdException}
    (h : fs.set sname value = .error e) : e = .lengthError := by
  unfold set newElement at h
  split at h
  · cases h
    rfl
  · split at h
    · cases h
      rfl
    · cases h

/-- If the length of a body cannot be set, it is because a field would be too long. -/
theorem contentLength_error {fs : Fields} {n : Nat} {e : StdException}
    (h : fs.contentLength n = .error e) : e = .lengthError := by
  rw [contentLength] at h
  cases hset : fs.set "Content-Length".toList (Nat.toDigits 10 n) with
  | error e' =>
    rw [hset] at h
    cases h
    exact set_error hset
  | ok fs' =>
    rw [hset] at h
    simp only [Except.bind, unsetChunked] at h
    split at h
    · cases h
    · split at h
      · cases h
      · exact set_error h

end Fields

/-! ## Preparing the payload -/

/-- **What `prepare_payload` refuses**: a response may not have a body under the statuses 204 and
304, and under no other. The test for an informational status never succeeds, since no status has
the number of the class. -/
theorem Response.forbidsBody_iff {r : Response} :
    r.forbidsBody = true ↔ r.result = 204 ∨ r.result = 304 := by
  have hclass : ∀ v ∈ statusCodes, v ≠ informational := by decide
  have hnamed : 204 ∈ statusCodes ∧ 304 ∈ statusCodes := by decide
  simp only [Response.forbidsBody, intToStatus, Bool.or_eq_true, beq_iff_eq]
  split
  · next hmem =>
    have hne := hclass _ hmem
    exact ⟨fun h => (or_assoc.1 h).resolve_left hne, fun h => or_assoc.2 (.inr h)⟩
  · next hmem =>
    refine ⟨fun h => ?_, fun h => ?_⟩
    · unfold informational at h
      omega
    · rcases h with h | h
      · exact absurd (h ▸ hnamed.1) hmem
      · exact absurd (h ▸ hnamed.2) hmem

/-- `prepare_payload` returns if the status allows the body and the text of the length can be set as
a field; it changes the fields only. -/
theorem Response.preparePayload_ok_iff {r r' : Response} :
    r.preparePayload = .ok r' ↔ (r.forbidsBody = true → r.body = []) ∧
      ∃ fields, r.fields.contentLength r.body.length = .ok fields ∧ r' = { r with fields } := by
  unfold Response.preparePayload
  simp only
  split
  · next h =>
    rw [Bool.and_eq_true, decide_eq_true_eq] at h
    have hbody : r.body ≠ [] := List.length_pos_iff.1 h.2
    simp [h.1, hbody]
  · next h =>
    have hbody : r.forbidsBody = true → r.body = [] := fun hf => by
      simpa [hf] using h
    rw [Except.map_eq_ok_iff]
    refine ⟨fun ⟨fields, hf, hr⟩ => ⟨hbody, fields, hf, hr.symm⟩, fun ⟨_, fields, hf, hr⟩ => ?_⟩
    exact ⟨fields, hf, hr.symm⟩

/-- What `prepare_payload` throws: there is a body where the status forbids one, or a text is too
long. -/
theorem Response.preparePayload_error {r : Response} {e : StdException}
    (h : r.preparePayload = .error e) :
    (r.forbidsBody = true ∧ r.body ≠ []) ∨ e = .lengthError := by
  rw [preparePayload] at h
  split at h
  · next hbody =>
    rw [Bool.and_eq_true, decide_eq_true_eq] at hbody
    exact .inl ⟨hbody.1, List.length_pos_iff.1 hbody.2⟩
  · cases hlen : r.fields.contentLength r.body.length with
    | error e' =>
      rw [hlen] at h
      cases h
      exact .inr (Fields.contentLength_error hlen)
    | ok fields =>
      rw [hlen] at h
      cases h

end Gomibako.Beast
