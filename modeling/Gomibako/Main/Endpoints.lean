import Gomibako.Lib.Decimal
import Gomibako.Main.Dispatch

/-!
# The endpoints for numbers

`handle_status` and `handle_bytes` read the segment they are given with `utils::convert`, which is
Boost.LexicalCast, and check the number against their limit afterwards. For an integer that is not
negative this is what the client wrote. A minus sign negates modulo the size of the type, so that
the negative integers just above the negated size pass the check as small numbers
(`numericEndpoints_iff`).
-/

namespace Gomibako.Main

open Decimal (Denotes Unsigned Wraps exists_unsigned_le_iff)

variable {S : Type _} {W : Type}

/-- What Boost.LexicalCast documents of `try_lexical_convert` to an unsigned type: it takes an
optional sign and the digits of a magnitude that fits the type, and a minus sign negates modulo the
size of the type. -/
structure Libraries.LexicalConvert (lib : Libraries S W) : Prop where
  unsigned : ∀ s v, lib.convertUnsigned s = some v ↔ Unsigned 32 s v.toNat
  size : ∀ s v, lib.convertSize s = some v ↔ Unsigned 64 s v.toNat

/-- `handle_status` acts on the integer that the segment denotes: a number up to 999 is the status
of an empty response, and everything else is answered with 400 and a text. -/
structure StatusExact (lib : Libraries S W) (ctx : Context S) (world : W) (s : Str) : Prop where
  number : ∀ n : Nat, n ≤ 999 → Denotes s n → ∃ response world',
    handleStatus lib ctx world = .ok (response, world') ∧ response.result = n ∧ response.body = []
  other : (¬ ∃ n : Nat, n ≤ 999 ∧ Denotes s n) → ∃ response world',
    handleStatus lib ctx world = .ok (response, world') ∧ response.result = 400 ∧
      response.body ≠ []

/-- `handle_bytes` acts on the integer that the segment denotes: for a number up to the limit there
are as many bytes, and everything else is answered with 400. -/
structure BytesExact (lib : Libraries S W) (ctx : Context S) (world : W) (s : Str) : Prop where
  number : ∀ n : Nat, n ≤ staticBufferMax → Denotes s n → ∃ response world',
    handleBytes lib ctx world = .ok (response, world') ∧ response.result = 200 ∧
      response.body.length = n
  other : (¬ ∃ n : Nat, n ≤ staticBufferMax ∧ Denotes s n) → ∃ response world',
    handleBytes lib ctx world = .ok (response, world') ∧ response.result = 400

section
variable {lib : Libraries S W} {ctx : Context S} {world : W} {s : Str}

/-- What is converted to `unsigned` is a number of this type. -/
theorem Libraries.LexicalConvert.exists_unsigned (h : lib.LexicalConvert) {n : Nat}
    (hn : Unsigned 32 s n) : ∃ v, lib.convertUnsigned s = some v ∧ v.toNat = n := by
  have hv : (UInt32.ofNat n).toNat = n := UInt32.toNat_ofNat_of_lt hn.lt
  exact ⟨.ofNat n, (h.unsigned s _).2 (by rwa [hv]), hv⟩

/-- What is converted to `size_t` is a number of this type. -/
theorem Libraries.LexicalConvert.exists_size (h : lib.LexicalConvert) {n : Nat}
    (hn : Unsigned 64 s n) : ∃ v, lib.convertSize s = some v ∧ v.toNat = n := by
  have hv : (UInt64.ofNat n).toNat = n := UInt64.toNat_ofNat_of_lt hn.lt
  exact ⟨.ofNat n, (h.size s _).2 (by rwa [hv]), hv⟩

/-- **When `handle_status` is exact**: if the segment does not denote a negative integer that wraps
to a status. -/
theorem statusExact_iff (hlib : lib.LexicalConvert) (hresponse : ctx.response = {})
    (hs : ctx.matches.find "code".toList = some s) :
    StatusExact lib ctx world s ↔ ∀ z, Denotes s z → ¬ Wraps 32 999 z := by
  constructor
  · intro hexact z hz hwraps
    obtain ⟨n, hn, hun⟩ := (exists_unsigned_le_iff (by decide)).2 (.inr ⟨z, hz, hwraps⟩)
    obtain ⟨v, hv, hvn⟩ := hlib.exists_unsigned hun
    obtain ⟨response, world', hres, -, hbody⟩ :=
      hexact.other (hwraps.not_denotes (by decide) hz)
    -- the negative integer is answered as a number
    rw [handleStatus_number hs hv (by omega), hresponse] at hres
    cases hres
    exact hbody rfl
  · intro hwraps
    refine ⟨fun n hn hz => ?_, fun hother => ?_⟩
    · obtain ⟨v, hv, hvn⟩ := hlib.exists_unsigned (.of_denotes hz (by omega))
      refine ⟨_, _, handleStatus_number hs hv (by omega), hvn, ?_⟩
      rw [hresponse]
    · have hmax : ∀ v, lib.convertUnsigned s = some v → 999 < v.toNat := fun v hv =>
        ((hlib.unsigned s v).1 hv).lt_of_not_denotes (by decide) hother hwraps
      obtain ⟨text, htext, hres⟩ := handleStatus_other hs hmax
      refine ⟨_, _, hres, rfl, ?_⟩
      rw [hresponse]
      exact htext

/-- **When `handle_bytes` is exact**: if the segment does not denote a negative integer that wraps
to a number up to the limit. -/
theorem bytesExact_iff (hlib : lib.LexicalConvert) (hresponse : ctx.response = {})
    (hs : ctx.matches.find "num".toList = some s) :
    BytesExact lib ctx world s ↔ ∀ z, Denotes s z → ¬ Wraps 64 staticBufferMax z := by
  obtain ⟨fields, hset⟩ := (setHeader_contentType (ctx.response.setStatus 200)).2.2
  constructor
  · intro hexact z hz hwraps
    obtain ⟨n, hn, hun⟩ := (exists_unsigned_le_iff (by decide)).2 (.inr ⟨z, hz, hwraps⟩)
    obtain ⟨v, hv, hvn⟩ := hlib.exists_size hun
    obtain ⟨response, world', hres, hresult⟩ :=
      hexact.other (hwraps.not_denotes (by decide) hz)
    -- the negative integer is answered as a number
    obtain ⟨bytes, world'', -, hnumber⟩ := handleBytes_number hs hv (by omega) hset
    rw [hnumber] at hres
    cases hres
    exact absurd hresult (by show ¬ (200 = 400); decide)
  · intro hwraps
    refine ⟨fun n hn hz => ?_, fun hother => ?_⟩
    · have hlt : n < 2 ^ 64 := Nat.lt_of_le_of_lt hn (by decide)
      obtain ⟨v, hv, hvn⟩ := hlib.exists_size (.of_denotes hz hlt)
      obtain ⟨bytes, world', hlen, hnumber⟩ := handleBytes_number hs hv (by omega) hset
      refine ⟨_, _, hnumber, rfl, ?_⟩
      rw [hresponse]
      exact hlen.trans hvn
    · have hmax : ∀ v, lib.convertSize s = some v → staticBufferMax < v.toNat := fun v hv =>
        ((hlib.size s v).1 hv).lt_of_not_denotes (by decide) hother hwraps
      obtain ⟨text, -, hres⟩ := handleBytes_other hs hmax
      exact ⟨_, _, hres, rfl⟩

end

/-! ## The two endpoints -/

/-- **When the endpoints for numbers are exact**: unless the segment denotes a negative integer that
wraps to a number up to the limit, in 32 bits for a status and in 64 bits for a number of bytes. -/
theorem numericEndpoints_iff {lib : Libraries S W} (hlib : lib.LexicalConvert) {ctx : Context S}
    (hresponse : ctx.response = {}) (world : W) :
    (∀ s, ctx.matches.find "code".toList = some s →
      (StatusExact lib ctx world s ↔ ∀ z, Denotes s z → ¬ Wraps 32 999 z)) ∧
    ∀ s, ctx.matches.find "num".toList = some s →
      (BytesExact lib ctx world s ↔ ∀ z, Denotes s z → ¬ Wraps 64 staticBufferMax z) :=
  ⟨fun _ hs => statusExact_iff hlib hresponse hs, fun _ hs => bytesExact_iff hlib hresponse hs⟩

/-- Libraries that convert as Boost.LexicalCast does, for sockets that are the addresses of their
peers. -/
def lexicalLibraries : Libraries Str (List UInt32) :=
  { listLibraries with
    convertUnsigned := fun s => (Decimal.toUnsigned 32 s).map UInt32.ofNat
    convertSize := fun s => (Decimal.toUnsigned 64 s).map UInt64.ofNat }

theorem lexicalConvert_lexicalLibraries : lexicalLibraries.LexicalConvert where
  unsigned s v := by
    rw [← Decimal.toUnsigned_eq_some_iff]
    constructor
    · intro h
      obtain ⟨n, hn, rfl⟩ := Option.map_eq_some_iff.1 h
      have hlt : n < 2 ^ 32 := (Decimal.toUnsigned_eq_some_iff.1 hn).lt
      rw [UInt32.toNat_ofNat_of_lt' hlt]
      exact hn
    · intro h
      exact Option.map_eq_some_iff.2 ⟨_, h, UInt32.ofNat_toNat⟩
  size s v := by
    rw [← Decimal.toUnsigned_eq_some_iff]
    constructor
    · intro h
      obtain ⟨n, hn, rfl⟩ := Option.map_eq_some_iff.1 h
      have hlt : n < 2 ^ 64 := (Decimal.toUnsigned_eq_some_iff.1 hn).lt
      rw [UInt64.toNat_ofNat_of_lt' hlt]
      exact hn
    · intro h
      exact Option.map_eq_some_iff.2 ⟨_, h, UInt64.ofNat_toNat⟩

theorem numericNames_nodup : ["code".toList, "num".toList].Nodup := by decide

/-- A call of a handler with a segment for the status and one for the bytes. -/
def numericContext (code num : Str) : Context Str where
  socket := "127.0.0.1".toList
  request := {}
  response := {}
  «matches» := ⟨[("code".toList, code), ("num".toList, num)], numericNames_nodup⟩

/-- The integers 404, with a sign, and 16, on which both handlers are exact. -/
theorem numericEndpoints_iff_positive :
    StatusExact lexicalLibraries (numericContext "+404".toList "16".toList) [] "+404".toList ∧
      BytesExact lexicalLibraries (numericContext "+404".toList "16".toList) [] "16".toList := by
  have hfresh : (numericContext "+404".toList "16".toList).response = {} := rfl
  obtain ⟨hstatus, hbytes⟩ := numericEndpoints_iff lexicalConvert_lexicalLibraries hfresh []
  have hcode : Denotes "+404".toList 404 := Decimal.parse_eq_some_iff.1 rfl
  have hnum : Denotes "16".toList 16 := Decimal.parse_eq_some_iff.1 rfl
  refine ⟨(hstatus _ rfl).2 fun z hz => ?_, (hbytes _ rfl).2 fun z hz => ?_⟩
  · rw [hz.unique hcode]
    decide
  · rw [hz.unique hnum]
    decide

/-- The matches of a segment that denotes a negative integer. -/
def negativeMatches : Matches := ⟨[("code".toList, "-4294967096".toList)], by decide⟩

/-- The route for the status captures the segment, but it is answered as if it was 200. -/
theorem not_statusExact_negative :
    (∃ r, Route.ctor ⟨"/status/:code".toList, by decide⟩ (handleStatus lexicalLibraries) = .ok r ∧
      r.matchView "/status/-4294967096".toList = .ok (some negativeMatches)) ∧
    ¬ StatusExact lexicalLibraries ⟨"127.0.0.1".toList, {}, {}, negativeMatches⟩ []
      "-4294967096".toList := by
  refine ⟨⟨_, rfl, rfl⟩, ?_⟩
  rw [statusExact_iff lexicalConvert_lexicalLibraries rfl rfl]
  intro h
  exact h (-4294967096) (Decimal.parse_eq_some_iff.1 rfl) (by decide)

end Gomibako.Main
