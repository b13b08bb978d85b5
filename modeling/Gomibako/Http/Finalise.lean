import Gomibako.Http.Server

/-!
# Finalising a response

`prepare_response` sets the Server field of a response and has `prepare_payload` set the length of
its body (`Listener.finalised_of_finalise`). `prepare_payload` throws if a response with the status
204 or 304 has a body; a response that is empty unless it has one of the statuses that the source
sets by name is finalised (`Listener.Finalisable.finalises`).
-/

namespace Gomibako

open Beast (Response iequals)

namespace Listener

/-! ## What finalising changes -/

/-- A response and what it is finalised to: the status line and the body are the same, there is one
Server field and one Content-Length, the decimal length of the body, and the fields of other names
are the same, Transfer-Encoding apart, of which there is none if there was none. -/
structure Finalised (base response : Response) : Prop where
  version : response.version = base.version
  result : response.result = base.result
  reason : response.reason = base.reason
  body : response.body = base.body
  server : response.fields.named "Server".toList = [⟨"Server".toList, "Gomibako".toList⟩]
  contentLength : response.fields.named "Content-Length".toList =
    [⟨"Content-Length".toList, Nat.toDigits 10 base.body.length⟩]
  others : ∀ name, iequals name "Server".toList = false →
    iequals name "Content-Length".toList = false →
    iequals name "Transfer-Encoding".toList = false →
    response.fields.named name = base.fields.named name
  transferEncoding : base.fields.named "Transfer-Encoding".toList = [] →
    response.fields.named "Transfer-Encoding".toList = []

/-- A response is finalised by setting its Server, which always succeeds, and preparing its payload,
which may fail. -/
theorem finalise_eq (base : Response) : finalise base =
    { base with
      fields := base.fields.setElement
        ⟨"Server".toList, "Gomibako".toList⟩ }.preparePayload := rfl

/-- `prepare_response` returns if the response has no body under the statuses 204 and 304 and the
length of its body can be set as a field; then it changes the fields only. -/
theorem finalise_ok_iff {base response : Response} :
    finalise base = .ok response ↔ (base.forbidsBody = true → base.body = []) ∧
      ∃ fields, (base.fields.setElement ⟨"Server".toList, "Gomibako".toList⟩).contentLength
        base.body.length = .ok fields ∧ response = { base with fields } := by
  rw [finalise_eq]
  exact Response.preparePayload_ok_iff

/-- **Finalising** sets the Server field and the Content-Length and leaves the rest. -/
theorem finalised_of_finalise {base response : Response} (h : finalise base = .ok response) :
    Finalised base response := by
  obtain ⟨-, fields, hlen, rfl⟩ := finalise_ok_iff.1 h
  refine ⟨rfl, rfl, rfl, rfl, ?_, ?_, fun name hs hc ht => ?_, fun hnone => ?_⟩
  · rw [Beast.Fields.named_contentLength hlen rfl, Beast.Fields.named_setElement]
    rfl
  · rw [Beast.Fields.named_contentLength hlen rfl]
    rfl
  · rw [Beast.Fields.named_contentLength hlen ht, hc, Beast.Fields.named_setElement, hs]
    rfl
  · refine Beast.Fields.transferEncoding_contentLength hlen ?_
    rw [Beast.Fields.named_setElement, hnone]
    rfl

/-! ## Responses that can be finalised -/

/-- The statuses that are set by name, in `main` and in the listener. -/
def namedStatuses : List Nat := [200, 400, 404, 500]

/-- The response is empty or has a status that is set by name, and it has no Transfer-Encoding. -/
structure Finalisable (response : Response) : Prop where
  status : response.body = [] ∨ response.result ∈ namedStatuses
  transferEncoding : response.fields.named "Transfer-Encoding".toList = []

namespace Finalisable

variable {response : Response}

/-- The error responses of the listener can be finalised: their status has a name, and their fields
are short. -/
theorem errorResponse (error : Str) {status : Nat} (hstatus : status ∈ namedStatuses) :
    Finalisable (Listener.errorResponse error status) :=
  ⟨.inr hstatus, rfl⟩

/-- A response that can be finalised is empty under an informational status, 204 and 304: none of
these is set by name. -/
theorem body_eq_nil (h : Finalisable response)
    (hstatus : response.result / 100 = 1 ∨ response.result = 204 ∨ response.result = 304) :
    response.body = [] := by
  refine h.status.resolve_right fun hnamed => ?_
  simp only [namedStatuses, List.mem_cons, List.not_mem_nil, or_false] at hnamed
  omega

end Finalisable

/-- Finalising a response returns: under an informational status, 204 and 304 it has no body, as the
comment in `prepare_payload` says it must, so that the condition that is tested there holds, and its
fields are set, if the length of the body is a `size_t`. -/
structure Finalises (base : Response) : Prop where
  empty : base.result / 100 = 1 ∨ base.result = 204 ∨ base.result = 304 → base.body = []
  condition : base.forbidsBody = true → base.body = []
  returns : base.body.length < 2 ^ 64 → ∃ response, finalise base = .ok response

namespace Finalisable

variable {base : Response}

/-- A response that can be finalised is finalised without an exception, to what the listener
writes. -/
theorem finalises (h : Finalisable base) : Finalises base := by
  have hcondition : base.forbidsBody = true → base.body = [] :=
    fun hforbids => h.body_eq_nil (.inr (Response.forbidsBody_iff.1 hforbids))
  refine ⟨h.body_eq_nil, hcondition, fun hlen => ?_⟩
  have hnone : (base.fields.setElement ⟨"Server".toList, "Gomibako".toList⟩).named
      "Transfer-Encoding".toList = [] := by
    rw [Beast.Fields.named_setElement, h.transferEncoding]
    rfl
  exact ⟨_, finalise_ok_iff.2
    ⟨hcondition, _, Beast.Fields.contentLength_of_none hlen hnone, rfl⟩⟩

/-- What finalising it can throw is not that it has a body. -/
theorem finalise_error (h : Finalisable base) {e : StdException}
    (hfinal : finalise base = .error e) : e = .lengthError := by
  rw [finalise_eq] at hfinal
  refine (Response.preparePayload_error hfinal).resolve_left fun hbody => ?_
  exact hbody.2 (h.finalises.condition hbody.1)

end Finalisable

end Listener

end Gomibako
