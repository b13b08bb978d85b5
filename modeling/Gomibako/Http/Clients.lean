import Gomibako.Beast.ContentLength
import Gomibako.Http.Conversation
import Mathlib.Data.List.Flatten

/-!
# What the clients read

A client reads with the parser of responses what is on its wire. An answer that can be sent
(`Listener.Sendable`) is finalised to a response that can be read, whose length is announced
(`Listener.Sendable.readable`). So if a router gives no other answers, each client reads the answer
to what was read from it, or an error if its socket has failed (`Conversation.exchange_read`).
-/

namespace Gomibako

open Beast (BodyEnd Field Fields Request Response WriteOutcome asyncRead isControl readResponse)

/-! ## Answers that can be sent -/

/-- What a field that is set adds to the text of the fields. -/
theorem text_setElement_length_le (fs : Fields) (e : Field) :
    (fs.setElement e).text.length ≤ fs.text.length + e.buffer.length := by
  have herase : ((fs.erase e.name).flatMap Field.buffer).length ≤
      (fs.flatMap Field.buffer).length :=
    (List.filter_sublist.flatMap Field.buffer).length_le
  rw [Fields.text, Fields.text, Fields.setElement, List.flatMap_append, List.flatMap_singleton]
  simp only [List.length_append]
  omega

namespace Listener

/-- An answer that can be finalised and sent: its parts are made of the characters they may have,
and the header is not too long. -/
structure Sendable (base : Response) : Prop extends base.WellFormed where
  finalisable : Finalisable base
  short : base.reason.length + base.fields.text.length ≤ 8000

section
variable {base response : Response}

namespace Sendable

/-- The reasons of the statuses are short: what is written is at most forty octets longer than the
reason of its own. -/
theorem reasonText_length_le (response : Response) :
    response.reasonText.length ≤ 40 + response.reason.length := by
  have hall : ∀ p ∈ Beast.statusReasons, p.2.toList.length ≤ 40 := by decide +kernel
  rw [Response.reasonText]
  split
  · unfold Beast.obsoleteReason
    cases hfind : Beast.statusReasons.find? fun p => p.1 = response.result with
    | none => exact Nat.le_add_right_of_le (by decide)
    | some p => exact Nat.le_add_right_of_le (hall p (List.mem_of_find?_eq_some hfind))
  · exact Nat.le_add_left _ _

/-- The header of a finalised answer is within the limit. -/
theorem header_length_le (h : Sendable base) (hbody : base.body.length < 2 ^ 64) :
    (Response.header { base with
      fields := (base.fields.setElement ⟨"Server".toList, "Gomibako".toList⟩).setElement
        ⟨"Content-Length".toList, Nat.toDigits 10 base.body.length⟩ }).length ≤
      Beast.Parser.headerLimit := by
  have hdigits : (Nat.toDigits 10 base.body.length).length ≤ 20 :=
    (Nat.length_toDigits_le_iff (by decide) (by decide)).2 (by omega)
  have hlength := text_setElement_length_le
    (base.fields.setElement ⟨"Server".toList, "Gomibako".toList⟩)
    ⟨"Content-Length".toList, Nat.toDigits 10 base.body.length⟩
  have hserver := text_setElement_length_le base.fields ⟨"Server".toList, "Gomibako".toList⟩
  have hreason := reasonText_length_le base
  have hshort := h.short
  have hversion : (Beast.versionText base.version).length = 8 := rfl
  have hstatus : (Beast.statusText base.result).length = 3 := rfl
  have hcrlf : Beast.crlf.length = 2 := rfl
  have hname : "Content-Length".toList.length = 14 ∧ ": ".toList.length = 2 := ⟨rfl, rfl⟩
  have hfield : Field.buffer ⟨"Server".toList, "Gomibako".toList⟩ =
    "Server: Gomibako\r\n".toList := rfl
  have hfield' : "Server: Gomibako\r\n".toList.length = 18 := rfl
  have hmax : Beast.Parser.headerLimit = 8192 := rfl
  rw [hfield] at hserver
  rw [Response.header, hmax]
  simp only [Field.buffer, List.length_append, List.length_cons] at hlength ⊢
  show _ + (_ + 1) + ((Response.reasonText base).length + 1) + _ + _ ≤ _
  omega

/-- **A finalised answer can be read**, with the length of its body announced. -/
theorem readable (h : Sendable base) (hfinal : finalise base = .ok response) {limit : Nat}
    (hlimit : response.body.length ≤ limit) (hsize : limit < 2 ^ 64 - 10) :
    response.Readable limit (.length response.body.length) ∧
      response.Delimited (.length response.body.length) := by
  have hlen : base.body.length ≤ limit := (finalised_of_finalise hfinal).body ▸ hlimit
  have hserver : Field.WellFormed ⟨"Server".toList, "Gomibako".toList⟩ :=
    .of_trim rfl rfl rfl rfl
  have hnone : (base.fields.setElement ⟨"Server".toList, "Gomibako".toList⟩).named
      "Transfer-Encoding".toList = [] := by
    rw [Fields.named_setElement, h.finalisable.transferEncoding]
    rfl
  obtain ⟨hbodiless, fields, hfields, rfl⟩ := finalise_ok_iff.1 hfinal
  obtain rfl := Except.ok.inj
    (hfields.symm.trans (Fields.contentLength_of_none (by omega) hnone))
  have hwell : Response.WellFormed { base with
      fields := base.fields.setElement ⟨"Server".toList, "Gomibako".toList⟩ } :=
    { version := h.version
      result := h.result
      reason := h.reason
      fields := fun f hf => by
        rcases List.mem_append.1 hf with hf | hf
        · exact h.fields f (List.mem_of_mem_filter hf)
        · exact List.mem_singleton.1 hf ▸ hserver
      grouped := Fields.Grouped.setElement h.grouped _ }
  have hcodings : (base.fields.setElement ⟨"Server".toList, "Gomibako".toList⟩).codings = [] := by
    rw [Fields.codings, Fields.find_eq_none_iff.2 hnone]
  have hbody : base.body.length < 2 ^ 64 - 10 := by omega
  have hreadable := Beast.readable_contentLength hwell hfields hcodings
    (h.header_length_le (by omega)) hlen hbody
  exact ⟨hreadable, Beast.delimited_contentLength fun hstatus =>
    h.finalisable.body_eq_nil (Beast.isBodiless_iff.1 hstatus)⟩

end Sendable

end

end Listener

/-! ## Every exchange -/

namespace Conversation

open Listener (Replies Sendable finalise)

variable {W : Type _} {router : Router (Option Peer) W} {world : W} {c : Conversation W}

/-- The client reads the response, or an error if its socket has failed. -/
def ReadsResponse (x : Exchange) (response : Response) : Prop :=
  ∀ limit, response.body.length ≤ limit → limit < 2 ^ 64 - 10 →
    readResponse limit x.result.wire = .ok ({ response with reason := response.reasonText }, []) ∨
      x.result.error = x.sink.final ∧ ∃ err, readResponse limit x.result.wire = .error err

/-- The answer to an exchange of a run of the listener, behind the exchanges before it: what is read
from its peer, behind what those have left in the buffer and in the world they have left, has a
reply, which is finalised to the response. -/
def Answers (router : Router (Option Peer) W) (world : W) (before : List Exchange) (x : Exchange)
    (response : Response) : Prop :=
  ∃ s as base w, (sequential router).Run ({}, world) before s ∧
    Replies router (some x.peer) s.2 (readFromPeer x.peer s.1) as base w ∧
      finalise base = .ok response

/-- A connection that is served determines what it leaves in the buffer and the world that it
leaves. -/
theorem sequential_unique {s t u : Beast.FlatStaticBuffer staticBufferMax × W} {x : Exchange}
    (h : (sequential router).step s x t) (h' : (sequential router).step s x u) : t = u := by
  obtain ⟨as, base, response, hreply, -, -, hbuffer⟩ := h
  obtain ⟨as', base', response', hreply', -, -, hbuffer'⟩ := h'
  obtain ⟨-, -, hworld⟩ := hreply.unique hreply'
  exact Prod.ext (hbuffer.trans hbuffer'.symm) hworld

/-- An exchange has one answer at most, since the run before it, its read and the handler are each
determined. -/
theorem Answers.unique {before : List Exchange} {x : Exchange} {response response' : Response}
    (h : Answers router world before x response) (h' : Answers router world before x response') :
    response = response' := by
  obtain ⟨s, as, base, w, hserved, hreply, hfinal⟩ := h
  obtain ⟨s', as', base', w', hserved', hreply', hfinal'⟩ := h'
  obtain rfl := hserved.unique (fun _ _ _ _ => sequential_unique) hserved'
  obtain ⟨-, rfl, -⟩ := hreply.unique hreply'
  exact Except.ok.inj (hfinal.symm.trans hfinal')

/-- The connections that were served are those of a run of the server that serves each in a step. -/
theorem exists_sequential {es : List SocketEvent} (h : talking.Run (start router world) es c) :
    ∃ t, (sequential router).Run ({}, world) c.exchanges t := by
  cases (progress_of_run h).1 with
  | accepting _ hserved => exact ⟨_, hserved⟩
  | reading _ _ _ hserved => exact ⟨_, hserved⟩
  | writing _ _ hserved => exact ⟨_, hserved⟩

/-- **Each client reads its answer or an error**, if the answers of the router can be sent: each
exchange of a run has one answer, and this is what is read from its wire. -/
theorem exchange_read (hsend : ∀ socket w outcome as base w',
      Replies router socket w outcome as base w' → Sendable base)
    {es : List SocketEvent} (h : talking.Run (start router world) es c)
    {before after : List Exchange} {x : Exchange} (hx : c.exchanges = before ++ x :: after) :
    (∃! response, Answers router world before x response) ∧
      ∀ response, Answers router world before x response → ReadsResponse x response := by
  obtain ⟨t, hserved⟩ := exists_sequential h
  rw [hx] at hserved
  obtain ⟨u, v, hbefore, as, base, response, hreply, hfinal, hresult, -⟩ := hserved.exists_step
  have hanswers : Answers router world before x response :=
    ⟨u, as, base, v.2, hbefore, hreply, hfinal⟩
  refine ⟨⟨response, hanswers, fun _ h' => h'.unique hanswers⟩, fun response' h' => ?_⟩
  obtain rfl := h'.unique hanswers
  intro limit hlimit hsize
  obtain ⟨hreadable, hdelimited⟩ := (hsend _ _ _ _ _ _ hreply).readable hfinal hlimit hsize
  rw [hresult]
  exact Beast.readResponse_outcome hreadable hdelimited (Beast.asyncWrite_outcome response' x.sink)

end Conversation

end Gomibako
