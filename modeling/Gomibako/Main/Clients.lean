import Gomibako.Http.Clients
import Gomibako.Main.Finalise

/-!
# The clients of `main`

The answers of `main` (`PlainAnswer`) are made of the characters that a response may have, and their
headers are short, so that they can be sent. So every client of `main` reads the answer to what was
read from it, or an error if its socket has failed (`clients_main`).
-/

namespace Gomibako.Main

open Beast (Field Response Sink asyncRead asyncWrite readResponse)
open Conversation (Answers ReadsResponse sequential start talking)
open Listener (Replies Sendable finalise namedStatuses)

/-- A field with one of the content types is made of the characters that a field may have, and
short. -/
theorem wellFormed_contentType {type : Str} (h : type ∈ contentTypes) :
    Field.WellFormed ⟨"Content-Type".toList, type⟩ ∧
      (Field.buffer ⟨"Content-Type".toList, type⟩).length ≤ 100 := by
  simp only [contentTypes, List.mem_cons, List.not_mem_nil, or_false] at h
  rcases h with rfl | rfl | rfl | rfl <;>
    exact ⟨.of_trim rfl rfl rfl rfl, by decide⟩

/-- Every answer of `main` can be sent: its status has at most three digits, its fields are well
formed and their text is short. -/
theorem PlainAnswer.sendable {base : Response} (h : PlainAnswer base) : Sendable base := by
  have hempty : ([] : Str).length + (Beast.Fields.text []).length ≤ 8000 := by decide
  have hfinalisable := h.finalisable
  cases h with
  | @content status type text hstatus htype =>
    obtain ⟨hfield, hshort⟩ := wellFormed_contentType htype
    have hresult : ∀ n ∈ namedStatuses, n ≤ 999 := by decide
    refine ⟨⟨.inr rfl, hresult _ hstatus, by rintro _ ⟨⟩, fun f hf => ?_,
      Beast.Fields.Grouped.setElement Grouped.nil ⟨"Content-Type".toList, type⟩⟩,
      hfinalisable, ?_⟩
    · exact List.mem_singleton.1 hf ▸ hfield
    · have hcrlf : Beast.crlf.length = 2 := rfl
      rw [Beast.Fields.text, List.flatMap_singleton, List.length_append, List.length_nil]
      omega
  | badRequest =>
    have hstatus : 400 ≤ 999 := by decide
    exact ⟨⟨.inr rfl, hstatus, by rintro _ ⟨⟩, by rintro _ ⟨⟩, Grouped.nil⟩, hfinalisable, hempty⟩
  | status hn =>
    exact ⟨⟨.inr rfl, hn, by rintro _ ⟨⟩, by rintro _ ⟨⟩, Grouped.nil⟩, hfinalisable, hempty⟩

/-- **Every client reads its answer or an error**: whatever the peers of `main` send, in whatever
pieces, and whatever their sockets take, each connection has one answer, the finalised reply to what
was read from its peer behind what the connections before it have left in the buffer; and the octets
on the wire are read as this answer, with nothing left, unless the socket failed, and then they are
not read as a response. -/
theorem clients_main {W : Type} (lib : Libraries (Option Peer) W) :
    ∃ rt, router lib = .ok rt ∧ ∀ world es c, talking.Run (start rt world) es c →
      ∀ before x after, c.exchanges = before ++ x :: after →
        (∃! response, Answers rt world before x response) ∧
        ∀ response, Answers rt world before x response → ReadsResponse x response := by
  obtain ⟨rt, hrt, htable, hother⟩ := router_ok lib
  refine ⟨rt, hrt, fun world es c hrun before x after hx => ?_⟩
  exact Conversation.exchange_read
    (fun _ _ _ _ _ _ hreply => (plainAnswer_of_replies htable hother hreply).sendable) hrun hx

/-- The libraries of `listLibraries`, for the sockets of peers, whose remote endpoints are their
addresses. -/
def socketLibraries : Libraries (Option Peer) (List UInt32) where
  tree := .nodes
  remoteAddress socket := .ok ((socket.map Peer.address).getD [])
  convertUnsigned := listLibraries.convertUnsigned
  convertSize := listLibraries.convertSize
  randomDevice := listLibraries.randomDevice

theorem wideSink_pos : 0 ∉ [4096, 4096] := by decide

/-- A socket that takes all of a short response with its first call. -/
def wideSink : Sink := ⟨[4096, 4096], .eof, wideSink_pos, Beast.failed_eof⟩

set_option maxRecDepth 10000 in
/-- A client asks for the page of the root, and reads it: there is such a run, in which it is the
only connection. -/
theorem clients_main_page : ∃ rt es c x response, router socketLibraries = .ok rt ∧
    talking.Run (start rt []) es c ∧ c.exchanges = [x] ∧ x.peer = Listener.getPeer ∧
    Answers rt [] [] x response ∧ response.result = 200 ∧
    readResponse 4096 x.result.wire =
      .ok ({ response with reason := response.reasonText }, []) := by
  obtain ⟨rt, hrt, hclients⟩ := clients_main socketLibraries
  have hroute : ∃ rt, router socketLibraries = .ok rt ∧ ∃ r,
      (rt.routes .get).find? (·.accepts ['/']) = some r ∧
      ∃ m, r.matchView ['/'] = .ok (some m) ∧
      ∃ base, r.callback ⟨some Listener.getPeer, { method := .get, target := ['/'] }, {}, m⟩ [] =
          .ok (base, []) ∧
      ∃ response, finalise base = .ok response ∧ response.result = 200 ∧
        response.body.length = 21 ∧ (asyncWrite response wideSink).error = {} :=
    ⟨_, rfl, _, rfl, _, rfl, _, rfl, _, rfl, rfl, rfl, rfl⟩
  obtain ⟨rt', hrt', r, hfind, m, hm, base, hcall, response, hfinal, hresult, hlength, hwritten⟩ :=
    hroute
  cases hrt.symm.trans hrt'
  have hread : readFromPeer Listener.getPeer {} = .ok { method := .get, target := ['/'] } := by
    rw [readFromPeer, Listener.read_get]
    rfl
  have hreply : Replies rt (some Listener.getPeer) [] (readFromPeer Listener.getPeer {})
      [.invoke] base [] := by
    rw [hread]
    exact .handled hfind hm hcall
  have hserve : (sequential rt).step ({}, [])
      ⟨Listener.getPeer, wideSink, asyncWrite response wideSink⟩
      ((asyncRead {} Listener.getPeer.stream).buffer, []) :=
    ⟨[.invoke], base, response, hreply, hfinal, rfl, rfl⟩
  obtain ⟨es, c, hrun, -, hexchanges, -⟩ :=
    Conversation.exists_run_exchange (c := start rt []) rfl hserve
  have hone : c.exchanges =
      [] ++ ⟨Listener.getPeer, wideSink, asyncWrite response wideSink⟩ :: [] := hexchanges
  have hanswers : Answers rt [] [] ⟨Listener.getPeer, wideSink, asyncWrite response wideSink⟩
      response := ⟨_, _, _, _, .nil, hreply, hfinal⟩
  have hreads :=
    (hclients [] es c hrun [] _ [] hone).2 response hanswers 4096 (by omega) (by decide)
  refine ⟨rt, es, c, _, response, hrt, hrun, hone, rfl, hanswers, hresult,
    hreads.resolve_right fun hfailed => ?_⟩
  have herror : (asyncWrite response wideSink).error = Beast.ErrorCode.eof := hfailed.1
  rw [hwritten] at herror
  cases herror

end Gomibako.Main
