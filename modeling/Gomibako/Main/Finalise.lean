import Gomibako.Http.ServerResponse
import Gomibako.Main.Dispatch

/-!
# Finalising the responses of `main`

`prepare_payload` throws if a response has a body and the status 204 or 304. With `/status/:code` a
client of `main` chooses any status up to 999, but that response is empty, and a handler that writes
a body has set one of the statuses that `main` names. So the handlers give three kinds of answers
(`PlainAnswer`): one with a content type, the text of a bad request, and a status alone. The
listener's own answers are of the first kind. None of them is refused (`finalises_main`), and
`ios.run()` is not left by this exception.
-/

namespace Gomibako.Main

open Beast (ErrorCode Request Response)
open Listener (Finalisable Finalises Replies finalise init machine namedStatuses phase_of_run
  router_of_run step_iff)

/-- The content types that the handlers and the listener set. -/
def contentTypes : List Str :=
  ["text/html".toList, "application/json".toList, "application/octet_stream".toList,
    "text/plain".toList]

/-- The answers of `main` before they are finalised: a text of one of the content types under a
status that is set by name, the text of a bad request, or a status that a client has chosen and no
body. -/
inductive PlainAnswer : Response → Prop where
  | content {status : Nat} {type text : Str} : status ∈ namedStatuses → type ∈ contentTypes →
      PlainAnswer
        { result := status, fields := [⟨"Content-Type".toList, type⟩], body := text }
  | badRequest {text : Str} : PlainAnswer { result := 400, body := text }
  | status {n : Nat} : n ≤ 999 → PlainAnswer { result := n }

/-- Every answer of `main` can be finalised: it is empty or has a status that is set by name, and no
Transfer-Encoding is set. -/
theorem PlainAnswer.finalisable {base : Response} (h : PlainAnswer base) : Finalisable base := by
  cases h with
  | content hstatus => exact ⟨.inr hstatus, rfl⟩
  | badRequest =>
    have hstatus : 400 ∈ namedStatuses := by decide
    exact ⟨.inr hstatus, rfl⟩
  | status => exact ⟨.inl rfl, rfl⟩

/-! ## The handlers -/

variable {S W : Type _}

/-- Whenever the handler is called with a fresh response and returns, it gives one of the answers of
`main`. -/
def Answering (fn : Handler S W) : Prop :=
  ∀ (ctx : Context S) (world : W) (response : Response) (world' : W), ctx.response = {} →
    fn ctx world = .ok (response, world') → PlainAnswer response

section
variable {W : Type} (lib : Libraries S W)

/-- A fresh response that gets the status 200, one of the content types and then a text is an answer
of `main`: the content type is not trimmed. -/
theorem plainAnswer_content {type text : Str} (htype : type ∈ contentTypes) {response : Response}
    (h : (({} : Response).setStatus 200).setHeader (.contentType type) = .ok response) :
    PlainAnswer (response.write text) := by
  obtain ⟨fields, hfields, rfl⟩ := Except.map_eq_ok_iff.1 h
  obtain ⟨-, -, rfl⟩ := Beast.Fields.set_ok_iff.1 hfields
  have htrim : ∀ type ∈ contentTypes, Beast.trim type = type := by decide
  show PlainAnswer
    { result := 200, fields := [⟨"Content-Type".toList, Beast.trim type⟩], body := _ }
  rw [htrim type htype]
  exact .content (by decide) htype

/-- `hello_world` answers with a page, `text/html` being its content type. -/
theorem answering_helloWorld : Answering (S := S) (W := W) helloWorld := by
  intro ctx world response world' hfresh h
  rw [helloWorld, hfresh] at h
  obtain ⟨r, hset, hret⟩ := Except.bind_eq_ok_iff.1 h
  cases hret
  exact plainAnswer_content (by decide) hset

/-- `handle_ip` answers with JSON, if it knows the address of the peer and can write the tree. -/
theorem answering_handleIp : Answering (handleIp lib) := by
  intro ctx world response world' hfresh h
  rw [handleIp, hfresh] at h
  obtain ⟨ip, -, h⟩ := Except.bind_eq_ok_iff.1 h
  obtain ⟨r, hset, h⟩ := Except.bind_eq_ok_iff.1 h
  obtain ⟨text, -, hret⟩ := Except.bind_eq_ok_iff.1 h
  cases hret
  exact plainAnswer_content (by decide) hset

/-- `handle_headers` answers with JSON, if it can write the tree of the fields. -/
theorem answering_handleHeaders : Answering (handleHeaders lib) := by
  intro ctx world response world' hfresh h
  rw [handleHeaders_content, hfresh] at h
  obtain ⟨r, hset, h⟩ := Except.bind_eq_ok_iff.1 h
  obtain ⟨text, -, hret⟩ := Except.bind_eq_ok_iff.1 h
  cases hret
  exact plainAnswer_content (by decide) hset

/-- `handle_status` answers with the status alone if the component is the number of one, and else
with the text of a bad request, whose status replaces the one that was asked for. -/
theorem answering_handleStatus : Answering (handleStatus lib) := by
  intro ctx world response world' hfresh h
  obtain ⟨code, hat, -⟩ := Except.bind_eq_ok_iff.1 h
  rcases handleStatus_cases (Matches.at'_eq_ok_iff.1 hat) with ⟨n, hn, hres⟩ | ⟨text, hres⟩
  · rw [hres, hfresh] at h
    cases h
    exact .status hn
  · rw [hres, hfresh] at h
    cases h
    exact .badRequest

/-- `handle_bytes` answers with random octets if the component is a number within the limit, and
else with the text of a bad request. -/
theorem answering_handleBytes : Answering (handleBytes lib) := by
  intro ctx world response world' hfresh h
  obtain ⟨num, hat, -⟩ := Except.bind_eq_ok_iff.1 h
  have hset : (ctx.response.setStatus 200).setHeader .octetStream =
      .ok { fields := [⟨"Content-Type".toList, "application/octet_stream".toList⟩] } := by
    rw [hfresh]
    rfl
  rcases handleBytes_cases (Matches.at'_eq_ok_iff.1 hat) hset with
    ⟨bytes, world'', -, hres⟩ | ⟨text, hres⟩
  · rw [hres] at h
    cases h
    exact .content (by decide) (by decide)
  · rw [hres, hfresh] at h
    cases h
    exact .badRequest

/-- Each of the five handlers in the table of `main` gives such answers only. -/
theorem answering_of_mem {e : Str × Handler S W} (h : e ∈ routeTable lib) : Answering e.2 := by
  simp only [routeTable, List.mem_cons, List.not_mem_nil, or_false] at h
  rcases h with rfl | rfl | rfl | rfl | rfl
  · exact answering_helloWorld
  · exact answering_handleIp lib
  · exact answering_handleHeaders lib
  · exact answering_handleStatus lib
  · exact answering_handleBytes lib

end

/-! ## Every read -/

/-- A route of `main` is that of an entry of the table. -/
theorem exists_mem_of_forall₂ {table : List (Str × Handler S W)} {rs : List (Route (Handler S W))}
    (h : List.Forall₂ RouteOf table rs) {r : Route (Handler S W)} (hr : r ∈ rs) :
    ∃ e ∈ table, RouteOf e r := by
  induction h with
  | nil => exact absurd hr List.not_mem_nil
  | @cons e r' table rs hof _ ih =>
    rcases List.mem_cons.1 hr with rfl | hr
    · exact ⟨e, List.mem_cons_self, hof⟩
    · obtain ⟨e', he, hof'⟩ := ih hr
      exact ⟨e', List.mem_cons_of_mem _ he, hof'⟩

section
variable {P : Type _} {W : Type} {lib : Libraries (Option P) W} {rt : Router (Option P) W}

/-- Whatever the outcome of a read is, the router of `main` answers it with one of its answers: the
listener's own answers have a status that is set by name and the content type `text/plain`, and a
handler that is called is one of the five. -/
theorem plainAnswer_of_replies
    (htable : List.Forall₂ RouteOf (routeTable lib) (rt.routes .get))
    (hother : ∀ v, v ≠ .get → rt.routes v = []) {socket : Option P} {world world' : W}
    {outcome : Except ErrorCode Request} {as : List Action} {base : Response}
    (h : Replies rt socket world outcome as base world') : PlainAnswer base := by
  cases h with
  | readError | badMethod | notFound => exact .content (by decide) (by decide)
  | @handled request r m _ _ hroute hm hcall =>
    have hr : r ∈ rt.routes request.method := List.mem_of_find?_eq_some hroute
    have hget : request.method = .get := by
      by_contra hne
      rw [hother _ hne] at hr
      exact absurd hr List.not_mem_nil
    rw [hget] at hr
    obtain ⟨e, he, hof⟩ := exists_mem_of_forall₂ htable hr
    exact answering_of_mem lib he _ _ _ _ rfl (hof.2 ▸ hcall)

end

/-- **Finalising never throws**: whatever the outcome of a read is, what the router of `main`
answers to it, if the handler returns, can be finalised; so along every run of the listener no
completion handler is left by the exception that a response must not have its body. -/
theorem finalises_main {P : Type _} {W : Type} (lib : Libraries (Option P) W) :
    ∃ rt, router lib = .ok rt ∧
      (∀ socket world outcome as base world',
        Replies rt socket world outcome as base world' → Finalises base) ∧
      ∀ world es s, machine.Run (init rt world) es s →
        ∀ c what, ¬ s.Aborts c (.exception (.invalidArgument what)) := by
  obtain ⟨rt, hrt, htable, hother⟩ := router_ok lib
  have hfinalisable : ∀ socket world outcome as base world',
      Replies rt socket world outcome as base world' → Finalisable base :=
    fun _ _ _ _ _ _ h => (plainAnswer_of_replies htable hother h).finalisable
  refine ⟨rt, hrt, fun _ _ _ _ _ _ h => (hfinalisable _ _ _ _ _ _ h).finalises, ?_⟩
  intro world es s hrun c what habort
  rw [← router_of_run hrun] at hfinalisable
  cases (phase_of_run hrun).1.exception_of_aborts hfinalisable habort

/-- The libraries of `listLibraries`, for the sockets of a listener. -/
def peerLibraries : Libraries (Option Str) (List UInt32) where
  tree := .nodes
  remoteAddress socket := .ok (socket.getD [])
  convertUnsigned := listLibraries.convertUnsigned
  convertSize := listLibraries.convertSize
  randomDevice := listLibraries.randomDevice

/-- The request for the status 204, whose response must have no body. -/
def noContentRequest : Request where
  method := .get
  target := "/status/204".toList

/-- It is answered by `handle_status` with an empty response, which is finalised, also by a listener
that has accepted a connection. -/
theorem finalises_main_noContent : ∃ rt base s, router peerLibraries = .ok rt ∧
    Replies rt (some []) [] (.ok noContentRequest) [.invoke] base [] ∧
    base.result = 204 ∧ (∃ response, finalise base = .ok response) ∧
    machine.Run (init rt []) [.accept {} []] s ∧
    ∀ c what, ¬ s.Aborts c (.exception (.invalidArgument what)) := by
  obtain ⟨rt, hrt, hfinalises, hruns⟩ := finalises_main peerLibraries
  have hroute : ∃ rt, router peerLibraries = .ok rt ∧ ∃ r,
      (rt.routes .get).find? (·.accepts noContentRequest.target) = some r ∧
      ∃ m, r.matchView noContentRequest.target = .ok (some m) ∧
      ∃ base, r.callback ⟨some [], noContentRequest, {}, m⟩ [] = .ok (base, []) ∧
        base.result = 204 :=
    ⟨_, rfl, _, rfl, _, rfl, _, rfl, rfl⟩
  obtain ⟨rt', hrt', r, hfind, m, hm, base, hcall, hresult⟩ := hroute
  cases hrt.symm.trans hrt'
  have hreply := Replies.handled hfind hm hcall
  have hbase := hfinalises _ _ _ _ _ _ hreply
  have hbody : base.body = [] := hbase.empty (.inr (.inl hresult))
  have haccepted : machine.Run (init rt []) ([] ++ [.accept {} []]) _ :=
    .snoc .nil ((step_iff rfl (by simp)).2 (.accepted rfl rfl))
  exact ⟨rt, base, _, hrt, hreply, hresult, hbase.returns (by rw [hbody]; decide), haccepted,
    hruns _ _ _ haccepted⟩

end Gomibako.Main
