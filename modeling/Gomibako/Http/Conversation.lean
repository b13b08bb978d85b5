import Gomibako.Beast.DecodeRead
import Gomibako.Beast.Write
import Gomibako.Http.ServerReads
import Gomibako.Http.ServerResponse

/-!
# What the clients get

The listener with the octets of its sockets: it reads with `async_read` what a peer sends, in any
pieces, and `async_write` puts what it writes on the wire, in any amounts. Its runs are those of a
server that serves one connection after another in one step each (`Conversation.served_iff`). If
each peer sends one message, each gets the answer to its own one (`Conversation.answered`).
-/

namespace Gomibako

open Beast (DecodesTo ErrorCode FlatStaticBuffer ReadResult Request Response Sink WriteOutcome
  WriteResult asyncRead asyncWrite)

/-- A connection that was served: its peer, and what its socket took and got. -/
structure Exchange where
  peer : Peer
  sink : Sink
  result : WriteResult

/-- What completes an operation: an accept with its outcome, and a write with a socket that takes
some amounts. -/
inductive SocketEvent where
  | accept (error : ErrorCode) (peer : Peer)
  | read
  | write (sink : Sink)

/-- The listener and the connections it has served, each with its peer and with how the write to it
has completed. -/
structure Conversation (W : Type _) where
  listener : Listener Peer W
  exchanges : List Exchange := []

namespace Conversation

open Listener (Next Replies finalise)

variable {W : Type _}

/-- A step of the listener, whose reads are those of `async_read` and whose writes those of
`async_write`. A read that an exception leaves would not complete. -/
inductive Step (c : Conversation W) : SocketEvent → Conversation W → Prop where
  | accept {error : ErrorCode} {peer : Peer} {s : Listener Peer W}
      (hstep : Listener.machine.step c.listener (.accept error peer) s) :
      Step c (.accept error peer) { c with listener := s }
  | read {peer : Peer} {s : Listener Peer W} (hsocket : c.listener.socket = some peer)
      (hreturns : (asyncRead c.listener.readBuffer peer.stream).thrown = none)
      (hstep : Listener.machine.step c.listener
        (.ofRead (asyncRead c.listener.readBuffer peer.stream)) s) :
      Step c .read { c with listener := s }
  | write {peer : Peer} {response : Response} {sink : Sink} {s : Listener Peer W}
      (hsocket : c.listener.socket = some peer) (hpending : .write response ∈ c.listener.pending)
      (hstep : Listener.machine.step c.listener (.write (asyncWrite response sink).error) s) :
      Step c (.write sink)
        ⟨s, c.exchanges ++ [⟨peer, sink, asyncWrite response sink⟩]⟩

/-- The listener with its sockets, whose steps are those of the operations that complete. -/
def talking : Machine (Conversation W) SocketEvent where
  step := Step

/-- The listener that was constructed, with a router and a world, and has not accepted yet. -/
def start (router : Router (Option Peer) W) (world : W) : Conversation W where
  listener := .init router world

/-! ## One connection after another -/

/-- A connection is served in one step: its message is read behind what the buffer holds, what is
answered is finalised, and its octets are written. -/
def sequential (router : Router (Option Peer) W) :
    Machine (FlatStaticBuffer staticBufferMax × W) Exchange where
  step s x t := ∃ as base response,
    Replies router (some x.peer) s.2 (readReport (asyncRead s.1 x.peer.stream)) as base t.2 ∧
      finalise base = .ok response ∧ x.result = asyncWrite response x.sink ∧
      t.1 = (asyncRead s.1 x.peer.stream).buffer

/-- The connections that were served so far, and how far the one is that is open. -/
inductive Progress (router : Router (Option Peer) W) (world : W) (c : Conversation W) : Prop where
  | accepting (hpending : c.listener.pending = [.accept])
      (hserved : (sequential router).Run ({}, world) c.exchanges
        (c.listener.readBuffer, c.listener.world))
  | reading {peer : Peer} (hpending : c.listener.pending = [.read])
      (hsocket : c.listener.socket = some peer) (hrequest : c.listener.request.isSome)
      (hserved : (sequential router).Run ({}, world) c.exchanges
        (c.listener.readBuffer, c.listener.world))
  | writing {peer : Peer} {response base : Response} {as : List Action}
      {b : FlatStaticBuffer staticBufferMax} {w : W}
      (hpending : c.listener.pending = [.write response])
      (hsocket : c.listener.socket = some peer)
      (hserved : (sequential router).Run ({}, world) c.exchanges (b, w))
      (hreply : Replies router (some peer) w (readReport (asyncRead b peer.stream)) as base
        c.listener.world)
      (hfinal : finalise base = .ok response)
      (hbuffer : c.listener.readBuffer = (asyncRead b peer.stream).buffer)

section
variable {router : Router (Option Peer) W} {world : W} {c d : Conversation W}

/-- In every phase one operation is pending, and a pending read has a request to fill. -/
theorem Progress.pending (h : Progress router world c) :
    ∃ op, c.listener.pending = [op] ∧ (op = .read → c.listener.request.isSome) := by
  cases h with
  | accepting hp => exact ⟨_, hp, by simp⟩
  | reading hp _ hr => exact ⟨_, hp, fun _ => hr⟩
  | writing hp => exact ⟨_, hp, by simp⟩

/-- When a listener accepts, the connections it has served are a run of the sequential server. -/
theorem Progress.of_accept (h : Progress router world c) (hp : c.listener.pending = [.accept]) :
    (sequential router).Run ({}, world) c.exchanges (c.listener.readBuffer, c.listener.world) := by
  cases h with
  | accepting _ hserved => exact hserved
  | reading hp' => cases hp.symm.trans hp'
  | writing hp' => cases hp.symm.trans hp'

/-- Every step leads from phase to phase: the connections that were served stay a run of the
sequential server. -/
theorem Progress.next (h : Progress router world c) (hrouter : c.listener.router = router)
    {e : SocketEvent} (hstep : talking.step c e d) : Progress router world d := by
  obtain ⟨op, hp, hreq⟩ := h.pending
  cases hstep with
  | accept hstep =>
    cases (Listener.step_iff hp hreq).1 hstep with
    | acceptFailed hpending herror => exact .accepting rfl (h.of_accept hpending)
    | accepted hpending herror => exact .reading rfl rfl rfl (h.of_accept hpending)
  | read hsocket _ hstep =>
    cases (Listener.step_iff hp hreq).1 hstep with
    | read hpending hreply hfinal =>
      cases h with
      | accepting hp' => cases hpending.symm.trans hp'
      | writing hp' => cases hpending.symm.trans hp'
      | reading _ hsocket' _ hserved =>
        rw [hrouter, hsocket] at hreply
        exact .writing rfl hsocket hserved hreply hfinal rfl
  | @write peer response sink s hsocket hmem hstep =>
    cases (Listener.step_iff hp hreq).1 hstep with
    | @written error response' hpending =>
      cases h with
      | accepting hp' => cases hpending.symm.trans hp'
      | reading hp' => cases hpending.symm.trans hp'
      | @writing peer' response'' base as b w hp' hsocket' hserved hreply hfinal hbuffer =>
        rw [hp', List.mem_singleton] at hmem
        cases hmem
        cases hsocket.symm.trans hsocket'
        refine .accepting rfl (hserved.snoc ⟨as, base, response, hreply, hfinal, rfl, hbuffer⟩)

/-- A step of the conversation is one of the listener, with the completion that its socket gives. -/
theorem Step.listener {e : SocketEvent} (h : Step c e d) :
    ∃ completion, Listener.machine.step c.listener completion d.listener := by
  cases h with
  | accept hstep => exact ⟨_, hstep⟩
  | read _ _ hstep => exact ⟨_, hstep⟩
  | write _ _ hstep => exact ⟨_, hstep⟩

/-- The phase of a run, whose router is the one the listener was constructed with. -/
theorem progress_of_run {es : List SocketEvent} (h : talking.Run (start router world) es c) :
    Progress router world c ∧ c.listener.router = router := by
  refine h.invariant (P := fun _ c => Progress router world c ∧ c.listener.router = router)
    ⟨.accepting rfl .nil, rfl⟩ ?_
  intro es c e d _ ih hstep
  obtain ⟨op, hp, hreq⟩ := ih.1.pending
  obtain ⟨completion, hmachine⟩ := Step.listener hstep
  have hnext := (Listener.step_iff hp hreq).1 hmachine
  exact ⟨ih.1.next ih.2 hstep, hnext.router_eq.trans ih.2⟩

/-- A read is answered, if what is answered can be finalised. -/
theorem exists_read {peer : Peer} {as : List Action} {base response : Response} {w : W}
    (hsocket : c.listener.socket = some peer) (hp : c.listener.pending = [.read])
    (hrequest : c.listener.request.isSome)
    (hreply : Replies c.listener.router (some peer) c.listener.world
      (readReport (asyncRead c.listener.readBuffer peer.stream)) as base w)
    (hfinal : finalise base = .ok response) :
    ∃ d, talking.step c .read d ∧ d.listener.socket = some peer ∧
      d.listener.pending = [.write response] ∧ d.exchanges = c.exchanges ∧
      d.listener.readBuffer = (asyncRead c.listener.readBuffer peer.stream).buffer ∧
      d.listener.world = w := by
  rw [← hsocket] at hreply
  have hanswered : Listener.machine.step c.listener
      (.ofRead (asyncRead c.listener.readBuffer peer.stream)) _ :=
    (Listener.step_iff hp fun _ => hrequest).2 (.read hp hreply hfinal)
  exact ⟨_, .read hsocket (thrown_eq_none _ _) hanswered, hsocket, rfl, rfl, rfl, rfl⟩

/-- A write ends the connection, whatever the socket takes of the response, and the listener accepts
the next one. -/
theorem exists_write {peer : Peer} {response : Response} (hsocket : c.listener.socket = some peer)
    (hp : c.listener.pending = [.write response]) (sink : Sink) :
    ∃ d, talking.step c (.write sink) d ∧ d.listener.pending = [.accept] ∧
      d.exchanges = c.exchanges ++ [⟨peer, sink, asyncWrite response sink⟩] ∧
      d.listener.readBuffer = c.listener.readBuffer ∧ d.listener.world = c.listener.world := by
  have hmem : .write response ∈ c.listener.pending := hp ▸ List.mem_cons_self
  have hnext : Listener.Next c.listener (.write (asyncWrite response sink).error) _ := .written hp
  have hwritten := (Listener.step_iff hp (by simp)).2 hnext
  exact ⟨_, .write hsocket hmem hwritten, rfl, rfl, rfl, rfl⟩

/-- A listener that accepts serves a connection in three steps, as the sequential server does in
one. -/
theorem exists_run_exchange (hp : c.listener.pending = [.accept]) {x : Exchange}
    {b : FlatStaticBuffer staticBufferMax} {w : W}
    (hstep : (sequential c.listener.router).step (c.listener.readBuffer, c.listener.world) x
      (b, w)) :
    ∃ es d, talking.Run c es d ∧ d.listener.pending = [.accept] ∧
      d.exchanges = c.exchanges ++ [x] ∧ d.listener.readBuffer = b ∧ d.listener.world = w := by
  obtain ⟨peer, sink, result⟩ := x
  obtain ⟨as, base, response, hreply, hfinal, hresult, hbuffer⟩ := hstep
  simp only at hreply hresult hbuffer
  subst hresult hbuffer
  have haccept : talking.step c (.accept {} peer)
      { c with listener := c.listener.reading peer } :=
    .accept ((Listener.step_iff hp (by simp)).2 (.accepted hp rfl))
  obtain ⟨d, hread, hsocket, hpending, hexchanges, hbuffer, hworld⟩ :=
    exists_read (c := { c with listener := c.listener.reading peer }) rfl rfl rfl hreply hfinal
  obtain ⟨d', hwrite, hpending', hexchanges', hbuffer', hworld'⟩ :=
    exists_write hsocket hpending sink
  refine ⟨_, d', ((Machine.Run.nil.snoc haccept).snoc hread).snoc hwrite, hpending', ?_,
    hbuffer'.trans hbuffer, hworld'.trans hworld⟩
  rw [hexchanges', hexchanges]

/-- **The listener serves one connection after another**: the connections that its runs have served
when it accepts, with what went over the wire, are those of the server that serves each in one
step, and it keeps the same buffer and leaves the same world. -/
theorem served_iff {l : List Exchange} {b : FlatStaticBuffer staticBufferMax} {w : W} :
    (∃ es c, talking.Run (start router world) es c ∧ c.listener.pending = [.accept] ∧
      c.exchanges = l ∧ c.listener.readBuffer = b ∧ c.listener.world = w) ↔
      (sequential router).Run ({}, world) l (b, w) := by
  constructor
  · rintro ⟨es, c, hrun, hp, rfl, rfl, rfl⟩
    exact (progress_of_run hrun).1.of_accept hp
  · intro h
    suffices hrun : ∀ t, (sequential router).Run ({}, world) l t → ∃ es c,
        talking.Run (start router world) es c ∧ c.listener.pending = [.accept] ∧
        c.exchanges = l ∧ c.listener.readBuffer = t.1 ∧ c.listener.world = t.2 from hrun _ h
    clear h
    intro t ht
    induction ht with
    | nil => exact ⟨[], _, .nil, rfl, rfl, rfl, rfl⟩
    | @snoc l t x u _ hstep ih =>
      obtain ⟨es, c, hrun, hp, rfl, hbuffer, hworld⟩ := ih
      have hserve : (sequential c.listener.router).step
          (c.listener.readBuffer, c.listener.world) x (u.1, u.2) := by
        rw [(progress_of_run hrun).2, hbuffer, hworld]
        exact hstep
      obtain ⟨es', d, hrun', hp', hexchanges, hbuffer', hworld'⟩ := exists_run_exchange hp hserve
      exact ⟨es ++ es', d, hrun.append hrun', hp', hexchanges, hbuffer', hworld'⟩

/-! ## Clients that send one message -/

/-- The peer sends one message and nothing behind it, and its parts fit the buffer. -/
def SendsOne (peer : Peer) (m : Request) : Prop :=
  DecodesTo staticBufferMax peer.stream.octets m []

/-- A message is answered: what is on the wire is what the answer to it, which is finalised, comes
to in a write. -/
def answering (router : Router (Option Peer) W) : Machine W Exchange where
  step w x w' := ∃ m as base response, SendsOne x.peer m ∧
    Replies router (some x.peer) w (.ok m) as base w' ∧ finalise base = .ok response ∧
    WriteOutcome (response.fields.keepAlive response.version) response.text x.sink 0 [] x.result

/-- The message of a peer that sends one is read, and leaves nothing in the buffer. -/
theorem read_of_sendsOne {peer : Peer} {m : Request} (h : SendsOne peer m) :
    readReport (asyncRead (N := staticBufferMax) {} peer.stream) = .ok m ∧
      (asyncRead (N := staticBufferMax) {} peer.stream).buffer = {} := by
  have hN : staticBufferMax < Beast.Parser.headerLimit := by decide
  rcases Beast.asyncRead_outcome hN (by decide) {} peer.stream with
    ⟨-, hnone⟩ | ⟨herror, -, -, hd⟩
  · exact absurd h (hnone m [])
  · obtain ⟨hm, hrest⟩ := h.det hd
    refine ⟨?_, FlatStaticBuffer.ext (List.append_eq_nil_iff.1 hrest).1⟩
    rw [readReport, Listener.readOutcome, herror, hm]
    rfl

/-- Peers that send one message each are answered, and leave nothing in the buffer. -/
theorem answering_of_sequential {l : List Exchange} {t : FlatStaticBuffer staticBufferMax × W}
    (h : (sequential router).Run ({}, world) l t) (hone : ∀ x ∈ l, ∃ m, SendsOne x.peer m) :
    t.1 = {} ∧ (answering router).Run world l t.2 := by
  induction h with
  | nil => exact ⟨rfl, .nil⟩
  | @snoc l t x u _ hstep ih =>
    obtain ⟨hempty, hrun⟩ := ih fun y hy => hone y (List.mem_append_left _ hy)
    obtain ⟨m, hm⟩ := hone x (List.mem_append_right _ List.mem_cons_self)
    obtain ⟨as, base, response, hreply, hfinal, hresult, hbuffer⟩ := hstep
    obtain ⟨hread, hleft⟩ := read_of_sendsOne hm
    rw [hempty] at hreply hbuffer
    rw [hread] at hreply
    refine ⟨hbuffer.trans hleft, hrun.snoc ⟨m, as, base, response, hm, hreply, hfinal, ?_⟩⟩
    rw [hresult]
    exact Beast.asyncWrite_outcome response x.sink

/-- **Each client gets the answer to its own message**: if the peers that were served have sent one
message each, in whatever pieces, the connections are answered one after the other, and what is on
the wire of each is the start of the answer, and all of it if the socket did not fail. -/
theorem answered {es : List SocketEvent} (h : talking.Run (start router world) es c)
    (hone : ∀ x ∈ c.exchanges, ∃ m, SendsOne x.peer m) :
    ∃ w, (answering router).Run world c.exchanges w := by
  cases (progress_of_run h).1 with
  | accepting _ hserved => exact ⟨_, (answering_of_sequential hserved hone).2⟩
  | reading _ _ _ hserved => exact ⟨_, (answering_of_sequential hserved hone).2⟩
  | writing _ _ hserved => exact ⟨_, (answering_of_sequential hserved hone).2⟩

end

set_option maxRecDepth 10000 in
/-- A peer that sends a request and nothing behind it sends one message. -/
theorem sendsOne_getPeer : SendsOne Listener.getPeer { method := .get, target := ['/'] } := by
  refine .part (.startLine rfl rfl .done rfl) (fun _ => ?_) (.complete rfl)
  exact_mod_cast (by decide : (_ : Nat) ≤ _ + staticBufferMax)

/-- A client sends a request to a listener without routes, and gets six octets of the answer. -/
theorem answered_getPeer : ∃ es c w, talking.Run (start {} ()) es c ∧ c.exchanges.length = 1 ∧
    (answering {}).Run () c.exchanges w := by
  obtain ⟨response, hfinal⟩ :
      ∃ response, finalise (Listener.errorResponse "Bad method".toList 400) = .ok response :=
    ⟨_, rfl⟩
  have hread : readReport (asyncRead (N := staticBufferMax) {} Listener.getPeer.stream) =
      .ok { method := .get, target := ['/'] } := (read_of_sendsOne sendsOne_getPeer).1
  have hreply : Replies (W := Unit) {} (some Listener.getPeer) ()
      (readReport (asyncRead (N := staticBufferMax) {} Listener.getPeer.stream)) []
      (Listener.errorResponse "Bad method".toList 400) () := by
    rw [hread]
    exact .badMethod (Router.routes_empty _)
  have hserve : (sequential {}).step ({}, ())
      ⟨Listener.getPeer, Beast.fiveSink, asyncWrite response Beast.fiveSink⟩
      ((asyncRead {} Listener.getPeer.stream).buffer, ()) :=
    ⟨[], _, response, hreply, hfinal, rfl, rfl⟩
  obtain ⟨es, c, hrun, -, hexchanges, -⟩ := exists_run_exchange (c := start {} ()) rfl hserve
  have hone : ∀ x ∈ c.exchanges, ∃ m, SendsOne x.peer m := by
    rw [hexchanges]
    intro x hx
    cases List.mem_singleton.1 hx
    exact ⟨_, sendsOne_getPeer⟩
  obtain ⟨w, hw⟩ := answered hrun hone
  exact ⟨es, c, w, hrun, by rw [hexchanges]; rfl, hw⟩

end Conversation

end Gomibako
