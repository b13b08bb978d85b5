import Gomibako.Beast.Error
import Gomibako.Beast.Read
import Gomibako.Http.Router
import Gomibako.Http.TypedHeaders
import Gomibako.Lib.Machine

/-!
# The listener

`HttpListener` accepts a connection, reads a request, writes a response, closes the socket and
accepts again. Each of its members starts an asynchronous operation and returns; the machine
`Listener.machine` makes a step when a pending operation completes, with success or with an error.
`Listener.step_iff` says what a step of a listener with one pending operation can do.
-/

namespace Gomibako

open Beast (ErrorCode FlatStaticBuffer Request Response)

/-! ## The listener of the source -/

/-- `STATIC_BUFFER_MAX`: the size of the buffer of a listener, and the limit of `handle_bytes`.
Reference: `STATIC_BUFFER_MAX` (`beast_common.hpp:8`). -/
def staticBufferMax : Nat := 4096

/-- An asynchronous operation that was started; a write refers to the response it was given. -/
inductive Op where
  | accept
  | read
  | write (response : Response)
deriving DecidableEq, Repr

/-- What a listener does and what happens to it. A read that is done has its error or the request it
left; `accepted` is an accept that is done without an error. -/
inductive Action where
  | asyncAccept
  | accepted
  | logError (error : ErrorCode) (text : Str)
  | asyncRead
  | readDone (outcome : Except ErrorCode Request)
  | invoke
  | asyncWrite (response : Response)
  | shutdown
  | close
deriving DecidableEq

/-- How a completion handler can fail to return: an exception leaves it and `run`, one leaves a
function that is `noexcept`, or it does what is undefined. -/
inductive Abort where
  | exception (e : StdException)
  | terminated (e : StdException)
  | undefined (f : Fault)
deriving DecidableEq, Repr

/-- `HttpListener`, over the peers `P` a socket can be connected to; a closed socket has none. The
last two members are not in the source: the operations started and not completed, and everything
that was done so far. Reference: `HttpListener` (`server.cpp:29`). -/
structure Listener (P W : Type _) where
  socket : Option P := none
  readBuffer : FlatStaticBuffer staticBufferMax := {}
  request : Option Request := none
  response : Option Response := none
  router : Router (Option P) W
  world : W
  pending : List Op := []
  trace : List Action := []

namespace Listener

variable {P W : Type _}

/-- Something is done, which is noted at the end of the trace. -/
def act (s : Listener P W) (as : List Action) : Listener P W := { s with trace := s.trace ++ as }

/-- An operation is started, and is pending until it completes. -/
def start (s : Listener P W) (op : Op) : Listener P W := { s with pending := s.pending ++ [op] }

/-- `accept`: the listener waits for a connection. Reference: `HttpListener::accept`
(`server.cpp:81`). -/
def accept (s : Listener P W) : Listener P W := (s.start .accept).act [.asyncAccept]

/-- The constructor: the listener has its router, and starts to accept. Reference:
`HttpListener::HttpListener` (`server.cpp:67`). -/
def init (router : Router (Option P) W) (world : W) : Listener P W :=
  accept { router, world }

/-- `send_response`: the write of the response is started. Reference: `HttpListener::send_response`
(`server.cpp:98`). -/
def sendResponse (s : Listener P W) : Except Abort (Listener P W) :=
  match s.response with
  | none => .error (.undefined .emptyOptional)
  | some response => .ok ((s.start (.write response)).act [.asyncWrite response])

/-- What `prepare_response` does to the response: the Server is set, and the payload is prepared. -/
def finalise (response : Response) : Except StdException Response :=
  (response.setHeader (.server "Gomibako".toList)).bind Response.preparePayload

/-- `prepare_response`: the response that the listener has is finalised. Reference:
`HttpListener::prepare_response` (`server.cpp:110`). -/
def prepareResponse (s : Listener P W) : Except Abort (Listener P W) :=
  match s.response with
  | none => .error (.undefined .emptyOptional)
  | some response =>
    match finalise response with
    | .ok response => .ok { s with response := some response }
    | .error e => .error (.exception e)

/-- `send_error_response`: a new response with the status and the text is finalised and written;
`error` is what the stream operator prints. Reference: `HttpListener::send_error_response`
(`server.cpp:122`). -/
def sendErrorResponse (s : Listener P W) (error : Str) (status : Nat) :
    Except Abort (Listener P W) :=
  match ({ result := status } : Response).setHeader .plainText with
  | .error e => .error (.exception e)
  | .ok response => do
    let s ← prepareResponse { s with response := some (response.write error) }
    s.sendResponse

/-- `read_request`: the read of a new request is started. Reference: `HttpListener::read_request`
(`server.cpp:137`). -/
def readRequest (s : Listener P W) : Listener P W :=
  ({ s with request := some {} }.start .read).act [.asyncRead]

/-- What `handle_request` does after its call of `dispatch`: the response is written if a route was
found, and an error response if not. -/
def afterDispatch (s : Listener P W) (dispatch : Dispatch (Option P) W) :
    Except Abort (Listener P W) :=
  let s := s.act (dispatch.invoked.map fun _ => .invoke)
  match dispatch.result with
  | .terminated e => .error (.terminated e)
  | .undefined f => .error (.undefined f)
  | .returned false response world =>
    sendErrorResponse { s with response := some response, world } "Not found".toList 404
  | .returned true response world => do
    let s ← prepareResponse { s with response := some response, world }
    s.sendResponse

/-- `handle_request`: a method without routes has an error response, and every other request is
dispatched. Reference: `HttpListener::handle_request` (`server.cpp:158`). -/
def handleRequest (s : Listener P W) : Except Abort (Listener P W) :=
  match s.request with
  | none => .error (.undefined .emptyOptional)
  | some request =>
    if !s.router.isMethodUsed request.method then s.sendErrorResponse "Bad method".toList 400
    else s.afterDispatch (s.router.dispatch s.socket request {} s.world)

/-- The handler of `async_accept`: an error is logged and the listener accepts again, and else the
request is read. Reference: `HttpListener::accept` (`server.cpp:81`). -/
def onAccept (s : Listener P W) (error : ErrorCode) : Except Abort (Listener P W) :=
  if error.failed then .ok (s.act [.logError error "Cannot accept incoming TCP".toList]).accept
  else .ok s.readRequest

/-- The handler of `async_read`: an error has a response that names it, and else the request is
handled. Reference: `HttpListener::read_request` (`server.cpp:137`). -/
def onRead (s : Listener P W) (error : ErrorCode) : Except Abort (Listener P W) :=
  if error.failed then s.sendErrorResponse error.print 500
  else s.handleRequest

/-- The handler of `async_write`; the errors of `shutdown` and `close` are not looked at. Reference:
`HttpListener::send_response` (`server.cpp:98`). -/
def onWrite (s : Listener P W) : Listener P W :=
  ({ s with socket := none }.act [.shutdown, .close]).accept

end Listener

/-! ## Completions -/

/-- How an operation completes: an accept with the peer it connected the socket to, a read with the
request it filled and the bytes it left in the buffer. After an error the peer means nothing. -/
inductive Completion (P : Type _) where
  | accept (error : ErrorCode) (peer : P)
  | read (error : ErrorCode) (request : Request) (buffer : FlatStaticBuffer staticBufferMax)
  | write (error : ErrorCode)

/-- The completion is one of the operation, so that its handler is that of the operation. -/
def Completion.completes {P : Type _} : Completion P → Op → Prop
  | .accept .., .accept => True
  | .read .., .read => True
  | .write .., .write _ => True
  | _, _ => False

namespace Listener

variable {P W : Type _}

/-- What a read reports: an error, or the request it filled. -/
def readOutcome (error : ErrorCode) (request : Request) : Except ErrorCode Request :=
  if error.failed then .error error else .ok request

/-- What a completed operation has changed when its handler is called. A read writes through the
reference it was given. -/
def deliver (s : Listener P W) : Completion P → Listener P W
  | .accept error peer =>
    if error.failed then s else { s with socket := some peer }.act [.accepted]
  | .read error request readBuffer =>
    { s with request := s.request.map fun _ => request, readBuffer }.act
      [.readDone (readOutcome error request)]
  | .write _ => s

/-- The handler of a completed operation, which the lambdas of the source are. -/
def handler (s : Listener P W) : Completion P → Except Abort (Listener P W)
  | .accept error _ => s.onAccept error
  | .read error _ _ => s.onRead error
  | .write _ => .ok s.onWrite

/-- One of the pending operations completes: what it has changed is there, and its handler is
called. -/
def complete (s : Listener P W) (c : Completion P) (rest : List Op) :
    Except Abort (Listener P W) :=
  ({ s with pending := rest }.deliver c).handler c

/-- The machine of the completions whose handlers return; any of the pending operations may
complete. -/
def machine : Machine (Listener P W) (Completion P) where
  step s c s' := ∃ l op r, s.pending = l ++ op :: r ∧ c.completes op ∧
    s.complete c (l ++ r) = .ok s'

/-- One of the pending operations completes, and its handler fails to return. -/
def Aborts (s : Listener P W) (c : Completion P) (a : Abort) : Prop :=
  ∃ l op r, s.pending = l ++ op :: r ∧ c.completes op ∧ s.complete c (l ++ r) = .error a

/-! ## What a step can do -/

/-- The response that `send_error_response` makes, before it is finalised: a status, a content type
and a text. -/
def errorResponse (error : Str) (status : Nat) : Response :=
  { result := status, fields := [⟨"Content-Type".toList, "text/plain".toList⟩], body := error }

/-- What is answered to the outcome of a read, before it is finalised, with what is invoked for it
and the world it leaves: an error of the read, a method without routes and a target without a match
have their own error responses, and else the first route that matches has its handler called on a
fresh response. -/
inductive Replies (router : Router (Option P) W) (socket : Option P) (world : W) :
    Except ErrorCode Request → List Action → Response → W → Prop where
  | readError (error : ErrorCode) :
      Replies router socket world (.error error) [] (errorResponse error.print 500) world
  | badMethod {request : Request} (hmethod : router.routes request.method = []) :
      Replies router socket world (.ok request) [] (errorResponse "Bad method".toList 400) world
  | notFound {request : Request} (hmethod : router.routes request.method ≠ [])
      (hmatch : ∀ r ∈ router.routes request.method, r.accepts request.target = false) :
      Replies router socket world (.ok request) [] (errorResponse "Not found".toList 404) world
  | handled {request : Request} {r : Route (Handler (Option P) W)} {m : Matches}
      {response : Response} {world' : W}
      (hroute : (router.routes request.method).find? (·.accepts request.target) = some r)
      (hmatch : r.matchView request.target = .ok (some m))
      (hcall : r.callback ⟨socket, request, {}, m⟩ world = .ok (response, world')) :
      Replies router socket world (.ok request) [.invoke] response world'

/-- The listener has finalised its answer and writes it, after what was done for it. -/
def writing (s : Listener P W) (as : List Action) (response : Response) (world : W) :
    Listener P W :=
  { s with
    response := some response
    world
    pending := s.pending ++ [.write response]
    trace := s.trace ++ as ++ [.asyncWrite response] }

/-- The answer is finalised and written, or the exception of finalising it leaves the handler. -/
def answer (s : Listener P W) (as : List Action) (base : Response) (world : W) :
    Except Abort (Listener P W) :=
  match finalise base with
  | .ok response => .ok (s.writing as response world)
  | .error e => .error (.exception e)

section
variable {s s' : Listener P W}

/-- An answer is given exactly if it can be finalised, and then the listener writes what it is
finalised to. -/
theorem answer_ok_iff {as : List Action} {base : Response} {world : W} :
    s.answer as base world = .ok s' ↔
      ∃ response, finalise base = .ok response ∧ s' = s.writing as response world := by
  rw [answer]
  cases finalise base with
  | error e => simp
  | ok response => simp [eq_comm]

/-- `prepare_response` and `send_response`, one after the other, finalise a response and write
it. -/
theorem prepare_send (s : Listener P W) (base : Response) :
    (do let s ← prepareResponse { s with response := some base }; s.sendResponse) =
      s.answer [] base s.world := by
  simp only [prepareResponse, answer]
  cases finalise base with
  | error e => rfl
  | ok response => simp [bind, Except.bind, sendResponse, start, act, writing]

/-- `send_error_response` finalises and writes its response, for which nothing is invoked. -/
theorem sendErrorResponse_eq (s : Listener P W) (error : Str) (status : Nat) :
    s.sendErrorResponse error status = s.answer [] (errorResponse error status) s.world := by
  have hset : ({ result := status } : Response).setHeader .plainText =
      .ok { result := status, fields := [⟨"Content-Type".toList, "text/plain".toList⟩] } := rfl
  rw [sendErrorResponse, hset]
  exact prepare_send s _

/-- Without a route that matches, the answer is an error. -/
theorem afterDispatch_none (s : Listener P W) (response : Response) :
    s.afterDispatch ⟨[], .returned false response s.world⟩ =
      s.sendErrorResponse "Not found".toList 404 := by
  simp [afterDispatch, sendErrorResponse_eq, act, answer, writing]

/-- After the call of a handler, the answer is the response it left. -/
theorem afterDispatch_true (s : Listener P W) (call : Handler (Option P) W × Matches)
    (base : Response) (world : W) :
    s.afterDispatch ⟨[call], .returned true base world⟩ = s.answer [.invoke] base world := by
  refine (prepare_send { s.act [.invoke] with world } base).trans ?_
  rw [answer, answer]
  cases finalise base with
  | error e => rfl
  | ok response => simp [act, writing]

/-- `handle_request` by the routes of the method and the first of them that matches. -/
theorem handleRequest_eq {request : Request} (hreq : s.request = some request) :
    s.handleRequest =
      if s.router.routes request.method = [] then s.sendErrorResponse "Bad method".toList 400
      else match (s.router.routes request.method).find? (·.accepts request.target) with
        | none => s.sendErrorResponse "Not found".toList 404
        | some r => s.afterDispatch (Router.callRoute s.socket request {} s.world r) := by
  have hused := Router.isMethodUsed_eq s.router request.method
  simp only [handleRequest, hreq]
  by_cases hnil : s.router.routes request.method = []
  · have hno : s.router.isMethodUsed request.method = false := by
      rw [Bool.eq_false_iff, Ne, hused]
      exact fun h => h hnil
    simp only [hno, hnil, Bool.not_false, if_true]
  · rw [hused.2 hnil, if_neg hnil, Router.dispatch_eq]
    cases (s.router.routes request.method).find? (·.accepts request.target) with
    | none => exact afterDispatch_none s {}
    | some r => rfl

/-- **What is answered to a read**: the reply to its outcome. -/
theorem onRead_of_replies {error : ErrorCode} {request : Request} (hreq : s.request = some request)
    {as : List Action} {base : Response} {world : W}
    (h : Replies s.router s.socket s.world (readOutcome error request) as base world) :
    s.onRead error = s.answer as base world := by
  unfold onRead
  unfold readOutcome at h
  split at h
  · next herror =>
    rw [if_pos herror]
    cases h with
    | readError => exact sendErrorResponse_eq s error.print 500
  · next herror =>
    rw [if_neg herror, handleRequest_eq hreq]
    cases h with
    | badMethod hnil =>
      rw [if_pos hnil]
      exact sendErrorResponse_eq s _ _
    | notFound hne hmatch =>
      have hnone : (s.router.routes request.method).find? (·.accepts request.target) = none :=
        List.find?_eq_none.2 fun r hr => by simp [hmatch r hr]
      rw [if_neg hne, hnone]
      exact sendErrorResponse_eq s _ _
    | handled hroute hm hc =>
      have hne : s.router.routes request.method ≠ [] :=
        List.ne_nil_of_mem (List.mem_of_find?_eq_some hroute)
      rw [if_neg hne, hroute]
      simp only [Router.callRoute, hm, hc]
      exact afterDispatch_true s _ _ _

/-- A read whose outcome has no reply ends in what `dispatch` does: it throws although it is
`noexcept`, or it reads the keys of the route out of bounds. -/
theorem onRead_cases (s : Listener P W) (error : ErrorCode) {request : Request}
    (hreq : s.request = some request) :
    (∃ as base world,
        Replies s.router s.socket s.world (readOutcome error request) as base world) ∨
      (∃ e, s.onRead error = .error (.terminated e)) ∨
      s.onRead error = .error (.undefined .vectorBounds) := by
  unfold onRead readOutcome
  split
  · exact .inl ⟨_, _, _, .readError error⟩
  · rw [handleRequest_eq hreq]
    by_cases hnil : s.router.routes request.method = []
    · exact .inl ⟨_, _, _, .badMethod hnil⟩
    · rw [if_neg hnil]
      cases hfind : (s.router.routes request.method).find? (·.accepts request.target) with
      | none =>
        refine .inl ⟨_, _, _, .notFound hnil fun r hr => ?_⟩
        simpa using List.find?_eq_none.1 hfind r hr
      | some r =>
        rcases Route.matchView_of_accepts (Route.accepts_of_find hfind) with ⟨m, hm, -⟩ | ⟨hm, -⟩
        · cases hc : r.callback ⟨s.socket, request, {}, m⟩ s.world with
          | ok result => exact .inl ⟨_, _, _, .handled hfind hm hc⟩
          | error e => exact .inr (.inl ⟨e, by simp only [Router.callRoute, hm, hc]; rfl⟩)
        · exact .inr (.inr (by simp only [Router.callRoute, hm]; rfl))

/-- A read is answered if its outcome has a reply that can be finalised. -/
theorem onRead_ok_iff {error : ErrorCode} {request : Request} (hreq : s.request = some request) :
    s.onRead error = .ok s' ↔
      ∃ as base world response,
        Replies s.router s.socket s.world (readOutcome error request) as base world ∧
        finalise base = .ok response ∧ s' = s.writing as response world := by
  constructor
  · intro h
    rcases s.onRead_cases error hreq with ⟨as, base, world, hrep⟩ | ⟨e, he⟩ | hbounds
    · rw [onRead_of_replies hreq hrep] at h
      obtain ⟨response, hfin, hs'⟩ := answer_ok_iff.1 h
      exact ⟨as, base, world, response, hrep, hfin, hs'⟩
    · cases he.symm.trans h
    · cases hbounds.symm.trans h
  · intro h
    obtain ⟨as, base, world, response, hrep, hfin, hs'⟩ := h
    rw [onRead_of_replies hreq hrep]
    exact answer_ok_iff.2 ⟨response, hfin, hs'⟩

/-- The exceptions that leave the handler of a read are those of finalising. -/
theorem onRead_exception {error : ErrorCode} {request : Request} (hreq : s.request = some request)
    {e : StdException} (h : s.onRead error = .error (.exception e)) : ∃ as base world,
      Replies s.router s.socket s.world (readOutcome error request) as base world ∧
        finalise base = .error e := by
  rcases s.onRead_cases error hreq with ⟨as, base, world, hrep⟩ | ⟨e', he⟩ | hbounds
  · rw [onRead_of_replies hreq hrep, answer] at h
    refine ⟨as, base, world, hrep, ?_⟩
    cases hfin : finalise base with
    | ok response => simp [hfin] at h
    | error e' =>
      rw [hfin] at h
      cases h
      rfl
  · cases he.symm.trans h
  · cases hbounds.symm.trans h

/-- What a listener with one pending operation becomes when that completes. -/
inductive Next (s : Listener P W) : Completion P → Listener P W → Prop where
  | acceptFailed {error : ErrorCode} {peer : P} (hpending : s.pending = [.accept])
      (herror : error.failed = true) :
      Next s (.accept error peer)
        { s with
          pending := [.accept]
          trace := s.trace ++ [.logError error "Cannot accept incoming TCP".toList, .asyncAccept] }
  | accepted {error : ErrorCode} {peer : P} (hpending : s.pending = [.accept])
      (herror : error.failed = false) :
      Next s (.accept error peer)
        { s with
          socket := some peer
          request := some {}
          pending := [.read]
          trace := s.trace ++ [.accepted, .asyncRead] }
  | read {error : ErrorCode} {request : Request} {readBuffer : FlatStaticBuffer staticBufferMax}
      {as : List Action} {base response : Response} {world : W} (hpending : s.pending = [.read])
      (hreply : Replies s.router s.socket s.world (readOutcome error request) as base world)
      (hfinal : finalise base = .ok response) :
      Next s (.read error request readBuffer)
        { s with
          readBuffer
          request := some request
          response := some response
          world
          pending := [.write response]
          trace := s.trace ++ [.readDone (readOutcome error request)] ++ as ++
            [.asyncWrite response] }
  | written {error : ErrorCode} {response : Response} (hpending : s.pending = [.write response]) :
      Next s (.write error)
        { s with
          socket := none
          pending := [.accept]
          trace := s.trace ++ [.shutdown, .close, .asyncAccept] }

/-- If one operation is pending, it is the one that completes, and no other one stays pending. -/
theorem exists_pending_iff {op : Op} (hpending : s.pending = [op]) {p : Op → List Op → Prop} :
    (∃ l op' r, s.pending = l ++ op' :: r ∧ p op' (l ++ r)) ↔ p op [] := by
  constructor
  · intro h
    obtain ⟨l, op', r, hl, hp⟩ := h
    rw [hpending, List.singleton_eq_append_iff] at hl
    obtain ⟨rfl, hr⟩ | ⟨-, hr⟩ := hl
    · cases hr
      exact hp
    · cases hr
  · intro hp
    exact ⟨[], op, [], hpending, hp⟩

/-- A step of a listener with one pending operation is the completion of this operation. -/
theorem step_one_iff {c : Completion P} {op : Op} (hpending : s.pending = [op]) :
    machine.step s c s' ↔ c.completes op ∧ s.complete c [] = .ok s' :=
  exists_pending_iff hpending (p := fun op rest => c.completes op ∧ s.complete c rest = .ok s')

/-- A listener with one pending operation aborts in the completion of this operation. -/
theorem aborts_one_iff {c : Completion P} {op : Op} {a : Abort} (hpending : s.pending = [op]) :
    s.Aborts c a ↔ c.completes op ∧ s.complete c [] = .error a :=
  exists_pending_iff hpending (p := fun op rest => c.completes op ∧ s.complete c rest = .error a)

/-- An accept that fails is logged and started again, and changes nothing else. -/
theorem complete_acceptFailed {error : ErrorCode} (peer : P) (herror : error.failed = true) :
    s.complete (.accept error peer) [] = .ok
      { s with
        pending := [.accept]
        trace := s.trace ++
          [.logError error "Cannot accept incoming TCP".toList, .asyncAccept] } := by
  simp [complete, deliver, handler, onAccept, herror, act, accept, start]

/-- An accept that succeeds is followed by a read into a fresh request. -/
theorem complete_accepted {error : ErrorCode} (peer : P) (herror : error.failed = false) :
    s.complete (.accept error peer) [] = .ok
      { s with
        socket := some peer
        request := some {}
        pending := [.read]
        trace := s.trace ++ [.accepted, .asyncRead] } := by
  simp [complete, deliver, handler, onAccept, herror, act, readRequest, start]

/-- A read that is done has filled the request that it was given a reference to. -/
theorem deliver_read_request (hrequest : s.request.isSome) (error : ErrorCode) (request : Request)
    (readBuffer : FlatStaticBuffer staticBufferMax) :
    ({ s with pending := [] }.deliver (.read error request readBuffer)).request = some request := by
  obtain ⟨old, hold⟩ := Option.isSome_iff_exists.1 hrequest
  simp [deliver, act, hold]

/-- A read that is done is answered: its handler returns exactly if the answer to its outcome can be
finalised. -/
theorem complete_read_iff {error : ErrorCode} {request : Request}
    {readBuffer : FlatStaticBuffer staticBufferMax} (hrequest : s.request.isSome) :
    s.complete (.read error request readBuffer) [] = .ok s' ↔
      ∃ as base world response,
        Replies s.router s.socket s.world (readOutcome error request) as base world ∧
        finalise base = .ok response ∧
        s' = { s with
          readBuffer
          request := some request
          response := some response
          world
          pending := [.write response]
          trace := s.trace ++ [.readDone (readOutcome error request)] ++ as ++
            [.asyncWrite response] } := by
  rw [complete, handler, onRead_ok_iff (deliver_read_request hrequest error request readBuffer)]
  obtain ⟨old, hold⟩ := Option.isSome_iff_exists.1 hrequest
  simp [deliver, act, writing, hold]

/-- A write that is done, with an error or not, closes the socket and accepts again. -/
theorem complete_write (error : ErrorCode) :
    s.complete (.write error) [] = .ok
      { s with
        socket := none
        pending := [.accept]
        trace := s.trace ++ [.shutdown, .close, .asyncAccept] } := by
  simp [complete, deliver, handler, onWrite, act, accept, start]

/-- **What a step can do**: a listener with one pending operation, and a request if it is a read,
makes exactly the steps of `Next`. -/
theorem step_iff {c : Completion P} {op : Op} (hpending : s.pending = [op])
    (hrequest : op = .read → s.request.isSome) : machine.step s c s' ↔ Next s c s' := by
  rw [step_one_iff hpending]
  constructor
  · rintro ⟨hc, hs⟩
    cases c with
    | accept error peer =>
      cases op <;> cases hc
      cases herror : error.failed with
      | true =>
        rw [complete_acceptFailed peer herror] at hs
        cases hs
        exact .acceptFailed hpending herror
      | false =>
        rw [complete_accepted peer herror] at hs
        cases hs
        exact .accepted hpending herror
    | read error request readBuffer =>
      cases op <;> cases hc
      obtain ⟨as, base, world, response, hreply, hfinal, rfl⟩ :=
        (complete_read_iff (hrequest rfl)).1 hs
      exact .read hpending hreply hfinal
    | write error =>
      cases op <;> cases hc
      rw [complete_write] at hs
      cases hs
      exact .written hpending
  · intro h
    cases h with
    | acceptFailed hp herror =>
      cases hpending.symm.trans hp
      exact ⟨trivial, complete_acceptFailed _ herror⟩
    | accepted hp herror =>
      cases hpending.symm.trans hp
      exact ⟨trivial, complete_accepted _ herror⟩
    | read hp hreply hfinal =>
      cases hpending.symm.trans hp
      exact ⟨trivial, (complete_read_iff (hrequest rfl)).2 ⟨_, _, _, _, hreply, hfinal, rfl⟩⟩
    | written hp =>
      cases hpending.symm.trans hp
      exact ⟨trivial, complete_write _⟩

end

end Listener

end Gomibako
