import Gomibako.Beast.Read
import Gomibako.Http.ServerLifeCycle

/-!
# What a connection's read depends on

The listener reads with `async_read` from the peer it has accepted, into a buffer that outlives the
connection. What a connection sends is parsed behind what the buffer holds when it is accepted: the
outcome of the `k`-th read of a run is that of a read behind the `k`-th of the contents that the
buffer has had (`Listener.readsOk_of_run`). So the outcome is the same in two runs whose `k`-th
connections send the same and are accepted with the same octets in the buffer
(`Listener.outcomes_agree`), and if one of them is accepted with an empty buffer, the other one has
to be, for the outcomes to agree whatever is sent (`Listener.agree_iff`).
-/

namespace Gomibako

open Beast (ErrorCode FlatStaticBuffer ReadResult Request Stream asyncRead)

/-- What a socket is connected to: the address of its remote endpoint, and what that sends. -/
structure Peer where
  address : Str
  stream : Stream

/-- How a read completes when it is given its result. -/
def Completion.ofRead {P : Type _} (result : ReadResult staticBufferMax) : Completion P :=
  .read result.error result.request result.buffer

/-- What a read reports to its handler: its error, or the request it has filled. -/
def readReport (result : ReadResult staticBufferMax) : Except ErrorCode Request :=
  Listener.readOutcome result.error result.request

/-- The outcome of a read from a peer behind what the buffer holds. -/
def readFromPeer (peer : Peer) (b : FlatStaticBuffer staticBufferMax) : Except ErrorCode Request :=
  readReport (asyncRead b peer.stream)

/-- A read into the buffer of a listener completes: the buffer is not larger than the one for the
lines of a folded value. -/
theorem thrown_eq_none (b : FlatStaticBuffer staticBufferMax) (stream : Stream) :
    (asyncRead b stream).thrown = none :=
  Beast.asyncRead_thrown (by decide) b stream

namespace Listener

variable {W : Type _}

/-- The listener whose reads are those of `async_read`. A read that an exception leaves would not
complete. -/
def serving : Machine (Listener Peer W) (Completion Peer) where
  step s c s' := machine.step s c s' ∧ ∀ error request readBuffer,
    c = .read error request readBuffer → ∃ peer, s.socket = some peer ∧
      (asyncRead s.readBuffer peer.stream).thrown = none ∧
      c = .ofRead (asyncRead s.readBuffer peer.stream)

/-- The listener has accepted a connection to a peer and reads its request. -/
def reading (s : Listener Peer W) (peer : Peer) : Listener Peer W :=
  { s with
    socket := some peer
    request := some {}
    pending := [.read]
    trace := s.trace ++ [.accepted, .asyncRead] }

/-- The peers of the connections that were accepted, in the order of the events. -/
def connections (es : List (Completion Peer)) : List Peer :=
  es.filterMap fun
    | .accept error peer => if error.failed then none else some peer
    | _ => none

/-- The outcomes of the reads, in the order of the events. -/
def outcomes (es : List (Completion Peer)) : List (Except ErrorCode Request) :=
  es.filterMap fun
    | .read error request _ => some (readOutcome error request)
    | _ => none

/-- What the buffer holds, at first and after each read. -/
def buffers (es : List (Completion Peer)) : List (FlatStaticBuffer staticBufferMax) :=
  {} :: es.filterMap fun
    | .read _ _ readBuffer => some readBuffer
    | _ => none

/-- The `k`-th connection of a run of the listener, counted from zero, is accepted with the octets
in the buffer. -/
def AcceptsWith (router : Router (Option Peer) W) (world : W) (es : List (Completion Peer))
    (k : Nat) (b : FlatStaticBuffer staticBufferMax) : Prop :=
  ∃ before error peer after s t, es = before ++ .accept error peer :: after ∧
    serving.Run (init router world) before s ∧ serving.step s (.accept error peer) t ∧
    error.failed = false ∧ (connections before).length = k ∧ s.readBuffer = b

section
variable {router router' : Router (Option Peer) W} {world world' : W} {s s' t : Listener Peer W}
  {es es' : List (Completion Peer)}

/-! ## The reads of a run -/

/-- What is known of the reads of a run: the connections `l` have had their reads, each with the
outcome of a read behind what the buffer held when it was accepted, which is one of `bs`; the last
connection is none of them as long as its read is pending. -/
structure ReadsOk (es : List (Completion Peer)) (s : Listener Peer W) (l : List Peer)
    (bs : List (FlatStaticBuffer staticBufferMax)) : Prop where
  length : l.length = bs.length
  outcomes : outcomes es = List.zipWith readFromPeer l bs
  buffers : buffers es = bs ++ [s.readBuffer]
  reading : s.pending = [.read] → ∃ peer, s.socket = some peer ∧ connections es = l ++ [peer]
  idle : s.pending ≠ [.read] → connections es = l

/-- A buffer without octets is as new, having no other state. -/
theorem readBuffer_eq (h : s.readBuffer.data = []) : s.readBuffer = {} :=
  FlatStaticBuffer.ext h

/-- The runs with the reads of `async_read` are runs of the listener. -/
theorem run_of_serving (h : serving.Run s es t) : machine.Run s es t :=
  h.mono (N := machine) fun _ _ _ (hstep : serving.step _ _ _) => hstep.1

/-- Every step keeps what is known of the reads: an accept adds a connection, and a read an outcome
and a buffer. -/
theorem ReadsOk.next {l : List Peer} {bs : List (FlatStaticBuffer staticBufferMax)}
    {c : Completion Peer} (h : ReadsOk es s l bs) (hphase : s.Phase)
    (hstep : serving.step s c t) : ∃ l' bs', ReadsOk (es ++ [c]) t l' bs' := by
  obtain ⟨hmachine, hserving⟩ := hstep
  obtain ⟨op, hp, hreq⟩ := hphase.pending
  obtain ⟨hlength, houtcomes, hbuffers, hreading, hidle⟩ := h
  cases (step_iff hp hreq).1 hmachine with
  | @acceptFailed error peer hpending herror =>
    have hconnections := hidle (by simp [hpending])
    refine ⟨l, bs, hlength, ?_, ?_, by simp, fun _ => ?_⟩
    · simpa [Listener.outcomes] using houtcomes
    · simpa [Listener.buffers] using hbuffers
    · simpa [connections, herror] using hconnections
  | @accepted error peer hpending herror =>
    have hconnections := hidle (by simp [hpending])
    refine ⟨l, bs, hlength, ?_, ?_, fun _ => ⟨peer, rfl, ?_⟩, fun hn => absurd rfl hn⟩
    · simpa [Listener.outcomes] using houtcomes
    · simpa [Listener.buffers] using hbuffers
    · rw [← hconnections]
      simp [connections, herror]
  | @read error request readBuffer _ _ _ _ hpending hreply hfinal =>
    obtain ⟨peer, hsocket, hconnections⟩ := hreading hpending
    obtain ⟨peer', hsocket', -, hread⟩ := hserving error request readBuffer rfl
    cases hsocket.symm.trans hsocket'
    have hreport : readOutcome error request = readFromPeer peer s.readBuffer := by
      rw [Completion.ofRead] at hread
      cases hread
      rfl
    refine ⟨l ++ [peer], bs ++ [s.readBuffer], ?_, ?_, ?_, by simp, fun _ => ?_⟩
    · rw [List.length_append, List.length_append, hlength]
      rfl
    · rw [List.zipWith_append hlength, ← houtcomes, List.zipWith_cons_cons, ← hreport]
      simp [Listener.outcomes]
    · rw [← hbuffers]
      simp [Listener.buffers]
    · rw [← hconnections]
      simp [connections]
  | @written error response hpending =>
    have hconnections := hidle (by simp [hpending])
    refine ⟨l, bs, hlength, ?_, ?_, by simp, fun _ => ?_⟩
    · simpa [Listener.outcomes] using houtcomes
    · simpa [Listener.buffers] using hbuffers
    · simpa [connections] using hconnections

/-- **Every read of a run** is behind what the buffer held when the connection was accepted. -/
theorem readsOk_of_run (h : serving.Run (init router world) es s) :
    ∃ l bs, ReadsOk es s l bs := by
  have hinit : ReadsOk [] (init router world) [] [] :=
    ⟨rfl, rfl, rfl, by simp [init, accept, start, act], fun _ => rfl⟩
  refine h.invariant (P := fun es s => ∃ l bs, ReadsOk es s l bs) ⟨[], [], hinit⟩ ?_
  rintro es t c u hrun ⟨l, bs, ih⟩ hstep
  exact ih.next (phase_of_run (run_of_serving hrun)).1 hstep

/-- The outcome of a read by its connection and by what the buffer held. -/
theorem outcome_eq (h : serving.Run (init router world) es s) {k : Nat} {peer : Peer}
    {b : FlatStaticBuffer staticBufferMax} {outcome : Except ErrorCode Request}
    (hk : (connections es)[k]? = some peer) (hb : (buffers es)[k]? = some b)
    (ho : (outcomes es)[k]? = some outcome) : outcome = readFromPeer peer b := by
  obtain ⟨l, bs, hok⟩ := readsOk_of_run h
  rw [hok.outcomes, List.getElem?_zipWith_eq_some] at ho
  obtain ⟨peer', b', hl, hbs, rfl⟩ := ho
  have hlt := (List.getElem?_eq_some_iff.1 hl).1
  have hlt' := (List.getElem?_eq_some_iff.1 hbs).1
  rw [hok.buffers, List.getElem?_append_left hlt', hbs] at hb
  have hconnection : (connections es)[k]? = some peer' := by
    by_cases hp : s.pending = [.read]
    · obtain ⟨last, -, hconnections⟩ := hok.reading hp
      rw [hconnections, List.getElem?_append_left hlt, hl]
    · rw [hok.idle hp, hl]
  cases hk.symm.trans hconnection
  cases hb
  rfl

/-- The buffer that a connection is accepted with is what the reads before have left. -/
theorem AcceptsWith.buffers {k : Nat} {b : FlatStaticBuffer staticBufferMax}
    (h : AcceptsWith router world es k b) : (buffers es)[k]? = some b := by
  obtain ⟨before, error, peer, after, s, t, rfl, hrun, hstep, herror, rfl, rfl⟩ := h
  obtain ⟨op, hp, hreq⟩ := (phase_of_run (run_of_serving hrun)).1.pending
  obtain ⟨l, bs, hok⟩ := readsOk_of_run hrun
  have hidle : s.pending ≠ [.read] := by
    cases (step_iff hp hreq).1 hstep.1 with
    | acceptFailed hpending => simp [hpending]
    | accepted hpending => simp [hpending]
  have hsplit : Listener.buffers (before ++ .accept error peer :: after) =
      bs ++ s.readBuffer :: (Listener.buffers after).tail := by
    have happend : Listener.buffers (before ++ .accept error peer :: after) =
        Listener.buffers before ++ (Listener.buffers after).tail := by
      simp [Listener.buffers]
    rw [happend, hok.buffers, List.append_assoc]
    rfl
  rw [hsplit, hok.idle hidle, hok.length, List.getElem?_append_right (Nat.le_refl _), Nat.sub_self]
  rfl

/-! ## Octets that are left -/

/-- The pending read of a listener reports the outcome, for a listener that reads. -/
def ReadReports (s : Listener Peer W) (outcome : Except ErrorCode Request) : Prop :=
  s.pending = [.read] ∧ ∃ peer, s.socket = some peer ∧
    outcome = readReport (asyncRead s.readBuffer peer.stream)

/-- Whatever the next connection sends, its read has the same outcome in both listeners. -/
def Agree (s s' : Listener Peer W) : Prop :=
  ∀ error error' peer peer' t t' outcome outcome', error.failed = false → error'.failed = false →
    serving.step s (.accept error peer) t → serving.step s' (.accept error' peer') t' →
    peer.stream = peer'.stream → ReadReports t outcome → ReadReports t' outcome' →
    outcome = outcome'

/-- Once a connection is accepted, its read reports what is read behind the octets in the buffer. -/
theorem readReports_accepted (hp : s.pending = [.accept]) {error : ErrorCode} {peer : Peer}
    (herror : error.failed = false) (hstep : serving.step s (.accept error peer) t)
    {outcome : Except ErrorCode Request} :
    ReadReports t outcome ↔ outcome = readReport (asyncRead s.readBuffer peer.stream) := by
  have hnext := (step_iff hp (by simp)).1 hstep.1
  cases hnext with
  | acceptFailed _ hfailed => rw [herror] at hfailed; cases hfailed
  | accepted =>
    refine ⟨fun ⟨_, peer', hsocket, ho⟩ => ?_, fun ho => ⟨rfl, peer, rfl, ho⟩⟩
    cases hsocket
    exact ho

/-- A connection to any peer can be accepted by a listener that accepts, which reads then. -/
theorem serving_accepted (hp : s.pending = [.accept]) (peer : Peer) :
    serving.step s (.accept {} peer) (s.reading peer) :=
  ⟨(step_iff hp (by simp)).2 (.accepted hp rfl), nofun⟩

/-- An error that is reported is the error of the read. -/
theorem readReport_eq_error {result : ReadResult staticBufferMax} {error : ErrorCode}
    (herror : error.failed = true) : readReport result = .error error ↔ result.error = error := by
  unfold readReport readOutcome
  split
  · simp
  · next h =>
    refine ⟨nofun, fun heq => ?_⟩
    rw [heq] at h
    exact absurd herror h

/-- **Exactly when connections influence each other**: a listener and one that has left no octets in
the buffer agree on the next connection exactly if the first has left none either. -/
theorem agree_iff (hp : s.pending = [.accept]) (hp' : s'.pending = [.accept])
    (hclean : s'.readBuffer.data = []) : Agree s s' ↔ s.readBuffer.data = [] := by
  constructor
  · intro hagree
    have ht := serving_accepted hp ⟨[], Stream.closed⟩
    have ht' := serving_accepted hp' ⟨[], Stream.closed⟩
    have hsame := hagree _ _ _ _ _ _ _ _ rfl rfl ht ht' rfl
      ((readReports_accepted hp rfl ht).2 rfl) ((readReports_accepted hp' rfl ht').2 rfl)
    have hend := (Beast.asyncRead_closed (by decide)).2 hclean
    have hfailed : Beast.endOfStream.failed = true := Beast.HttpError.failed_toErrorCode _
    rw [(readReport_eq_error hfailed).2 hend, readReport_eq_error hfailed] at hsame
    exact (Beast.asyncRead_closed (by decide)).1 hsame
  · intro hdata error error' peer peer' t t' outcome outcome' he he' ht ht' hstream ho ho'
    rw [(readReports_accepted hp he ht).1 ho, (readReports_accepted hp' he' ht').1 ho',
      readBuffer_eq hdata, readBuffer_eq hclean, hstream]

/-! ## A connection after another -/

/-- The events of a connection: it is accepted, its request is read, and the answer is written. -/
def connection (peer : Peer) (result : ReadResult staticBufferMax) : List (Completion Peer) :=
  [.accept {} peer, .ofRead result, .write {}]

/-- A connection is accepted, read, answered and closed, after which the listener accepts, with what
the read has left in the buffer. -/
theorem run_connection (hp : s.pending = [.accept]) {peer : Peer}
    {result : ReadResult staticBufferMax} (hread : asyncRead s.readBuffer peer.stream = result)
    {outcome : Except ErrorCode Request} (hreport : readReport result = outcome) {as : List Action}
    {base response : Beast.Response} {world : W}
    (hreply : Replies s.router (some peer) s.world outcome as base world)
    (hfinal : finalise base = .ok response) :
    ∃ t, serving.Run s (connection peer result) t ∧ t.pending = [.accept] ∧
      t.readBuffer = result.buffer ∧ t.router = s.router := by
  subst hreport
  have haccepted := serving_accepted hp peer
  have hanswered : serving.step (s.reading peer) (.ofRead result) _ :=
    ⟨(step_iff (s := s.reading peer) rfl fun _ => rfl).2 (.read rfl hreply hfinal),
      fun _ _ _ _ => ⟨peer, rfl, thrown_eq_none _ _, hread ▸ rfl⟩⟩
  have hwritten := ((Machine.Run.nil.snoc haccepted).snoc hanswered).snoc (e := .write {})
    ⟨(step_iff rfl (by simp)).2 (.written rfl), nofun⟩
  exact ⟨_, hwritten, rfl, rfl, rfl⟩

end

theorem getOctets_ne_nil : "GET / HTTP/1.1\r\n\r\n".toList ≠ [] := by decide

/-- A peer that sends a request for the root, in one piece, and closes the connection. -/
def getPeer : Peer := ⟨[], .chunk "GET / HTTP/1.1\r\n\r\n".toList getOctets_ne_nil⟩

/-- A peer that sends one character and closes the connection. -/
def charPeer : Peer := ⟨[], .chunk ['X'] (List.cons_ne_nil _ _)⟩

/-- A peer that closes the connection and has sent nothing. -/
def closedPeer : Peer := ⟨[], Stream.closed⟩

/-- The error of a connection that is reset, which is none of the parser. -/
def connectionReset : ErrorCode := ⟨"system".toList, 104⟩

theorem failed_connectionReset : connectionReset.failed = true := rfl

/-- What a peer sends whose connection is reset: nothing, and the read ends with the error. -/
def resetStream : Stream := Stream.failing connectionReset failed_connectionReset

/-- A peer whose connection is reset before it has sent anything. -/
def resetPeer : Peer := ⟨[], resetStream⟩

/-- The buffer that a read of the one character leaves, with the character in it. -/
def charBuffer : FlatStaticBuffer staticBufferMax := ⟨['X'], by decide⟩

/-- A read that has failed with an error and left the buffer and the rest of the stream. -/
def failedRead (error : ErrorCode) (buffer : FlatStaticBuffer staticBufferMax) (stream : Stream) :
    ReadResult staticBufferMax :=
  { error, buffer, stream }

/-- A read of the request, behind which the peer has closed the connection. -/
def requestRead (request : Request) : ReadResult staticBufferMax :=
  { request, buffer := {}, stream := Stream.closed }

section
set_option maxRecDepth 10000

/-- The character is not a message, and it stays in the buffer. -/
theorem read_char : asyncRead {} charPeer.stream =
    failedRead Beast.HttpError.partialMessage.toErrorCode charBuffer Stream.closed := rfl

/-- The request behind the character is read with another method, of which the character is the
first one. -/
theorem read_char_get : asyncRead charBuffer getPeer.stream =
    requestRead { methodString := "XGET".toList, target := ['/'] } := rfl

/-- The request alone is read as it was sent, and nothing is left. -/
theorem read_get : asyncRead {} getPeer.stream =
    requestRead { method := .get, target := ['/'] } := rfl

/-- A peer that sends nothing sends no message, and leaves nothing in the buffer. -/
theorem read_closed : asyncRead {} closedPeer.stream =
    failedRead Beast.endOfStream {} Stream.closed := rfl

/-- The error of a connection that is reset is reported, and nothing is left. -/
theorem read_reset : asyncRead {} resetPeer.stream =
    failedRead connectionReset {} resetStream := rfl

end

/-- A listener without routes answers one connection whose read fails and one that sends a request;
the second one is accepted with what the first has left in the buffer. -/
theorem run_twoConnections {peer : Peer} {error : ErrorCode}
    {readBuffer : FlatStaticBuffer staticBufferMax} {stream : Stream} {request : Request}
    (hread : asyncRead {} peer.stream = failedRead error readBuffer stream)
    (herror : error.failed = true)
    (hget : asyncRead readBuffer getPeer.stream = requestRead request) {response : Beast.Response}
    (hfinal : finalise (errorResponse error.print 500) = .ok response) :
    ∃ s : Listener Peer Unit,
      serving.Run (init {} ()) (connection peer (failedRead error readBuffer stream) ++
        connection getPeer (requestRead request)) s ∧
      AcceptsWith {} () (connection peer (failedRead error readBuffer stream) ++
        connection getPeer (requestRead request)) 1 readBuffer := by
  have hmethod : finalise (errorResponse "Bad method".toList 400) = .ok _ := rfl
  have hreport : readReport (failedRead error readBuffer stream) = .error error :=
    (readReport_eq_error herror).2 rfl
  have hinit : (init {} () : Listener Peer Unit).pending = [.accept] := rfl
  obtain ⟨t, ht, hp, hbuffer, hrouter⟩ :=
    run_connection hinit hread hreport (.readError error) hfinal
  have hroutes : t.router.routes request.method = [] := by
    rw [hrouter]
    exact Router.routes_empty _
  change t.readBuffer = readBuffer at hbuffer
  subst hbuffer
  obtain ⟨s, hs, -⟩ := run_connection hp hget rfl (.badMethod hroutes) hmethod
  exact ⟨s, ht.append hs, _, {}, getPeer, _, t, _, rfl, ht, serving_accepted hp getPeer, rfl, rfl,
    rfl⟩

/-! ## Connections do not influence each other -/

/-- **Connections do not influence each other** where they leave the same octets in the buffer: if
the connections of one number in two runs send the same, and are accepted with the same octets in
the buffer, in particular with none, the outcomes of their reads are the same, whatever the
connections before them have sent. -/
theorem outcomes_agree {router router' : Router (Option Peer) W} {world world' : W}
    {s s' : Listener Peer W} {es es' : List (Completion Peer)}
    (h : serving.Run (init router world) es s)
    (h' : serving.Run (init router' world') es' s') {k : Nat}
    {b : FlatStaticBuffer staticBufferMax} (hb : AcceptsWith router world es k b)
    (hb' : AcceptsWith router' world' es' k b) {peer peer' : Peer}
    {outcome outcome' : Except ErrorCode Request}
    (hk : (connections es)[k]? = some peer) (hk' : (connections es')[k]? = some peer')
    (hstream : peer.stream = peer'.stream) (ho : (outcomes es)[k]? = some outcome)
    (ho' : (outcomes es')[k]? = some outcome') : outcome = outcome' := by
  rw [outcome_eq h hk hb.buffers ho, outcome_eq h' hk' hb'.buffers ho', readFromPeer, hstream]
  rfl

/-- A request after a connection that was closed, and one after a connection that was reset. -/
theorem outcomes_agree_get : ∃ s s' : Listener Peer Unit,
    serving.Run (init {} ()) (connection closedPeer (failedRead Beast.endOfStream {} .closed) ++
      connection getPeer (requestRead { method := .get, target := ['/'] })) s ∧
    serving.Run (init {} ()) (connection resetPeer (failedRead connectionReset {} resetStream) ++
      connection getPeer (requestRead { method := .get, target := ['/'] })) s' ∧
    (readOutcome {} { method := .get, target := ['/'] } : Except ErrorCode Request) =
      readOutcome {} { method := .get, target := ['/'] } := by
  obtain ⟨s, hs, hb⟩ := run_twoConnections read_closed rfl read_get rfl
  obtain ⟨s', hs', hb'⟩ := run_twoConnections read_reset rfl read_get rfl
  have hagree := outcomes_agree hs hs' hb hb' (k := 1) rfl rfl rfl rfl rfl
  exact ⟨s, s', hs, hs', hagree⟩

/-- The outcome of a connection's read is the same in all runs in which it sends the same and has
the same number. -/
def OutcomesAgree (router : Router (Option Peer) W) : Prop :=
  ∀ {world world' : W} {s s' : Listener Peer W} {es es' : List (Completion Peer)},
    serving.Run (init router world) es s → serving.Run (init router world') es' s' →
    ∀ {k : Nat} {peer peer' : Peer} {outcome outcome' : Except ErrorCode Request},
      (connections es)[k]? = some peer → (connections es')[k]? = some peer' →
      peer.stream = peer'.stream → (outcomes es)[k]? = some outcome →
      (outcomes es')[k]? = some outcome' → outcome = outcome'

/-- A request for the method `GET` is read as one for `XGET` when the connection before it has sent
an `X` and closed. -/
theorem not_outcomesAgree : ¬ OutcomesAgree (W := Unit) {} := by
  intro h
  obtain ⟨s, hs, -⟩ := run_twoConnections read_char rfl read_char_get rfl
  obtain ⟨s', hs', -⟩ := run_twoConnections read_closed rfl read_get rfl
  have hsame := h hs hs' (k := 1) rfl rfl rfl rfl rfl
  cases hsame

end Listener

end Gomibako
