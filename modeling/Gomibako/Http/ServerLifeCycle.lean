import Gomibako.Http.Server

/-!
# The life cycle of a connection

Along every run of the listener exactly one operation is pending, the socket is open while it is a
read or a write, and what was done since the last `async_accept` is known from it (`Phase`). So each
connection is read, answered at most by one handler, written to and closed once before the next
accept (`Listener.lifeCycle`).
-/

namespace Gomibako

open Beast (ErrorCode Request Response)

/-! ## What is done for one connection -/

/-- The action starts a write of a response, whatever the response is. -/
def Action.isAsyncWrite : Action → Bool
  | .asyncWrite _ => true
  | _ => false

/-- What is done since the last `async_accept`, after one more action. -/
def afterAction (cur : List Action) (a : Action) : List Action :=
  if a = .asyncAccept then [] else cur ++ [a]

/-- What is done since the last `async_accept`, in the order of the trace. -/
def sinceAccept (trace : List Action) : List Action := trace.foldl afterAction []

/-- What must be done since the last `async_accept` for an action to come next: a connection that
was accepted is written to once and closed once before the next `async_accept`, and a handler is
invoked if none was, and if a read of the connection that was accepted is done and has left a
request. -/
def Allowed (cur : List Action) : Action → Prop
  | .asyncAccept => ∀ l r, cur = l ++ .accepted :: r →
      r.countP Action.isAsyncWrite = 1 ∧ r.count .close = 1
  | .invoke => .invoke ∉ cur ∧
      ∃ l r request, cur = l ++ .accepted :: r ∧ .readDone (.ok request) ∈ r
  | _ => True

/-- Every action is allowed after what was done since the last `async_accept` before it. -/
def ConnectionsOk (trace : List Action) : Prop :=
  ∀ l a r, trace = l ++ a :: r → Allowed (sinceAccept l) a

/-- One more action is done after those since the last `async_accept`, or is the next one itself. -/
theorem sinceAccept_snoc (trace : List Action) (a : Action) :
    sinceAccept (trace ++ [a]) = afterAction (sinceAccept trace) a := by
  simp [sinceAccept]

/-- More actions are done, one after another, after those since the last `async_accept`. -/
theorem sinceAccept_append (trace as : List Action) :
    sinceAccept (trace ++ as) = as.foldl afterAction (sinceAccept trace) := by
  simp [sinceAccept]

/-- An action that is allowed keeps the connections in order. -/
theorem ConnectionsOk.snoc {trace : List Action} {a : Action} (h : ConnectionsOk trace)
    (ha : Allowed (sinceAccept trace) a) : ConnectionsOk (trace ++ [a]) := by
  intro l b r heq
  rcases List.eq_nil_or_concat r with rfl | ⟨r, c, rfl⟩
  · obtain ⟨rfl, hab⟩ := List.append_inj' heq rfl
    cases hab
    exact ha
  · have heq' : trace ++ [a] = (l ++ b :: r) ++ [c] := by simpa using heq
    obtain ⟨htrace, -⟩ := List.append_inj' heq' rfl
    exact h l b r htrace

/-- Each of the actions is allowed after those before it. -/
def AllAllowed (cur : List Action) : List Action → Prop
  | [] => True
  | a :: as => Allowed cur a ∧ AllAllowed (afterAction cur a) as

/-- Actions that are allowed one after the other keep the connections in order. -/
theorem ConnectionsOk.append {trace as : List Action} (h : ConnectionsOk trace)
    (has : AllAllowed (sinceAccept trace) as) : ConnectionsOk (trace ++ as) := by
  induction as generalizing trace with
  | nil => simpa using h
  | cons a as ih =>
    have := ih (h.snoc has.1) (by rw [sinceAccept_snoc]; exact has.2)
    simpa using this

/-- Where a listener is: its pending operation, whether the socket is open, and what it has done
since the last `async_accept`. -/
inductive Listener.Phase {P W : Type _} (s : Listener P W) : Prop where
  | accepting (hpending : s.pending = [.accept]) (hsocket : s.socket = none)
      (hsince : sinceAccept s.trace = [])
  | reading (hpending : s.pending = [.read]) (hsocket : s.socket.isSome)
      (hrequest : s.request.isSome) (hsince : sinceAccept s.trace = [.accepted, .asyncRead])
  | writing {response : Response} {as : List Action} (outcome : Except ErrorCode Request)
      (hpending : s.pending = [.write response]) (hsocket : s.socket.isSome)
      (hresponse : s.response = some response) (has : as = [] ∨ as = [.invoke])
      (hsince : sinceAccept s.trace =
        [.accepted, .asyncRead, .readDone outcome] ++ as ++ [.asyncWrite response])

namespace Listener

variable {P W : Type _} {s s' : Listener P W} {c : Completion P}

/-- In every phase one operation is pending, and a pending read has a request to fill. -/
theorem Phase.pending (h : s.Phase) :
    ∃ op, s.pending = [op] ∧ (op = .read → s.request.isSome) := by
  cases h with
  | accepting hp => exact ⟨_, hp, by simp⟩
  | reading hp _ hr => exact ⟨_, hp, fun _ => hr⟩
  | writing _ hp => exact ⟨_, hp, by simp⟩

/-- A handler is invoked for a request only, once or not at all, and nothing else is done before the
answer. -/
theorem Replies.actions {router : Router (Option P) W} {socket : Option P} {world world' : W}
    {outcome : Except ErrorCode Request} {as : List Action} {base : Response}
    (h : Replies router socket world outcome as base world') :
    as = [] ∨ as = [.invoke] ∧ ∃ request, outcome = .ok request := by
  cases h with
  | readError => exact .inl rfl
  | badMethod => exact .inl rfl
  | notFound => exact .inl rfl
  | handled => exact .inr ⟨rfl, _, rfl⟩

section
variable {s : Listener P W}

/-- A listener that accepts has done nothing since it started to. -/
theorem Phase.of_accept (h : s.Phase) (hp : s.pending = [.accept]) :
    s.socket = none ∧ sinceAccept s.trace = [] := by
  cases h with
  | accepting _ hs hc => exact ⟨hs, hc⟩
  | reading hp' => cases hp.symm.trans hp'
  | writing _ hp' => cases hp.symm.trans hp'

/-- A listener that reads has accepted a connection and has a request to be filled, and has done
nothing else since. -/
theorem Phase.of_read (h : s.Phase) (hp : s.pending = [.read]) :
    s.socket.isSome ∧ s.request.isSome ∧ sinceAccept s.trace = [.accepted, .asyncRead] := by
  cases h with
  | accepting hp' => cases hp.symm.trans hp'
  | reading _ hs hr hc => exact ⟨hs, hr, hc⟩
  | writing _ hp' => cases hp.symm.trans hp'

/-- A listener that writes has accepted a connection and read from it. -/
theorem Phase.of_write (h : s.Phase) {response : Response} (hp : s.pending = [.write response]) :
    s.socket.isSome ∧ s.response = some response ∧ ∃ outcome as, (as = [] ∨ as = [.invoke]) ∧
      sinceAccept s.trace =
        [.accepted, .asyncRead, .readDone outcome] ++ as ++ [.asyncWrite response] := by
  cases h with
  | accepting hp' => cases hp.symm.trans hp'
  | reading hp' => cases hp.symm.trans hp'
  | writing _ hp' hs hr has hc =>
    cases hp.symm.trans hp'
    exact ⟨hs, hr, _, _, has, hc⟩

end

/-! ## What the steps do is allowed -/

/-- A failed accept may be started again: nothing was accepted. -/
theorem allAllowed_acceptFailed (error : ErrorCode) (text : Str) :
    AllAllowed [] [.logError error text, .asyncAccept] := by
  refine ⟨trivial, ?_, trivial⟩
  intro l r heq
  have hmem : Action.accepted ∈ afterAction [] (.logError error text) := heq ▸ by simp
  simp [afterAction] at hmem

/-- After a read, what is answered may be done: the read, at most one handler, and the write. -/
theorem allAllowed_read {router : Router (Option P) W} {socket : Option P} {world world' : W}
    {outcome : Except ErrorCode Request} {as : List Action} {base : Response}
    (h : Replies router socket world outcome as base world') (response : Response) :
    AllAllowed [.accepted, .asyncRead]
      ([.readDone outcome] ++ as ++ [.asyncWrite response]) := by
  rcases h.actions with rfl | ⟨rfl, request, rfl⟩
  · exact ⟨trivial, trivial, trivial⟩
  · refine ⟨trivial, ⟨by simp [afterAction], [], _, request, rfl, by simp⟩, trivial, trivial⟩

/-- After a write, the connection may be closed and the next one accepted: it was written to once
and is closed once. -/
theorem allAllowed_written (outcome : Except ErrorCode Request) {as : List Action}
    (has : as = [] ∨ as = [.invoke]) (response : Response) :
    AllAllowed ([.accepted, .asyncRead, .readDone outcome] ++ as ++ [.asyncWrite response])
      [.shutdown, .close, .asyncAccept] := by
  refine ⟨trivial, trivial, ?_, trivial⟩
  intro l r heq
  have hcur : .accepted :: ([.asyncRead, .readDone outcome] ++ as ++
      [.asyncWrite response, .shutdown, .close]) = l ++ .accepted :: r := by
    simpa [afterAction] using heq
  cases l with
  | nil =>
    cases hcur
    rcases has with rfl | rfl <;> exact ⟨rfl, rfl⟩
  | cons a l =>
    -- nothing was accepted after the connection
    have hmem : Action.accepted ∈ [.asyncRead, .readDone outcome] ++ as ++
        [.asyncWrite response, .shutdown, .close] := (List.cons.inj hcur).2 ▸ by simp
    rcases has with rfl | rfl <;> simp at hmem

/-! ## Runs -/

/-- Every step leads from phase to phase, and does what is allowed. -/
theorem Phase.next (h : s.Phase) (hok : ConnectionsOk s.trace) (hnext : Next s c s') :
    s'.Phase ∧ ConnectionsOk s'.trace := by
  cases hnext with
  | acceptFailed hp herror =>
    obtain ⟨hs, hc⟩ := h.of_accept hp
    refine ⟨.accepting rfl hs ?_, hok.append ?_⟩
    · rw [sinceAccept_append, hc]
      rfl
    · rw [hc]
      exact allAllowed_acceptFailed _ _
  | accepted hp herror =>
    obtain ⟨-, hc⟩ := h.of_accept hp
    refine ⟨.reading rfl rfl rfl ?_, hok.append ?_⟩
    · rw [sinceAccept_append, hc]
      rfl
    · rw [hc]
      exact ⟨trivial, trivial, trivial⟩
  | @read error request _ as _ _ _ hp hreply hfinal =>
    obtain ⟨hs, -, hc⟩ := h.of_read hp
    have has := hreply.actions.imp_right And.left
    simp only [List.append_assoc]
    refine ⟨.writing (readOutcome error request) rfl hs rfl has ?_, hok.append ?_⟩
    · rw [sinceAccept_append, hc]
      rcases has with rfl | rfl <;> rfl
    · rw [hc, ← List.append_assoc]
      exact allAllowed_read hreply _
  | written hp =>
    obtain ⟨hs, -, outcome, as, has, hc⟩ := h.of_write hp
    refine ⟨.accepting rfl rfl ?_, hok.append ?_⟩
    · rw [sinceAccept_append]
      rfl
    · rw [hc]
      exact allAllowed_written outcome has _

/-- A listener that was constructed accepts, and has done nothing else. -/
theorem phase_init (router : Router (Option P) W) (world : W) :
    (init router world).Phase ∧ ConnectionsOk (init router world).trace := by
  have hnil : ConnectionsOk [] := fun l a r h => by simp at h
  refine ⟨.accepting rfl rfl rfl, hnil.snoc fun l r h => ?_⟩
  simp [sinceAccept] at h

/-- Along a run the listener is in one of its phases, and its connections are in order, by induction
on the run. -/
theorem phase_of_run {router : Router (Option P) W} {world : W} {es : List (Completion P)}
    (h : machine.Run (init router world) es s) : s.Phase ∧ ConnectionsOk s.trace := by
  refine h.invariant (P := fun _ s => s.Phase ∧ ConnectionsOk s.trace) (phase_init router world) ?_
  intro es t c u _ ih hstep
  obtain ⟨op, hp, hreq⟩ := ih.1.pending
  exact ih.1.next ih.2 ((step_iff hp hreq).1 hstep)

/-- The handler of a read finds the request and the response. -/
theorem onRead_ne_emptyOptional (s : Listener P W) (error : ErrorCode) {request : Request}
    (hreq : s.request = some request) : s.onRead error ≠ .error (.undefined .emptyOptional) := by
  intro h
  rcases s.onRead_cases error hreq with ⟨as, base, world, hrep⟩ | ⟨e, he⟩ | hbounds
  · rw [onRead_of_replies hreq hrep, answer] at h
    cases hfin : finalise base <;> simp [hfin] at h
  · cases he.symm.trans h
  · cases hbounds.symm.trans h

/-- In no phase does the handler of a completion read an `optional` that is empty. -/
theorem Phase.complete_ne_emptyOptional (h : s.Phase) {op : Op} (hp : s.pending = [op])
    (hc : c.completes op) : s.complete c [] ≠ .error (.undefined .emptyOptional) := by
  cases c with
  | accept error peer =>
    cases herror : error.failed with
    | true => simp [complete_acceptFailed peer herror]
    | false => simp [complete_accepted peer herror]
  | read error request readBuffer =>
    cases op <;> cases hc
    obtain ⟨-, hreq, -⟩ := h.of_read hp
    exact onRead_ne_emptyOptional _ error (deliver_read_request hreq error request readBuffer)
  | write error => simp [complete_write]

/-- The life cycle of a listener: one operation is pending; the socket is closed while it is an
accept, and open while it is a read or a write; `request` has a value while a read is pending and
`response` is the response that is being written; no completion handler reads `request` or
`response` while they are empty; and the connections of the trace are in order. -/
structure LifeCycle (s : Listener P W) : Prop where
  onePending : ∃ op, s.pending = [op]
  closed : .accept ∈ s.pending → s.socket = none
  opened : ∀ op ∈ s.pending, op ≠ .accept → s.socket.isSome
  request : .read ∈ s.pending → s.request.isSome
  response : ∀ response, .write response ∈ s.pending → s.response = some response
  engaged : ∀ c op, s.pending = [op] → c.completes op →
    s.complete c [] ≠ .error (.undefined .emptyOptional)
  connections : ConnectionsOk s.trace

/-- **The life cycle** holds along every run of the listener, whatever completes with what. -/
theorem lifeCycle {router : Router (Option P) W} {world : W} {es : List (Completion P)}
    (h : machine.Run (init router world) es s) : s.LifeCycle := by
  obtain ⟨hphase, hok⟩ := phase_of_run h
  have hengaged : ∀ c op, s.pending = [op] → c.completes op →
      s.complete c [] ≠ .error (.undefined .emptyOptional) :=
    fun c op hp hc => hphase.complete_ne_emptyOptional hp hc
  cases hphase with
  | accepting hp hs =>
    exact ⟨⟨_, hp⟩, by simp [hs], by simp [hp], by simp [hp], by simp [hp], hengaged, hok⟩
  | reading hp hs hr =>
    exact ⟨⟨_, hp⟩, by simp [hp], by simp [hs], by simp [hr], by simp [hp], hengaged, hok⟩
  | writing _ hp hs hr =>
    exact ⟨⟨_, hp⟩, by simp [hp], by simp [hs], by simp [hp], by simp [hp, hr], hengaged, hok⟩

/-- An accept that fails, then a connection with a request that a handler answers. -/
theorem lifeCycle_connection : ∃ (router : Router (Option Unit) Unit) (s : Listener Unit Unit),
    machine.Run (init router ())
      [.accept .eof (), .accept {} (), .read {} { method := .get, target := ['/'] } {},
        .write {}] s ∧
      .invoke ∈ s.trace ∧ s.LifeCycle := by
  let router : Router (Option Unit) Unit :=
    (Router.addRoute {} .get ⟨['/'], by decide⟩ fun ctx world => .ok (ctx.response, world)).1
  have hfailed : machine.Run (init router ()) ([] ++ [.accept .eof ()]) _ :=
    .snoc .nil ((step_iff rfl (by simp)).2 (.acceptFailed rfl rfl))
  have haccepted := hfailed.snoc (e := .accept {} ())
    ((step_iff rfl (by simp)).2 (.accepted rfl rfl))
  have hfinal : finalise {} = .ok _ := rfl
  have hread := haccepted.snoc (e := .read {} { method := .get, target := ['/'] } {})
    ((step_iff rfl (by simp)).2 (.read rfl (.handled rfl rfl rfl) hfinal))
  have hwritten := hread.snoc (e := .write {}) ((step_iff rfl (by simp)).2 (.written rfl))
  exact ⟨router, _, hwritten, by simp, lifeCycle hwritten⟩

end Listener

end Gomibako
