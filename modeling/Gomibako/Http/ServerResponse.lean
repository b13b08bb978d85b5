import Gomibako.Http.Finalise
import Gomibako.Http.ServerLifeCycle

/-!
# The response to a read

The response that the listener writes after a read is `finalise` of what `Replies` relates to the
outcome of this read. It is made from a fresh response, so nothing of the responses to earlier
connections is in it (`Listener.response_of_read`), and `finalise` gives it one Server field and the
length of its body (`Listener.finalised_of_finalise`).
-/

namespace Gomibako

open Beast (ErrorCode FlatStaticBuffer Request Response iequals)

namespace Listener

variable {P W : Type _}

/-! ## What is written -/

section
variable {router : Router (Option P) W} {world : W} {s s' : Listener P W}
  {es : List (Completion P)}

/-- The outcome of a read, the socket and the world determine what is answered. -/
theorem Replies.unique {socket : Option P} {outcome : Except ErrorCode Request}
    {as as' : List Action} {base base' : Response} {world' world'' : W}
    (h : Replies router socket world outcome as base world')
    (h' : Replies router socket world outcome as' base' world'') :
    as = as' ∧ base = base' ∧ world' = world'' := by
  cases h with
  | readError error =>
    cases h'
    exact ⟨rfl, rfl, rfl⟩
  | badMethod hnil =>
    cases h' with
    | badMethod => exact ⟨rfl, rfl, rfl⟩
    | notFound hne => exact absurd hnil hne
    | handled hr => simp [hnil] at hr
  | notFound hne hmatch =>
    cases h' with
    | badMethod hnil => exact absurd hnil hne
    | notFound => exact ⟨rfl, rfl, rfl⟩
    | handled hr =>
      have hacc := Route.accepts_of_find hr
      exact absurd (hmatch _ (List.mem_of_find?_eq_some hr)) (by simp [hacc])
  | handled hr hm hc =>
    cases h' with
    | badMethod hnil => simp [hnil] at hr
    | notFound _ hmatch =>
      have hacc := Route.accepts_of_find hr
      exact absurd (hmatch _ (List.mem_of_find?_eq_some hr)) (by simp [hacc])
    | handled hr' hm' hc' =>
      cases hr.symm.trans hr'
      cases hm.symm.trans hm'
      cases hc.symm.trans hc'
      exact ⟨rfl, rfl, rfl⟩

/-- If no handler is invoked, the answer is one of the error responses, which can be finalised. -/
theorem Replies.finalisable {socket : Option P} {outcome : Except ErrorCode Request}
    {base : Response} {world' : W} (h : Replies router socket world outcome [] base world') :
    Finalisable base := by
  cases h with
  | readError => exact .errorResponse _ (by decide)
  | badMethod => exact .errorResponse _ (by decide)
  | notFound => exact .errorResponse _ (by decide)

/-- If every answer can be finalised, a completion handler is not left by the exception that there
is a body. -/
theorem Phase.exception_of_aborts {s : Listener P W} (hphase : s.Phase)
    (hfinalisable : ∀ socket world outcome as base world',
      Replies s.router socket world outcome as base world' → Finalisable base)
    {c : Completion P} {e : StdException} (h : s.Aborts c (.exception e)) : e = .lengthError := by
  obtain ⟨op, hp, hreq⟩ := hphase.pending
  obtain ⟨hc, hcomplete⟩ := (aborts_one_iff hp).1 h
  cases c with
  | accept error peer =>
    cases herror : error.failed with
    | true => cases (complete_acceptFailed peer herror).symm.trans hcomplete
    | false => cases (complete_accepted peer herror).symm.trans hcomplete
  | read error request readBuffer =>
    cases op <;> cases hc
    obtain ⟨as, base, world, hrep, hfinal⟩ := onRead_exception
      (deliver_read_request (hreq rfl) error request readBuffer) hcomplete
    exact (hfinalisable _ _ _ _ _ _ hrep).finalise_error hfinal
  | write error => cases (complete_write error).symm.trans hcomplete

/-- No step changes the router, which the listener only has a reference to. -/
theorem Next.router_eq {c : Completion P} (h : Next s c s') : s'.router = s.router := by
  cases h <;> rfl

/-- The router is the one the listener was constructed with. -/
theorem router_of_run (h : machine.Run (init router world) es s) : s.router = router := by
  refine h.invariant (P := fun _ s => s.router = router) rfl ?_
  intro es t c u hrun ih hstep
  obtain ⟨op, hp, hreq⟩ := (phase_of_run hrun).1.pending
  exact ((step_iff hp hreq).1 hstep).router_eq.trans ih

/-- The listener can make a step with a completion, and then writes the response. -/
def Writes (s : Listener P W) (c : Completion P) (response : Response) : Prop :=
  ∃ s', machine.step s c s' ∧ s'.pending = [.write response] ∧ s'.response = some response

/-- **The response to a read.** Whatever the earlier connections were, a listener that reads writes
exactly the finalised answers to the outcome of this read; the answer is one of `Replies`, made from
a fresh response, and finalised to have one Server field and its length. Every step that completes
the read writes one, and an error response is always written. -/
theorem response_of_read (hrun : machine.Run (init router world) es s)
    (hpending : s.pending = [.read]) (error : ErrorCode) (request : Request)
    (readBuffer : FlatStaticBuffer staticBufferMax) :
    (∀ response, Writes s (.read error request readBuffer) response ↔
      ∃ as base world', Replies router s.socket s.world (readOutcome error request) as base world' ∧
        finalise base = .ok response ∧ Finalised base response) ∧
    (∀ s', machine.step s (.read error request readBuffer) s' → ∃ response,
      s'.pending = [.write response] ∧ s'.response = some response) ∧
    ∀ base world', Replies router s.socket s.world (readOutcome error request) [] base world' →
      base.body.length < 2 ^ 64 →
      ∃ response, Writes s (.read error request readBuffer) response ∧ Finalised base response := by
  obtain ⟨-, hreq, -⟩ := (phase_of_run hrun).1.of_read hpending
  have hstep : ∀ s', machine.step s (.read error request readBuffer) s' ↔
      Next s (.read error request readBuffer) s' := fun s' => step_iff hpending fun _ => hreq
  rw [← router_of_run hrun]
  have hwrites : ∀ response, Writes s (.read error request readBuffer) response ↔
      ∃ as base world',
        Replies s.router s.socket s.world (readOutcome error request) as base world' ∧
        finalise base = .ok response ∧ Finalised base response := by
    intro response
    constructor
    · rintro ⟨s', hs, hp, -⟩
      cases (hstep s').1 hs with
      | read _ hreply hfinal =>
        cases hp
        exact ⟨_, _, _, hreply, hfinal, finalised_of_finalise hfinal⟩
    · rintro ⟨as, base, world', hreply, hfinal, -⟩
      exact ⟨_, (hstep _).2 (.read hpending hreply hfinal), rfl, rfl⟩
  refine ⟨hwrites, fun s' hs => ?_, fun base world' hreply hbody => ?_⟩
  · cases (hstep s').1 hs with
    | read => exact ⟨_, rfl, rfl⟩
  · obtain ⟨response, hfinal⟩ := hreply.finalisable.finalises.returns hbody
    have hfin := finalised_of_finalise hfinal
    exact ⟨response, (hwrites response).2 ⟨_, _, _, hreply, hfinal, hfin⟩, hfin⟩

/-- After a connection that was answered with an error, the error of the next one is written. -/
theorem response_of_read_eof : ∃ (s : Listener Unit Unit) (response : Response),
    machine.Run (init {} ()) [.accept {} (), .read {} {} {}, .write {}, .accept {} ()] s ∧
      Writes s (.read .eof {} {}) response ∧ response.result = 500 ∧
      response.body = "asio.misc:2".toList := by
  have haccepted : machine.Run (init {} ()) ([] ++ [.accept {} ()]) _ :=
    .snoc .nil ((step_iff rfl (by simp)).2 (.accepted rfl rfl))
  have hfinal : finalise (errorResponse "Bad method".toList 400) = .ok _ := rfl
  have hread := haccepted.snoc (e := .read {} {} {})
    ((step_iff rfl (by simp)).2 (.read rfl (.badMethod rfl) hfinal))
  have hwritten := hread.snoc (e := .write {}) ((step_iff rfl (by simp)).2 (.written rfl))
  have hnext := hwritten.snoc (e := .accept {} ()) ((step_iff rfl (by simp)).2 (.accepted rfl rfl))
  obtain ⟨response, hwrites, hfin⟩ :=
    (response_of_read hnext rfl .eof {} {}).2.2 _ _ (.readError .eof) (by decide)
  exact ⟨_, response, hnext, hwrites, hfin.result, hfin.body⟩

end

end Listener

end Gomibako
