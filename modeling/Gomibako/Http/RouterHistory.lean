import Gomibako.Http.Router
import Gomibako.Lib.Machine

/-!
# Dispatch and the history of registrations

The routes of a router for a verb are those of the successful calls of `add_route` for it, in their
order (`Router.routes_of_run`). Dispatch refines this flat history except where the first route that
matches has more groups than keys or a handler that throws (`Router.refinesHistory_iff`). A route
that is added overrides the earlier ones only on the targets none of them matches
(`Router.overrides_iff`), since the scan begins with the earliest.
-/

namespace Gomibako

open Beast (Request Response Verb)

namespace Router

variable {S W : Type _}

/-! ## Histories -/

/-- A call of `add_route`, with its method, its path and its handler. -/
structure AddRoute (S W : Type _) where
  method : Method
  route : CStr
  fn : Handler S W

/-- The router as its calls of `add_route` change it, each call being logged with its result. -/
def history : Machine (Router S W) (AddRoute S W × Except StdException Unit) where
  step rt call rt' := rt.addRoute call.1.method call.1.route call.1.fn = (rt', call.2)

/-- The routes of the calls for a verb that succeeded, in the order of the calls. -/
def registered (log : List (AddRoute S W × Except StdException Unit)) (v : Verb) :
    List (Route (Handler S W)) :=
  log.filterMap fun call =>
    match call.2 with
    | .ok () =>
      if call.1.method.toVerb = v then (Route.ctor call.1.route call.1.fn).toOption else none
    | .error _ => none

section
variable {log : List (AddRoute S W × Except StdException Unit)} {rt : Router S W}

/-- **The lists are the history**: the routes for a verb are those of its successful calls. -/
theorem routes_of_run (h : history.Run {} log rt) (v : Verb) : rt.routes v = registered log v := by
  refine h.invariant (P := fun log rt => rt.routes v = registered log v) ?_ ?_
  · exact routes_empty v
  · intro log rt call rt' _ ih hstep
    obtain ⟨⟨m, p, f⟩, res⟩ := call
    rw [registered, List.filterMap_append, ← registered, ← ih]
    cases res with
    | error e =>
      rw [addRoute_error hstep]
      simp
    | ok u =>
      obtain ⟨r, hr, hroutes⟩ := addRoute_ok hstep
      rw [hroutes]
      by_cases hv : v = m.toVerb
      · simp [hv, hr, Except.toOption]
      · have hv' : ¬ m.toVerb = v := fun h => hv h.symm
        simp [hv, hv']

/-- A verb has a route exactly if a call for it succeeded. -/
theorem registered_ne_nil (h : history.Run {} log rt) (v : Verb) :
    registered log v ≠ [] ↔ ∃ c, (c, .ok ()) ∈ log ∧ c.method.toVerb = v := by
  have hok : ∀ c, (c, .ok ()) ∈ log → ∃ r, Route.ctor c.route c.fn = .ok r := by
    refine h.invariant
      (P := fun log _ => ∀ c, (c, .ok ()) ∈ log → ∃ r, Route.ctor c.route c.fn = .ok r) (by simp) ?_
    intro log rt call rt' _ ih hstep c hc
    rcases List.mem_append.1 hc with hc | hc
    · exact ih c hc
    · obtain rfl := List.mem_singleton.1 hc
      obtain ⟨r, hr, -⟩ := addRoute_ok hstep
      exact ⟨r, hr⟩
  constructor
  · intro hne
    obtain ⟨r, hr⟩ := List.exists_mem_of_ne_nil _ hne
    obtain ⟨⟨c, res⟩, hc, hr⟩ := List.mem_filterMap.1 hr
    cases res with
    | error e => cases hr
    | ok u =>
      refine ⟨c, hc, ?_⟩
      by_contra hv
      simp [hv] at hr
  · rintro ⟨c, hc, hv⟩
    obtain ⟨r, hr⟩ := hok c hc
    refine List.ne_nil_of_mem (a := r) (List.mem_filterMap.2 ⟨_, hc, ?_⟩)
    simp [hv, hr, Except.toOption]

end

/-- Adding a route for another verb changes neither the dispatch nor the use of a verb. -/
theorem addRoute_isolated {rt rt' : Router S W} {m : Method} {p : CStr} {f : Handler S W}
    {res : Except StdException Unit} (h : rt.addRoute m p f = (rt', res)) {v : Verb}
    (hv : v ≠ m.toVerb) : rt'.routes v = rt.routes v := by
  cases res with
  | error e => rw [addRoute_error h]
  | ok u =>
    obtain ⟨r, -, hroutes⟩ := addRoute_ok h
    rw [hroutes, if_neg hv, List.append_nil]

/-! ## Refinement -/

/-- The first of the routes for the request's method that matches its target. -/
def firstMatch (log : List (AddRoute S W × Except StdException Unit)) (request : Request) :
    Option (Route (Handler S W)) :=
  (registered log request.method).find? (·.accepts request.target)

/-- The router refines the history `log` on a request: calls that fail change no list; a method is
used if a call for it succeeded; `dispatch` returns, and it returns true if the method is used and a
route of it matches; then the handler of the first such route is called, once, with the matches of
this route, and else nothing is called and the response is untouched; and calls for other methods
have no influence. -/
structure RefinesHistory (log : List (AddRoute S W × Except StdException Unit)) (rt : Router S W)
    (socket : S) (request : Request) (response : Response) (world : W) : Prop where
  failed : ∀ m p f e rt', rt.addRoute m p f = (rt', .error e) → ∀ l, rt'.handlers l = rt.handlers l
  used : ∀ v, rt.isMethodUsed v = true ↔ ∃ c, (c, .ok ()) ∈ log ∧ c.method.toVerb = v
  returns : ∃ b resp w, (rt.dispatch socket request response world).result = .returned b resp w
  returnsTrue : (∃ resp w, (rt.dispatch socket request response world).result =
      .returned true resp w) ↔ rt.isMethodUsed request.method = true ∧
    ∃ r ∈ registered log request.method, r.accepts request.target = true
  called : ∀ resp w, (rt.dispatch socket request response world).result = .returned true resp w →
    ∃ r m, firstMatch log request = some r ∧ r.matchView request.target = .ok (some m) ∧
      (rt.dispatch socket request response world).invoked = [(r.callback, m)] ∧
      r.callback ⟨socket, request, response, m⟩ world = .ok (resp, w)
  untouched : ∀ resp w, (rt.dispatch socket request response world).result =
      .returned false resp w →
    (rt.dispatch socket request response world).invoked = [] ∧ resp = response ∧ w = world
  isolated : ∀ m p f rt' res, rt.addRoute m p f = (rt', res) →
    (request.method ≠ m.toVerb →
      rt'.dispatch socket request response world = rt.dispatch socket request response world) ∧
    ∀ v, v ≠ m.toVerb → rt'.isMethodUsed v = rt.isMethodUsed v

/-- The first route that matches has a key for each of its groups, and its handler returns. -/
def FirstMatchReturns (log : List (AddRoute S W × Except StdException Unit)) (socket : S)
    (request : Request) (response : Response) (world : W) : Prop :=
  ∀ r, firstMatch log request = some r → r.path.markCount ≤ r.keys.length ∧
    ∀ m, r.matchView request.target = .ok (some m) →
      ∃ resp w, r.callback ⟨socket, request, response, m⟩ world = .ok (resp, w)

section
variable {log : List (AddRoute S W × Except StdException Unit)} {rt : Router S W} {socket : S}
  {request : Request} {response : Response} {world : W}

theorem firstMatch_accepts {r : Route (Handler S W)} (h : firstMatch log request = some r) :
    r.accepts request.target = true :=
  Route.accepts_of_find h

/-- Behind any history of calls, dispatch scans the calls that were successful and calls the handler
of the first one that matches. -/
theorem dispatch_of_run (h : history.Run {} log rt) :
    rt.dispatch socket request response world =
      match firstMatch log request with
      | none => ⟨[], .returned false response world⟩
      | some r => callRoute socket request response world r := by
  rw [dispatch_eq, routes_of_run h, firstMatch]
  rfl

/-- A verb is used exactly if a call for it succeeded. -/
theorem isMethodUsed_of_run (h : history.Run {} log rt) (v : Verb) :
    rt.isMethodUsed v = true ↔ ∃ c, (c, .ok ()) ∈ log ∧ c.method.toVerb = v := by
  rw [isMethodUsed_eq, routes_of_run h, registered_ne_nil h]

/-- Without a call whose route matches, nothing is called and `dispatch` returns `false`. -/
theorem dispatch_of_none (h : history.Run {} log rt) (hf : firstMatch log request = none) :
    rt.dispatch socket request response world = ⟨[], .returned false response world⟩ := by
  rw [dispatch_of_run h, hf]

/-- A first match that has a key for each group and a handler that returns is called. -/
theorem dispatch_of_some (h : history.Run {} log rt) {r : Route (Handler S W)}
    (hf : firstMatch log request = some r)
    (hfit : FirstMatchReturns log socket request response world) :
    ∃ m resp w, r.matchView request.target = .ok (some m) ∧
      r.callback ⟨socket, request, response, m⟩ world = .ok (resp, w) ∧
      rt.dispatch socket request response world = ⟨[(r.callback, m)], .returned true resp w⟩ := by
  obtain ⟨hle, hret⟩ := hfit r hf
  rcases Route.matchView_of_accepts (firstMatch_accepts hf) with ⟨m, hm, -⟩ | ⟨-, hlt⟩
  · obtain ⟨resp, w, hc⟩ := hret m hm
    refine ⟨m, resp, w, hm, hc, ?_⟩
    rw [dispatch_of_run h, hf]
    simp only [callRoute, hm, hc]
  · exact absurd hle hlt

/-- If dispatch returns, the first match has a key for each group and a handler that returned. -/
theorem firstMatchReturns_of_returned (h : history.Run {} log rt) {b : Bool} {resp : Response}
    {w : W} (hres : (rt.dispatch socket request response world).result = .returned b resp w) :
    FirstMatchReturns log socket request response world := by
  intro r hr
  rw [dispatch_of_run h, hr] at hres
  rcases Route.matchView_of_accepts (firstMatch_accepts hr) with ⟨m, hm, hle⟩ | ⟨hm, -⟩
  · simp only [callRoute, hm] at hres
    refine ⟨hle, fun m' hm' => ?_⟩
    cases hm.symm.trans hm'
    cases hc : r.callback ⟨socket, request, response, m⟩ world with
    | ok res => exact ⟨res.1, res.2, rfl⟩
    | error e =>
      simp only [hc] at hres
      cases hres
  · simp only [callRoute, hm] at hres
    cases hres

/-- A call of `add_route` does not change the dispatch of the requests for other methods. -/
theorem dispatch_isolated {rt' : Router S W} {m : Method} {p : CStr} {f : Handler S W}
    {res : Except StdException Unit} (ha : rt.addRoute m p f = (rt', res))
    (hv : request.method ≠ m.toVerb) : rt'.dispatch socket request response world =
      rt.dispatch socket request response world := by
  rw [dispatch_eq, dispatch_eq, addRoute_isolated ha hv]

/-- A call of `add_route` does not change whether other methods are used. -/
theorem isMethodUsed_isolated {rt' : Router S W} {m : Method} {p : CStr} {f : Handler S W}
    {res : Except StdException Unit} (ha : rt.addRoute m p f = (rt', res)) (v : Verb)
    (hv : v ≠ m.toVerb) : rt'.isMethodUsed v = rt.isMethodUsed v := by
  rw [Bool.eq_iff_iff, isMethodUsed_eq, isMethodUsed_eq, addRoute_isolated ha hv]

/-- **Dispatch refines the registration history** exactly if the first route that matches has a key
for each of its groups and a handler that returns. -/
theorem refinesHistory_iff (h : history.Run {} log rt) :
    RefinesHistory log rt socket request response world ↔
      FirstMatchReturns log socket request response world := by
  refine ⟨fun href => ?_, fun hfit => ?_⟩
  · obtain ⟨b, resp, w, hres⟩ := href.returns
    exact firstMatchReturns_of_returned h hres
  · have hfailed : ∀ m p f e rt', rt.addRoute m p f = (rt', .error e) →
        ∀ l, rt'.handlers l = rt.handlers l := fun m p f e rt' ha l => by rw [addRoute_error ha]
    have hisolated : ∀ m p f rt' res, rt.addRoute m p f = (rt', res) →
        (request.method ≠ m.toVerb → rt'.dispatch socket request response world =
          rt.dispatch socket request response world) ∧
        ∀ v, v ≠ m.toVerb → rt'.isMethodUsed v = rt.isMethodUsed v :=
      fun m p f rt' res ha => ⟨dispatch_isolated ha, isMethodUsed_isolated ha⟩
    have hmem : (∃ r ∈ registered log request.method, r.accepts request.target = true) ↔
        (firstMatch log request).isSome = true := by
      rw [firstMatch, List.find?_isSome]
    have hused := isMethodUsed_of_run h
    cases hf : firstMatch log request with
    | none =>
      have hd : rt.dispatch socket request response world =
          ⟨[], .returned false response world⟩ := dispatch_of_none h hf
      have hnone : ¬ ∃ r ∈ registered log request.method, r.accepts request.target = true := by
        rw [hmem, hf]
        exact Bool.false_ne_true
      refine ⟨hfailed, hused, ⟨false, response, world, by rw [hd]⟩, ⟨?_, fun h => ?_⟩, ?_, ?_,
        hisolated⟩
      · rintro ⟨resp, w, hres⟩
        rw [hd] at hres
        cases hres
      · exact absurd h.2 hnone
      · intro resp w hres
        rw [hd] at hres
        cases hres
      · intro resp w hres
        rw [hd] at hres ⊢
        cases hres
        exact ⟨rfl, rfl, rfl⟩
    | some r =>
      obtain ⟨m, resp, w, hm, hc, hd⟩ := dispatch_of_some h hf hfit
      have hsome : ∃ r ∈ registered log request.method, r.accepts request.target = true := by
        rw [hmem, hf]
        rfl
      have hne : registered log request.method ≠ [] := by
        obtain ⟨r', hr', -⟩ := hsome
        exact List.ne_nil_of_mem hr'
      refine ⟨hfailed, hused, ⟨true, resp, w, by rw [hd]⟩, ⟨fun _ => ⟨?_, hsome⟩, fun _ => ?_⟩,
        ?_, ?_, hisolated⟩
      · rw [hused, ← registered_ne_nil h]
        exact hne
      · exact ⟨resp, w, by rw [hd]⟩
      · intro resp' w' hres
        rw [hd] at hres ⊢
        cases hres
        exact ⟨r, m, hf, hm, rfl, hc⟩
      · intro resp' w' hres
        rw [hd] at hres
        cases hres

end

/-- A handler that leaves the response as it is, apart from the status. -/
def answer (status : Nat) : Handler Unit Unit := fun ctx world =>
  .ok ({ ctx.response with result := status }, world)

/-- A successful call for GET, whose handler sets a status. -/
def registerGet (path : CStr) (status : Nat) : AddRoute Unit Unit × Except StdException Unit :=
  (⟨.get, path, answer status⟩, .ok ())

/-- The request of the examples, a GET of the target `/a`. -/
def requestA : Request := { method := .get, target := "/a".toList }

/-- One route and a request for it: the router refines the history exactly if the first match
returns. -/
theorem refinesHistory_iff_one : ∃ rt : Router Unit Unit,
    RefinesHistory [registerGet ⟨"/a".toList, by decide⟩ 200] rt () requestA {} () ↔
      FirstMatchReturns [registerGet ⟨"/a".toList, by decide⟩ 200] () requestA {} () :=
  ⟨_, refinesHistory_iff (.snoc .nil rfl)⟩

/-- The route `/(a)` has a group without a key: dispatch of a request it matches is undefined. -/
theorem not_refinesHistory_group : ∃ rt : Router Unit Unit,
    history.Run {} [registerGet ⟨"/(a)".toList, by decide⟩ 200] rt ∧
      (rt.dispatch () requestA {} ()).result = .undefined .vectorBounds ∧
      ¬ RefinesHistory [registerGet ⟨"/(a)".toList, by decide⟩ 200] rt () requestA {} () := by
  refine ⟨_, .snoc .nil rfl, rfl, fun h => ?_⟩
  obtain ⟨b, resp, w, hres⟩ := h.returns
  cases hres

/-! ## Overriding -/

/-- The route `r` that was added last overrides the others on a request: if it accepts the target of
a request for its method its handler is called with its matches, and else dispatch is as before. -/
structure Overrides (rt rt' : Router S W) (m : Method) (r : Route (Handler S W)) (socket : S)
    (request : Request) (response : Response) (world : W) : Prop where
  calls : request.method = m.toVerb → r.accepts request.target = true →
    ∃ ms, r.matchView request.target = .ok (some ms) ∧
      (rt'.dispatch socket request response world).invoked = [(r.callback, ms)]
  unchanged : (request.method = m.toVerb → r.accepts request.target = false) →
    rt'.dispatch socket request response world = rt.dispatch socket request response world

/-- The route `r` has a key for each of its groups, and the first earlier route that accepts the
target, if there is one, has the same handler and the same matches. -/
structure SameAsFirst (log : List (AddRoute S W × Except StdException Unit))
    (r : Route (Handler S W)) (request : Request) : Prop where
  keys : r.path.markCount ≤ r.keys.length
  first : ∀ r', firstMatch log request = some r' →
    r'.callback = r.callback ∧ r'.matchView request.target = r.matchView request.target

/-- **When a route overrides the earlier ones**: exactly on the requests that it does not accept,
and on those where it has a key for each group and no earlier route accepts, or the first earlier
one to accept has its handler and its matches. -/
theorem overrides_iff {log : List (AddRoute S W × Except StdException Unit)} {rt rt' : Router S W}
    (h : history.Run {} log rt) {m : Method} {p : CStr} {f : Handler S W} {r : Route (Handler S W)}
    (ha : rt.addRoute m p f = (rt', .ok ())) (hr : Route.ctor p f = .ok r) {socket : S}
    {request : Request} {response : Response} {world : W} :
    Overrides rt rt' m r socket request response world ↔
      (request.method = m.toVerb → r.accepts request.target = true →
        SameAsFirst log r request) := by
  obtain ⟨r₁, hr₁, hroutes⟩ := addRoute_ok ha
  obtain rfl : r = r₁ := Except.ok.inj (hr.symm.trans hr₁)
  by_cases hv : request.method = m.toVerb
  · have hd : rt'.dispatch socket request response world =
        match (firstMatch log request).or ([r].find? (·.accepts request.target)) with
        | none => ⟨[], .returned false response world⟩
        | some r => callRoute socket request response world r := by
      rw [dispatch_eq, hroutes, if_pos hv, List.find?_append, routes_of_run h, firstMatch]
      rfl
    cases hacc : r.accepts request.target with
    | false =>
      have hfind : [r].find? (·.accepts request.target) = none := by simp [hacc]
      refine ⟨fun _ _ ht => absurd ht Bool.false_ne_true, fun _ => ⟨fun _ ht => ?_, fun _ => ?_⟩⟩
      · exact absurd (hacc.symm.trans ht) Bool.false_ne_true
      · rw [hd, dispatch_of_run h, hfind, Option.or_none]
    | true =>
      have hfind : [r].find? (·.accepts request.target) = some r := by simp [hacc]
      have hcalls : (∃ ms, r.matchView request.target = .ok (some ms) ∧
          (rt'.dispatch socket request response world).invoked = [(r.callback, ms)]) ↔
          SameAsFirst log r request := by
        rw [hd, hfind]
        rcases Route.matchView_of_accepts hacc with ⟨ms, hms, hle⟩ | ⟨herr, hlt⟩
        · cases hf : firstMatch log request with
          | none =>
            refine ⟨fun _ => ⟨hle, fun r' hr' => ?_⟩, fun _ => ⟨ms, hms, ?_⟩⟩
            · cases hf.symm.trans hr'
            · simp [callRoute, hms]
          | some r' =>
            have hsame : SameAsFirst log r request ↔
                r'.callback = r.callback ∧ r'.matchView request.target = .ok (some ms) := by
              refine ⟨fun hs => hms ▸ hs.first r' hf, fun hs => ⟨hle, fun r₂ hr₂ => ?_⟩⟩
              cases hf.symm.trans hr₂
              exact ⟨hs.1, hs.2.trans hms.symm⟩
            rw [hsame, hms]
            rcases Route.matchView_of_accepts (firstMatch_accepts hf) with ⟨m', hm', -⟩ | ⟨hm', -⟩
            · simp [callRoute, hm']
            · simp [callRoute, hm']
        · refine ⟨fun hex => ?_, fun hs => absurd hs.keys hlt⟩
          obtain ⟨ms, hms, -⟩ := hex
          cases herr.symm.trans hms
      refine ⟨fun ho _ _ => hcalls.1 (ho.calls hv hacc), fun hs => ⟨fun _ _ => ?_, fun hn => ?_⟩⟩
      · exact hcalls.2 (hs hv rfl)
      · exact absurd (hn hv) (by simp [hacc])
  · refine ⟨fun _ hv' => absurd hv' hv, fun _ => ⟨fun hv' => absurd hv' hv, fun _ => ?_⟩⟩
    rw [dispatch_eq, dispatch_eq, hroutes, if_neg hv, List.append_nil]

/-- A route after another one for the same path, which is not called unless both do the same. -/
theorem overrides_iff_second : ∃ (rt rt' : Router Unit Unit) (r : Route (Handler Unit Unit)),
    Overrides rt rt' .get r () requestA {} () ↔
      (requestA.method = Method.get.toVerb → r.accepts requestA.target = true →
        SameAsFirst [registerGet ⟨"/a".toList, by decide⟩ 200] r requestA) := by
  have hrun : history.Run {} ([] ++ [registerGet ⟨"/a".toList, by decide⟩ 200])
      (addRoute {} .get ⟨"/a".toList, by decide⟩ (answer 200)).1 := .snoc .nil rfl
  have hctor : Route.ctor ⟨"/a".toList, by decide⟩ (answer 201) = .ok _ := rfl
  exact ⟨_, _, _, overrides_iff hrun rfl hctor⟩

/-- The answers of two handlers tell them apart, by their statuses. -/
theorem answer_injective : Function.Injective answer := fun a b h => by
  have hab := congrFun (congrFun h ⟨(), {}, {}, .empty⟩) ()
  simpa [answer] using hab

/-- A route that is added for the path of an earlier one is never called. -/
theorem not_overrides_second : ∃ (rt rt' : Router Unit Unit) (r : Route (Handler Unit Unit)),
    history.Run {} [registerGet ⟨"/a".toList, by decide⟩ 200] rt ∧
      rt.addRoute .get ⟨"/a".toList, by decide⟩ (answer 201) = (rt', .ok ()) ∧
      Route.ctor ⟨"/a".toList, by decide⟩ (answer 201) = .ok r ∧
      ¬ Overrides rt rt' .get r () requestA {} () := by
  have hrun : history.Run {} ([] ++ [registerGet ⟨"/a".toList, by decide⟩ 200])
      (addRoute {} .get ⟨"/a".toList, by decide⟩ (answer 200)).1 := .snoc .nil rfl
  refine ⟨_, _, _, hrun, rfl, rfl, fun h => ?_⟩
  obtain ⟨ms, -, hcall⟩ := h.calls rfl rfl
  have hans : answer 200 = answer 201 := (Prod.mk.inj (List.cons.inj hcall).1).1
  exact absurd (answer_injective hans) (by decide)

end Router

end Gomibako
