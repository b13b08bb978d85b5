import Gomibako.Beast.Message
import Gomibako.Http.Route

/-!
# The router

`Router` keeps a list of routes for each of seven methods. `addRoute` appends to the list that
`mapMethod` selects, or throws and leaves all lists alone (`Router.addRoute_error`); `dispatch`
scans the list of the request's method and calls the handler of the first route that matches the
target (`Router.dispatch_eq`).
-/

namespace Gomibako

open Beast (Request Response Verb)

/-! ## The classes of the source -/

/-- `http::Method`, the methods that `add_route` can be called with. Reference: `Method`
(`router.hpp:20`). -/
inductive Method where
  | get | head | post | put | delete | connect | options | trace
deriving DecidableEq, Repr

/-- The value of a `Method` as a `verb`, which it is cast to. -/
def Method.toVerb : Method → Verb
  | get => .get
  | head => .head
  | post => .post
  | put => .put
  | delete => .delete
  | connect => .connect
  | options => .options
  | trace => .trace

/-- `Router::Context`, over any type `S` of sockets: what a handler is called with. Reference:
`Router::Context` (`router.hpp:52`). -/
structure Context (S : Type _) where
  socket : S
  request : Request
  response : Response
  «matches» : Matches

/-- `Router::router_handler`: the response is left as the handler makes it. The handler may read and
change the state `W` of what is around the server. -/
abbrev Handler (S W : Type _) := Context S → W → Except StdException (Response × W)

/-- The members of `Router` that hold routes, as `map_method` points to them. -/
inductive HandlerList where
  | get | head | post | put | delete | options | trace
deriving DecidableEq, Repr

/-- `Router`: the routes of each method that it has a list for, in the order they were added in.
Reference: `Router` (`router.hpp:42`). -/
structure Router (S W : Type _) where
  getHandlers : List (Route (Handler S W)) := []
  headHandlers : List (Route (Handler S W)) := []
  postHandlers : List (Route (Handler S W)) := []
  putHandlers : List (Route (Handler S W)) := []
  deleteHandlers : List (Route (Handler S W)) := []
  optionsHandlers : List (Route (Handler S W)) := []
  traceHandlers : List (Route (Handler S W)) := []

/-- How a call of `dispatch` ends: it returns and leaves the response and the world as they are
then, an exception escapes from it though it is `noexcept`, or it does what is undefined. -/
inductive DispatchResult (W : Type _) where
  | returned (found : Bool) (response : Response) (world : W)
  | terminated (e : StdException)
  | undefined (f : Fault)

/-- The call returns: no exception has left it, and it has done nothing that is undefined. -/
def DispatchResult.isReturned {W : Type _} : DispatchResult W → Bool
  | .returned .. => true
  | _ => false

/-- A call of `dispatch`: the handlers it calls with the matches they are given, and its end. -/
structure Dispatch (S W : Type _) where
  invoked : List (Handler S W × Matches)
  result : DispatchResult W

namespace Router

variable {S W : Type _}

/-- The list that a pointer of `map_method` points to. -/
def handlers (rt : Router S W) : HandlerList → List (Route (Handler S W))
  | .get => rt.getHandlers
  | .head => rt.headHandlers
  | .post => rt.postHandlers
  | .put => rt.putHandlers
  | .delete => rt.deleteHandlers
  | .options => rt.optionsHandlers
  | .trace => rt.traceHandlers

/-- A route goes to the end of the list a pointer points to. -/
def push (rt : Router S W) (l : HandlerList) (r : Route (Handler S W)) : Router S W :=
  match l with
  | .get => { rt with getHandlers := rt.getHandlers ++ [r] }
  | .head => { rt with headHandlers := rt.headHandlers ++ [r] }
  | .post => { rt with postHandlers := rt.postHandlers ++ [r] }
  | .put => { rt with putHandlers := rt.putHandlers ++ [r] }
  | .delete => { rt with deleteHandlers := rt.deleteHandlers ++ [r] }
  | .options => { rt with optionsHandlers := rt.optionsHandlers ++ [r] }
  | .trace => { rt with traceHandlers := rt.traceHandlers ++ [r] }

/-- `map_method`: the list of a verb; CONNECT and every verb without a `Method` have none.
Reference: `Router::map_method` (`router.cpp:89`). -/
def mapMethod : Verb → Option HandlerList
  | .get => some .get
  | .head => some .head
  | .post => some .post
  | .put => some .put
  | .delete => some .delete
  | .options => some .options
  | .trace => some .trace
  | _ => none

/-- `emplace_back`: the route is constructed first, and if that throws the vector is as before.
Reference: `Router::add_route` (`router.cpp:54`). -/
def emplaceBack (rt : Router S W) (l : HandlerList) (route : CStr) (fn : Handler S W) :
    Router S W × Except StdException Unit :=
  match Route.ctor route fn with
  | .ok r => (rt.push l r, .ok ())
  | .error e => (rt, .error e)

/-- `add_route`: the route goes to the end of the list of its method, and a method without a list is
refused. Reference: `Router::add_route` (`router.cpp:54`). -/
def addRoute (rt : Router S W) (method : Method) (route : CStr) (fn : Handler S W) :
    Router S W × Except StdException Unit :=
  match mapMethod method.toVerb with
  | none => (rt, .error (.rangeError "Unknown method".toList))
  | some l => rt.emplaceBack l route fn

/-- The loop of `dispatch`: the first route that matches the target has its handler called, and no
other one is tried. Reference: `Router::dispatch` (`router.cpp:66`). -/
def dispatchLoop (socket : S) (request : Request) (response : Response) (world : W) :
    List (Route (Handler S W)) → Dispatch S W
  | [] => ⟨[], .returned false response world⟩
  | handler :: rest =>
    match handler.matchView request.target with
    | .error f => ⟨[], .undefined f⟩
    | .ok none => dispatchLoop socket request response world rest
    | .ok (some m) =>
      ⟨[(handler.callback, m)],
        match handler.callback ⟨socket, request, response, m⟩ world with
        | .ok (response, world) => .returned true response world
        | .error e => .terminated e⟩

/-- `dispatch`: the routes of the method of the request are tried in order. Reference:
`Router::dispatch` (`router.cpp:66`). -/
def dispatch (rt : Router S W) (socket : S) (request : Request) (response : Response) (world : W) :
    Dispatch S W :=
  match mapMethod request.method with
  | none => ⟨[], .returned false response world⟩
  | some l => dispatchLoop socket request response world (rt.handlers l)

/-- `is_method_used`: there is a route for the verb. Reference: `Router::is_method_used`
(`router.cpp:83`). -/
def isMethodUsed (rt : Router S W) (method : Verb) : Bool :=
  match mapMethod method with
  | none => false
  | some l => (rt.handlers l).length > 0

/-! ## Adding a route -/

/-- The routes for a verb, in the order in which `dispatch` tries them. -/
def routes (rt : Router S W) (v : Verb) : List (Route (Handler S W)) :=
  match mapMethod v with
  | none => []
  | some l => rt.handlers l

/-- A new router has no routes for any verb. -/
theorem routes_empty (v : Verb) : ({} : Router S W).routes v = [] := by
  unfold routes
  cases mapMethod v with
  | none => rfl
  | some l => cases l <;> rfl

/-- Pushing to a list appends to it and to no other one. -/
theorem handlers_push (rt : Router S W) (l l' : HandlerList) (r : Route (Handler S W)) :
    (rt.push l r).handlers l' = rt.handlers l' ++ (if l' = l then [r] else []) := by
  cases l <;> cases l' <;> simp [push, handlers]

/-- Different methods have different lists, so a route for one of them is not tried for another
one. -/
theorem mapMethod_inj {v v' : Verb} {l : HandlerList} (h : mapMethod v = some l)
    (h' : mapMethod v' = some l) : v = v' := by
  cases l <;> cases v <;> cases h <;> cases v' <;> cases h' <;> rfl

/-- A call that throws leaves all lists as they were. -/
theorem addRoute_error {rt rt' : Router S W} {m : Method} {p : CStr} {f : Handler S W}
    {e : StdException} (h : rt.addRoute m p f = (rt', .error e)) : rt' = rt := by
  unfold addRoute at h
  split at h
  · cases h
    rfl
  · unfold emplaceBack at h
    split at h
    · cases h
    · cases h
      rfl

/-- A call that succeeds has constructed its route and appended it to the routes of its method. -/
theorem addRoute_ok {rt rt' : Router S W} {m : Method} {p : CStr} {f : Handler S W}
    (h : rt.addRoute m p f = (rt', .ok ())) :
    ∃ r, Route.ctor p f = .ok r ∧
      ∀ v, rt'.routes v = rt.routes v ++ (if v = m.toVerb then [r] else []) := by
  unfold addRoute at h
  split at h
  · cases h
  · next l hl =>
    unfold emplaceBack at h
    split at h
    · next r hr =>
      cases h
      refine ⟨r, hr, fun v => ?_⟩
      unfold routes
      cases hv : mapMethod v with
      | none =>
        have hne : v ≠ m.toVerb := fun h => by rw [h, hl] at hv; cases hv
        simp [hne]
      | some l' =>
        simp only [handlers_push]
        by_cases hll : l' = l
        · subst hll
          simp [mapMethod_inj hv hl]
        · have hne : v ≠ m.toVerb := fun h => by
            rw [h, hl] at hv
            exact hll (Option.some.inj hv).symm
          simp [hll, hne]
    · cases h

/-! ## Dispatch -/

end Router

/-- The regular expression of the route matches the target, as far as it is seen. -/
def Route.accepts {H : Type _} (r : Route H) (target : Str) : Bool :=
  (Ecma.regexMatch target.cStr.chars r.path).isSome

namespace Router

variable {S W : Type _}

/-- What `dispatch` does with the first route that matches: its handler is called with the
matches. -/
def callRoute (socket : S) (request : Request) (response : Response) (world : W)
    (r : Route (Handler S W)) : Dispatch S W :=
  match r.matchView request.target with
  | .error f => ⟨[], .undefined f⟩
  | .ok none => ⟨[], .returned false response world⟩
  | .ok (some m) =>
    ⟨[(r.callback, m)],
      match r.callback ⟨socket, request, response, m⟩ world with
      | .ok (response, world) => .returned true response world
      | .error e => .terminated e⟩

end Router

/-- A route that accepts the target gives its matches, or reads `keys` out of bounds. -/
theorem Route.matchView_of_accepts {H : Type _} {r : Route H} {target : Str}
    (h : r.accepts target = true) :
    (∃ m, r.matchView target = .ok (some m) ∧ r.path.markCount ≤ r.keys.length) ∨
      (r.matchView target = .error .vectorBounds ∧ ¬ r.path.markCount ≤ r.keys.length) := by
  obtain ⟨result, hm⟩ := Option.isSome_iff_exists.1 h
  have hsize : result.size - 1 = r.path.markCount := Ecma.regexMatch_groups_length hm
  have hisOk := components_isOk r.keys result (result.size - 1)
  simp only [matchView, Route.match, hm, ← hsize]
  cases hc : components r.keys result (result.size - 1) with
  | ok m => exact .inl ⟨m, rfl, hisOk.1 ⟨m, hc⟩⟩
  | error f =>
    refine .inr ⟨by rw [components_error hc]; rfl, fun hle => ?_⟩
    obtain ⟨m, hm⟩ := hisOk.2 hle
    cases hc.symm.trans hm

/-- A route that does not accept the target gives nothing. -/
theorem Route.matchView_of_not_accepts {H : Type _} {r : Route H} {target : Str}
    (h : r.accepts target = false) : r.matchView target = .ok none := by
  unfold accepts at h
  rw [Option.isSome_eq_false_iff, Option.isNone_iff_eq_none] at h
  simp only [matchView, Route.match, h]

/-- The first route that matches does accept the target, being found by that. -/
theorem Route.accepts_of_find {H : Type _} {rs : List (Route H)} {target : Str} {r : Route H}
    (h : rs.find? (·.accepts target) = some r) : r.accepts target = true := by
  have hr := List.find?_some h
  exact hr

namespace Router

variable {S W : Type _} {socket : S} {request : Request} {response : Response} {world : W}

/-- The loop of `dispatch` calls the first route that matches. -/
theorem dispatchLoop_eq (rs : List (Route (Handler S W))) :
    dispatchLoop socket request response world rs =
      match rs.find? (·.accepts request.target) with
      | none => ⟨[], .returned false response world⟩
      | some r => callRoute socket request response world r := by
  induction rs with
  | nil => rfl
  | cons r rs ih =>
    cases ha : r.accepts request.target with
    | false =>
      rw [dispatchLoop, Route.matchView_of_not_accepts ha, List.find?_cons_of_neg (by simp [ha])]
      exact ih
    | true =>
      have hfind : (r :: rs).find? (·.accepts request.target) = some r := by simp [ha]
      rw [hfind, dispatchLoop]
      rcases Route.matchView_of_accepts ha with ⟨m, hm, -⟩ | ⟨hm, -⟩ <;> simp only [callRoute, hm]

/-- `dispatch` calls the first route of the request's method that matches. -/
theorem dispatch_eq (rt : Router S W) :
    rt.dispatch socket request response world =
      match (rt.routes request.method).find? (·.accepts request.target) with
      | none => ⟨[], .returned false response world⟩
      | some r => callRoute socket request response world r := by
  unfold dispatch routes
  cases mapMethod request.method with
  | none => rfl
  | some l => exact dispatchLoop_eq _

/-- A method is used if there is a route for it. -/
theorem isMethodUsed_eq (rt : Router S W) (v : Verb) :
    rt.isMethodUsed v = true ↔ rt.routes v ≠ [] := by
  unfold isMethodUsed routes
  cases mapMethod v with
  | none => simp
  | some l => simp [List.length_pos_iff]

end Router

end Gomibako
