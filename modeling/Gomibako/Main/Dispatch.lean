import Gomibako.Beast.ReadFields
import Gomibako.Http.RouteOrder
import Gomibako.Main.Handlers

/-!
# Dispatch on the router of `main`

`main` registers five routes, all of them templates. A request ends the program exactly if it is a
GET request for `/headers` whose fields cannot be written as JSON (`dispatch_returned_iff`): the
exception of `write_json` leaves `handle_headers`, which nothing catches, and `dispatch` is
`noexcept`.
-/

namespace Gomibako.Main

open Beast (Request Response isToken)

variable {S : Type _} {W : Type}

/-! ## The router of `main` -/

/-- A call of `add_route` in `main`; if it throws, so does `main`. Reference: `Router::add_route`
(`router.cpp:54`). -/
def addRoute (router : Router S W) (method : Method) (route : CStr) (fn : Handler S W) :
    Except StdException (Router S W) :=
  match router.addRoute method route fn with
  | (router, .ok ()) => .ok router
  | (_, .error e) => .error e

/-- The router that `main` builds: five routes for GET, or the exception of the first that cannot be
added. Reference: `main` (`main.cpp:108`). -/
def router (lib : Libraries S W) : Except StdException (Router S W) := do
  let router ← addRoute {} .get ⟨"/".toList, by decide⟩ helloWorld
  let router ← addRoute router .get ⟨"/ip".toList, by decide⟩ (handleIp lib)
  let router ← addRoute router .get ⟨"/headers".toList, by decide⟩ (handleHeaders lib)
  let router ← addRoute router .get ⟨"/status/:code".toList, by decide⟩ (handleStatus lib)
  addRoute router .get ⟨"/bytes/:num".toList, by decide⟩ (handleBytes lib)

/-- The calls of `add_route` in `main`, in their order, with the paths and the handlers. -/
def routeCalls (lib : Libraries S W) : List (CStr × Handler S W) :=
  [(⟨"/".toList, by decide⟩, helloWorld), (⟨"/ip".toList, by decide⟩, handleIp lib),
    (⟨"/headers".toList, by decide⟩, handleHeaders lib),
    (⟨"/status/:code".toList, by decide⟩, handleStatus lib),
    (⟨"/bytes/:num".toList, by decide⟩, handleBytes lib)]

/-- The paths and handlers of the routes, in the order they are registered in. -/
def routeTable (lib : Libraries S W) : List (Str × Handler S W) :=
  [("/".toList, helloWorld), ("/ip".toList, handleIp lib), ("/headers".toList, handleHeaders lib),
    ("/status/:code".toList, handleStatus lib), ("/bytes/:num".toList, handleBytes lib)]

/-- The route is that of a path, with its handler. -/
def RouteOf (e : Str × Handler S W) (r : Route (Handler S W)) : Prop :=
  r.IsTemplate e.1 ∧ r.callback = e.2

/-- A template can be added, to the end of the routes for its method. -/
theorem addRoute_template (rt : Router S W) (method : Method) (path : CStr) (fn : Handler S W)
    (hlist : (Router.mapMethod method.toVerb).isSome) (h : isTemplate path.chars = true) :
    ∃ rt' r, addRoute rt method path fn = .ok rt' ∧ RouteOf (path.chars, fn) r ∧
      ∀ v, rt'.routes v = rt.routes v ++ if v = method.toVerb then [r] else [] := by
  obtain ⟨r, hr, hcallback, htemplate⟩ := Route.ctor_template path fn h
  obtain ⟨l, hl⟩ := Option.isSome_iff_exists.1 hlist
  have hadd : rt.addRoute method path fn = (rt.push l r, .ok ()) := by
    simp only [Router.addRoute, hl, Router.emplaceBack, hr]
  obtain ⟨r', hr', hroutes⟩ := Router.addRoute_ok hadd
  cases hr.symm.trans hr'
  exact ⟨rt.push l r, r, by rw [addRoute, hadd], ⟨htemplate, hcallback⟩, hroutes⟩

/-- `main` builds its router: the routes of the table for GET, and none for the other methods. -/
theorem router_ok (lib : Libraries S W) : ∃ rt, router lib = .ok rt ∧
    List.Forall₂ RouteOf (routeTable lib) (rt.routes .get) ∧
    ∀ v, v ≠ .get → rt.routes v = [] := by
  obtain ⟨rt₁, r₁, h₁, ho₁, hr₁⟩ := addRoute_template ({} : Router S W) .get ⟨"/".toList, by decide⟩
    helloWorld rfl (by decide)
  obtain ⟨rt₂, r₂, h₂, ho₂, hr₂⟩ := addRoute_template rt₁ .get ⟨"/ip".toList, by decide⟩
    (handleIp lib) rfl (by decide)
  obtain ⟨rt₃, r₃, h₃, ho₃, hr₃⟩ := addRoute_template rt₂ .get ⟨"/headers".toList, by decide⟩
    (handleHeaders lib) rfl (by decide)
  obtain ⟨rt₄, r₄, h₄, ho₄, hr₄⟩ := addRoute_template rt₃ .get ⟨"/status/:code".toList, by decide⟩
    (handleStatus lib) rfl (by decide)
  obtain ⟨rt₅, r₅, h₅, ho₅, hr₅⟩ := addRoute_template rt₄ .get ⟨"/bytes/:num".toList, by decide⟩
    (handleBytes lib) rfl (by decide)
  have hroutes : ∀ v, rt₅.routes v = if v = .get then [r₁, r₂, r₃, r₄, r₅] else [] := fun v => by
    rw [hr₅, hr₄, hr₃, hr₂, hr₁, Router.routes_empty]
    by_cases hv : v = .get <;> simp [hv, Method.toVerb]
  refine ⟨rt₅, ?_, ?_, fun v hv => by rw [hroutes, if_neg hv]⟩
  · simp only [router, h₁, h₂, h₃, h₄, bind, Except.bind]
    exact h₅
  · rw [hroutes, if_pos rfl]
    exact .cons ho₁ (.cons ho₂ (.cons ho₃ (.cons ho₄ (.cons ho₅ .nil))))

/-! ## The first route that matches -/

section
variable {r : Route (Handler S W)} {path target : Str}

/-- The route of a template without components accepts the path and the path with a slash. -/
theorem accepts_literal_iff (h : r.IsTemplate path) (hpath : ∀ s ∈ path.splitOn '/', ':' ∉ s) :
    r.accepts target = true ↔
      target.cStr.chars = path ∨ target.cStr.chars = path ++ ['/'] := by
  rw [accepts_template_iff h, templateAccepts_literal hpath]

/-- A target that the route of a template accepts is matched. -/
theorem matchView_of_accepts (h : r.IsTemplate path) (hacc : r.accepts target = true) :
    ∃ m, r.matchView target = .ok (some m) := by
  obtain ⟨u, hu⟩ := (accepts_template_iff h).1 hacc
  obtain ⟨m, hm, -⟩ := h.match_of_accepts hu
  exact ⟨m, hm⟩

end

/-- The target of the headers, up to a slash at its end. -/
def IsHeaders (target : Str) : Prop :=
  target.cStr.chars = "/headers".toList ∨ target.cStr.chars = "/headers".toList ++ ['/']

instance (target : Str) : Decidable (IsHeaders target) :=
  inferInstanceAs (Decidable (_ ∨ _))

/-- The first route that matches, of the routes of `main`: that of the headers for their target, and
another one for the other targets. -/
theorem find_route {lib : Libraries S W} {rs : List (Route (Handler S W))}
    (h : List.Forall₂ RouteOf (routeTable lib) rs) (target : Str) :
    (IsHeaders target → ∃ r, rs.find? (·.accepts target) = some r ∧
      RouteOf ("/headers".toList, handleHeaders lib) r) ∧
    (¬ IsHeaders target → ∀ r, rs.find? (·.accepts target) = some r →
      RouteOf ("/".toList, helloWorld) r ∨ RouteOf ("/ip".toList, handleIp lib) r ∨
        RouteOf ("/status/:code".toList, handleStatus lib) r ∨
        RouteOf ("/bytes/:num".toList, handleBytes lib) r) := by
  obtain _ | ⟨h₁, _ | ⟨h₂, _ | ⟨h₃, _ | ⟨h₄, _ | ⟨h₅, ⟨⟩⟩⟩⟩⟩⟩ := h
  next r₁ r₂ r₃ r₄ r₅ =>
  have hroot : r₁.accepts target = true ↔
      target.cStr.chars = "/".toList ∨ target.cStr.chars = "/".toList ++ ['/'] :=
    accepts_literal_iff h₁.1 (by decide)
  have hip : r₂.accepts target = true ↔
      target.cStr.chars = "/ip".toList ∨ target.cStr.chars = "/ip".toList ++ ['/'] :=
    accepts_literal_iff h₂.1 (by decide)
  have hheaders : r₃.accepts target = true ↔ IsHeaders target :=
    accepts_literal_iff h₃.1 (by decide)
  constructor
  · intro hH
    have h₁' : r₁.accepts target = false := by
      rw [Bool.eq_false_iff, Ne, hroot]
      rcases hH with hH | hH <;> rw [hH] <;> decide
    have h₂' : r₂.accepts target = false := by
      rw [Bool.eq_false_iff, Ne, hip]
      rcases hH with hH | hH <;> rw [hH] <;> decide
    exact ⟨r₃, by simp [h₁', h₂', hheaders.2 hH], h₃⟩
  · intro hH r hr
    have hacc := Route.accepts_of_find hr
    have hmem := List.mem_of_find?_eq_some hr
    simp only [List.mem_cons, List.not_mem_nil, or_false] at hmem
    rcases hmem with rfl | rfl | rfl | rfl | rfl
    · exact .inl h₁
    · exact .inr (.inl h₂)
    · exact absurd (hheaders.1 hacc) hH
    · exact .inr (.inr (.inl h₄))
    · exact .inr (.inr (.inr h₅))

/-! ## Dispatch -/

/-- The call of a route that matches returns if its handler does. -/
theorem callRoute_isReturned_iff {socket : S} {request : Request} {response : Response} {world : W}
    {r : Route (Handler S W)} {m : Matches} (hm : r.matchView request.target = .ok (some m)) :
    (Router.callRoute socket request response world r).result.isReturned = true ↔
      ∃ result, r.callback ⟨socket, request, response, m⟩ world = .ok result := by
  simp only [Router.callRoute, hm]
  cases r.callback ⟨socket, request, response, m⟩ world with
  | ok result => simp [DispatchResult.isReturned]
  | error e => simp [DispatchResult.isReturned]

/-- A request for the headers that cannot be written, as a name is nested below another one that has
a value. -/
def Unwritable (request : Request) : Prop :=
  request.method = .get ∧ IsHeaders request.target ∧ Nested (entries request)

instance (request : Request) : Decidable (Unwritable request) :=
  inferInstanceAs (Decidable (_ ∧ _ ∧ _))

section
variable {lib : Libraries S W} {rt : Router S W} {socket : S} {address : Str} {request : Request}
  {response : Response} {world : W}

/-- The handlers of the other routes return on what their routes match. -/
theorem callRoute_other (hsocket : lib.remoteAddress socket = .ok address)
    {r : Route (Handler S W)} (hacc : r.accepts request.target = true)
    (h : RouteOf ("/".toList, helloWorld) r ∨ RouteOf ("/ip".toList, handleIp lib) r ∨
      RouteOf ("/status/:code".toList, handleStatus lib) r ∨
      RouteOf ("/bytes/:num".toList, handleBytes lib) r) :
    (Router.callRoute socket request response world r).result.isReturned = true := by
  rcases h with ⟨ht, hc⟩ | ⟨ht, hc⟩ | ⟨ht, hc⟩ | ⟨ht, hc⟩
  · obtain ⟨m, hm⟩ := matchView_of_accepts ht hacc
    exact (callRoute_isReturned_iff hm).2 (hc ▸ helloWorld_ok)
  · obtain ⟨m, hm⟩ := matchView_of_accepts ht hacc
    exact (callRoute_isReturned_iff hm).2 (hc ▸ handleIp_ok hsocket)
  · obtain ⟨m, hm⟩ := matchView_of_accepts ht hacc
    have hname : "code".toList ∈ (segments "/status/:code".toList).filterMap (·.name) := by decide
    obtain ⟨code, hcode⟩ := ht.find_of_mem hname hm
    exact (callRoute_isReturned_iff hm).2 (hc ▸ handleStatus_ok hcode)
  · obtain ⟨m, hm⟩ := matchView_of_accepts ht hacc
    have hname : "num".toList ∈ (segments "/bytes/:num".toList).filterMap (·.name) := by decide
    obtain ⟨num, hnum⟩ := ht.find_of_mem hname hm
    exact (callRoute_isReturned_iff hm).2 (hc ▸ handleBytes_ok hnum)

/-- Dispatch on a router with the routes of the table. -/
theorem dispatch_isReturned_iff (htable : List.Forall₂ RouteOf (routeTable lib) (rt.routes .get))
    (hother : ∀ v, v ≠ .get → rt.routes v = []) (hsocket : lib.remoteAddress socket = .ok address)
    (hnames : request.TokenNames) :
    (rt.dispatch socket request response world).result.isReturned = true ↔
      ¬ Unwritable request := by
  rw [Router.dispatch_eq]
  by_cases hget : request.method = .get
  · obtain ⟨hheaders, hothers⟩ := find_route htable request.target
    rw [hget]
    by_cases hH : IsHeaders request.target
    · obtain ⟨r, hr, htemplate, hcallback⟩ := hheaders hH
      obtain ⟨m, hm⟩ := matchView_of_accepts htemplate (Route.accepts_of_find hr)
      rw [hr]
      refine (callRoute_isReturned_iff hm).trans ?_
      rw [hcallback, handleHeaders_ok_iff hnames]
      simp [Unwritable, hget, hH]
    · have hnot : ¬ Unwritable request := fun h => hH h.2.1
      simp only [hnot, not_false_eq_true, iff_true]
      cases hr : (rt.routes .get).find? (·.accepts request.target) with
      | none => rfl
      | some r => exact callRoute_other hsocket (Route.accepts_of_find hr) (hothers hH r hr)
  · have hnot : ¬ Unwritable request := fun h => hget h.1
    rw [hother _ hget]
    simp [hnot, DispatchResult.isReturned]

end

/-- **When a request ends the program**: `main` builds its router, and `dispatch` on it returns, for
a request whose fields have tokens as names and a socket that has a remote endpoint, unless it is a
GET request for the headers with a name nested below that of a field that has a value. -/
theorem dispatch_returned_iff (lib : Libraries S W) : ∃ rt, router lib = .ok rt ∧
    ∀ (socket : S) (address : Str) (request : Request) (response : Response) (world : W),
      lib.remoteAddress socket = .ok address → request.TokenNames →
      ((rt.dispatch socket request response world).result.isReturned = true ↔
        ¬ Unwritable request) := by
  obtain ⟨rt, hrt, htable, hother⟩ := router_ok lib
  exact ⟨rt, hrt, fun _ _ _ _ _ hsocket hnames =>
    dispatch_isReturned_iff htable hother hsocket hnames⟩

/-- Libraries for sockets that are the addresses of their peers, with random numbers from a list. -/
def listLibraries : Libraries Str (List UInt32) where
  tree := .nodes
  remoteAddress := .ok
  convertUnsigned s := (Beast.parseDec s).bind fun n => if n < 2 ^ 32 then some (.ofNat n) else none
  convertSize s := (Beast.parseDec s).bind fun n => if n < 2 ^ 64 then some (.ofNat n) else none
  randomDevice
    | [] => (0, [])
    | value :: values => (value, values)

/-- A request for the headers: a name is nested below that of a field without a value. -/
def headersRequest : Request where
  method := .get
  target := "/headers/".toList
  fields := [⟨"Host".toList, "localhost".toList⟩, ⟨"a".toList, []⟩, ⟨"a.b".toList, ['2']⟩]

/-- The dispatch of the request returns, as the field above the nested one has no value. -/
theorem dispatch_returned_iff_headers : ∃ rt, router listLibraries = .ok rt ∧
    (rt.dispatch "127.0.0.1".toList headersRequest {} []).result.isReturned = true := by
  obtain ⟨rt, hrt, h⟩ := dispatch_returned_iff listLibraries
  have hnames : headersRequest.fields.all (fun f => isToken f.name) = true := by decide
  have htokens : headersRequest.TokenNames := fun f hf => List.all_eq_true.1 hnames f hf
  exact ⟨rt, hrt, (h _ "127.0.0.1".toList _ _ _ rfl htokens).2 (by decide)⟩

/-- Whatever a read that succeeds has filled the request with, its dispatch by the router of `main`
returns. -/
def ReturnsAlways (lib : Libraries S W) : Prop :=
  ∀ rt, router lib = .ok rt → ∀ {N : Nat} (readBuffer : Beast.FlatStaticBuffer N)
    (stream : Beast.Stream) (socket : S) (address : Str) (response : Response) (world : W),
    lib.remoteAddress socket = .ok address →
    (Beast.asyncRead readBuffer stream).error.failed = false →
    (rt.dispatch socket (Beast.asyncRead readBuffer stream).request response
      world).result.isReturned = true

theorem nestedOctets_ne_nil :
    "GET /headers HTTP/1.1\r\na: 1\r\na.b: 2\r\n\r\n".toList ≠ [] := by decide

/-- What a peer sends that asks for the headers with the fields `a` and `a.b`. -/
def nestedStream : Beast.Stream :=
  .chunk "GET /headers HTTP/1.1\r\na: 1\r\na.b: 2\r\n\r\n".toList nestedOctets_ne_nil

/-- The request for the headers with the fields `a` and `a.b`. -/
def nestedRequest : Request where
  method := .get
  target := "/headers".toList
  fields := [⟨['a'], ['1']⟩, ⟨"a.b".toList, ['2']⟩]

set_option maxRecDepth 10000 in
/-- The request with the nested field is what is read from the peer, and nothing is left. -/
theorem read_nested : Beast.asyncRead {} nestedStream =
    ({ request := nestedRequest, buffer := {}, stream := Beast.Stream.closed } :
      Beast.ReadResult staticBufferMax) := rfl

/-- The fields `a` and `a.b`, both of them with a value, end the program. -/
theorem not_returnsAlways : ¬ ReturnsAlways listLibraries := by
  intro h
  obtain ⟨rt, hrt, htable, hother⟩ := router_ok listLibraries
  have hreturned := h rt hrt (N := staticBufferMax) {} nestedStream [] [] {} [] rfl
    (by rw [read_nested]; rfl)
  rw [read_nested] at hreturned
  have hnames : nestedRequest.TokenNames := by
    have htokens := Beast.asyncRead_tokenNames (N := staticBufferMax) {} nestedStream
    rwa [read_nested] at htokens
  have hsocket : listLibraries.remoteAddress [] = .ok [] := rfl
  exact (dispatch_isReturned_iff htable hother hsocket hnames).1 hreturned (by decide)

end Gomibako.Main
