import Gomibako.Http.RouteTemplate
import Gomibako.Http.Router

/-!
# The order of routes

The first route that matches is called, so the order in which routes are added matters if two of
them match the same target. Templates that are separated at some segment, or by their numbers of
segments, do not (`TemplateAccepts.disjoint`): the optional slash at the end gives a target an empty
last segment, and no template but the root has one. So the dispatch on the routes of separated paths
does not depend on their order (`Router.dispatch_addRoutes_perm`).
-/

namespace Gomibako

open Beast (Request Response)

/-! ## Separated paths -/

/-- The paths have different numbers of segments, or at some position both have a segment without a
component, and these differ. -/
def Separated (p q : Str) : Prop :=
  (segments p).length ≠ (segments q).length ∨
    ∃ s ∈ (segments p).zip (segments q), s.1.name = none ∧ s.2.name = none ∧ s.1.lit ≠ s.2.lit

instance : DecidableRel Separated := fun p q =>
  inferInstanceAs (Decidable ((segments p).length ≠ (segments q).length ∨
    ∃ s ∈ (segments p).zip (segments q), s.1.name = none ∧ s.2.name = none ∧ s.1.lit ≠ s.2.lit))

/-- The path starts with a slash, and does not end with one unless it is the root. -/
structure IsAbsolute (p : Str) : Prop where
  slash : ['/'] <+: p
  root : ['/'] <:+ p → p = ['/']

instance (p : Str) : Decidable (IsAbsolute p) :=
  decidable_of_iff (['/'] <+: p ∧ (['/'] <:+ p → p = ['/']))
    ⟨fun h => ⟨h.1, h.2⟩, fun h => ⟨h.slash, h.root⟩⟩

/-- Templates that start with a slash, none of which but the root ends with one, and of which any
two are separated. -/
structure SeparatedPaths (paths : List Str) : Prop where
  template : ∀ p ∈ paths, isTemplate p = true
  absolute : ∀ p ∈ paths, IsAbsolute p
  separated : paths.Pairwise Separated

/-- A text that two lists of segments accept: where neither has a component they agree. -/
theorem lit_eq_of_accepts {segs segs' : List Segment} {texts : List Str}
    (h : List.Forall₂ Segment.Accepts segs texts) (h' : List.Forall₂ Segment.Accepts segs' texts) :
    ∀ s ∈ segs.zip segs', s.1.name = none → s.2.name = none → s.1.lit = s.2.lit := by
  induction h generalizing segs' with
  | nil =>
    cases h'
    intro s hs
    cases hs
  | @cons seg text segs texts hacc _ ih =>
    cases h' with
    | @cons seg' _ segs' _ hacc' h' =>
      intro s hs hname hname'
      rcases List.mem_cons.1 hs with rfl | hs
      · have hlit : text = seg.lit := by rwa [Segment.Accepts, hname] at hacc
        have hlit' : text = seg'.lit := by rwa [Segment.Accepts, hname'] at hacc'
        exact hlit.symm.trans hlit'
      · exact ih h' s hs hname hname'

/-- Separated paths accept no text both, by a segment in which their literal texts differ, or by
their numbers of segments. -/
theorem Separated.not_accepts {p q u : Str} (h : Separated p q)
    (hp : List.Forall₂ Segment.Accepts (segments p) (u.splitOn '/')) :
    ¬ List.Forall₂ Segment.Accepts (segments q) (u.splitOn '/') := by
  intro hq
  rcases h with hlen | ⟨s, hs, hname, hname', hne⟩
  · exact hlen (hp.length_eq.trans hq.length_eq.symm)
  · exact hne (lit_eq_of_accepts hp hq s hs hname hname')

/-! ## The last segment -/

/-- Only the segment without anything stands for the empty text. -/
theorem accepts_nil {seg : Segment} (h : seg.Accepts []) : seg = ⟨[], none⟩ := by
  obtain ⟨lit, name⟩ := seg
  cases name with
  | none =>
    have hlit : [] = lit := h
    rw [← hlit]
  | some name =>
    obtain ⟨t, ht, hnil⟩ := h
    exact absurd (List.append_eq_nil_iff.1 hnil.symm).2 ht

/-- A segment that is nothing but an empty literal is the empty text. -/
theorem ofStr_eq_nil {s : Str} (h : Segment.ofStr s = ⟨[], none⟩) : s = [] := by
  have hcolon : ':' ∉ s := by
    intro hmem
    have hname : (if ':' ∈ s then some (s.dropWhile (· != ':')).tail else none) = none :=
      congrArg Segment.name h
    rw [if_pos hmem] at hname
    cases hname
  have hlit := (accepts_ofStr hcolon (t := s)).2 rfl
  rw [h] at hlit
  exact hlit

/-- A path whose last segment is empty ends with a slash. -/
theorem slash_of_segments {p : Str} {segs : List Segment} (h : segments p = segs ++ [⟨[], none⟩]) :
    p = [] ∨ ['/'] <:+ p := by
  induction p using segment_induction generalizing segs with
  | last s hs =>
    rw [segments_of_no_slash hs] at h
    have hlast := congrArg List.getLast? h
    rw [List.getLast?_concat, List.getLast?_singleton] at hlast
    exact .inl (ofStr_eq_nil (Option.some.inj hlast))
  | slash s rest hs ih =>
    rw [segments_append_slash hs] at h
    cases segs with
    | nil => exact absurd (List.cons.inj h).2 (segments_ne_nil rest)
    | cons seg segs =>
      rcases ih (List.cons.inj h).2 with rfl | hrest
      · exact .inr (List.suffix_append s ['/'])
      · exact .inr (hrest.trans ((List.suffix_cons '/' rest).trans (List.suffix_append s _)))

/-- A path that starts with a slash has two segments at least. -/
theorem IsAbsolute.two_le {p : Str} (h : IsAbsolute p) : 2 ≤ (segments p).length := by
  obtain ⟨rest, rfl⟩ := h.slash
  have hpos := List.length_pos_iff.2 (segments_ne_nil rest)
  have hsegs : segments ([] ++ '/' :: rest) = .ofStr [] :: segments rest :=
    segments_append_slash List.not_mem_nil rest
  show 2 ≤ (segments ([] ++ '/' :: rest)).length
  rw [hsegs, List.length_cons]
  omega

/-- **No path accepts a text with a slash behind it, and another one the text.** The root, which is
the only path that ends with a slash, is too short for that. -/
theorem IsAbsolute.not_accepts_slash {p q v : Str} (hp : IsAbsolute p) (hq : IsAbsolute q)
    (hv : List.Forall₂ Segment.Accepts (segments q) (v.splitOn '/')) :
    ¬ List.Forall₂ Segment.Accepts (segments p) ((v ++ ['/']).splitOn '/') := by
  intro h
  have htexts : (v ++ ['/']).splitOn '/' = v.splitOn '/' ++ [[]] :=
    List.splitOn_append_cons_self v []
  rw [htexts, ← List.forall₂_reverse_iff, List.reverse_append] at h
  obtain ⟨seg, segs, hseg, -, hrev⟩ := List.forall₂_cons_right_iff.1 h
  rw [accepts_nil hseg] at hrev
  have hlast : segments p = segs.reverse ++ [⟨[], none⟩] := by
    rw [← List.reverse_reverse (segments p), hrev, List.reverse_cons]
  have hroot : p = ['/'] := by
    rcases slash_of_segments hlast with rfl | hslash
    · exact absurd (List.prefix_nil.1 hp.slash) (List.cons_ne_nil _ _)
    · exact hp.root hslash
  have hlen := h.length_eq
  rw [hroot] at hlen
  have htwo := hq.two_le
  have hqlen := hv.length_eq
  have hsegs : (segments ['/']).reverse.length = 2 := rfl
  rw [hsegs] at hlen
  simp at hlen
  omega

/-- **Separated paths accept no URI both**, whether with a slash at its end or without. -/
theorem TemplateAccepts.disjoint {p q uri u v : Str} (hp : IsAbsolute p) (hq : IsAbsolute q)
    (h : Separated p q) (hu : TemplateAccepts p uri u) (hv : TemplateAccepts q uri v) : False := by
  have hpu := hu.segments
  have hqv := hv.segments
  rcases hu.slash with rfl | rfl <;> rcases hv.slash with hslash | hslash
  · rw [hslash] at hpu
    exact h.not_accepts hpu hqv
  · rw [hslash] at hpu
    exact hp.not_accepts_slash hq hqv hpu
  · rw [← hslash] at hqv
    exact hq.not_accepts_slash hp hpu hqv
  · rw [List.append_cancel_right hslash] at hpu
    exact h.not_accepts hpu hqv

/-! ## The routes of separated paths -/

section
variable {H : Type _} {r r' : Route H} {path path' target : Str}

/-- The route of a template accepts the targets that fit the template. -/
theorem accepts_template_iff (h : r.IsTemplate path) :
    r.accepts target = true ↔ ∃ u, TemplateAccepts path target.cStr.chars u := by
  unfold Route.accepts
  constructor
  · intro hacc
    by_contra hu
    rw [regexMatch_template_none h.node hu] at hacc
    cases hacc
  · rintro ⟨u, hu⟩
    obtain ⟨result, hmatch, -⟩ := regexMatch_template h.node h.markCount hu
    rw [hmatch]
    rfl

/-- The match of a template by the texts that fit it. -/
theorem Route.IsTemplate.match_iff (h : r.IsTemplate path) {uri : CStr} :
    (∃ m, r.match uri = .ok (some m)) ↔ ∃ u, TemplateAccepts path uri.chars u := by
  constructor
  · intro hmatch
    by_contra hu
    obtain ⟨m, hm⟩ := hmatch
    cases (h.match_of_not_accepts hu).symm.trans hm
  · intro hu
    obtain ⟨u, hu⟩ := hu
    obtain ⟨m, hm, -⟩ := h.match_of_accepts hu
    exact ⟨m, hm⟩

end

/-- What is constructed of a template is the route of it, as `compile_template` says of its
expression. -/
theorem Route.isTemplate_of_ctor {H : Type _} {path : CStr} {fn : H} {r : Route H}
    (h : isTemplate path.chars = true) (hr : Route.ctor path fn = .ok r) :
    r.IsTemplate path.chars := by
  obtain ⟨r', hr', -, htemplate⟩ := ctor_template path fn h
  cases hr.symm.trans hr'
  exact htemplate

/-- The routes of separated paths can be constructed, and no URI fits the paths of two of them. -/
theorem SeparatedPaths.routes {H : Type _} {calls : List (CStr × H)}
    (h : SeparatedPaths (calls.map (·.1.chars))) :
    (∀ c ∈ calls, ∃ r, Route.ctor c.1 c.2 = .ok r ∧ r.IsTemplate c.1.chars) ∧
      calls.Pairwise fun c c' => ∀ uri : Str,
        ¬ ((∃ u, TemplateAccepts c.1.chars uri u) ∧ ∃ u, TemplateAccepts c'.1.chars uri u) := by
  constructor
  · intro c hc
    obtain ⟨r, hr, -, htemplate⟩ :=
      Route.ctor_template c.1 c.2 (h.template _ (List.mem_map_of_mem hc))
    exact ⟨r, hr, htemplate⟩
  · refine (List.pairwise_map.1 h.separated).imp_of_mem ?_
    intro c c' hc hc' hsep uri haccepts
    obtain ⟨⟨u, hu⟩, v, hv⟩ := haccepts
    exact hu.disjoint (h.absolute _ (List.mem_map_of_mem hc))
      (h.absolute _ (List.mem_map_of_mem hc')) hsep hv

/-- The first element of a list does not depend on the order if there is one at most. -/
theorem find?_eq_of_perm {α : Type _} {l l' : List α} {p : α → Bool} (h : l.Perm l')
    (hp : l.Pairwise fun a b => ¬ (p a = true ∧ p b = true)) : l.find? p = l'.find? p := by
  induction h with
  | nil => rfl
  | cons a _ ih => rw [List.find?_cons, List.find?_cons, ih (List.pairwise_cons.1 hp).2]
  | swap a b l =>
    have hab := (List.pairwise_cons.1 hp).1 a List.mem_cons_self
    cases ha : p a <;> cases hb : p b <;> simp_all
  | trans h₁ _ ih₁ ih₂ =>
    exact (ih₁ hp).trans (ih₂ (h₁.pairwise hp fun hab hba => hab ⟨hba.2, hba.1⟩))

namespace Router

variable {S W : Type _}

/-- A chain of calls of `add_route` for one method; the first exception ends it. -/
def addRoutes (rt : Router S W) (method : Method) :
    List (CStr × Handler S W) → Except StdException (Router S W)
  | [] => .ok rt
  | (route, fn) :: calls =>
    match rt.addRoute method route fn with
    | (rt, .ok ()) => addRoutes rt method calls
    | (_, .error e) => .error e

/-- The routes of a chain of calls, in their order; a path that cannot be constructed gives none. -/
def constructed (calls : List (CStr × Handler S W)) : List (Route (Handler S W)) :=
  calls.filterMap fun c => (Route.ctor c.1 c.2).toOption

/-- The routes that can be constructed go to the end of the list of the method. -/
theorem addRoutes_ok {method : Method} (hlist : (mapMethod method.toVerb).isSome)
    {calls : List (CStr × Handler S W)} (h : ∀ c ∈ calls, ∃ r, Route.ctor c.1 c.2 = .ok r)
    (rt : Router S W) : ∃ rt', rt.addRoutes method calls = .ok rt' ∧
      ∀ v, rt'.routes v = rt.routes v ++ if v = method.toVerb then constructed calls else [] := by
  induction calls generalizing rt with
  | nil => exact ⟨rt, rfl, by simp [constructed]⟩
  | cons c calls ih =>
    obtain ⟨route, fn⟩ := c
    obtain ⟨r, hr⟩ := h (route, fn) List.mem_cons_self
    obtain ⟨l, hl⟩ := Option.isSome_iff_exists.1 hlist
    have hadd : rt.addRoute method route fn = (rt.push l r, .ok ()) := by
      simp only [addRoute, hl, emplaceBack, hr]
    obtain ⟨r', hr', hroutes⟩ := addRoute_ok hadd
    cases hr.symm.trans hr'
    obtain ⟨rt', hrt', hroutes'⟩ := ih (fun c hc => h c (.tail _ hc)) (rt.push l r)
    have hcons : constructed ((route, fn) :: calls) = r :: constructed calls := by
      have hopt : (Route.ctor route fn).toOption = some r := by rw [hr]; rfl
      simp only [constructed, List.filterMap_cons, hopt]
    refine ⟨rt', ?_, fun v => ?_⟩
    · rw [addRoutes, hadd]
      exact hrt'
    · rw [hroutes', hroutes, hcons, List.append_assoc]
      by_cases hv : v = method.toVerb <;> simp [hv]

/-- For a method without a list the first call throws. -/
theorem addRoutes_error {method : Method} (hlist : mapMethod method.toVerb = none)
    (rt : Router S W) {calls : List (CStr × Handler S W)} (h : calls ≠ []) :
    rt.addRoutes method calls = .error (.rangeError "Unknown method".toList) := by
  obtain ⟨c, calls, rfl⟩ := List.exists_cons_of_ne_nil h
  simp only [addRoutes, addRoute, hlist]

/-- No target is accepted by two of the routes of separated paths. -/
theorem pairwise_constructed {calls : List (CStr × Handler S W)}
    (h : SeparatedPaths (calls.map (·.1.chars))) (target : Str) :
    (constructed calls).Pairwise fun r r' =>
      ¬ (r.accepts target = true ∧ r'.accepts target = true) := by
  obtain ⟨hctor, hpairwise⟩ := h.routes
  refine List.pairwise_filterMap.2 (hpairwise.imp_of_mem ?_)
  intro c c' hc hc' hnot r hr r' hr' haccepts
  obtain ⟨r₁, hr₁, ht₁⟩ := hctor c hc
  obtain ⟨r₂, hr₂, ht₂⟩ := hctor c' hc'
  rw [hr₁] at hr
  rw [hr₂] at hr'
  cases hr
  cases hr'
  exact hnot _
    ⟨(accepts_template_iff ht₁).1 haccepts.1, (accepts_template_iff ht₂).1 haccepts.2⟩

/-- **Dispatch does not depend on the order of the routes of separated paths.** -/
theorem dispatch_addRoutes_perm {calls calls' : List (CStr × Handler S W)}
    (h : SeparatedPaths (calls.map (·.1.chars))) (hperm : calls.Perm calls') (method : Method)
    (rt : Router S W) (socket : S) (request : Request) (response : Response) (world : W) :
    (rt.addRoutes method calls).map (·.dispatch socket request response world) =
      (rt.addRoutes method calls').map (·.dispatch socket request response world) := by
  obtain ⟨hctor, -⟩ := h.routes
  cases hlist : mapMethod method.toVerb with
  | none =>
    by_cases hnil : calls = []
    · rw [hnil] at hperm ⊢
      rw [hperm.nil_eq]
    · have hnil' : calls' ≠ [] := fun hcalls' => hnil (hcalls' ▸ hperm).eq_nil
      rw [addRoutes_error hlist rt hnil, addRoutes_error hlist rt hnil']
  | some l =>
    have hsome : (mapMethod method.toVerb).isSome := by
      rw [hlist]
      rfl
    obtain ⟨rt₁, hrt₁, hroutes₁⟩ := addRoutes_ok hsome
      (fun c hc => (hctor c hc).imp fun _ hr => hr.1) rt
    obtain ⟨rt₂, hrt₂, hroutes₂⟩ := addRoutes_ok hsome
      (fun c hc => (hctor c (hperm.mem_iff.2 hc)).imp fun _ hr => hr.1) rt
    have hconstructed : (constructed calls).Perm (constructed calls') := hperm.filterMap _
    have hfind := find?_eq_of_perm hconstructed (pairwise_constructed h request.target)
    have hroutes : (rt₁.routes request.method).find? (·.accepts request.target) =
        (rt₂.routes request.method).find? (·.accepts request.target) := by
      rw [hroutes₁, hroutes₂, List.find?_append, List.find?_append]
      by_cases hv : request.method = method.toVerb
      · rw [if_pos hv, if_pos hv, hfind]
      · rw [if_neg hv, if_neg hv]
    rw [hrt₁, hrt₂]
    show Except.ok (rt₁.dispatch socket request response world) =
      Except.ok (rt₂.dispatch socket request response world)
    rw [dispatch_eq, dispatch_eq, hroutes]

/-- The order of the calls does not matter: no URI is matched by the routes of two of them, and if
they are made in another order, the dispatch of every request is the same. -/
structure OrderIrrelevant (calls : List (CStr × Handler S W)) : Prop where
  atMostOne : calls.Pairwise fun c c' => ∀ r r', Route.ctor c.1 c.2 = .ok r →
    Route.ctor c'.1 c'.2 = .ok r' → ∀ uri : CStr,
      ¬ ((∃ m, r.match uri = .ok (some m)) ∧ ∃ m, r'.match uri = .ok (some m))
  registered : ∀ (rt : Router S W) (method : Method), (mapMethod method.toVerb).isSome →
    ∃ rt', rt.addRoutes method calls = .ok rt'
  dispatch : ∀ calls', calls.Perm calls' → ∀ (rt : Router S W) (method : Method) (socket : S)
    (request : Request) (response : Response) (world : W),
      (rt.addRoutes method calls).map (·.dispatch socket request response world) =
        (rt.addRoutes method calls').map (·.dispatch socket request response world)

/-- The order of the routes of separated paths does not matter. -/
theorem orderIrrelevant {calls : List (CStr × Handler S W)}
    (h : SeparatedPaths (calls.map (·.1.chars))) : OrderIrrelevant calls := by
  obtain ⟨hctor, hpairwise⟩ := h.routes
  have htemplate : ∀ c ∈ calls, isTemplate c.1.chars = true := fun c hc =>
    h.template _ (List.mem_map_of_mem hc)
  refine ⟨hpairwise.imp_of_mem ?_, fun rt method hlist => ?_, fun calls' hperm rt method => ?_⟩
  · intro c c' hc hc' hnot r r' hr hr' uri hmatch
    exact hnot uri.chars
      ⟨(Route.isTemplate_of_ctor (htemplate c hc) hr).match_iff.1 hmatch.1,
        (Route.isTemplate_of_ctor (htemplate c' hc') hr').match_iff.1 hmatch.2⟩
  · obtain ⟨rt', hrt', -⟩ := addRoutes_ok hlist (fun c hc => (hctor c hc).imp fun _ hr => hr.1) rt
    exact ⟨rt', hrt'⟩
  · exact dispatch_addRoutes_perm h hperm method rt

end Router

end Gomibako
