import Gomibako.Main.Dispatch

/-!
# The order of the routes of `main`

The paths of the five routes are separated. So `main` could register them in any order
(`routeOrder`).
-/

namespace Gomibako.Main

open Beast (Request Response)

variable {S : Type _} {W : Type}

/-- A chain of calls begins with a call, and if that throws the others are not made. -/
theorem addRoutes_cons (rt : Router S W) (method : Method) (route : CStr) (fn : Handler S W)
    (calls : List (CStr × Handler S W)) : rt.addRoutes method ((route, fn) :: calls) =
      (addRoute rt method route fn).bind fun rt => rt.addRoutes method calls := by
  rw [Router.addRoutes, addRoute]
  obtain ⟨rt', result⟩ := rt.addRoute method route fn
  cases result <;> rfl

/-- `main` builds its router with this chain of calls for GET, one after another. -/
theorem router_eq_addRoutes (lib : Libraries S W) :
    router lib = ({} : Router S W).addRoutes .get (routeCalls lib) := by
  have hlast : ∀ (rt : Router S W) (route : CStr) (fn : Handler S W),
      rt.addRoutes .get [(route, fn)] = addRoute rt .get route fn := by
    intro rt route fn
    rw [addRoutes_cons]
    cases addRoute rt .get route fn <;> rfl
  simp only [routeCalls, addRoutes_cons _ _ _ _ (_ :: _), hlast]
  rfl

/-- The paths of `main` are separated: any two of them differ in a literal segment, or in the number
of segments. -/
theorem separatedPaths_routeCalls (lib : Libraries S W) :
    SeparatedPaths ((routeCalls lib).map (·.1.chars)) := by
  have hpaths : (routeCalls lib).map (·.1.chars) = ["/".toList, "/ip".toList, "/headers".toList,
    "/status/:code".toList, "/bytes/:num".toList] := rfl
  rw [hpaths]
  exact ⟨by decide, by decide, by decide⟩

/-- **The order of the routes does not matter** for separated paths, such as those of `main`. -/
theorem routeOrder (lib : Libraries S W) :
    SeparatedPaths ((routeCalls lib).map (·.1.chars)) ∧
      ∀ calls : List (CStr × Handler S W), SeparatedPaths (calls.map (·.1.chars)) →
        Router.OrderIrrelevant calls :=
  ⟨separatedPaths_routeCalls lib, fun _ h => Router.orderIrrelevant h⟩

/-- If `main` registered its routes the other way round, it would dispatch a request for the headers
as it does. -/
theorem routeOrder_reverse : ∃ rt rt', router listLibraries = .ok rt ∧
    ({} : Router Str (List UInt32)).addRoutes .get (routeCalls listLibraries).reverse = .ok rt' ∧
      rt.dispatch "127.0.0.1".toList headersRequest {} [] =
        rt'.dispatch "127.0.0.1".toList headersRequest {} [] := by
  obtain ⟨hsep, horder⟩ := routeOrder listLibraries
  have hirrelevant := horder _ hsep
  obtain ⟨rt, hrt⟩ := hirrelevant.registered {} .get rfl
  have hdispatch := hirrelevant.dispatch _ (List.reverse_perm _).symm {} .get "127.0.0.1".toList
    headersRequest {} []
  rw [hrt] at hdispatch
  obtain ⟨rt', hrt', heq⟩ := Except.map_eq_ok_iff.1 hdispatch.symm
  exact ⟨rt, rt', by rw [router_eq_addRoutes, hrt], hrt', heq.symm⟩

end Gomibako.Main
