import Mathlib.Data.List.Induction

/-!
# Machines and their runs

A machine makes steps labelled with events. A run is a sequence of steps; it grows at its end, as
the machine does. What every step preserves holds along every run (`Run.invariant`), and what is
known of the runs of a machine is known of those of a machine that makes fewer steps (`Run.mono`).
The run up to an event leads to the step of the event (`Run.exists_step`), and to one state only if
the steps are determined by their events (`Run.unique`).
-/

/-- A machine with states `σ` and events `ε`, given by its steps; an event may lead to several
states, or to none. -/
structure Machine (σ ε : Type _) where
  step : σ → ε → σ → Prop

namespace Machine

variable {σ ε : Type _} {M : Machine σ ε}

/-- A run from one state to another through the events listed. -/
inductive Run (M : Machine σ ε) (s : σ) : List ε → σ → Prop where
  | nil : Run M s [] s
  | snoc {es : List ε} {t : σ} {e : ε} {u : σ} :
      Run M s es t → M.step t e u → Run M s (es ++ [e]) u

namespace Run

/-- A run that starts where another one has ended continues it, and the events of the two are listed
one after the other. -/
theorem append {s t u : σ} {es es' : List ε} (h : M.Run s es t) (h' : M.Run t es' u) :
    M.Run s (es ++ es') u := by
  induction h' with
  | nil => simpa using h
  | snoc _ hstep ih =>
    rw [← List.append_assoc]
    exact ih.snoc hstep

/-- What every step of a run preserves holds along the run, the events so far being known to it. -/
theorem invariant {P : List ε → σ → Prop} {s t : σ} {es : List ε} (h : M.Run s es t)
    (init : P [] s)
    (step : ∀ es t e u, M.Run s es t → P es t → M.step t e u → P (es ++ [e]) u) : P es t := by
  induction h with
  | nil => exact init
  | snoc hrun hstep ih => exact step _ _ _ _ hrun ih hstep

/-- The last event of a run is that of its last step. -/
theorem snoc_inv {s u : σ} {es : List ε} {e : ε} (h : M.Run s (es ++ [e]) u) :
    ∃ t, M.Run s es t ∧ M.step t e u := by
  generalize hes : es ++ [e] = es' at h
  cases h with
  | nil => exact absurd hes (List.append_ne_nil_of_right_ne_nil es (List.cons_ne_nil e []))
  | snoc hrun hstep =>
    obtain ⟨rfl, he⟩ := List.append_inj' hes rfl
    cases he
    exact ⟨_, hrun, hstep⟩

/-- Every event of a run is that of a step, which the run up to it leads to. -/
theorem exists_step {s u : σ} {es es' : List ε} {e : ε} (h : M.Run s (es ++ e :: es') u) :
    ∃ t v, M.Run s es t ∧ M.step t e v := by
  induction es' using List.reverseRecOn generalizing u with
  | nil =>
    obtain ⟨t, hrun, hstep⟩ := h.snoc_inv
    exact ⟨t, u, hrun, hstep⟩
  | append_singleton es' e' ih =>
    rw [← List.cons_append, ← List.append_assoc] at h
    obtain ⟨t, hrun, -⟩ := h.snoc_inv
    exact ih hrun

/-- A machine whose steps are determined by the event has one run for each list of events. -/
theorem unique (hstep : ∀ t e u v, M.step t e u → M.step t e v → u = v) {s t u : σ} {es : List ε}
    (h : M.Run s es t) (h' : M.Run s es u) : t = u := by
  induction h generalizing u with
  | nil =>
    generalize hes : ([] : List ε) = es at h'
    cases h' with
    | nil => rfl
    | snoc => exact absurd hes.symm (List.append_ne_nil_of_right_ne_nil _ (List.cons_ne_nil _ []))
  | snoc _ hlast ih =>
    obtain ⟨v, hrun, hlast'⟩ := h'.snoc_inv
    obtain rfl := ih hrun
    exact hstep _ _ _ _ hlast hlast'

/-- A machine that makes only steps of another one has only runs of it. -/
theorem mono {N : Machine σ ε} (hstep : ∀ t e u, M.step t e u → N.step t e u) {s t : σ}
    {es : List ε} (h : M.Run s es t) : N.Run s es t := by
  induction h with
  | nil => exact .nil
  | snoc _ h ih => exact ih.snoc (hstep _ _ _ h)

end Run

end Machine
