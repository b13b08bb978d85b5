import Mathlib.Data.List.Infix
import Mathlib.Data.List.Nodup

/-!
# Trees with values at their nodes

A tree is seen from outside as what is at its paths (`View`). Putting a value at a path makes the
nodes that are missing on the way, which get a default value, and leaves all other nodes alone. What
a sequence of puts leaves at a path is the last value put there (`ofPuts_apply`), so that a node
with a value of its own has children exactly if something was put below it (`leavesOnly_ofPuts`).
`Tree` is a tree that is built of nodes, and its view changes as said (`Tree.view_put`).
-/

namespace PathTree

variable {K V : Type _} [DecidableEq K]

/-! ## The last value -/

section
variable {P : Type _} [DecidableEq P]

/-- The last value of a list that is for `q`. -/
def lastAt (dflt : V) (l : List (P × V)) (q : P) : V := (l.reverse.lookup q).getD dflt

/-- The last element of the list decides for its own key, and does not matter for another one. -/
theorem lastAt_snoc (dflt : V) (l : List (P × V)) (p : P) (v : V) (q : P) :
    lastAt dflt (l ++ [(p, v)]) q = if q = p then v else lastAt dflt l q := by
  by_cases hq : q = p
  · simp [lastAt, hq]
  · have hbeq : (q == p) = false := by simpa using hq
    simp [lastAt, List.lookup_cons, hbeq, hq]

/-- Without an element for a key there is the default value. -/
theorem lastAt_of_forall_ne {dflt : V} {l : List (P × V)} {q : P} (h : ∀ e ∈ l, e.1 ≠ q) :
    lastAt dflt l q = dflt := by
  have hlookup : l.reverse.lookup q = none := by
    rw [List.lookup_eq_none_iff]
    intro e he
    simpa using fun heq : q = e.1 => h e (List.mem_reverse.1 he) heq.symm
  rw [lastAt, hlookup]
  rfl

/-- An element for another key does not matter, wherever it stands in the list. -/
theorem lastAt_insert (dflt : V) (l₁ l₂ : List (P × V)) {e : P × V} {q : P} (he : e.1 ≠ q) :
    lastAt dflt (l₁ ++ e :: l₂) q = lastAt dflt (l₁ ++ l₂) q := by
  have hbeq : (q == e.1) = false := by simpa using fun heq : q = e.1 => he heq.symm
  have hlookup : (e :: l₁.reverse).lookup q = l₁.reverse.lookup q := by
    rw [List.lookup_cons, hbeq]
  have hleft : (l₁ ++ e :: l₂).reverse = l₂.reverse ++ e :: l₁.reverse := by simp
  rw [lastAt, lastAt, hleft, List.reverse_append, List.lookup_append, List.lookup_append, hlookup]

/-- The keys may be renamed by an injective function: what is last for a key is last for its new
name. -/
theorem lastAt_map {Q : Type _} [DecidableEq Q] {f : P → Q} (hf : Function.Injective f) (dflt : V)
    (l : List (P × V)) (q : P) :
    lastAt dflt (l.map fun e => (f e.1, e.2)) (f q) = lastAt dflt l q := by
  induction l using List.reverseRecOn with
  | nil => rfl
  | append_singleton l e ih =>
    obtain ⟨p, v⟩ := e
    rw [List.map_append, List.map_singleton, lastAt_snoc, lastAt_snoc, ih]
    exact if_congr hf.eq_iff rfl rfl

end

/-! ## Views -/

/-- What is at the paths of a tree; there is no node where there is nothing. -/
abbrev View (K V : Type _) := List K → Option V

namespace View

/-- The tree that has only a root, with the default value; it is what values are put into. -/
def root (dflt : V) : View K V := fun q => if q = [] then some dflt else none

/-- A value is put at a path: the node there gets it, and the nodes that are missing on the way are
made with the default value. -/
def put (dflt : V) (f : View K V) (p : List K) (v : V) : View K V := fun q =>
  if q = p then some v else if q <+: p then some ((f q).getD dflt) else f q

/-- The tree after values are put at paths, one after another, into the one that has only a root. -/
def ofPuts (dflt : V) (l : List (List K × V)) : View K V :=
  l.foldl (fun f e => f.put dflt e.1 e.2) (root dflt)

/-- A node with a value that is not the default one has no children, and the root has none such. -/
structure LeavesOnly (dflt : V) (f : View K V) : Prop where
  root : f [] = some dflt
  leaf : ∀ q k v, f q = some v → (f (q ++ [k])).isSome → v = dflt

/-- **What a sequence of puts leaves at a path**: the nodes above the paths, with the last values
put there. -/
theorem ofPuts_apply (dflt : V) (l : List (List K × V)) (q : List K) :
    ofPuts dflt l q =
      if q = [] ∨ ∃ e ∈ l, q <+: e.1 then some (lastAt dflt l q) else none := by
  induction l using List.reverseRecOn with
  | nil => simp [ofPuts, root, lastAt]
  | append_singleton l e ih =>
    obtain ⟨p, v⟩ := e
    have hput : ofPuts dflt (l ++ [(p, v)]) = (ofPuts dflt l).put dflt p v := by
      simp [ofPuts]
    rw [hput, lastAt_snoc, put, ih]
    by_cases hq : q = p
    · simp [hq]
    · by_cases hpre : q <+: p
      · have hex : q = [] ∨ ∃ e ∈ l ++ [(p, v)], q <+: e.1 := .inr ⟨(p, v), by simp, hpre⟩
        rw [if_neg hq, if_pos hpre, if_pos hex, if_neg hq]
        split
        · rfl
        · next hnone =>
          have hnew : ∀ e ∈ l, e.1 ≠ q := fun e he heq =>
            hnone (.inr ⟨e, he, heq ▸ List.prefix_rfl⟩)
          rw [lastAt_of_forall_ne hnew]
          rfl
      · rw [if_neg hq, if_neg hpre, if_neg hq]
        refine if_congr (or_congr_right ?_) rfl rfl
        simp [or_and_right, exists_or, hpre]

/-- **When only leaves have values** after a sequence of puts at nodes that are not the root:
nothing was put below a path whose last value is not the default one. -/
theorem leavesOnly_ofPuts {dflt : V} {l : List (List K × V)} (hl : ∀ e ∈ l, e.1 ≠ []) :
    LeavesOnly dflt (ofPuts dflt l) ↔
      ∀ e ∈ l, ∀ e' ∈ l, e.1 <+: e'.1 → e.1 ≠ e'.1 → lastAt dflt l e.1 = dflt := by
  constructor
  · intro h e he e' he' hpre hne
    obtain ⟨r, hr⟩ := hpre
    cases r with
    | nil => exact absurd (by simpa using hr) hne
    | cons k r =>
      have hnode : ofPuts dflt l e.1 = some (lastAt dflt l e.1) := by
        rw [ofPuts_apply, if_pos (.inr ⟨e, he, List.prefix_rfl⟩)]
      have hchild : (ofPuts dflt l (e.1 ++ [k])).isSome := by
        have hpre' : e.1 ++ [k] <+: e'.1 := ⟨r, by simpa using hr⟩
        rw [ofPuts_apply, if_pos (.inr ⟨e', he', hpre'⟩)]
        rfl
      exact h.leaf _ _ _ hnode hchild
  · intro h
    refine ⟨?_, fun q k v hnode hchild => ?_⟩
    · rw [ofPuts_apply, if_pos (.inl rfl), lastAt_of_forall_ne hl]
    · rw [ofPuts_apply] at hnode hchild
      split at hchild
      · next hk =>
        obtain ⟨e', he', hpre⟩ := hk.resolve_left (by simp)
        split at hnode
        · cases hnode
          by_cases hq : ∃ e ∈ l, e.1 = q
          · obtain ⟨e, he, rfl⟩ := hq
            have hlen := hpre.length_le
            refine h e he e' he' ((List.prefix_append _ _).trans hpre) fun heq => ?_
            rw [← heq, List.length_append, List.length_singleton] at hlen
            omega
          · exact lastAt_of_forall_ne fun e he heq => hq ⟨e, he, heq⟩
        · cases hnode
      · cases hchild

end View

/-! ## Trees of nodes -/

/-- A node with its value, the keys of its children in order, and the children. -/
inductive Tree (K V : Type _) where
  | node (value : V) (keys : List K) (nodup : keys.Nodup) (child : ∀ k ∈ keys, Tree K V)

namespace Tree

/-- A node with a value and without children, as a put makes it at the end of its path. -/
def leaf (v : V) : Tree K V := .node v [] List.nodup_nil nofun

/-- A value is put at a path of nodes: the child of the first key is gone into, or made behind the
other children if it is missing. -/
def put (dflt : V) : List K → V → Tree K V → Tree K V
  | [], v, .node _ keys nodup child => .node v keys nodup child
  | k :: p, v, .node w keys nodup child =>
    if hk : k ∈ keys then
      .node w keys nodup fun k' h => if k' = k then (child k' h).put dflt p v else child k' h
    else
      .node w (keys.concat k) (nodup.concat hk) fun k' _ =>
        if h : k' ∈ keys then child k' h else (leaf dflt).put dflt p v

/-- The keys of the children of the root, in order. -/
def keys : Tree K V → List K
  | .node _ keys _ _ => keys

/-- What is at a path: the value of the node that the keys lead to, and nothing if a key has no
child. -/
def view : Tree K V → View K V
  | .node v _ _ _, [] => some v
  | .node _ keys _ child, k :: q => if h : k ∈ keys then (child k h).view q else none

/-- Only nodes without children have a value that is not the default one, the root apart. -/
def leavesOnly [DecidableEq V] (dflt : V) : Tree K V → Bool
  | .node v keys _ child =>
    (v = dflt || keys.isEmpty) && keys.attach.all fun k => (child k.1 k.2).leavesOnly dflt

/-- A put at a path keeps the children of the root if the path goes through one of them. -/
theorem keys_put (dflt : V) (v : V) (t : Tree K V) {k : K} (p : List K) (hk : k ∈ t.keys) :
    (t.put dflt (k :: p) v).keys = t.keys := by
  obtain ⟨w, keys, nodup, child⟩ := t
  have hmem : k ∈ keys := hk
  simp [put, Tree.keys, hmem]

/-- Otherwise it makes the child of the root that the path goes through, behind the others. -/
theorem keys_put_new (dflt : V) (v : V) (t : Tree K V) {k : K} (p : List K) (hk : k ∉ t.keys) :
    (t.put dflt (k :: p) v).keys = t.keys ++ [k] := by
  obtain ⟨w, keys, nodup, child⟩ := t
  have hmem : k ∉ keys := hk
  simp [put, Tree.keys, hmem, List.concat_eq_append]

@[simp] theorem view_leaf (v : V) (q : List K) :
    (leaf v).view q = if q = [] then some v else none := by
  cases q with
  | nil => rfl
  | cons k q => simp [leaf, view]

/-- **The view of a tree changes as a view does** when a value is put at a path. -/
theorem view_put (dflt : V) (p : List K) (v : V) (t : Tree K V) :
    (t.put dflt p v).view = t.view.put dflt p v := by
  induction p generalizing t with
  | nil =>
    obtain ⟨w, keys, nodup, child⟩ := t
    funext q
    cases q with
    | nil => rfl
    | cons k q => simp [put, view, View.put]
  | cons k p ih =>
    obtain ⟨w, keys, nodup, child⟩ := t
    funext q
    cases q with
    | nil =>
      unfold put
      split <;> simp [view, View.put]
    | cons k' q =>
      unfold put
      by_cases hk' : k' = k
      · subst hk'
        by_cases hk : k' ∈ keys
        · simp [hk, view, ih, View.put]
        · by_cases hq : q = [] <;> simp [hk, hq, view, ih, View.put]
      · have hne : ¬ k' :: q <+: k :: p := fun h => hk' (List.cons_prefix_cons.1 h).1
        by_cases hk : k ∈ keys
        · simp [hk, view, hk', View.put, hne]
        · by_cases hmem : k' ∈ keys <;> simp [hk, hmem, view, hk', View.put, hne]

/-- The check of a tree is that of its view, but for the root. -/
theorem leavesOnly_iff [DecidableEq V] (dflt : V) (t : Tree K V) :
    t.leavesOnly dflt = true ↔
      ∀ q k v, t.view q = some v → (t.view (q ++ [k])).isSome → v = dflt := by
  induction t with
  | node w keys nodup child ih =>
    simp only [leavesOnly, Bool.and_eq_true, Bool.or_eq_true, decide_eq_true_eq,
      List.isEmpty_iff, List.all_eq_true, List.mem_attach, true_implies, Subtype.forall, ih]
    constructor
    · rintro ⟨hw, hchild⟩ q k v hnode hk
      cases q with
      | nil =>
        cases hnode
        refine hw.resolve_right fun hnil => ?_
        subst hnil
        simp [view] at hk
      | cons k' q =>
        by_cases hk' : k' ∈ keys
        · simp only [view, hk', dif_pos, List.cons_append] at hnode hk
          exact hchild k' hk' q k v hnode hk
        · simp [view, hk'] at hnode
    · intro h
      refine ⟨?_, fun k' hk' q k v hnode hk => ?_⟩
      · cases keys with
        | nil => exact .inr rfl
        | cons k keys =>
          refine .inl (h [] k w rfl ?_)
          simp only [List.nil_append, view, List.mem_cons_self, dif_pos]
          cases child k List.mem_cons_self with
          | node => rfl
      · refine h (k' :: q) k v ?_ ?_
        · simpa [view, hk'] using hnode
        · simpa [view, hk'] using hk

end Tree

end PathTree
