import Gomibako.Basic
import Gomibako.Lib.PathTree

/-!
# Property trees

The handlers build their JSON with Boost.PropertyTree, which is not part of the source. What they
rely on is the structure `PropertyTree`: `put` splits a name at its dots into a path, makes the
nodes that are missing and keeps the values and children that are there, and `write_json` throws
exactly if a node has both a value and children, or if the root has a value. For a sequence of puts
this is a property of the names alone (`PropertyTree.writeJson_puts`).
-/

namespace Gomibako

open PathTree (View lastAt lastAt_map lastAt_of_forall_ne)

/-- `boost::property_tree`: the trees that `put` builds from the empty one, with what the library
documents of them. `view` is the `data()` of the nodes. -/
structure PropertyTree where
  Tree : Type
  empty : Tree
  put : Tree → Str → Str → Tree
  writeJson : Tree → Except StdException Str
  view : Tree → View Str Str
  view_empty : view empty = View.root []
  view_put : ∀ t name value, name ≠ [] →
    view (put t name value) = (view t).put [] (name.splitOn '.') value
  writeJson_isOk : ∀ t, (∃ text, writeJson t = .ok text) ↔ (view t).LeavesOnly []

/-! ## Paths -/

/-- The names of a path determine it, as the separators between them are all the same. -/
theorem splitOn_injective (c : Char) : Function.Injective fun s : Str => s.splitOn c :=
  Function.LeftInverse.injective (g := fun l => [c].intercalate l) fun _ =>
    List.intercalate_splitOn c

/-- One list of texts after another, with a separator between them. -/
theorem intercalate_append {c : Char} {l r : List Str} (hl : l ≠ []) (hr : r ≠ []) :
    [c].intercalate (l ++ r) = [c].intercalate l ++ c :: [c].intercalate r := by
  induction l with
  | nil => exact absurd rfl hl
  | cons s l ih =>
    cases l with
    | nil => simp [List.intercalate_cons_of_ne_nil hr]
    | cons t l =>
      rw [List.cons_append, List.intercalate_cons_of_ne_nil (by simp), ih (by simp),
        List.intercalate_cons_cons]
      simp

/-- The names of a path are without separators, since the path is split at every one. -/
theorem not_mem_of_mem_splitOn {c : Char} {s t : Str} (h : s ∈ t.splitOn c) : c ∉ s := by
  by_cases hc : c ∈ t
  · obtain ⟨a, b, rfl, ha⟩ := List.eq_append_cons_of_mem hc
    rw [List.splitOn_append_cons_self_of_not_mem ha] at h
    rcases List.mem_cons.1 h with rfl | hb
    · exact ha
    · exact not_mem_of_mem_splitOn hb
  · rw [List.splitOn_eq_singleton hc, List.mem_singleton] at h
    exact h ▸ hc
termination_by t.length

/-- A path goes on behind another one if the text goes on with a separator. -/
theorem splitOn_prefix_iff {c : Char} {s t : Str} :
    s.splitOn c <+: t.splitOn c ∧ s.splitOn c ≠ t.splitOn c ↔ s ++ [c] <+: t := by
  constructor
  · rintro ⟨⟨r, hr⟩, hne⟩
    have hnil : r ≠ [] := fun h => hne (by rw [← hr, h, List.append_nil])
    have ht := congrArg [c].intercalate hr
    rw [intercalate_append (List.splitOn_ne_nil c s) hnil, List.intercalate_splitOn,
      List.intercalate_splitOn] at ht
    exact ⟨[c].intercalate r, by simpa using ht⟩
  · rintro ⟨r, rfl⟩
    rw [List.append_assoc, List.singleton_append, List.splitOn_append_cons_self]
    exact ⟨List.prefix_append _ _, fun h => List.splitOn_ne_nil c r (List.self_eq_append_right.1 h)⟩

/-! ## Puts -/

/-- A name is put below another one that has a value in the end. -/
def Nested (l : List (Str × Str)) : Prop :=
  ∃ e ∈ l, ∃ e' ∈ l, e.1 ++ ['.'] <+: e'.1 ∧ lastAt [] l e.1 ≠ []

instance (l : List (Str × Str)) : Decidable (Nested l) :=
  inferInstanceAs (Decidable (∃ e ∈ l, ∃ e' ∈ l, e.1 ++ ['.'] <+: e'.1 ∧ lastAt [] l e.1 ≠ []))

namespace PropertyTree

variable (pt : PropertyTree)

/-- Values are put into the empty tree, one after another, at the paths of their names. -/
def puts (l : List (Str × Str)) : pt.Tree := l.foldl (fun t e => pt.put t e.1 e.2) pt.empty

/-- The view of a tree after a sequence of puts. -/
theorem view_puts {l : List (Str × Str)} (h : ∀ e ∈ l, e.1 ≠ []) :
    pt.view (pt.puts l) = View.ofPuts [] (l.map fun e => (e.1.splitOn '.', e.2)) := by
  induction l using List.reverseRecOn with
  | nil => exact pt.view_empty
  | append_singleton l e ih =>
    have hl : ∀ e ∈ l, e.1 ≠ [] := fun e he => h e (List.mem_append_left _ he)
    have hputs : pt.puts (l ++ [e]) = pt.put (pt.puts l) e.1 e.2 := by simp [puts]
    rw [hputs, pt.view_put _ _ _ (h e (by simp)), ih hl]
    simp [View.ofPuts]

/-- After a sequence of puts with names that have no dot, the entries are at the top level, and each
has the last value of its name. -/
theorem view_puts_of_plain {l : List (Str × Str)} (h : ∀ e ∈ l, e.1 ≠ [])
    (hplain : ∀ e ∈ l, '.' ∉ e.1) : pt.view (pt.puts l) [] = some [] ∧
      ∀ name path, pt.view (pt.puts l) (name :: path) =
        if path = [] ∧ ∃ e ∈ l, e.1 = name then some (lastAt [] l name) else none := by
  have hpaths : l.map (fun e => (e.1.splitOn '.', e.2)) = l.map fun e => ([e.1], e.2) :=
    List.map_congr_left fun e he => by rw [List.splitOn_eq_singleton (hplain e he)]
  rw [pt.view_puts h, hpaths]
  refine ⟨?_, fun name path => ?_⟩
  · rw [View.ofPuts_apply, if_pos (.inl rfl), lastAt_of_forall_ne]
    intro e he
    obtain ⟨e', -, rfl⟩ := List.mem_map.1 he
    exact List.cons_ne_nil _ _
  · have hnode : (name :: path = [] ∨ ∃ e ∈ l.map fun e => ([e.1], e.2), name :: path <+: e.1) ↔
        path = [] ∧ ∃ e ∈ l, e.1 = name := by
      constructor
      · intro h
        obtain ⟨_, he, hpre⟩ := h.resolve_left (List.cons_ne_nil _ _)
        obtain ⟨e, hel, rfl⟩ := List.mem_map.1 he
        obtain ⟨hname, hpath⟩ := List.cons_prefix_cons.1 hpre
        exact ⟨List.prefix_nil.1 hpath, e, hel, hname.symm⟩
      · intro h
        obtain ⟨rfl, e, he, rfl⟩ := h
        exact .inr ⟨_, List.mem_map.2 ⟨e, he, rfl⟩, List.prefix_rfl⟩
    rw [View.ofPuts_apply]
    refine ite_congr (propext hnode) (fun hpath => ?_) fun _ => rfl
    rw [hpath.1, lastAt_map (fun _ _ => List.singleton_inj.1)]

/-- **When the puts can be written**: no name was put below another one that has a value. -/
theorem writeJson_puts {l : List (Str × Str)} (h : ∀ e ∈ l, e.1 ≠ []) :
    (∃ text, pt.writeJson (pt.puts l) = .ok text) ↔ ¬ Nested l := by
  have hpaths : ∀ e ∈ l.map fun e => (e.1.splitOn '.', e.2), e.1 ≠ [] := by
    intro e he
    obtain ⟨e', -, rfl⟩ := List.mem_map.1 he
    exact List.splitOn_ne_nil '.' e'.1
  rw [pt.writeJson_isOk, pt.view_puts h, View.leavesOnly_ofPuts hpaths, Nested]
  simp only [List.forall_mem_map, not_exists, not_and, not_not]
  refine forall₄_congr fun e _ e' _ => ?_
  rw [← and_imp, splitOn_prefix_iff, lastAt_map (splitOn_injective '.')]

/-! ## The entries of the root -/

/-- The keys of the children of the root, in the order they are iterated in. What the library
documents of `put` is that the node a path goes through is made if it is missing, behind the others.
-/
structure TopLevel where
  keys : pt.Tree → List Str
  keys_empty : keys pt.empty = []
  keys_put : ∀ t name value k ks, name ≠ [] → name.splitOn '.' = k :: ks → k ∈ keys t →
    keys (pt.put t name value) = keys t
  keys_put_new : ∀ t name value k ks, name ≠ [] → name.splitOn '.' = k :: ks → k ∉ keys t →
    keys (pt.put t name value) = keys t ++ [k]

/-- After a sequence of puts the root has one child for each first name of a path. -/
theorem TopLevel.keys_puts {pt : PropertyTree} (top : pt.TopLevel) {l : List (Str × Str)}
    (h : ∀ e ∈ l, e.1 ≠ []) : (top.keys (pt.puts l)).Nodup ∧
      ∀ k, k ∈ top.keys (pt.puts l) ↔ ∃ e ∈ l, (e.1.splitOn '.').head? = some k := by
  induction l using List.reverseRecOn with
  | nil => simp [puts, top.keys_empty]
  | append_singleton l e ih =>
    obtain ⟨hnodup, hmem⟩ := ih fun e he => h e (List.mem_append_left _ he)
    have hputs : pt.puts (l ++ [e]) = pt.put (pt.puts l) e.1 e.2 := by simp [puts]
    obtain ⟨k, ks, hpath⟩ := List.exists_cons_of_ne_nil (List.splitOn_ne_nil '.' e.1)
    have hlast : ∀ k', (∃ e' ∈ l ++ [e], (e'.1.splitOn '.').head? = some k') ↔
        k' ∈ top.keys (pt.puts l) ∨ k' = k := by
      intro k'
      rw [hmem]
      simp only [List.mem_append, List.mem_singleton, or_and_right, exists_or, exists_eq_left,
        hpath, List.head?_cons, Option.some.injEq, eq_comm (a := k)]
    have hname : e.1 ≠ [] := h e (by simp)
    by_cases hk : k ∈ top.keys (pt.puts l)
    · rw [hputs, top.keys_put _ _ _ k ks hname hpath hk]
      refine ⟨hnodup, fun k' => ?_⟩
      rw [hlast]
      exact ⟨.inl, fun h => h.elim id fun heq => heq ▸ hk⟩
    · rw [hputs, top.keys_put_new _ _ _ k ks hname hpath hk]
      refine ⟨List.concat_eq_append ▸ hnodup.concat hk, fun k' => ?_⟩
      rw [hlast, List.mem_append, List.mem_singleton]

/-! ## Trees of nodes -/

/-- A text in quotes, for a text without control characters. -/
def quoteJson (s : Str) : Str :=
  '"' :: s.flatMap (fun c => if c = '"' || c = '\\' || c = '/' then ['\\', c] else [c]) ++ ['"']

/-- What is written for a node: its value, or an object if it has children. -/
def nodeJson : PathTree.Tree Str Str → Str
  | .node value keys _ child =>
    if keys = [] then quoteJson value
    else '\x7b' :: [','].intercalate
      (keys.attach.map fun k => quoteJson k.1 ++ ':' :: nodeJson (child k.1 k.2)) ++ ['\x7d']

/-- The root is written as an object, also if it is without children. -/
def rootJson (t : PathTree.Tree Str Str) : Str :=
  match t with
  | .node _ [] _ _ => "\x7b\x7d\n".toList
  | t => nodeJson t ++ ['\n']

/-- A tree can be written if only leaves have values. -/
def representable (t : PathTree.Tree Str Str) : Bool :=
  t.view [] = some [] && t.leavesOnly []

/-- Property trees that are built of nodes: an instance of what the library documents. -/
def nodes : PropertyTree where
  Tree := PathTree.Tree Str Str
  empty := .leaf []
  put t name value := t.put [] (name.splitOn '.') value
  writeJson t := if representable t then .ok (rootJson t) else .error .jsonParserError
  view := PathTree.Tree.view
  view_empty := funext (PathTree.Tree.view_leaf [])
  view_put t name value _ := PathTree.Tree.view_put [] (name.splitOn '.') value t
  writeJson_isOk t := by
    have hrep : representable t = true ↔ t.view.LeavesOnly [] := by
      rw [representable, Bool.and_eq_true, decide_eq_true_eq, PathTree.Tree.leavesOnly_iff]
      exact ⟨fun h => ⟨h.1, h.2⟩, fun h => ⟨h.root, h.leaf⟩⟩
    rw [← hrep]
    cases representable t <;> simp

/-- The entries of the root of a tree of nodes. -/
def nodesTopLevel : nodes.TopLevel where
  keys := PathTree.Tree.keys
  keys_empty := rfl
  keys_put t name value k ks _ hpath hk := by
    show (t.put [] (name.splitOn '.') value).keys = t.keys
    rw [hpath]
    exact PathTree.Tree.keys_put [] value t ks hk
  keys_put_new t name value k ks _ hpath hk := by
    show (t.put [] (name.splitOn '.') value).keys = t.keys ++ [k]
    rw [hpath]
    exact PathTree.Tree.keys_put_new [] value t ks hk

end PropertyTree

end Gomibako
