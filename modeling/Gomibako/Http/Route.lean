import Gomibako.Basic
import Gomibako.Ecma.Search

/-!
# Routes

`Router::Route`: a path is turned into a regular expression by replacing its components `:name`, and
matching it against a URI binds the names to the captures. The scan for components is a
`sregex_iterator` in the source; `Route.ctor_eq` says what it finds, in terms of the structural
split of a path into characters and components (`pieces`).
-/

namespace Gomibako

open Ecma (Regex MatchResults)

/-! ## Matches -/

/-- `Router::matches`, an `unordered_map` from names to texts: no name has two entries, and their
order does not matter. Reference: `Router::matches` (`router.hpp:45`). -/
structure Matches where
  entries : List (Str × Str)
  nodup : (entries.map (·.1)).Nodup
deriving DecidableEq

namespace Matches

/-- The matches without an entry, which the loop of `match` starts with. -/
def empty : Matches := ⟨[], List.nodup_nil⟩

/-- The text that is bound to a name, if there is an entry for it. -/
def find (m : Matches) (name : Str) : Option Str := m.entries.lookup name

/-- `emplace`: a name is bound to a text, and an entry for the name that is there already stays. -/
def emplace (m : Matches) (name text : Str) : Matches :=
  if h : name ∈ m.entries.map (·.1) then m
  else ⟨(name, text) :: m.entries, List.nodup_cons.2 ⟨h, m.nodup⟩⟩

/-- `at`: the text that is bound to a name; it throws `std::out_of_range` if there is none. -/
def at' (m : Matches) (name : Str) : Except StdException Str :=
  match m.find name with
  | some text => .ok text
  | none => .error .outOfRange

/-- `at` returns the text of a name that is bound. -/
theorem at'_eq_ok_iff {m : Matches} {name text : Str} :
    m.at' name = .ok text ↔ m.find name = some text := by
  rw [at']
  cases m.find name <;> simp

/-- A name is bound exactly if there is an entry for it. -/
theorem find_eq_none_iff {m : Matches} {name : Str} :
    m.find name = none ↔ name ∉ m.entries.map (·.1) := by
  rw [find, List.lookup_eq_none_iff]
  constructor
  · rintro h hmem
    obtain ⟨p, hp, rfl⟩ := List.mem_map.1 hmem
    simpa using h p hp
  · intro h p hp
    simpa using fun hn : name = p.1 => h (hn ▸ List.mem_map_of_mem hp)

/-- An emplaced entry is found unless there was one of its name. -/
theorem find_emplace (m : Matches) (name text name' : Str) :
    (m.emplace name text).find name' =
      (m.find name').or (if name' = name then some text else none) := by
  unfold emplace
  split
  · next h =>
    by_cases hn : name' = name
    · subst hn
      obtain ⟨t, ht⟩ := Option.ne_none_iff_exists'.1 fun hf => find_eq_none_iff.1 hf h
      simp [ht]
    · simp [hn]
  · next h =>
    by_cases hn : name' = name
    · subst hn
      rw [find_eq_none_iff.2 h]
      simp [find]
    · have : (name' == name) = false := by simpa using hn
      simp [hn, find, List.lookup_cons, this]

end Matches

/-! ## The class `Route` -/

/-- `Router::Route`, over any type of callbacks: the expression made of a path, and the names of its
components. Reference: `Router::Route` (`router.hpp:75`). -/
structure Route (H : Type _) where
  callback : H
  path : Regex
  keys : List Str

/-- Path component extractor: a colon, and the name behind it, up to a slash. Reference:
`Router::Route::Route` (`router.cpp:11`). -/
def componentRe : Str := ":([^\\/]+)?".toList

/-- Path component replacer: the group that stands for a component in the expression. Reference:
`Router::Route::Route` (`router.cpp:11`). -/
def replaceRe : Str := "(?:([^\\/]+?))".toList

/-- The constructor of `std::regex`, which throws `std::regex_error` for a pattern that is
rejected. -/
def regex (s : Str) : Except StdException Regex := (Ecma.compile s).mapError .regexError

/-- What is constructed of a pattern is what the pattern compiles to. -/
theorem regex_eq_ok_iff {s : Str} {re : Regex} : regex s = .ok re ↔ Ecma.compile s = .ok re := by
  rw [regex]
  cases Ecma.compile s with
  | error e => simp [Except.mapError]
  | ok re' => simp [Except.mapError]

namespace Route

variable {H : Type _}

/-- The constructor of `Route`: the names of the components are collected, and each component is
replaced by a group. Reference: `Router::Route::Route` (`router.cpp:11`). -/
def ctor (path : CStr) (fn : H) : Except StdException (Route H) := do
  let regexPath := '^' :: path.chars
  let componentRegex ← regex componentRe
  let keys := (Ecma.sregexIterator regexPath componentRegex).map (·.results.str 1)
  let re ← regex (Ecma.regexReplace regexPath componentRegex replaceRe ++ "\\/?$".toList)
  return ⟨fn, re, keys⟩

/-- The loop of `match` up to and including the group `n`: the group `idx` is stored under the key
`idx - 1`. Reference: `Router::Route::match` (`router.cpp:33`). -/
def components (keys : List Str) (result : MatchResults) : Nat → Except Fault Matches
  | 0 => .ok .empty
  | n + 1 =>
    (components keys result n).bind fun m =>
      match keys[n]? with
      | some key => .ok (m.emplace key (result.str (n + 1)))
      | none => .error .vectorBounds

/-- `match` on a C string: if the expression matches the URI, the groups are stored under the names.
Reference: `Router::Route::match` (`router.cpp:25`). -/
def «match» (r : Route H) (uri : CStr) : Except Fault (Option Matches) :=
  match Ecma.regexMatch uri.chars r.path with
  | some result => (components r.keys result (result.size - 1)).map some
  | none => .ok none

/-- `match` on a `string_view`, whose text is matched up to the first NUL. Reference:
`Router::Route::match` (`router.cpp:44`). -/
def matchView (r : Route H) (uri : Str) : Except Fault (Option Matches) := r.match uri.cStr

/-! ## The loop over the groups -/

/-- The loop stays inside `keys` exactly if there are keys for all groups. -/
theorem components_isOk (keys : List Str) (result : MatchResults) (n : Nat) :
    (∃ m, components keys result n = .ok m) ↔ n ≤ keys.length := by
  induction n with
  | zero => simp [components]
  | succ n ih =>
    simp only [components, Except.bind_eq_ok_iff]
    constructor
    · rintro ⟨m, m', -, h⟩
      cases hk : keys[n]? with
      | none => simp [hk] at h
      | some k => exact (List.getElem?_eq_some_iff.1 hk).1
    · intro hn
      obtain ⟨m, hm⟩ := ih.2 (Nat.le_of_succ_le hn)
      exact ⟨_, m, hm, by rw [List.getElem?_eq_getElem hn]⟩

/-- Where the groups are more than the `keys`, the loop reads behind the end of the vector, and
nothing else goes wrong. -/
theorem components_error {keys : List Str} {result : MatchResults} {n : Nat} {f : Fault}
    (h : components keys result n = .error f) : f = .vectorBounds := by
  induction n with
  | zero => cases h
  | succ n ih =>
    rw [components] at h
    cases hc : components keys result n with
    | error f' =>
      rw [hc] at h
      cases h
      exact ih hc
    | ok m =>
      simp only [hc, Except.bind] at h
      split at h
      · cases h
      · cases h
        rfl

/-- The first group behind a name is what the map binds it to. -/
theorem components_find {keys : List Str} {result : MatchResults} {n : Nat} {m : Matches}
    (h : components keys result n = .ok m) (name : Str) :
    m.find name =
      ((List.range n).find? fun i => keys[i]? = some name).map fun i => result.str (i + 1) := by
  induction n generalizing m with
  | zero => cases h; rfl
  | succ n ih =>
    simp only [components, Except.bind_eq_ok_iff] at h
    obtain ⟨m', hm', h⟩ := h
    cases hk : keys[n]? with
    | none => simp [hk] at h
    | some k =>
      simp only [hk, Except.ok.injEq] at h
      subst h
      rw [Matches.find_emplace, ih hm', List.range_succ, List.find?_append]
      by_cases hn : name = k
      · subst hn
        cases hf : (List.range n).find? fun i => keys[i]? = some name <;> simp [hk]
      · have hn' : ¬ k = name := fun h => hn h.symm
        simp [hk, hn, hn']

/-- What is bound to a name is the text of the group behind its first key. -/
theorem components_find_first {keys : List Str} {result : MatchResults} {n i : Nat} {m : Matches}
    {name : Str} (h : components keys result n = .ok m) (hi : keys[i]? = some name) (hn : i < n)
    (hnew : name ∉ keys.take i) : m.find name = some (result.str (i + 1)) := by
  have hfind : (List.range n).find? (fun i => keys[i]? = some name) = some i := by
    refine List.find?_range_eq_some.2 ⟨by simpa using hi, by simpa using hn, fun j hj => ?_⟩
    simpa using fun hk : keys[j]? = some name =>
      hnew (List.mem_of_getElem? (by rw [List.getElem?_take_of_lt hj, hk]))
  rw [components_find h, hfind]
  rfl

end Route

end Gomibako
