import Gomibako.Main.Dispatch

/-!
# The endpoint for headers

`handle_headers` puts the value of each field of a request into a tree, with the name of the field
for the path. `put` splits a path at its dots, and a dot is a character of a token. So the tree has
the fields for its entries exactly if no name has a dot (`echoes_iff`).
-/

namespace Gomibako.Main

open Beast (Field Request isToken)
open PathTree (lastAt lastAt_insert)

variable {S : Type _} {W : Type}

/-- The tree that `handle_headers` builds has, at the top level and in nothing else, an entry
without children for each name of a field, which holds the value of the last field of this name. A
field with a new name leaves the entries of the other names as they are. -/
structure Echoes (lib : Libraries S W) (top : lib.tree.TopLevel) (request : Request) : Prop where
  nodup : (top.keys (headersContent lib request)).Nodup
  keys : ∀ name, name ∈ top.keys (headersContent lib request) ↔
    ∃ f ∈ request.fields, f.name = name
  value : ∀ f ∈ request.fields, lib.tree.view (headersContent lib request) [f.name] =
    some (lastAt [] (entries request) f.name)
  only : ∀ path value, lib.tree.view (headersContent lib request) path = some value →
    path = [] ∧ value = [] ∨ ∃ f ∈ request.fields, path = [f.name]
  adding : ∀ l₁ f l₂, request.fields = l₁ ++ f :: l₂ → (∀ f' ∈ l₁ ++ l₂, f'.name ≠ f.name) →
    ∀ f' ∈ l₁ ++ l₂, ∀ path, lib.tree.view (headersContent lib request) (f'.name :: path) =
      lib.tree.view (headersContent lib { request with fields := l₁ ++ l₂ }) (f'.name :: path)

section
variable {lib : Libraries S W} {request : Request}

/-- What is in the tree if no name has a dot. -/
theorem view_headersContent (lib : Libraries S W) (request : Request) (h : request.TokenNames)
    (hplain : ∀ f ∈ request.fields, '.' ∉ f.name) :
    lib.tree.view (headersContent lib request) [] = some [] ∧
      ∀ name path, lib.tree.view (headersContent lib request) (name :: path) =
        if path = [] ∧ ∃ f ∈ request.fields, f.name = name then
          some (lastAt [] (entries request) name) else none := by
  obtain ⟨hroot, hname⟩ :=
    lib.tree.view_puts_of_plain (entries_name_ne_nil h)
      ((forall_entries_iff (p := fun name => '.' ∉ name)).2 hplain)
  rw [headersContent_eq]
  refine ⟨hroot, fun name path => ?_⟩
  rw [hname]
  exact ite_congr (propext (and_congr_right fun _ => exists_entries_iff (p := (· = name))))
    (fun _ => rfl) fun _ => rfl

/-- Names without dots are echoed, for each of them is put at the top level of the tree. -/
theorem echoes_of_plain (top : lib.tree.TopLevel) (h : request.TokenNames)
    (hplain : ∀ f ∈ request.fields, '.' ∉ f.name) : Echoes lib top request := by
  obtain ⟨hroot, hview⟩ := view_headersContent lib request h hplain
  obtain ⟨hnodup, hkeys⟩ := top.keys_puts (entries_name_ne_nil h)
  rw [← headersContent_eq] at hnodup hkeys
  refine ⟨hnodup, fun name => ?_, fun f hf => ?_, fun path value hpath => ?_, ?_⟩
  · rw [hkeys, exists_entries_iff (p := fun s => (s.splitOn '.').head? = some name)]
    refine exists_congr fun f => and_congr_right fun hf => ?_
    rw [List.splitOn_eq_singleton (hplain f hf), List.head?_cons, Option.some.injEq]
  · rw [hview, if_pos ⟨rfl, f, hf, rfl⟩]
  · cases path with
    | nil => exact .inl ⟨rfl, Option.some.inj (hpath.symm.trans hroot)⟩
    | cons name path =>
      rw [hview] at hpath
      split at hpath
      · next hname =>
        obtain ⟨rfl, f, hf, rfl⟩ := hname
        exact .inr ⟨f, hf, rfl⟩
      · cases hpath
  · intro l₁ f l₂ hfields hnew f' hf' path
    have hsub : ∀ f' ∈ l₁ ++ l₂, f' ∈ request.fields := by
      intro f' hf'
      rw [hfields]
      exact List.mem_append.2 ((List.mem_append.1 hf').imp_right (List.mem_cons_of_mem f))
    obtain ⟨-, hrest⟩ := view_headersContent lib { request with fields := l₁ ++ l₂ }
      (fun f' hf' => h f' (hsub f' hf')) fun f' hf' => hplain f' (hsub f' hf')
    rw [hview, hrest]
    -- the field is not one of those with the name
    have hvalue : lastAt [] (entries request) f'.name =
        lastAt [] (entries { request with fields := l₁ ++ l₂ }) f'.name := by
      simp only [entries, hfields, List.map_append, List.map_cons]
      exact lastAt_insert [] _ _ fun heq => hnew f' hf' heq.symm
    rw [hvalue]
    exact ite_congr (propext (and_congr_right fun _ =>
      ⟨fun _ => ⟨f', hf', rfl⟩, fun _ => ⟨f', hsub f' hf', rfl⟩⟩)) (fun _ => rfl) fun _ => rfl

/-- A name that is echoed has no dot: a path of one name is no path through the tree otherwise. -/
theorem Echoes.plain {top : lib.tree.TopLevel} (hecho : Echoes lib top request)
    (h : request.TokenNames) : ∀ f ∈ request.fields, '.' ∉ f.name := by
  intro f hf
  obtain ⟨-, hkeys⟩ := top.keys_puts (entries_name_ne_nil h)
  rw [← headersContent_eq] at hkeys
  -- the name is the first one of the path of some field
  obtain ⟨e, -, hhead⟩ := (hkeys f.name).1 ((hecho.keys f.name).2 ⟨f, hf, rfl⟩)
  exact not_mem_of_mem_splitOn (List.mem_of_mem_head? hhead)

end

/-- **When the headers are echoed**: for a request whose fields have tokens as names, exactly if
none of the names has a dot. -/
theorem echoes_iff (lib : Libraries S W) (top : lib.tree.TopLevel) {request : Request}
    (h : request.TokenNames) :
    Echoes lib top request ↔ ∀ f ∈ request.fields, '.' ∉ f.name :=
  ⟨fun hecho => hecho.plain h, echoes_of_plain top h⟩

/-- A request for the headers with names that differ in case only, and one of them twice. -/
def plainRequest : Request where
  method := .get
  target := "/headers".toList
  fields := [⟨"Host".toList, "localhost".toList⟩, ⟨"A".toList, ['1']⟩, ⟨"A".toList, ['2']⟩,
    ⟨"a".toList, ['3']⟩]

/-- The fields of the request are echoed, the last one of a name for all that have it. -/
theorem echoes_iff_plain : Echoes listLibraries PropertyTree.nodesTopLevel plainRequest := by
  have hnames : plainRequest.fields.all (fun f => isToken f.name) = true := by decide
  have htokens : plainRequest.TokenNames := fun f hf => List.all_eq_true.1 hnames f hf
  exact (echoes_iff listLibraries _ htokens).2 (by decide)

theorem dottedOctets_ne_nil : "GET /headers HTTP/1.1\r\na.b: 1\r\n\r\n".toList ≠ [] := by decide

/-- What a peer sends that asks for the headers with the field `a.b`. -/
def dottedStream : Beast.Stream :=
  .chunk "GET /headers HTTP/1.1\r\na.b: 1\r\n\r\n".toList dottedOctets_ne_nil

/-- The request for the headers with the field `a.b`, which is put below `a`. -/
def dottedRequest : Request where
  method := .get
  target := "/headers".toList
  fields := [⟨"a.b".toList, ['1']⟩]

set_option maxRecDepth 10000 in
/-- The request is what is read, and its field is not echoed: the tree has an entry `a` with a
child, and none for `a.b`. -/
theorem not_echoes_dotted : Beast.asyncRead {} dottedStream =
      ({ request := dottedRequest, buffer := {}, stream := Beast.Stream.closed } :
        Beast.ReadResult staticBufferMax) ∧
    ¬ Echoes listLibraries PropertyTree.nodesTopLevel dottedRequest := by
  refine ⟨rfl, fun h => ?_⟩
  have hvalue := h.value ⟨"a.b".toList, ['1']⟩ (by decide)
  exact absurd hvalue (by decide)

end Gomibako.Main
