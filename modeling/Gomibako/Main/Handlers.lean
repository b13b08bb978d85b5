import Gomibako.Beast.ReadFields
import Gomibako.Http.Router
import Gomibako.Http.Server
import Gomibako.Http.TypedHeaders
import Gomibako.PropertyTree

/-!
# The handlers

The handlers of `main.cpp`, over what they call that is not part of the source (`Libraries`). Each
has a lemma on when it returns: `hello_world`, `handle_status` and `handle_bytes` do if the
component they ask for is bound, `handle_ip` does if the socket has a remote endpoint, and
`handle_headers` does unless the name of a field is nested below the name of another one that has a
value (`handleHeaders_ok_iff`).
-/

namespace Gomibako.Main

open Beast (Request Response)

/-- What the handlers call: Boost.PropertyTree, the remote endpoint of a socket as a text,
`try_lexical_convert` to the two types it is used with, and `std::random_device`, which reads the
world. -/
structure Libraries (S : Type _) (W : Type) where
  tree : PropertyTree
  remoteAddress : S → Except StdException Str
  convertUnsigned : Str → Option UInt32
  convertSize : Str → Option UInt64
  randomDevice : W → UInt32 × W

variable {S : Type _} {W : Type}

/-! ## The handlers of the source -/

/-- `hello_world`: a page of one line. Reference: `hello_world` (`main.cpp:17`). -/
def helloWorld : Handler S W := fun ctx world => do
  let response ← (ctx.response.setStatus 200).setHeader .html
  return (response.write "<h1>Hello world</h1>\n".toList, world)

section
variable (lib : Libraries S W)

/-- `handle_ip`: the address of the peer, as a property tree in JSON. Reference: `handle_ip`
(`main.cpp:26`). -/
def handleIp : Handler S W := fun ctx world => do
  let ip ← lib.remoteAddress ctx.socket
  let content := lib.tree.put lib.tree.empty "ip".toList ip
  let response ← (ctx.response.setStatus 200).setHeader .json
  let text ← lib.tree.writeJson content
  return (response.write text, world)

/-- `handle_headers`: the fields of the request, as a property tree in JSON. Reference:
`handle_headers` (`main.cpp:39`). -/
def handleHeaders : Handler S W := fun ctx world => do
  let response ← (ctx.response.setStatus 200).setHeader .json
  let content := ctx.request.fields.foldl
    (fun content header => lib.tree.put content header.name header.value) lib.tree.empty
  let text ← lib.tree.writeJson content
  return (response.write text, world)

/-- The tree that `handle_headers` builds of the fields, one after another. -/
def headersContent (request : Request) : lib.tree.Tree :=
  request.fields.foldl (fun content header => lib.tree.put content header.name header.value)
    lib.tree.empty

/-- `handle_headers` writes the tree of the fields as JSON to a response with a status and a content
type. -/
theorem handleHeaders_content (ctx : Context S) (world : W) :
    handleHeaders lib ctx world = do
      let response ← (ctx.response.setStatus 200).setHeader .json
      let text ← lib.tree.writeJson (headersContent lib ctx.request)
      return (response.write text, world) := rfl

/-- `handle_status`: the status that the segment asks for, or an error text. Reference:
`handle_status` (`main.cpp:54`). -/
def handleStatus : Handler S W := fun ctx world => do
  let code ← ctx.matches.at' "code".toList
  match lib.convertUnsigned code with
  | some code =>
    match ctx.response.setResult code.toNat with
    | .ok response => return (response, world)
    | .error (.invalidArgument what) =>
      return ((ctx.response.setStatus 400).write (what ++ ['\n']), world)
    | .error e => .error e
  | none =>
    return ((ctx.response.setStatus 400).write "status-code is not a number.\n".toList, world)

/-- The loop of `handle_bytes`: a byte of each of `n` random numbers. Reference: `handle_bytes`
(`main.cpp:78`). -/
def randomBytes : Nat → W → Str × W
  | 0, world => ([], world)
  | n + 1, world =>
    let (value, world) := lib.randomDevice world
    let (bytes, world) := randomBytes n world
    (Char.ofNat (value.toNat % 256) :: bytes, world)

/-- `handle_bytes`: as many random bytes as the segment asks for, or an error text. Reference:
`handle_bytes` (`main.cpp:78`). -/
def handleBytes : Handler S W := fun ctx world => do
  let num ← ctx.matches.at' "num".toList
  match lib.convertSize num with
  | some num =>
    if num.toNat > staticBufferMax then
      return ((ctx.response.setStatus 400).write
        ("Bytes limit is ".toList ++ Nat.toDigits 10 staticBufferMax ++ ['\n']), world)
    else
      let response ← (ctx.response.setStatus 200).setHeader .octetStream
      let (bytes, world) := randomBytes lib num.toNat world
      return (response.write bytes, world)
  | none => return ((ctx.response.setStatus 400).write "Bytes is not a number.\n".toList, world)

end

/-! ## When the handlers return -/

/-- A header that is set changes the fields only, and it can be set if its texts are short
enough. -/
theorem setHeader_ok {response : Response} {header : TypedHeader}
    (hname : header.name.length ≤ 65533) (hvalue : header.value.length ≤ 65533) :
    ∃ fields, response.setHeader header = .ok { response with fields } :=
  ⟨_, Except.map_eq_ok_iff.2 ⟨_, Beast.Fields.set_ok_iff.2 ⟨hname, hvalue, rfl⟩, rfl⟩⟩

/-- The content types are short, so the handlers can always set them, which changes the fields
only. -/
theorem setHeader_contentType (response : Response) :
    (∃ fields, response.setHeader .html = .ok { response with fields }) ∧
      (∃ fields, response.setHeader .json = .ok { response with fields }) ∧
      ∃ fields, response.setHeader .octetStream = .ok { response with fields } :=
  ⟨setHeader_ok (by decide) (by decide), setHeader_ok (by decide) (by decide),
    setHeader_ok (by decide) (by decide)⟩

section
variable {lib : Libraries S W} {ctx : Context S} {world : W}

/-- `hello_world` returns, whatever it is called with. -/
theorem helloWorld_ok : ∃ result, helloWorld ctx world = .ok result := by
  obtain ⟨r, hr⟩ := (setHeader_contentType (ctx.response.setStatus 200)).1
  exact ⟨_, by rw [helloWorld, hr]; rfl⟩

/-- `handle_ip` returns if the socket has a remote endpoint: a tree of one name can be written. -/
theorem handleIp_ok {address : Str} (h : lib.remoteAddress ctx.socket = .ok address) :
    ∃ result, handleIp lib ctx world = .ok result := by
  obtain ⟨r, hr⟩ := (setHeader_contentType (ctx.response.setStatus 200)).2.1
  have hone : ∀ e ∈ [("ip".toList, address)], e.1 ≠ [] := by simp
  have hnested : ¬ Nested [("ip".toList, address)] := by
    rintro ⟨e, he, e', he', hpre, -⟩
    cases List.mem_singleton.1 he
    cases List.mem_singleton.1 he'
    have := hpre.length_le
    simp at this
  obtain ⟨text, htext⟩ := (lib.tree.writeJson_puts hone).2 hnested
  have hput : lib.tree.writeJson (lib.tree.put lib.tree.empty "ip".toList address) = .ok text :=
    htext
  exact ⟨_, by simp only [handleIp, h, hr, hput, bind, Except.bind]; rfl⟩

/-- The fields of a request as they are put into the tree. -/
def entries (request : Request) : List (Str × Str) := request.fields.map fun f => (f.name, f.value)

/-- What holds of the names of the fields holds of those of the entries. -/
theorem forall_entries_iff {request : Request} {p : Str → Prop} :
    (∀ e ∈ entries request, p e.1) ↔ ∀ f ∈ request.fields, p f.name :=
  List.forall_mem_map

/-- What holds of the name of a field holds of that of an entry. -/
theorem exists_entries_iff {request : Request} {p : Str → Prop} :
    (∃ e ∈ entries request, p e.1) ↔ ∃ f ∈ request.fields, p f.name := by
  simp only [entries, List.mem_map, exists_exists_and_eq_and]

/-- A token is not empty, so no entry of a request is put at the root of the tree. -/
theorem entries_name_ne_nil {request : Request} (h : request.TokenNames) :
    ∀ e ∈ entries request, e.1 ≠ [] := by
  rw [forall_entries_iff (p := (· ≠ []))]
  intro f hf hnil
  have htoken := h f hf
  simp [Beast.isToken, hnil] at htoken

/-- The tree of `handle_headers` is what the entries give when they are put into the empty tree. -/
theorem headersContent_eq (lib : Libraries S W) (request : Request) :
    headersContent lib request = lib.tree.puts (entries request) := by
  rw [headersContent, entries, PropertyTree.puts, List.foldl_map]

/-- `handle_headers` returns exactly if the tree of the fields can be written, and then the text is
the body. -/
theorem handleHeaders_eq (lib : Libraries S W) (ctx : Context S) (world : W) :
    ∃ fields, handleHeaders lib ctx world =
      (lib.tree.writeJson (lib.tree.puts (entries ctx.request))).map fun text =>
        ({ ctx.response.setStatus 200 with fields }.write text, world) := by
  obtain ⟨fields, hr⟩ := (setHeader_contentType (ctx.response.setStatus 200)).2.1
  refine ⟨fields, ?_⟩
  simp only [handleHeaders_content, headersContent_eq, hr, bind, Except.bind]
  cases lib.tree.writeJson (lib.tree.puts (entries ctx.request)) <;> rfl

/-- `handle_headers` returns unless a name is nested below another one that has a value. -/
theorem handleHeaders_ok_iff (h : ctx.request.TokenNames) :
    (∃ result, handleHeaders lib ctx world = .ok result) ↔ ¬ Nested (entries ctx.request) := by
  obtain ⟨r, hr⟩ := handleHeaders_eq lib ctx world
  rw [← lib.tree.writeJson_puts (entries_name_ne_nil h), hr]
  simp only [Except.map_eq_ok_iff]
  constructor
  · intro hok
    obtain ⟨_, text, ht, -⟩ := hok
    exact ⟨text, ht⟩
  · intro hok
    obtain ⟨text, ht⟩ := hok
    exact ⟨_, text, ht, rfl⟩

/-- `handle_status` with a number that is a status gives an empty response with it. -/
theorem handleStatus_number {code : Str} (h : ctx.matches.find "code".toList = some code)
    {v : UInt32} (hv : lib.convertUnsigned code = some v) (hmax : v.toNat ≤ 999) :
    handleStatus lib ctx world = .ok ({ ctx.response with result := v.toNat }, world) := by
  have hat : ctx.matches.at' "code".toList = .ok code := Matches.at'_eq_ok_iff.2 h
  have hset : ctx.response.setResult v.toNat = .ok { ctx.response with result := v.toNat } :=
    if_neg (Nat.not_lt.2 hmax)
  simp only [handleStatus, hat, hv, hset, bind, Except.bind]
  rfl

/-- `handle_status` with another text: the exception for a number that is no status is caught. -/
theorem handleStatus_other {code : Str} (h : ctx.matches.find "code".toList = some code)
    (hmax : ∀ v, lib.convertUnsigned code = some v → 999 < v.toNat) :
    ∃ text, text ≠ [] ∧
      handleStatus lib ctx world = .ok ((ctx.response.setStatus 400).write text, world) := by
  have hat : ctx.matches.at' "code".toList = .ok code := Matches.at'_eq_ok_iff.2 h
  cases hv : lib.convertUnsigned code with
  | none =>
    refine ⟨"status-code is not a number.\n".toList, by decide, ?_⟩
    simp only [handleStatus, hat, hv, bind, Except.bind]
    rfl
  | some v =>
    have hset : ctx.response.setResult v.toNat =
        .error (.invalidArgument "invalid status-code".toList) := if_pos (hmax v hv)
    refine ⟨"invalid status-code".toList ++ ['\n'], by decide, ?_⟩
    simp only [handleStatus, hat, hv, hset, bind, Except.bind]
    rfl

/-- What `handle_status` does with a code: it sets a status, or answers 400 with a text. -/
theorem handleStatus_cases {code : Str} (h : ctx.matches.find "code".toList = some code) :
    (∃ n, n ≤ 999 ∧
        handleStatus lib ctx world = .ok ({ ctx.response with result := n }, world)) ∨
      ∃ text, handleStatus lib ctx world =
        .ok ((ctx.response.setStatus 400).write text, world) := by
  by_cases hv : ∃ v, lib.convertUnsigned code = some v ∧ v.toNat ≤ 999
  · obtain ⟨v, hv, hmax⟩ := hv
    exact .inl ⟨v.toNat, hmax, handleStatus_number h hv hmax⟩
  · have hmax : ∀ v, lib.convertUnsigned code = some v → 999 < v.toNat := fun v hc =>
      Nat.not_le.1 fun hle => hv ⟨v, hc, hle⟩
    obtain ⟨text, -, hother⟩ := handleStatus_other h hmax
    exact .inr ⟨text, hother⟩

/-- `handle_status` returns if there is a code among the matches, whatever text it is. -/
theorem handleStatus_ok {code : Str} (h : ctx.matches.find "code".toList = some code) :
    ∃ result, handleStatus lib ctx world = .ok result := by
  rcases handleStatus_cases h with ⟨n, -, hres⟩ | ⟨text, hres⟩
  · exact ⟨_, hres⟩
  · exact ⟨_, hres⟩

/-- The loop of `handle_bytes` makes as many bytes as it is told to. -/
theorem randomBytes_length (lib : Libraries S W) (n : Nat) (world : W) :
    (randomBytes lib n world).1.length = n := by
  induction n generalizing world with
  | zero => rfl
  | succ n ih =>
    show (randomBytes lib n _).1.length + 1 = n + 1
    rw [ih]

/-- `handle_bytes` with a number that is not too large gives as many bytes of random numbers. -/
theorem handleBytes_number {num : Str} (h : ctx.matches.find "num".toList = some num)
    {v : UInt64} (hv : lib.convertSize num = some v) (hmax : v.toNat ≤ staticBufferMax)
    {response : Response}
    (hset : (ctx.response.setStatus 200).setHeader .octetStream = .ok response) :
    ∃ bytes world', bytes.length = v.toNat ∧
      handleBytes lib ctx world = .ok (response.write bytes, world') := by
  have hat : ctx.matches.at' "num".toList = .ok num := Matches.at'_eq_ok_iff.2 h
  refine ⟨_, (randomBytes lib v.toNat world).2, randomBytes_length lib v.toNat world, ?_⟩
  simp only [handleBytes, hat, hv, if_neg (Nat.not_lt.2 hmax), hset, bind, Except.bind]
  rfl

/-- `handle_bytes` with a text that is no number, or one too large, gives an error text under the
status 400. -/
theorem handleBytes_other {num : Str} (h : ctx.matches.find "num".toList = some num)
    (hmax : ∀ v, lib.convertSize num = some v → staticBufferMax < v.toNat) :
    ∃ text, text ≠ [] ∧
      handleBytes lib ctx world = .ok ((ctx.response.setStatus 400).write text, world) := by
  have hat : ctx.matches.at' "num".toList = .ok num := Matches.at'_eq_ok_iff.2 h
  cases hv : lib.convertSize num with
  | none =>
    refine ⟨"Bytes is not a number.\n".toList, by decide, ?_⟩
    simp only [handleBytes, hat, hv, bind, Except.bind]
    rfl
  | some v =>
    refine ⟨"Bytes limit is ".toList ++ Nat.toDigits 10 staticBufferMax ++ ['\n'], by decide, ?_⟩
    simp only [handleBytes, hat, hv, if_pos (hmax v hv), bind, Except.bind]
    rfl

/-- What `handle_bytes` does with a number: it writes that many bytes, or answers 400 with a
text. -/
theorem handleBytes_cases {num : Str} (h : ctx.matches.find "num".toList = some num)
    {response : Response}
    (hset : (ctx.response.setStatus 200).setHeader .octetStream = .ok response) :
    (∃ bytes world', bytes.length ≤ staticBufferMax ∧
        handleBytes lib ctx world = .ok (response.write bytes, world')) ∨
      ∃ text, handleBytes lib ctx world = .ok ((ctx.response.setStatus 400).write text, world) := by
  by_cases hv : ∃ v, lib.convertSize num = some v ∧ v.toNat ≤ staticBufferMax
  · obtain ⟨v, hv, hmax⟩ := hv
    obtain ⟨bytes, world', hlen, hnumber⟩ := handleBytes_number h hv hmax hset
    exact .inl ⟨bytes, world', hlen ▸ hmax, hnumber⟩
  · have hmax : ∀ v, lib.convertSize num = some v → staticBufferMax < v.toNat := fun v hc =>
      Nat.not_le.1 fun hle => hv ⟨v, hc, hle⟩
    obtain ⟨text, -, hother⟩ := handleBytes_other h hmax
    exact .inr ⟨text, hother⟩

/-- `handle_bytes` returns if there is a number among the matches, whatever text it is. -/
theorem handleBytes_ok {num : Str} (h : ctx.matches.find "num".toList = some num) :
    ∃ result, handleBytes lib ctx world = .ok result := by
  obtain ⟨fields, hset⟩ := (setHeader_contentType (ctx.response.setStatus 200)).2.2
  rcases handleBytes_cases h hset with ⟨bytes, world', -, hres⟩ | ⟨text, hres⟩
  · exact ⟨_, hres⟩
  · exact ⟨_, hres⟩

end

end Gomibako.Main
