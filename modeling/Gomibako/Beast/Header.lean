import Gomibako.Beast.Fields
import Gomibako.Beast.Lines

/-!
# The octets of a header

`basic_fields::reader`, which a serializer takes the header of a message from, for requests and for
responses, and what a message says of the connection and of its body.
-/

namespace Gomibako.Beast

/-! ## Methods and statuses -/

/-- `to_string` of a `verb`: the text that the method has in the request line. Reference:
`verb_to_string` (`verb.ipp:26`). -/
def Verb.toText (v : Verb) : Str :=
  ((Verb.texts.find? fun p => p.2 = v).map (·.1.toList)).getD "<unknown>".toList

/-- The reasons of the statuses that have a name, in the order of the source. -/
def statusReasons : List (Nat × String) :=
  [(100, "Continue"), (101, "Switching Protocols"), (102, "Processing"), (200, "OK"),
    (201, "Created"), (202, "Accepted"), (203, "Non-Authoritative Information"),
    (204, "No Content"), (205, "Reset Content"), (206, "Partial Content"), (207, "Multi-Status"),
    (208, "Already Reported"), (226, "IM Used"), (300, "Multiple Choices"),
    (301, "Moved Permanently"), (302, "Found"), (303, "See Other"), (304, "Not Modified"),
    (305, "Use Proxy"), (307, "Temporary Redirect"), (308, "Permanent Redirect"),
    (400, "Bad Request"), (401, "Unauthorized"), (402, "Payment Required"), (403, "Forbidden"),
    (404, "Not Found"), (405, "Method Not Allowed"), (406, "Not Acceptable"),
    (407, "Proxy Authentication Required"), (408, "Request Timeout"), (409, "Conflict"),
    (410, "Gone"), (411, "Length Required"), (412, "Precondition Failed"),
    (413, "Payload Too Large"), (414, "URI Too Long"), (415, "Unsupported Media Type"),
    (416, "Range Not Satisfiable"), (417, "Expectation Failed"), (421, "Misdirected Request"),
    (422, "Unprocessable Entity"), (423, "Locked"), (424, "Failed Dependency"),
    (426, "Upgrade Required"), (428, "Precondition Required"), (429, "Too Many Requests"),
    (431, "Request Header Fields Too Large"), (444, "Connection Closed Without Response"),
    (451, "Unavailable For Legal Reasons"), (499, "Client Closed Request"),
    (500, "Internal Server Error"), (501, "Not Implemented"), (502, "Bad Gateway"),
    (503, "Service Unavailable"), (504, "Gateway Timeout"), (505, "HTTP Version Not Supported"),
    (506, "Variant Also Negotiates"), (507, "Insufficient Storage"), (508, "Loop Detected"),
    (510, "Not Extended"), (511, "Network Authentication Required"),
    (599, "Network Connect Timeout Error")]

/-- `obsolete_reason`: the reason that is written for a status, which one without a name has too.
Reference: `obsolete_reason` (`status.ipp:235`). -/
def obsoleteReason (v : Nat) : Str :=
  ((statusReasons.find? fun p => p.1 = v).map (·.2.toList)).getD "<unknown-status>".toList

/-! ## Headers -/

/-- A digit of a version or of a status; a `char` has eight bits. -/
def digit (n : Nat) : Char := Char.ofNat ((48 + n) % 256)

/-- The octets of a version in a start line, a digit for each of its two parts. -/
def versionText (version : Nat) : Str :=
  "HTTP/".toList ++ [digit (version / 10), '.', digit (version % 10)]

/-- `buffer` of an element: the field with its line end. -/
def Field.buffer (f : Field) : Str := f.name ++ ": ".toList ++ f.value ++ crlf

/-- The fields in their order, each with its line end, and the empty line behind them. -/
def Fields.text (fs : Fields) : Str := fs.flatMap Field.buffer ++ crlf

/-- The target as it is stored, with a space in front of it. Reference:
`basic_fields::set_target_impl` (`fields.ipp:954`). -/
def Request.targetText (m : Request) : Str := if m.target = [] then [] else ' ' :: m.target

/-- The text of the method: that of the verb, or the one that was set where the verb is not known.
Reference: `basic_fields::get_method_impl` (`fields.ipp:878`). -/
def Request.methodText (m : Request) : Str :=
  if m.method = .unknown then m.methodString else m.method.toText

/-- `reader` of the header of a request: the method, the target and the version with their line end,
and the fields. Reference: `basic_fields::reader` (`fields.ipp:190`). -/
def Request.header (m : Request) : Str :=
  m.methodText ++ m.targetText ++ ' ' :: versionText m.version ++ crlf ++ m.fields.text

/-- The digits of a status, as the writer makes them; there are three places for them. -/
def statusText (code : Nat) : Str := [digit (code / 100), digit (code / 10 % 10), digit (code % 10)]

/-- The reason of a response, which is by its status if it has none of its own. Reference:
`basic_fields::get_reason_impl` (`fields.ipp:900`). -/
def Response.reasonText (r : Response) : Str :=
  if r.reason = [] then obsoleteReason r.result else r.reason

/-- `reader` of the header of a response: the version, the status and the reason with their line
end, and the fields. Reference: `basic_fields::reader` (`fields.ipp:232`). -/
def Response.header (r : Response) : Str :=
  versionText r.version ++ ' ' :: statusText r.result ++ ' ' :: r.reasonText ++ crlf ++
    r.fields.text

namespace Fields

/-- `operator[]`: the value of the first field of the name. Reference: `basic_fields::operator[]`
(`fields.ipp:507`). -/
def get (fs : Fields) (name : Str) : Str := ((fs.find name).map Field.value).getD []

/-- `get_chunked_impl`: the last coding of the message is `chunked`. Reference:
`basic_fields::get_chunked_impl` (`fields.ipp:908`). -/
def chunked (fs : Fields) : Bool :=
  (tokenList (fs.get "Transfer-Encoding".toList)).getLast?.any fun s => iequals s "chunked".toList

/-- `get_keep_alive_impl`: from version 1.1 on a connection is kept unless a token of the Connection
says `close`, and before only if one says `keep-alive`. Reference:
`basic_fields::get_keep_alive_impl` (`fields.ipp:925`). -/
def keepAlive (fs : Fields) (version : Nat) : Bool :=
  match fs.find "Connection".toList with
  | none => decide (11 ≤ version)
  | some f =>
    if version < 11 then (tokenList f.value).any (iequals "keep-alive".toList)
    else !(tokenList f.value).any (iequals "close".toList)

end Fields

end Gomibako.Beast
