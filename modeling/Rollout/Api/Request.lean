import Rollout.Cluster.Error
import Rollout.Json.Reader
/-!
Requests to a server and its answers.
-/

namespace Rollout

inductive Method where
  | get
  | post
  | patch
  | delete
  deriving DecidableEq

def Method.text : Method → String
  | get => "GET"
  | post => "POST"
  | patch => "PATCH"
  | delete => "DELETE"

namespace FormText

def isPlain (b : UInt8) : Bool :=
  let c := Char.ofNat b.toNat
  b < 0x80 && (c.isAlphanum || c = '*' || c = '-' || c = '.' || c = '_')

def hexDigit (n : Nat) : Char := (Nat.digitChar n).toUpper

def encodeByte (b : UInt8) : List Char :=
  if isPlain b then [Char.ofNat b.toNat]
  else if b = 0x20 then ['+']
  else ['%', hexDigit (b.toNat / 16), hexDigit (b.toNat % 16)]

/-- A text as a form writes it: letters, digits and a few marks as they are, a plus for a
space, and bytes in hexadecimal for all else. -/
def encode (s : String) : String := String.ofList (s.toUTF8.toList.flatMap encodeByte)

end FormText

structure Request where
  method : Method
  /-- The path, and after a question mark the query. -/
  target : String
  body : String := ""
  deriving DecidableEq

namespace Request

/-- A query, each of its pairs after an ampersand. -/
def query (pairs : List (String × String)) : String :=
  "?" ++ String.join (pairs.map fun (k, v) => s!"&{FormText.encode k}={FormText.encode v}")

def isQueryChar (c : Char) : Bool :=
  '!' ≤ c && c ≠ '"' && c ≠ '#' && c ≠ '<' && c ≠ '>'

def isPathChar (c : Char) : Bool := c = '"' || (isQueryChar c && c ≠ '?' && c ≠ '\x60')

def cut (mark : Char) (cs : List Char) : List Char × List Char :=
  (cs.takeWhile (· ≠ mark), cs.dropWhile (· ≠ mark))

/-- The target without a part that names a place inside what is answered. -/
def sent (r : Request) : List Char := (cut '#' r.target.toList).1

def path (r : Request) : String := String.ofList (cut '?' r.sent).1

def isValid (r : Request) : Bool :=
  let (path, query) := cut '?' r.sent
  path.all isPathChar && query.all isQueryChar

/-- The method and the path, which tell requests apart. -/
def line (r : Request) : String := r.method.text ++ " " ++ r.path

def text (r : Request) : String :=
  let body := if r.body.isEmpty then "" else " " ++ r.body
  r.method.text ++ " " ++ String.ofList r.sent ++ body

end Request

structure Response where
  status : Nat
  body : String
  deriving DecidableEq

namespace Response

/-- What the codes of failures mean. -/
def reasons : List (Nat × String) :=
  [(400, "Bad Request"), (401, "Unauthorized"), (402, "Payment Required"), (403, "Forbidden"),
    (404, "Not Found"), (405, "Method Not Allowed"), (406, "Not Acceptable"),
    (407, "Proxy Authentication Required"), (408, "Request Timeout"), (409, "Conflict"),
    (410, "Gone"), (411, "Length Required"), (412, "Precondition Failed"),
    (413, "Payload Too Large"), (414, "URI Too Long"), (415, "Unsupported Media Type"),
    (416, "Range Not Satisfiable"), (417, "Expectation Failed"), (418, "I'm a teapot"),
    (421, "Misdirected Request"), (422, "Unprocessable Entity"), (423, "Locked"),
    (424, "Failed Dependency"), (425, "Too Early"), (426, "Upgrade Required"),
    (428, "Precondition Required"), (429, "Too Many Requests"),
    (431, "Request Header Fields Too Large"), (451, "Unavailable For Legal Reasons"),
    (500, "Internal Server Error"), (501, "Not Implemented"), (502, "Bad Gateway"),
    (503, "Service Unavailable"), (504, "Gateway Timeout"), (505, "HTTP Version Not Supported"),
    (506, "Variant Also Negotiates"), (507, "Insufficient Storage"), (508, "Loop Detected"),
    (510, "Not Extended"), (511, "Network Authentication Required")]

def statusText (status : Nat) : String :=
  let reason := (reasons.lookup status).getD "<unknown status code>"
  s!"{status} {reason}"

def isFailure (r : Response) : Bool := 400 ≤ r.status && r.status < 600

/-- The fault that a body tells of. -/
def fault? (body : Value) : Option ApiFault := do
  let text := fun (k : String) => match body.field? k with
    | none => some ""
    | some v => v.text?
  match body.field? "code" with
  | some (.number (.whole n)) =>
    if n < 0 ∨ Nat.pow 2 16 ≤ n then none
    else
      return { status := ← body.fieldText? "status", message := ← text "message"
               reason := ← text "reason", code := n.toNat }
  | _ => none

/-- The fault of a failure; a body that tells of none is the message itself. -/
def fault (r : Response) : ApiFault :=
  match (Value.ofJson? r.body).bind fault? with
  | some f => f
  | none =>
    { status := statusText r.status, message := Text.quoted r.body
      reason := "Failed to parse error data", code := r.status }

end Response

end Rollout
