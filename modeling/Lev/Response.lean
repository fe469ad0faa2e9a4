import Lev.BufferConcat
import Lev.BufferAccess
import Lev.HttpChunked
import Lev.LuaText
import Lev.TcpWrite
import Lev.Web

/-! The response that web.createServer hands to a request: its three flags, and what it
writes to the client, which may be bottled. -/
namespace Lev.Response
open CInt Slab Memory Buffer Lua HttpChunked TcpWrite

abbrev Fields := List (List UInt8 × List UInt8)

/-- `fields[key] = value` -/
def setField (fields : Fields) (key value : List UInt8) : Fields :=
  if fields.any fun field => field.1 == key then
    fields.map fun field => if field.1 = key then (key, value) else field
  else fields ++ [(key, value)]

/-- `STATUS_CODES` -/
def statusCodes : List (ℕ × String) :=
  [(100, "Continue"), (101, "Switching Protocols"), (102, "Processing"), (200, "OK"),
    (201, "Created"), (202, "Accepted"), (203, "Non-Authoritative Information"),
    (204, "No Content"), (205, "Reset Content"), (206, "Partial Content"),
    (207, "Multi-Status"), (300, "Multiple Choices"), (301, "Moved Permanently"),
    (302, "Moved Temporarily"), (303, "See Other"), (304, "Not Modified"), (305, "Use Proxy"),
    (307, "Temporary Redirect"), (400, "Bad Request"), (401, "Unauthorized"),
    (402, "Payment Required"), (403, "Forbidden"), (404, "Not Found"),
    (405, "Method Not Allowed"), (406, "Not Acceptable"),
    (407, "Proxy Authentication Required"), (408, "Request Time-out"), (409, "Conflict"),
    (410, "Gone"), (411, "Length Required"), (412, "Precondition Failed"),
    (413, "Request Entity Too Large"), (414, "Request-URI Too Large"),
    (415, "Unsupported Media Type"), (416, "Requested Range Not Satisfiable"),
    (417, "Expectation Failed"), (418, "I'm a teapot"), (422, "Unprocessable Entity"),
    (423, "Locked"), (424, "Failed Dependency"), (425, "Unordered Collection"),
    (426, "Upgrade Required"), (500, "Internal Server Error"), (501, "Not Implemented"),
    (502, "Bad Gateway"), (503, "Service Unavailable"), (504, "Gateway Time-out"),
    (505, "HTTP Version not supported"), (506, "Variant Also Negotiates"),
    (507, "Insufficient Storage"), (509, "Bandwidth Limit Exceeded"), (510, "Not Extended")]

/-- A status code is a number, or a string, for which there is no reason phrase. -/
inductive Status
  | number (n : ℕ)
  | text (t : List UInt8)
  deriving DecidableEq, Repr

def Status.toText : Status → List UInt8
  | .number n => if n = 0 then ascii "0" else tostring n
  | .text t => t

def reasonPhrase : Status → List UInt8
  | .number n => ascii ((statusCodes.lookup n).getD "unknown")
  | .text _ => ascii "unknown"

/-- What the closures of a request see besides the response: the text of the date, whether
the request asks for `keep-alive`, the order in which `pairs` goes through a table, what
`string.format` prints of a string for `%s`, and the Buffer `CHUNKED_NO_TRAILER`. -/
structure Env where
  timeHTTP : List UInt8
  keepAlive : Bool
  pairs : Fields → Fields
  format : List UInt8 → List UInt8
  noTrailer : ObjId

def statusText (env : Env) (status : Status) : List UInt8 :=
  ascii "HTTP/1.1 " ++ env.format status.toText ++ ascii " " ++ env.format (reasonPhrase status)

def statusLine (env : Env) (status : Status) : List UInt8 := statusText env status ++ crlf

def headerText (env : Env) (field : List UInt8 × List UInt8) : List UInt8 :=
  env.format field.1 ++ ascii ": " ++ env.format field.2

def headerLine (env : Env) (field : List UInt8 × List UInt8) : List UInt8 :=
  headerText env field ++ crlf

inductive Ending
  | reinit | close
  deriving DecidableEq, Repr

/-- The client and the fields of the response. `bytes` and `inside` are logs of ours: all that
was written to the client, and whether every scratch Buffer lay inside its block. -/
structure State where
  client : TcpWrite.Writer
  headersSent : Bool
  chunkedEncoding : Bool
  bytes : List UInt8
  inside : Bool
  ended : Option Ending

def start (client : TcpWrite.Writer) : State := ⟨client, false, true, [], true, none⟩

/-- The bytes behind the first argument of `client:write`. -/
def chunkBytes (h : Heap) : Chunk → List UInt8
  | .str t => t
  | .buffer ms => ms.contents h

/-- `client:write` -/
def State.send (r : State) (h : Heap) (chunk : Chunk) (flush : Bool) : Option State :=
  (tcpWrite r.client chunk flush).map fun client =>
    { r with client := client, bytes := r.bytes ++ chunkBytes h chunk }

/-- `client:bottle()` unless it is bottled. -/
def State.bottle (r : State) : State :=
  if tcpIsBottled r.client then r else { r with client := tcpBottle r.client }

/-- `_headers`; the argument is in the order `pairs` goes through it. -/
def allFields (env : Env) (headers : Option Fields) : Fields :=
  let fields : Fields := [(ascii "server", ascii "lev"), (ascii "connection", ascii "close"),
    (ascii "content-type", ascii "text/html"), (ascii "date", env.timeHTTP)]
  (headers.getD []).foldl (fun fields field => setField fields (Web.lower field.1) field.2) fields

def hasLength (env : Env) (headers : Option Fields) : Bool :=
  (allFields env headers).any fun field => field.1 == ascii "content-length"

/-- The fields in the order of their lines. -/
def headerFields (env : Env) (headers : Option Fields) : Fields :=
  env.pairs (if hasLength env headers then allFields env headers
    else setField (allFields env headers) (ascii "transfer-encoding") (ascii "chunked"))

/-- `response.writeHead`; `none` is a Lua error. -/
def writeHead (env : Env) (h : Heap) (r : State) (status : Status) (headers : Option Fields) :
    Option State := do
  if r.headersSent then none
  else
    let isBottled := tcpIsBottled r.client
    let r := r.bottle
    let r ← r.send h (.str (statusLine env status)) false
    let r := if hasLength env headers then { r with chunkedEncoding := false } else r
    let r ← (headerFields env headers).foldlM
      (fun r field => r.send h (.str (headerLine env field)) false) r
    let r ← r.send h (.str crlf) (!isBottled)
    return { r with headersSent := true }

/-- `Buffer:new(32)` with the digits of a length, and the slice of it that holds them. -/
def chunkLen (s : Buffer.State) (n : ℕ) : Option (MemSlice × Buffer.State) := do
  let s ← (bufferNew s (.number 32)).toOption
  let o := s.objs.length - 1
  let ms ← s.slice? o
  let (k, h) ← ((bufferWriteHexLower ms (some n) 1).ends s.heap).toOption
  let s ← (bufferSlice { s with heap := h } o 1 k).toOption
  let digits ← s.slice? (s.objs.length - 1)
  return (digits, s)

/-- The argument of `client:write` for a string or a Buffer. -/
def toChunk (s : Buffer.State) : Operand → Option Chunk
  | .str t => some (.str t)
  | .buffer o => (s.slice? o).map .buffer

/-- What `response.write` does behind the headers; it flushes unless the client was
bottled. -/
def sendBody (s : Buffer.State) (r : State) (chunk : Operand) (isBottled : Bool) :
    Option (State × Buffer.State) := do
  let data ← toChunk s chunk
  if r.chunkedEncoding then
    let (digits, s) ← chunkLen s (operandLen s chunk)
    let inside := decide (digits.slice + 32 ≤ (s.heap.blocks digits.mb).size)
    let r := { r with inside := r.inside && inside }
    let r ← r.send s.heap (.buffer digits) false
    let r ← r.send s.heap (.str crlf) false
    let r ← r.send s.heap data false
    let r ← r.send s.heap (.str crlf) (!isBottled)
    return (r, s)
  else
    let r ← r.send s.heap data (!isBottled)
    return (r, s)

/-- `if not response.headers_sent then response.writeHead(200) end` -/
def openHead (env : Env) (h : Heap) (r : State) : Option State :=
  if r.headersSent then some r else writeHead env h r (.number 200) none

/-- `response.write`, on the Buffers there are; `none` is a Lua error. -/
def write (env : Env) (s : Buffer.State) (r : State) (chunk : Operand) :
    Option (State × Buffer.State) := do
  let isBottled := tcpIsBottled r.client
  let r := r.bottle
  let r ← openHead env s.heap r
  sendBody s r chunk isBottled

/-- `response.fin` -/
def fin (env : Env) (s : Buffer.State) (r : State) (chunk : Option Operand) : Option State := do
  let r ← match chunk with
    | some chunk =>
      if r.chunkedEncoding then do
        let r := { r with client := tcpBottle r.client }
        let (r, s) ← write env s r chunk
        r.send s.heap (← toChunk s (.buffer env.noTrailer)) true
      else do r.send s.heap (← toChunk s chunk) true
    | none =>
      if r.chunkedEncoding then do r.send s.heap (← toChunk s (.buffer env.noTrailer)) true
      else some r
  return { r with ended := some (if env.keepAlive then .reinit else .close) }

/-- The Buffers there are when a call is made. `nbytes` is a `size_t`, and the terminator is
among the Buffers, at its length. -/
structure Buffers (env : Env) where
  state : Buffer.State
  sizes : ∀ b, (state.heap.blocks b).nbytes < 2 ^ 64
  trailer : ∃ ms, state.slice? env.noTrailer = some ms ∧ ms.untilLen = 5

/-- An argument of `write` or `fin`: a string, which in Lua is shorter than 2^31, or a Buffer
that is alive. -/
structure Piece (env : Env) extends Buffers env where
  operand : Operand
  bytes : List UInt8
  eq : operandBytes state operand = some bytes
  short : bytes.length < 2 ^ 31

inductive Call (env : Env)
  | writeHead (buffers : Buffers env) (status : Status) (headers : Option Fields)
  | write (piece : Piece env)

inductive Last (env : Env)
  | none (buffers : Buffers env)
  | some (piece : Piece env)

variable {env : Env}

def Call.run (r : State) : Call env → Option State
  | .writeHead buffers status headers =>
    Response.writeHead env buffers.state.heap r status headers
  | .write piece => (Response.write env piece.state r piece.operand).map Prod.fst

def Last.run (r : State) : Last env → Option State
  | .none buffers => fin env buffers.state r Option.none
  | .some piece => fin env piece.state r (Option.some piece.operand)

/-- The calls on a response and the `fin` at their end; `none` is a Lua error. -/
def run (client : TcpWrite.Writer) (calls : List (Call env)) (last : Last env) : Option State :=
  (calls.foldlM Call.run (start client)).bind fun r => last.run r

end Lev.Response
