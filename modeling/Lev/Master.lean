import Lev.Mailbox

/-! The master's side of the IPC channel (_master.lua): the pool of connected workers, the
broadcasts forwarded among them, and the listening sockets they share. -/
namespace Lev.Ipc
open Slab Memory Lua

/-- A socket of the bind pool: its descriptor, and whether `uv_tcp_bind` succeeded. -/
structure Socket where
  fd : ℤ
  bound : Bool
  deriving DecidableEq, Repr

/-- A call `c:write(data, fd)`. -/
structure Written where
  data : List UInt8
  fd : Option ℤ
  deriving DecidableEq, Repr

/-- What the master runs in: the text `..` makes of a number, the tables Lua makes, and what
becomes of the `n`th `net_tcp.new()` when it is bound to an address and a port. -/
structure Host where
  numberText : Double → List UInt8
  grants : MPack.Grants
  tcpBind : ℕ → List UInt8 → Double → Socket

/-- Workers are numbered as they were accepted, and `workerPool` gives the `id` field of
each; no field is nil. `worker_pool_by_id` is only ever written to and left out. `running`
ends with the first Lua error. The field `written` is a log of ours. -/
structure Master where
  running : Bool
  bindPool : List (List UInt8 × Socket)
  sockets : ℕ
  workerPool : List (ℕ × LuaValue)
  accepted : ℕ
  written : ℕ → List Written

namespace Master

def start : Master := ⟨true, [], 0, [], 0, fun _ => []⟩

variable (s : Master)

def write (c : ℕ) (data : List UInt8) (fd : Option ℤ) : Master :=
  { s with written := Function.update s.written c (s.written c ++ [⟨data, fd⟩]) }

/-- The callback of `listen`. -/
def onConnection : Master :=
  { s with workerPool := s.workerPool ++ [(s.accepted, .nil)], accepted := s.accepted + 1 }

/-- `worker_pool[ c ]["id"] = id` and `worker_pool_by_id[ id ] = c`. -/
def hello (c : ℕ) (id : LuaValue) : Option Master :=
  match s.workerPool.lookup c with
  | none => none
  | some _ =>
    if id.isNil || id.isNaN then none
    else
      some { s with
        workerPool := s.workerPool.map fun (wc, old) => if wc = c then (wc, id) else (wc, old) }

def replyBound (h : Heap) (c : ℕ) (id : LuaValue) (socket : Socket) : Option Master :=
  (Mailbox.mpPack h ⟨ascii "reply", id, .nil, .nil, .table 0 [] []⟩).map fun packed =>
    s.write c packed (some socket.fd)

/-- A port that came as a string is a Buffer. The pool has no entry for what `..` makes of
it, a new Buffer, and `bind` refuses it. -/
def bind (host : Host) (c : ℕ) (h : Heap) (packet : LuaValue) : Option Master := do
  let p ← index packet "p"
  let type ← toString h (← index p "type")
  let address ← toString h (← index p "address")
  let id ← index packet "id"
  match ← index p "port" with
  | .number port =>
    let bindId := type ++ ascii "|" ++ address ++ ascii "|" ++ host.numberText port
    match s.bindPool.lookup bindId with
    | some socket => s.replyBound h c id socket
    | none =>
      if type = ascii "tcp" then
        let socket := host.tcpBind s.sockets address port
        let s := { s with bindPool := s.bindPool ++ [(bindId, socket)], sockets := s.sockets + 1 }
        s.replyBound h c id socket
      else some s
  | .buffer _ => if type = ascii "tcp" then none else some s
  | _ => none

/-- The loop over `worker_pool`, in one of the orders `pairs` may have. -/
def broadcast (c : ℕ) (h : Heap) (buf : MemSlice) (packetLen : ℕ) :
    List (ℕ × LuaValue) → Master → Option Master
  | [], s => some s
  | (wc, id) :: pool, s =>
    if truthy id && decide (c ≠ wc) then
      match slice h buf 1 packetLen with
      | none => none
      | some (copy, h) => broadcast c h buf packetLen pool (s.write wc (copy.contents h) none)
    else broadcast c h buf packetLen pool s

/-- `client__process_packet` -/
def clientProcessPacket (host : Host) (c : ℕ) : Process Master :=
  fun s h packet packetLen buf => do
    let cmd ← toString h (← index packet "cmd")
    if cmd = ascii "hello" then s.hello c (← index packet "id")
    else if cmd = ascii "bind" then s.bind host c h packet
    else if cmd = ascii "broadcast" then broadcast c h buf packetLen s.workerPool s
    else some s

/-- `client__on_close` -/
def clientOnClose (c : ℕ) : Option Master :=
  match s.workerPool.lookup c with
  | none => none
  | some _ => some { s with workerPool := s.workerPool.filter fun (wc, _) => decide (wc ≠ c) }

/-- What happens to the master: a worker connects, a read of its channel, and the close of
it. -/
inductive Op
  | connection
  | read (c : ℕ) (h : Heap) (buf : MemSlice)
  | close (c : ℕ)

/-- An error of a callback ends the master. -/
def orStop (s : Master) (result : Option Master) : Master :=
  result.getD { s with running := false }

def next (host : Host) (s : Master) (op : Op) : Master :=
  if s.running then
    match op with
    | .connection => s.onConnection
    | .read c h buf =>
      orStop s (onRead host.grants (clientProcessPacket host c) h buf buf.untilLen s)
    | .close c => orStop s (s.clientOnClose c)
  else s

end Master

end Lev.Ipc
