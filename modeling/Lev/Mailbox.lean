import Lev.Ipc
import Lev.MPackEncode
import Lev.Run

/-! The mailbox of a worker (_worker.lua): messages wait in a queue until the channel to
the master is connected, and replies find their callbacks by the id of the request. -/
namespace Lev.Mailbox
open Slab Memory Lua Ipc Run

/-- The table a message is packed from; an absent field is nil. `sender` is `from`. -/
structure Message where
  cmd : List UInt8
  id : LuaValue
  sender : LuaValue
  key : LuaValue
  p : LuaValue

/-- The table of the fields that are there, in one of the orders `lua_next` may have. -/
def Message.table (m : Message) : LuaValue :=
  .table 0 [] ([("cmd", .string m.cmd), ("id", m.id), ("from", m.sender), ("key", m.key),
    ("p", m.p)].filterMap fun (name, v) =>
      if v.isNil then none else some (.string (ascii name), v))

/-- `mp.pack` of a message in the heap `h`. -/
def mpPack (h : Heap) (m : Message) : Option (List UInt8) :=
  match MPack.msgpackPack h m.table with
  | .ok (ms, h) => some (ms.contents h)
  | .error _ => none

/-- The calls of `mbox`. A callback of `toMaster` is given or not, one of `recvBroadcast`
is named. -/
inductive Call
  | toMaster (cmd : List UInt8) (package : LuaValue) (callback : Bool)
  | sendBroadcast (package key : LuaValue)
  | recvBroadcast (key : List UInt8) (callback : ℕ)

/-- A call of a callback with its argument. `reply r` is the callback of the `r`th request
that came with one. -/
inductive Invocation
  | reply (r : ℕ) (p : LuaValue)
  | broadcast (callback : ℕ) (packet : LuaValue)

/-- What the mailbox runs in: `mp.pack` (see `mpPack`), whose `none` is the error it raises,
the id of the worker, and the calls that the `n`th callback to run makes before it
returns. -/
structure Env where
  pack : Message → Option (List UInt8)
  workerId : LuaValue
  behave : ℕ → List Call

/-- `connecting` says that the callback of `connect` has still to run. The fields from
`greeted` on are logs of ours: whether it ran without an error, the packets written, the
messages that were issued, the messages of requests with a callback, the replies that
arrived with their id, and the callbacks run. -/
structure Worker where
  ipcChannel : Bool
  ipcConnected : Bool
  connecting : Bool
  queue : List Message
  callbacks : List UInt8 → Option ℕ
  callbacksBc : List UInt8 → Option (List ℕ)
  reqId : ℕ
  greeted : Bool
  written : List (List UInt8)
  issued : List Message
  asked : List Message
  replies : List (List UInt8 × LuaValue)
  invoked : List Invocation

def start : Worker :=
  ⟨false, false, false, [], fun _ => none, fun _ => none, 1, false, [], [], [], [], []⟩

namespace Worker

variable (env : Env) (s : Worker)

def hello : Message := ⟨ascii "hello", env.workerId, .nil, .nil, .nil⟩

def ipcConnect : Worker :=
  if s.ipcChannel then s else { s with ipcChannel := true, connecting := true }

/-- `none` is the error of `mp.pack`; the counter is advanced behind it. -/
def sendMsg (pkt : Message) : Option Worker :=
  if s.ipcConnected then
    (env.pack pkt).map fun packed =>
      { s with written := s.written ++ [packed], reqId := s.reqId + 1, issued := s.issued ++ [pkt] }
  else
    let s := { s with queue := s.queue ++ [pkt] }.ipcConnect
    some { s with reqId := s.reqId + 1, issued := s.issued ++ [pkt] }

/-- The callback stays registered when the message cannot be packed. -/
def toMaster (cmd : List UInt8) (package : LuaValue) (callback : Bool) : Worker :=
  let idstr := tostring s.reqId
  let pkt : Message := ⟨cmd, .string idstr, env.workerId, .nil, package⟩
  let s :=
    if callback then
      { s with
        callbacks := Function.update s.callbacks idstr (some s.asked.length)
        asked := s.asked ++ [pkt] }
    else s
  (s.sendMsg env pkt).getD s

def sendBroadcast (package key : LuaValue) : Worker :=
  (s.sendMsg env ⟨ascii "broadcast", .string (tostring s.reqId), env.workerId, key, package⟩).getD s

def recvBroadcast (key : List UInt8) (callback : ℕ) : Worker :=
  { s with
    callbacksBc :=
      Function.update s.callbacksBc key (some ((s.callbacksBc key).getD [] ++ [callback])) }

def doCall : Call → Worker
  | .toMaster cmd package callback => s.toMaster env cmd package callback
  | .sendBroadcast package key => s.sendBroadcast env package key
  | .recvBroadcast key callback => s.recvBroadcast key callback

/-- A callback runs, and returns after the calls it makes. -/
def invoke (inv : Invocation) : Worker :=
  (env.behave s.invoked.length).foldl (doCall env) { s with invoked := s.invoked ++ [inv] }

/-- The loop `for i=1,#callbacks_bc[ pkt_key ]`, of which `n` turns are left. The list may
have grown since the limit was taken. -/
def runCallbacks (key : List UInt8) (packet : LuaValue) : ℕ → ℕ → Worker → Option Worker
  | _, 0, s => some s
  | i, n + 1, s =>
    match ((s.callbacksBc key).getD [])[i]? with
    | none => none
    | some callback =>
      runCallbacks key packet (i + 1) n (s.invoke env (.broadcast callback packet))

/-- The loop that empties the queue; an error of `mp.pack` leaves the rest in it. -/
def drain : List Message → Worker → Worker
  | [], s => { s with queue := [], ipcConnected := true }
  | qi :: queue, s =>
    match env.pack qi with
    | none => { s with queue := queue }
    | some packed => drain queue { s with written := s.written ++ [packed] }

/-- The callback of `connect`. -/
def onConnect (err : Bool) : Worker :=
  let s := { s with connecting := false }
  if err then s
  else
    let s := { s with greeted := true }
    match env.pack (hello env) with
    | none => s
    | some packed => drain env s.queue { s with written := s.written ++ [packed] }

end Worker

/-- The head of `ipc__process_packet`: `packet['p']` is made a table where it is absent, and
gets the file descriptor that came with the packet. -/
def withCmsg (fd : Option ℤ) (type : List UInt8) (packet : LuaValue) : Option LuaValue :=
  match packet with
  | .table id arr hash =>
    let p := lookup (ascii "p") hash
    let p := if truthy p then p else .table 0 [] []
    match fd, p with
    | none, _ => some (.table id arr (setHash (.string (ascii "p")) p hash))
    | some fd, .table i a f =>
      let cmsg : LuaValue := .table 0 []
        [(.string (ascii "fd"), .number (.ofInt fd)), (.string (ascii "type"), .string type)]
      let p : LuaValue := .table i a (setHash (.string (ascii "_cmsg")) cmsg f)
      some (.table id arr (setHash (.string (ascii "p")) p hash))
    | some _, _ => none
  | _ => none

/-- `none` is a Lua error. A command that is not `broadcast` or `reply` is ignored. -/
def ipcProcessPacket (env : Env) (fd : Option ℤ) (type : List UInt8) : Process Worker :=
  fun s h packet _ _ => do
    let packet ← withCmsg fd type packet
    let cmd ← toString h (← index packet "cmd")
    if cmd = ascii "broadcast" then
      let key ← index packet "key"
      if truthy key then
        let pktKey ← toString h key
        match s.callbacksBc pktKey with
        | none => return s
        | some bc => s.runCallbacks env pktKey packet 0 bc.length
      else return s
    else if cmd = ascii "reply" then
      let idstr ← toString h (← index packet "id")
      let p ← index packet "p"
      let s := { s with replies := s.replies ++ [(idstr, p)] }
      match s.callbacks idstr with
      | none => return s
      | some r =>
        let s := s.invoke env (.reply r p)
        return { s with callbacks := Function.update s.callbacks idstr none }
    else return s

/-- What happens to a worker: the program calls `mbox`, the channel connects or fails to,
and a packet is processed, in a heap of any content and from any position of a read. -/
inductive Op
  | call (c : Call)
  | onConnect (err : Bool)
  | packet (h : Heap) (packet : LuaValue) (fd : Option ℤ) (type : List UInt8)

/-- The callback of `connect` runs once for a connect, and an error leaves the state. -/
def next (env : Env) (s : Worker) : Op → Worker
  | .call c => s.doCall env c
  | .onConnect err => if s.connecting then s.onConnect env err else s
  | .packet h packet fd type => (ipcProcessPacket env fd type s h packet 0 ⟨0, 0, 0⟩).getD s

end Lev.Mailbox
