import Lev.Buffer
import Lev.LuaText
import Lev.MPackDecode

/-! What the two ends of the IPC channel, _master.lua and _worker.lua, share: how they
look at a decoded packet, and the loop of their read callbacks. -/
namespace Lev.Ipc
open CInt Slab Memory Lua MPack

def truthy : LuaValue → Bool
  | .nil => false
  | .boolean b => b
  | _ => true

/-- `rawget` of a string key. -/
def lookup (name : List UInt8) : List (LuaValue × LuaValue) → LuaValue
  | [] => .nil
  | (k, v) :: hash => if k.rawequal (.string name) then v else lookup name hash

/-- `v.name`; `none` is a Lua error. A decoded packet is a table or no packet. -/
def index (v : LuaValue) (name : String) : Option LuaValue :=
  match v with
  | .table _ _ hash => some (lookup (ascii name) hash)
  | _ => none

/-- `v:toString()`, a method of Buffers; `none` is a Lua error. -/
def toString (h : Heap) : LuaValue → Option (List UInt8)
  | .buffer ms => some (ms.contents h)
  | _ => none

/-- `buf:slice(i, j)`, a new Buffer beside `buf`. -/
def slice (h : Heap) (buf : MemSlice) (i j : ℤ) : Option (MemSlice × Heap) :=
  match Buffer.bufferSlice ⟨h, none, [some buf], []⟩ 0 i j with
  | .ok s => (s.slice? 1).map fun ms => (ms, s.heap)
  | .error _ => none

/-- `len, packet = mp.unpack(buf)`; `none` where `len` is nil, which the callers add to
a number. -/
def unpack (grants : Grants) (h : Heap) (buf : MemSlice) : Option (ℕ × LuaValue × Heap) :=
  match msgpackUnpack grants h buf with
  | .ok ([.number n, packet], h) => n.toInt?.map fun len => (len.toNat, packet, h)
  | _ => none

/-- `ipc__process_packet` or `client__process_packet` on its packet, the length of the
packet and the Buffer it is at the start of. -/
abbrev Process (σ : Type) := σ → Heap → LuaValue → ℕ → MemSlice → Option σ

/-- The read callback behind `at = 0`: a packet is unpacked and processed, and while there
are bytes left `buf` becomes what follows it. The fuel bounds the packets; each takes a
byte. `none` is a Lua error. -/
def readLoop {σ : Type} (grants : Grants) (process : Process σ) :
    ℕ → ℕ → ℕ → Heap → MemSlice → σ → Option σ
  | 0, _, _, _, _, _ => none
  | fuel + 1, at_, nread, h, buf, s =>
    match unpack grants h buf with
    | none => none
    | some (len, packet, h) =>
      let at_ := at_ + len
      match process s h packet len buf with
      | none => none
      | some s =>
        if at_ < nread then
          match slice h buf (len + 1) 0 with
          | none => none
          | some (buf, h) => readLoop grants process fuel at_ nread h buf s
        else some s

/-- `ipc__on_read` and `client__on_read`. -/
def onRead {σ : Type} (grants : Grants) (process : Process σ) (h : Heap) (buf : MemSlice)
    (nread : ℕ) (s : σ) : Option σ :=
  readLoop grants process (nread + 1) 0 nread h buf s

end Lev.Ipc
