import Lev.CInt
import Lev.LuaValue
import Lev.MPackFormat

/-! The decoder of lev_mpack.c: `mprbuf_unpack_anytype` over an explicit Lua stack, and
`msgpack_unpack_api`. A failed read sets `err` and pushes nothing, so what a caller
finds on the stack is part of the state. Which tables Lua makes is a parameter. The Lua
stack and the C stack are taken to be large enough. -/
namespace Lev.MPack
open CInt Endian Slab Memory Lua

/-- `undefined` is a table access to something that is no table; the next two are the
Lua errors of `lua_rawset`, `refused` is the one of `lua_createtable`. `outOfFuel` never
happens in `msgpackUnpack`. -/
inductive Fault
  | undefined | indexNil | indexNaN | refused | outOfFuel
  deriving DecidableEq, Repr

/-- Whether Lua makes the table that is asked for last, after the others of the same call:
how many elements and how many pairs it is to have room for. -/
abbrev Grants := List (ℤ × ℤ) → Bool

/-- The largest array part and the largest hash part of LuaJIT. -/
def luajitGrants : Grants
  | [] => true
  | (narr, nrec) :: _ => decide (narr ≤ 2 ^ 27 ∧ 0 ≤ nrec ∧ nrec ≤ 2 ^ 26)

/-- `mb` is NULL in a reader of plain memory. `base` is where `data` starts in `mb`. -/
structure Mprbuf where
  mb : Option BlockId
  base : ℕ
  data : List UInt8
  ofs : ℕ
  err : Bool
  mapKeying : Bool

/-- One `lua_rawset` or `lua_rawseti`: the table it acted on, the table of the call it
was made by, and whether its key was read in the same turn of the loop. -/
structure Rawset where
  target : ℕ
  own : ℕ
  keyOwn : Bool
  deriving DecidableEq, Repr

/-- The reader, the heap and the Lua stack, its top first. `tables` are the sizes of the
tables made; `loads` (offset and length) and `rawsets` are logs of ours. The last entry
comes first. -/
structure Machine extends Mprbuf where
  heap : Heap
  stack : List LuaValue
  tables : List (ℤ × ℤ)
  loads : List (ℕ × ℕ)
  rawsets : List Rawset

/-- What follows a tag byte; a count is in the tag or behind it. -/
inductive Tag
  | single
  | scalar (s : Scalar)
  | raw (w : Width) (inTag : ℕ)
  | array (w : Width) (inTag : ℕ)
  | map (w : Width) (inTag : ℕ)
  | reserved
  deriving DecidableEq, Repr

/-- The tests and the switch of `mprbuf_unpack_anytype`, in its order. -/
def tagOf (t : UInt8) : Tag :=
  if t < 0x80 then .single
  else if 0x80 ≤ t ∧ t ≤ 0x8f then .map .fix (t &&& 0xf).toNat
  else if 0x90 ≤ t ∧ t ≤ 0x9f then .array .fix (t &&& 0xf).toNat
  else if 0xa0 ≤ t ∧ t ≤ 0xbf then .raw .fix (t &&& 0x1f).toNat
  else if 0xdf < t then .single
  else if t = 0xc0 ∨ t = 0xc2 ∨ t = 0xc3 then .single
  else if t = 0xca then .scalar .float
  else if t = 0xcb then .scalar .double
  else if t = 0xcc then .scalar .uint8
  else if t = 0xcd then .scalar .uint16
  else if t = 0xce then .scalar .uint32
  else if t = 0xcf then .scalar .uint64
  else if t = 0xd0 then .scalar .int8
  else if t = 0xd1 then .scalar .int16
  else if t = 0xd2 then .scalar .int32
  else if t = 0xd3 then .scalar .int64
  else if t = 0xda then .raw .two 0
  else if t = 0xdb then .raw .four 0
  else if t = 0xdc then .array .two 0
  else if t = 0xdd then .array .four 0
  else if t = 0xde then .map .two 0
  else if t = 0xdf then .map .four 0
  else .reserved

/-- The value pushed for a tag byte that is a value by itself. -/
def singleValue (t : UInt8) : LuaValue :=
  if t < 0x80 then .number (.ofInt t.toNat)
  else if 0xdf < t then .number (.ofInt ((256 - (t.toNat : ℤ)) * -1))
  else if t = 0xc0 then .nil
  else .boolean (t == 0xc3)

/-- The number `n` of `k` bytes as a signed type. -/
def signed (k n : ℕ) : ℤ := if n < 2 ^ (8 * k - 1) then n else (n : ℤ) - 2 ^ (8 * k)

namespace Scalar

/-- The number pushed for a payload. The tags 0xce and 0xd2 load a `long`, of which
`ntohl` keeps the four bytes that were checked for. -/
def value (s : Scalar) (p : List UInt8) : Double :=
  match s with
  | .float => .ofFloatBits (leNat p.reverse)
  | .double => .ofBits (leNat p.reverse)
  | .uint8 => .ofInt (leNat p)
  | .uint16 => .ofInt (ntohs (leNat p))
  | .uint32 => .ofInt (ntohl (leNat p))
  | .uint64 => .ofInt (ntohll (leNat p))
  | .int8 => .ofInt (signed 1 (leNat p))
  | .int16 => .ofInt (signed 2 (ntohs (leNat p)))
  | .int32 => .ofInt (signed 4 (ntohl (leNat p)))
  | .int64 => .ofInt (signed 8 (ntohll (leNat p)))

def loadSize : Scalar → ℕ
  | .uint32 => 8
  | .int32 => 8
  | s => s.size

end Scalar

namespace Machine

def left (m : Machine) : ℕ := m.data.length - m.ofs

def fail (m : Machine) : Machine := { m with err := true }

def push (m : Machine) (v : LuaValue) : Machine := { m with stack := v :: m.stack }

def advance (m : Machine) (n : ℕ) : Machine := { m with ofs := m.ofs + n }

def load (m : Machine) (n : ℕ) : Machine := { m with loads := (m.ofs, n) :: m.loads }

def keying (m : Machine) (k : Bool) : Machine := { m with mapKeying := k }

def peek (m : Machine) (n : ℕ) : List UInt8 := (m.data.drop m.ofs).take n

def readCount (m : Machine) (inTag : ℕ) : Width → ℕ
  | .fix => inTag
  | .two => ntohs (leNat (m.peek 2))
  | .four => ntohl (leNat (m.peek 4))

/-- `lua_pushlstring` copies, `lev_pushbuffer_from_mb` makes a window onto the block. -/
def pushString (m : Machine) (slen : ℕ) : Machine :=
  match m.mb with
  | some mb =>
    if m.mapKeying then (m.load slen).push (.string (m.peek slen))
    else
      let (ms, h) := levPushbufferFromMb m.heap mb slen (some (m.base + m.ofs))
      { m with heap := h }.push (.buffer ms)
  | none => (m.load slen).push (.string (m.peek slen))

def unpackRaw (m : Machine) (w : Width) (inTag : ℕ) : Machine :=
  if m.left < w.size then m.fail
  else
    let slen := m.readCount inTag w
    let m := (m.load w.size).advance w.size
    if m.left < slen then m.fail else (m.pushString slen).advance slen

def created (m : Machine) : ℕ := m.tables.length

def newtable (m : Machine) (narr nrec : ℤ) : Machine :=
  { m with stack := .table m.created [] [] :: m.stack, tables := (narr, nrec) :: m.tables }

/-- `lua_createtable`, which raises an error where there can be no such table. -/
def createtable (grants : Grants) (m : Machine) (narr nrec : ℤ) : Except Fault Machine :=
  if grants ((narr, nrec) :: m.tables) then .ok (m.newtable narr nrec) else .error .refused

/-- `lua_rawseti(L, -2, i)`, made by the call that created table `own`. -/
def rawseti (m : Machine) (own i : ℕ) : Except Fault Machine :=
  match m.stack with
  | v :: .table id arr hash :: st =>
    let (arr, hash) := Lua.rawseti arr hash i v
    .ok { m with
      stack := .table id arr hash :: st
      rawsets := ⟨id, own, true⟩ :: m.rawsets }
  | _ => .error .undefined

/-- `lua_rawset(L, -3)`, made by the call that created table `own`. -/
def rawset (m : Machine) (own : ℕ) (keyOwn : Bool) : Except Fault Machine :=
  match m.stack with
  | v :: k :: .table id arr hash :: st =>
    if k.isNil then .error .indexNil
    else if k.isNaN then .error .indexNaN
    else
      let (arr, hash) := Lua.rawset arr hash k v
      .ok { m with
        stack := .table id arr hash :: st
        rawsets := ⟨id, own, keyOwn⟩ :: m.rawsets }
  | _ => .error .undefined

end Machine

/-- The loop of `mprbuf_unpack_array`, with `n` elements to go. -/
def arrayLoop (elem : Machine → Except Fault Machine) (own : ℕ) :
    ℕ → ℕ → Machine → Except Fault Machine
  | _, 0, m => .ok m
  | i, n + 1, m => do
    let m ← elem m
    if m.err then return m
    let m ← m.rawseti own (i + 1)
    arrayLoop elem own (i + 1) n m

def mprbufUnpackArray (grants : Grants) (elem : Machine → Except Fault Machine) (arylen : ℤ)
    (m : Machine) : Except Fault Machine := do
  let m' ← m.createtable grants arylen 0
  arrayLoop elem m.created 0 arylen.toNat m'

/-- Whether the stack slot below the top, after the value was read, holds the key that
left the state `m`. -/
def keyOwn (m m' : Machine) : Bool := !m.err && m'.stack.length == m.stack.length + 1

/-- The loop of `mprbuf_unpack_map`; it does not look at `err`. -/
def mapLoop (elem : Machine → Except Fault Machine) (own : ℕ) :
    ℕ → Machine → Except Fault Machine
  | 0, m => .ok m
  | n + 1, m => do
    let m ← elem (m.keying true)
    let m' ← elem (m.keying false)
    let m ← m'.rawset own (keyOwn m m')
    mapLoop elem own n m

def mprbufUnpackMap (grants : Grants) (elem : Machine → Except Fault Machine) (maplen : ℤ)
    (m : Machine) : Except Fault Machine := do
  let m' ← m.createtable grants 0 maplen
  mapLoop elem m.created maplen.toNat m'

/-- `mprbuf_unpack_anytype`; the fuel bounds the nesting. -/
def mprbufUnpackAnytype (grants : Grants) : ℕ → Machine → Except Fault Machine
  | 0, _ => .error .outOfFuel
  | fuel + 1, m =>
    if m.left < 1 then .ok m.fail
    else
      let t := m.data.getD m.ofs 0
      let m := (m.load 1).advance 1
      match tagOf t with
      | .single => .ok (m.push (singleValue t))
      | .scalar s =>
        if m.left < s.size then .ok m.fail
        else .ok (((m.load s.loadSize).push (.number (s.value (m.peek s.size)))).advance s.size)
      | .raw w inTag => .ok (m.unpackRaw w inTag)
      | .array w inTag =>
        if m.left < w.size then .ok m.fail
        else
          mprbufUnpackArray grants (mprbufUnpackAnytype grants fuel)
            (toInt (m.readCount inTag w)) ((m.load w.size).advance w.size)
      | .map w inTag =>
        if m.left < w.size then .ok m.fail
        else
          mprbufUnpackMap grants (mprbufUnpackAnytype grants fuel)
            (toInt (m.readCount inTag w)) ((m.load w.size).advance w.size)
      | .reserved => .ok m.fail

/-- `lua_replace(L, -i)`: the top is popped and stored at the index it was given. -/
def luaReplace (i : ℕ) : List LuaValue → List LuaValue
  | [] => []
  | v :: st => st.set (i - 2) v

/-- The reader `mprbuf_mb_init` sets up, over the frame of the C function. -/
def unpackStart (h : Heap) (ms : MemSlice) : Machine where
  mb := some ms.mb
  base := ms.slice
  data := ms.contents h
  ofs := 0
  err := false
  mapKeying := false
  heap := h
  stack := [.number (.ofInt (-123456)), .buffer ms]
  tables := []
  loads := []
  rawsets := []

def unpackRun (grants : Grants) (h : Heap) (ms : MemSlice) : Except Fault Machine :=
  mprbufUnpackAnytype grants (ms.untilLen + 1) (unpackStart h ms)

/-- The values `msgpack_unpack_api` returns. -/
def unpackResults (m : Machine) : List LuaValue :=
  let st :=
    if 0 < m.ofs ∧ m.err = false then luaReplace 3 (.number (.ofInt m.ofs) :: m.stack)
    else luaReplace 2 (.nil :: luaReplace 3 (.nil :: m.stack))
  (st.take 2).reverse

def msgpackUnpack (grants : Grants) (h : Heap) (ms : MemSlice) :
    Except Fault (List LuaValue × Heap) :=
  if ms.untilLen = 0 then .ok ([.nil], h)
  else do
    let m ← unpackRun grants h ms
    return (unpackResults m, m.heap)

end Lev.MPack
