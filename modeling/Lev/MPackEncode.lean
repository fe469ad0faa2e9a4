import Lev.CInt
import Lev.LuaValue

/-! The encoder of lev_mpack.c: `mpwbuf_pack_anytype` over the static buffer
`g_mpwbuf`, and `msgpack_pack_api`. -/
namespace Lev.MPack
open CInt Endian Slab Memory Lua

def errorbitBufnoleft : ℕ := 1
def errorbitStringlen : ℕ := 2
def errorbitTypeLightuserdata : ℕ := 4
def errorbitTypeFunction : ℕ := 8
def errorbitTypeUserdata : ℕ := 16
def errorbitTypeThread : ℕ := 32
def errorbitTypeUnknown : ℕ := 64

/-- `data` holds the bytes `data[0 .. used - 1]`. -/
structure Mpwbuf where
  data : List UInt8
  err : ℕ
  deriving DecidableEq, Repr

namespace Mpwbuf

def capacity : ℕ := 1024 * 1024

def init : Mpwbuf := ⟨[], 0⟩

def left (b : Mpwbuf) : ℕ := capacity - b.data.length

def fail (bit : ℕ) (b : Mpwbuf) : ℕ × Mpwbuf := (0, { b with err := b.err ||| bit })

end Mpwbuf

/-- A packing function returns how many bytes it wrote. -/
abbrev Pack := Mpwbuf → ℕ × Mpwbuf

def mpwbufAppend (toadd : List UInt8) : Pack := fun b =>
  if b.err ≠ 0 then (0, b)
  else if b.left < toadd.length then b.fail errorbitBufnoleft
  else (toadd.length, { b with data := b.data ++ toadd })

def Pack.nothing : Pack := fun b => (0, b)

/-- `wl = p(b); wl += q(b)` -/
def Pack.andThen (p q : Pack) : Pack := fun b =>
  let (wl, b) := p b
  let (wl', b) := q b
  (wl + wl', b)

def mpwbufPackNil : Pack := mpwbufAppend [0xc0]

def mpwbufPackBoolean (i : Bool) : Pack := mpwbufAppend [if i then 0xc3 else 0xc2]

/-- `(long long)n` of an integral double; x86-64 gives the least one for a number that
does not fit. -/
def castLongLong (z : ℤ) : ℤ := if -2 ^ 63 ≤ z ∧ z < 2 ^ 63 then z else -2 ^ 63

/-- The branch `floor(n) == n` of `mpwbuf_pack_number`. -/
def integerBytes (lv : ℤ) : List UInt8 :=
  let bits := toSizeT lv
  if 0 ≤ lv then
    if lv < 128 then [UInt8.ofNat bits]
    else if lv < 256 then [0xcc, UInt8.ofNat bits]
    else if lv < 65536 then 0xcd :: leBytes 2 (htons bits)
    else if lv < 4294967296 then 0xce :: leBytes 4 (htonl bits)
    else 0xcf :: leBytes 8 (htonll bits)
  else
    if -32 ≤ lv then [0xe0 ||| UInt8.ofNat bits]
    else if -128 ≤ lv then [0xd0, UInt8.ofNat bits]
    else if -32768 ≤ lv then 0xd1 :: leBytes 2 (htons (bits % 2 ^ 16))
    else if -2147483648 ≤ lv then 0xd2 :: leBytes 4 (htonl (bits % 2 ^ 32))
    else 0xd3 :: leBytes 8 (htonll bits)

def mpRcopy (src : List UInt8) : List UInt8 := src.reverse

def numberBytes (n : Double) : List UInt8 :=
  if n.isinf then
    if n.negative then [0xcb, 0xff, 0xf0, 0, 0, 0, 0, 0, 0]
    else [0xcb, 0x7f, 0xf0, 0, 0, 0, 0, 0, 0]
  else if n.isnan then [0xcb, 0xff, 0xf8, 0, 0, 0, 0, 0, 0]
  else
    match n.toInt? with
    | some z => integerBytes (castLongLong z)
    | none => 0xcb :: mpRcopy (leBytes 8 n.bits)

def mpwbufPackNumber (n : Double) : Pack := mpwbufAppend (numberBytes n)

def mpwbufPackString (s : List UInt8) : Pack :=
  if s.length < 32 then
    (mpwbufAppend [0xa0 ||| UInt8.ofNat s.length]).andThen (mpwbufAppend s)
  else if s.length < 65536 then
    ((mpwbufAppend [0xda]).andThen (mpwbufAppend (leBytes 2 (htons s.length)))).andThen
      (mpwbufAppend s)
  else if s.length < 4294967296 - 1 then
    ((mpwbufAppend [0xdb]).andThen (mpwbufAppend (leBytes 4 (htonl s.length)))).andThen
      (mpwbufAppend s)
  else Mpwbuf.fail errorbitStringlen

/-- The header of a table with `l` elements or pairs. A longer one has none. -/
def packHeader (fix tag16 tag32 : UInt8) (l : ℕ) : Pack :=
  if l < 16 then mpwbufAppend [fix ||| UInt8.ofNat l]
  else if l < 65536 then
    (mpwbufAppend [tag16]).andThen (mpwbufAppend (leBytes 2 (htons l)))
  else if l < 4294967296 - 1 then
    (mpwbufAppend [tag32]).andThen (mpwbufAppend (leBytes 4 (htonl l)))
  else Pack.nothing

def foreignBit : Foreign → ℕ
  | .lightuserdata => errorbitTypeLightuserdata
  | .function => errorbitTypeFunction
  | .userdata => errorbitTypeUserdata
  | .thread => errorbitTypeThread
  | .unknown => errorbitTypeUnknown

mutual

/-- `mpwbuf_pack_anytype` and, at tables, `mpwbuf_pack_table`. -/
def mpwbufPackAnytype (h : Heap) : LuaValue → Pack
  | .nil => mpwbufPackNil
  | .boolean iv => mpwbufPackBoolean iv
  | .number nv => mpwbufPackNumber nv
  | .string s => mpwbufPackString s
  | .table _ arr hash =>
    if 0 < arr.length then
      (packHeader 0x90 0xdc 0xdd arr.length).andThen (packElems h (toInt arr.length).toNat arr)
    else (packHeader 0x80 0xde 0xdf hash.length).andThen (packPairs h hash)
  | .buffer ms => mpwbufPackString (ms.contents h)
  | .foreign t => Mpwbuf.fail (foreignBit t)

/-- The loop over the elements 1 to `(int)l`. -/
def packElems (h : Heap) : ℕ → List LuaValue → Pack
  | n + 1, v :: arr => (mpwbufPackAnytype h v).andThen (packElems h n arr)
  | _, _ => Pack.nothing

def packPairs (h : Heap) : List (LuaValue × LuaValue) → Pack
  | [] => Pack.nothing
  | (k, v) :: hash =>
    ((mpwbufPackAnytype h k).andThen (mpwbufPackAnytype h v)).andThen (packPairs h hash)

end

/-- The Lua error of a failed call, or the crash on a NULL block. -/
inductive PackError
  | error (msg : String)
  | nullBlock
  deriving DecidableEq, Repr

def errmsg (err : ℕ) : String :=
  if err &&& errorbitBufnoleft ≠ 0 then "no buffer left"
  else if err &&& errorbitStringlen ≠ 0 then "string too long"
  else if err &&& errorbitTypeLightuserdata ≠ 0 then "invalid type: lightuserdata"
  else if err &&& errorbitTypeFunction ≠ 0 then "invalid type: function"
  else if err &&& errorbitTypeUserdata ≠ 0 then "invalid type: userdata"
  else if err &&& errorbitTypeThread ≠ 0 then "invalid type: thread"
  else if err &&& errorbitTypeUnknown ≠ 0 then "invalid type: unknown"
  else "unknown error"

/-- `msgpack_pack_api`; the fill mark of the new block stays where it is. -/
def msgpackPack (h : Heap) (v : LuaValue) : Except PackError (MemSlice × Heap) :=
  let (wlen, b) := mpwbufPackAnytype h v Mpwbuf.init
  if 0 < wlen ∧ b.err = 0 then
    match levSlabGetBlock h b.data.length with
    | none => .error .nullBlock
    | some (outMb, h) =>
      let nbytes := (h.blocks outMb).nbytes
      let (ms, h) := levPushbufferFromMb h outMb b.data.length (some nbytes)
      .ok (ms, h.store outMb nbytes b.data)
  else .error (.error (errmsg b.err))

end Lev.MPack
