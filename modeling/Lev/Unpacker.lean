import Lev.MPackDecode

/-! The streaming unpacker of lev_mpack.c. `unpacker_feed` keeps the bytes it is given and
counts the messages that are complete, on a stack of containers and payloads that have
not all come; `pull` decodes the first message kept and removes it. -/
namespace Lev.MPack
open CInt Endian Slab Memory Lua

/-- `MP_CONTAINER_TYPE`, with the types of numbers in one. -/
inductive ContainerType
  | fixarray | fixmap | array16 | map16 | array32 | map32 | raw16 | raw32 | raw
  | scalar (s : Scalar)
  deriving DecidableEq, Repr

namespace ContainerType

def isContainer : ContainerType → Bool
  | .fixarray => true
  | .fixmap => true
  | .array16 => true
  | .map16 => true
  | .array32 => true
  | .map32 => true
  | _ => false

def sizesize : ContainerType → ℕ
  | .array16 => 2
  | .map16 => 2
  | .raw16 => 2
  | .array32 => 4
  | .map32 => 4
  | .raw32 => 4
  | _ => 0

def isMap : ContainerType → Bool
  | .fixmap => true
  | .map16 => true
  | .map32 => true
  | _ => false

end ContainerType

/-- `sizebytes` holds the `sizesofar` bytes of a count that have come. -/
structure Mpstackent where
  t : ContainerType
  expect : ℕ
  sofar : ℕ
  sizebytes : List UInt8
  deriving DecidableEq, Repr

namespace Mpstackent

def init (t : ContainerType) (expect : ℕ) : Mpstackent := ⟨t, expect, 0, []⟩

def sizesize (e : Mpstackent) : ℕ := e.t.sizesize

def sizesofar (e : Mpstackent) : ℕ := e.sizebytes.length

/-- One more byte of the count; the last one sets `expect`. -/
def addSizebyte (e : Mpstackent) (ch : UInt8) : Mpstackent :=
  let e := { e with sizebytes := e.sizebytes ++ [ch] }
  if e.sizesofar = e.sizesize then
    let count := if e.sizesize = 2 then ntohs (leNat e.sizebytes) else ntohl (leNat e.sizebytes)
    { e with expect := if e.t.isMap then count * 2 else count }
  else e

end Mpstackent

/-- `buf` holds the bytes `buf[0 .. used - 1]`, `stack` the entries with the top first. -/
structure Unpacker where
  buf : List UInt8
  size : ℕ
  stack : List Mpstackent
  resultnum : ℕ
  deriving DecidableEq, Repr

/-- The loop of `unpacker_progress`, down the stack. -/
def progressLoop (ch : UInt8) : List Mpstackent → List Mpstackent
  | [] => []
  | e :: stack =>
    if e.sizesofar < e.sizesize then e.addSizebyte ch :: stack
    else
      let e := { e with sofar := e.sofar + 1 }
      if e.sofar < e.expect then e :: stack
      else progressLoop ch stack

/-- What `unpacker_feed` does at a byte that starts a value. -/
inductive Action
  | progress
  | push (t : ContainerType) (expect : ℕ)
  | error
  deriving DecidableEq, Repr

/-- The tests of `unpacker_feed`, in its order. -/
def actionOf (ch : UInt8) : Action :=
  if ch ≤ 0x7f then .progress
  else if 0x80 ≤ ch ∧ ch ≤ 0x8f then .push .fixmap ((ch &&& 0xf).toNat * 2)
  else if 0x90 ≤ ch ∧ ch ≤ 0x9f then .push .fixarray (ch &&& 0xf).toNat
  else if 0xa0 ≤ ch ∧ ch ≤ 0xbf then .push .raw (ch &&& 0x1f).toNat
  else if ch = 0xc0 then .progress
  else if ch = 0xc1 then .error
  else if ch = 0xc2 then .progress
  else if ch = 0xc3 then .progress
  else if 0xc4 ≤ ch ∧ ch ≤ 0xc9 then .error
  else if ch = 0xca then .push (.scalar .float) 4
  else if ch = 0xcb then .push (.scalar .double) 8
  else if ch = 0xcc then .push (.scalar .uint8) 1
  else if ch = 0xcd then .push (.scalar .uint16) 2
  else if ch = 0xce then .push (.scalar .uint32) 4
  else if ch = 0xcf then .push (.scalar .uint64) 8
  else if ch = 0xd0 then .push (.scalar .int8) 1
  else if ch = 0xd1 then .push (.scalar .int16) 2
  else if ch = 0xd2 then .push (.scalar .int32) 4
  else if ch = 0xd3 then .push (.scalar .int64) 8
  else if 0xd4 ≤ ch ∧ ch ≤ 0xd9 then .error
  else if ch = 0xda then .push .raw16 0
  else if ch = 0xdb then .push .raw32 0
  else if ch = 0xdc then .push .array16 0
  else if ch = 0xdd then .push .array32 0
  else if ch = 0xde then .push .map16 0
  else if ch = 0xdf then .push .map32 0
  else .progress -- from 0xe0 on

namespace Unpacker

def init (maxsize : ℕ) : Unpacker := ⟨[], maxsize, [], 0⟩

def nstacked (u : Unpacker) : ℕ := u.stack.length

def used (u : Unpacker) : ℕ := u.buf.length

/-- The stack `u->stack[256]`. -/
def maxStack : ℕ := 256

def progress (u : Unpacker) (ch : UInt8) : Unpacker :=
  let stack := progressLoop ch u.stack
  { u with stack := stack, resultnum := if stack.isEmpty then u.resultnum + 1 else u.resultnum }

/-- `unpacker_progress_datasize`. The caller has seen that there is a top. -/
def progressDatasize (u : Unpacker) (progress : ℕ) : Unpacker :=
  match u.stack with
  | [] => u
  | top :: stack =>
    let top := { top with sofar := top.sofar + progress }
    if top.sofar = top.expect then
      Unpacker.progress { u with stack := { top with sofar := top.sofar - 1 } :: stack } 0
    else { u with stack := top :: stack }

/-- `none` is the error -1. -/
def push (u : Unpacker) (t : ContainerType) (expect : ℕ) : Option Unpacker :=
  if maxStack ≤ u.nstacked then none
  else
    let u := { u with stack := .init t expect :: u.stack }
    some (if t.sizesize = 0 ∧ expect = 0 then u.progress 0 else u)

/-- `unpacker_container_needs_bytes`: how many bytes of a payload are needed, 0 for a byte
of a count. -/
def containerNeedsBytes (u : Unpacker) : Option ℕ :=
  match u.stack with
  | [] => none
  | top :: _ =>
    if top.sizesofar < top.sizesize then some 0
    else if top.sofar < top.expect then
      if top.t.isContainer then none else some (top.expect - top.sofar)
    else none

def feedTag (u : Unpacker) (ch : UInt8) : Option Unpacker :=
  match actionOf ch with
  | .progress => some (u.progress ch)
  | .push t expect => u.push t expect
  | .error => none

/-- The loop of `unpacker_feed`; a payload is taken in one step as far as it has come. The
fuel bounds the steps, each of which takes a byte. -/
def feedLoop : ℕ → List UInt8 → Unpacker → ℤ × Unpacker
  | _, [], u => (0, u)
  | 0, _ :: _, u => (-1, u)
  | fuel + 1, ch :: p, u =>
    match u.containerNeedsBytes with
    | some dataneed =>
      if 0 < dataneed then
        let progress := min (p.length + 1) dataneed
        feedLoop fuel (p.drop (progress - 1)) (u.progressDatasize progress)
      else feedLoop fuel p (u.progress ch)
    | none =>
      match u.feedTag ch with
      | none => (-1, u)
      | some u => feedLoop fuel p u

def feed (u : Unpacker) (p : List UInt8) : ℤ × Unpacker :=
  if u.size < u.used + p.length then (-1, u)
  else feedLoop p.length p { u with buf := u.buf ++ p }

/-- The reader `mprbuf_init` sets up over the bytes kept, in the frame of `pull`. -/
def pullStart (h : Heap) (u : Unpacker) : Machine where
  mb := none
  base := 0
  data := u.buf
  ofs := 0
  err := false
  mapKeying := false
  heap := h
  stack := [.foreign .userdata]
  tables := []
  loads := []
  rawsets := []

def shift (u : Unpacker) (l : ℕ) : Unpacker := { u with buf := u.buf.drop l }

/-- `msgpack_unpacker_pull_api`; it returns what is on the top of the stack. -/
def pull (grants : Grants) (h : Heap) (u : Unpacker) : Except Fault (LuaValue × Unpacker) :=
  if u.resultnum = 0 then .ok (.nil, u)
  else do
    let rb ← mprbufUnpackAnytype grants (u.used + 1) (u.pullStart h)
    return (rb.stack.headD .nil, { u.shift rb.ofs with resultnum := u.resultnum - 1 })

end Unpacker

end Lev.MPack
