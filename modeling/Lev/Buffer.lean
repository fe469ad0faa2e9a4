import Lev.MemSlice

/-! The Lua methods of lev.buffer that create, join, cut, change and finalise Buffers,
as steps of one state: the slab heap, the shared block `_static_mb` and the live
userdata. -/
namespace Lev.Buffer
open CInt Slab Memory

/-- A Lua error of `luaL_argerror`, or the crash on a NULL block. -/
inductive Fault
  | argerror (arg : ℕ) (msg : String)
  | nullBlock
  deriving DecidableEq, Repr

abbrev ObjId := ℕ

/-- `objs` holds the lev.buffer userdata, `none` once collected. `created` is
bookkeeping of ours: the objects `Buffer:new` returned, the last one first. -/
structure State where
  heap : Heap
  staticMb : Option BlockId
  objs : List (Option MemSlice)
  created : List ObjId

/-- The state after `lev_slab_fill`, over memory of any content. -/
def start (junk : BlockId → ℕ → UInt8) : State := ⟨levSlabFill (Heap.boot junk), none, [], []⟩

def State.slice? (s : State) (o : ObjId) : Option MemSlice := (s.objs[o]?).join

/-- The MemSlice behind userdata `o` was changed in place. -/
def State.put (s : State) (o : ObjId) (ms : MemSlice) (h : Heap) : State :=
  { s with heap := h, objs := s.objs.set o (some ms) }

def State.push (s : State) (ms : MemSlice) : State := { s with objs := s.objs ++ [some ms] }

/-- The choice of `_static_mb` at the head of `lev_buffer_new`. -/
def staticBlock (s : State) (size : ℕ) : Option (BlockId × Heap) :=
  match s.staticMb with
  | some mb =>
    if szSub (s.heap.blocks mb).size (s.heap.blocks mb).nbytes < size then
      levSlabGetBlock (levSlabDecRef s.heap mb) size
    else some (mb, s.heap)
  | none => levSlabGetBlock s.heap size

/-- `lev_buffer_new`; `temp` is the string copied into the new Buffer, if any. -/
def levBufferNew (s : State) (size : ℕ) (temp : Option (List UInt8)) (tempSize : ℕ) :
    Option (MemSlice × State) :=
  match staticBlock s size with
  | none => none
  | some (mb, h) =>
    let shared := size ≠ (h.blocks mb).size
    let h := if shared ∧ (h.blocks mb).refcount = 0 then levSlabIncRef h mb else h
    let nbytes := (h.blocks mb).nbytes
    let (ms, h) := levPushbufferFromMb h mb size (some nbytes)
    let data := match temp with
      | some t => t.take (min size (if tempSize = 0 then size else tempSize))
      | none => List.replicate size 0
    let h := (h.store mb nbytes data).addNbytes mb size
    some (ms, State.push ⟨h, if shared then some mb else none, s.objs, s.created⟩ ms)

inductive NewArg
  | number (n : ℤ)
  | str (t : List UInt8)
  deriving DecidableEq, Repr

def NewArg.size : NewArg → ℕ
  | .number n => toSizeT n
  | .str t => t.length

def NewArg.temp : NewArg → Option (List UInt8)
  | .number _ => none
  | .str t => some t

def bufferNew (s : State) (a : NewArg) : Except Fault State :=
  match levBufferNew s a.size a.temp 0 with
  | none => .error .nullBlock
  | some (_, s') => .ok { s' with created := s.objs.length :: s.created }

/-- `buffer_slice`: both arguments are `lua_tointeger`, 0 meaning absent. -/
def bufferSlice (s : State) (o : ObjId) (i j : ℤ) : Except Fault State :=
  match s.slice? o with
  | none => .error (.argerror 1 "lev.buffer expected")
  | some ms =>
    let offset := if toSizeT i = 0 then 1 else toSizeT i
    if offset > ms.untilLen then .error (.argerror 2 "Offset out of bounds")
    else
      let offset := offset - 1
      let length := if toSizeT j = 0 then ms.untilLen - offset else toSizeT j
      if length > ms.untilLen - offset then .error (.argerror 3 "length out of bounds")
      else
        .ok { s.push ⟨ms.mb, ms.slice + offset, length⟩ with heap := levSlabIncRef s.heap ms.mb }

/-- An operand of `..` or the right side of an indexed assignment. -/
inductive Operand
  | buffer (o : ObjId)
  | str (t : List UInt8)
  deriving DecidableEq, Repr

/-- Back to back in one block, in either order. -/
def adjacent (first second : MemSlice) : Bool :=
  first.mb == second.mb &&
    ((decide (first.slice > second.slice) && second.slice + second.untilLen == first.slice) ||
      (decide (second.slice > first.slice) && first.slice + first.untilLen == second.slice))

/-- The end of `buffer__concat`: the second operand is copied behind the first. -/
def copySecond (h : Heap) (ms : MemSlice) (firstLen : ℕ) (second : List UInt8) : Heap :=
  h.store ms.mb (ms.slice + firstLen) second

/-- Both operands joined in a new Buffer; `first` is the string copied by
`lev_buffer_new`, `firstLen` what the caller takes for its length. -/
def concatFresh (s : State) (first : Option (List UInt8)) (firstLen : ℕ)
    (second : Heap → List UInt8) (secondLen : ℕ) : Except Fault State :=
  match levBufferNew s (szAdd firstLen secondLen) first firstLen with
  | none => .error .nullBlock
  | some (ms, s') => .ok { s' with heap := copySecond s'.heap ms firstLen (second s'.heap) }

/-- The branch taken when the operands are not back to back and the first is a Buffer. -/
def concatBehind (s : State) (first : MemSlice) (second : Heap → List UInt8) (secondLen : ℕ) :
    Except Fault State :=
  let m := s.heap.blocks first.mb
  if m.nbytes = first.slice + first.untilLen ∧ secondLen ≤ szSub m.size m.nbytes then
    let (ms, h) :=
      levPushbufferFromMb s.heap first.mb (szAdd first.untilLen secondLen) (some first.slice)
    let h := h.addNbytes first.mb secondLen
    .ok { s.push ms with heap := copySecond h first first.untilLen (second h) }
  else concatFresh s (some (first.contents s.heap)) first.untilLen second secondLen

/-- `buffer__concat`. A string as first operand is fetched from stack index 2, where the
Buffer is: `lua_tolstring` gives NULL and the length 0. -/
def bufferConcat (s : State) (x y : Operand) : Except Fault State :=
  match x, y with
  | .buffer o, .buffer o' =>
    match s.slice? o, s.slice? o' with
    | some first, some second =>
      if adjacent first second then
        let (ms, h) := levPushbufferFromMb s.heap first.mb
          (szAdd first.untilLen second.untilLen) (some (min first.slice second.slice))
        .ok { s.push ms with heap := h }
      else concatBehind s first second.contents second.untilLen
    | none, _ => .error (.argerror 1 "lev.buffer expected")
    | _, none => .error (.argerror 2 "lev.buffer expected")
  | .buffer o, .str t =>
    match s.slice? o with
    | some first => concatBehind s first (fun _ => t) t.length
    | none => .error (.argerror 1 "lev.buffer expected")
  | .str _, .buffer o' =>
    match s.slice? o' with
    | some second => concatFresh s none 0 second.contents second.untilLen
    | none => .error (.argerror 2 "lev.buffer expected")
  | .str _, .str _ => .error (.argerror 1 "attempt to concatenate without a Buffer")

inductive Value
  | operand (v : Operand)
  | number (n : ℤ)
  deriving DecidableEq, Repr

def operandBytes (s : State) : Operand → Option (List UInt8)
  | .buffer o => (s.slice? o).map fun ms => ms.contents s.heap
  | .str t => some t

/-- `buffer__newindex`. The index may be one past the end (`BUFFER_GETOFFSET` with an
extent of 0). A Buffer on the right side is read through the pointer it had before
the resize; blocks keep their contents when they are released. -/
def bufferNewindex (s : State) (o : ObjId) (i : ℤ) (v : Value) : Except Fault State :=
  match s.slice? o with
  | none => .error (.argerror 1 "lev.buffer expected")
  | some ms =>
    let index := toSizeT i
    if index < 1 ∨ index - 1 > ms.untilLen then .error (.argerror 2 "Index out of bounds")
    else
      match v with
      | .operand v =>
        match operandBytes s v with
        | none => .error (.argerror 3 "lev.buffer expected")
        | some c =>
          match levMemsliceAppendMem s.heap ms (index - 1) c with
          | none => .error .nullBlock
          | some (ms, h) => .ok (s.put o ms h)
      | .number n =>
        if toSizeT n > 255 then .error (.argerror 3 "0 < Value < 255")
        else
          .ok { s with
            heap := s.heap.store ms.mb (ms.slice + (index - 1)) [UInt8.ofNat (toSizeT n)] }

/-- `buffer__gc`, run by the collector on an unreachable Buffer. -/
def bufferGc (s : State) (o : ObjId) : Except Fault State :=
  match s.slice? o with
  | none => .error (.argerror 1 "lev.buffer expected")
  | some ms => .ok { s with heap := levSlabDecRef s.heap ms.mb, objs := s.objs.set o none }

inductive Op
  | new (a : NewArg)
  | slice (o : ObjId) (i j : ℤ)
  | concat (x y : Operand)
  | newindex (o : ObjId) (i : ℤ) (v : Value)
  | gc (o : ObjId)
  deriving DecidableEq, Repr

def step (s : State) : Op → Except Fault State
  | .new a => bufferNew s a
  | .slice o i j => bufferSlice s o i j
  | .concat x y => bufferConcat s x y
  | .newindex o i v => bufferNewindex s o i v
  | .gc o => bufferGc s o

/-- A Lua error leaves the state as it was. -/
def next (s : State) (op : Op) : State :=
  match step s op with
  | .ok s' => s'
  | .error _ => s

end Lev.Buffer
