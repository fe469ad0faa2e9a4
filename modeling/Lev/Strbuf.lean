import Lev.SlabSafety
import Lev.MemSlice

/-! The string buffers of lev_new_json.c: a MemSlice of the slab, and how many of its bytes
are in use. Only some of the appending operations make room first. -/
namespace Lev.Memory
open CInt Slab

/-- A store through a slice: where in the slice, how many bytes, and how long the slice was. -/
structure Access where
  index : ℕ
  len : ℕ
  untilLen : ℕ
  deriving DecidableEq, Repr

def Access.Inside (a : Access) : Prop := a.index + a.len ≤ a.untilLen

instance (a : Access) : Decidable a.Inside := inferInstanceAs (Decidable (_ ≤ _))

/-- A slice and the memory it is in. `log` is bookkeeping of ours: the stores made through the
slice, the last one first. -/
structure Window where
  heap : Heap
  ms : MemSlice
  log : List Access

/-- Bytes stored from the `index`-th of the slice on. -/
def Window.store (w : Window) (index : ℕ) (c : List UInt8) : Window :=
  ⟨w.heap.store w.ms.mb (w.ms.slice + index) c, w.ms, ⟨index, c.length, w.ms.untilLen⟩ :: w.log⟩

/-- Room is made in the slice, by an operation that stores nothing through it. -/
def Window.onSlice (w : Window) (f : Heap → MemSlice → Option (MemSlice × Heap)) : Option Window :=
  (f w.heap w.ms).map fun (ms, h) => ⟨h, ms, w.log⟩

def Window.ensureEmptyLength (w : Window) (len : ℤ) : Option Window :=
  w.onSlice fun h ms => levMemsliceEnsureEmptyLength h ms len

def levMemsliceAppendChar (w : Window) (start : ℕ) (c : UInt8) : Option Window :=
  (w.ensureEmptyLength (toInt (szAdd start 1))).map fun w => w.store start [c]

/-- `lev_memslice_append_mem`, with its store noted. -/
def Window.appendMem (w : Window) (start : ℕ) (c : List UInt8) : Option Window :=
  (levMemsliceAppendMem w.heap w.ms start c).map fun (ms, h) =>
    ⟨h, ms, ⟨start, c.length, ms.untilLen⟩ :: w.log⟩

/-- The resize in the loop of `lev_memslice_append_string`, whose counter `i` starts at 0
wherever the bytes go. -/
def stringSpace (i space : ℕ) (w : Window) : Option (ℕ × Window) :=
  if space < 1 then
    (w.onSlice fun h ms => levMemsliceResize h ms (i + 1)).map fun w =>
      (levMemsliceEmptyLength w.ms, w)
  else some (space, w)

/-- The loop of `lev_memslice_append_string`. -/
def appendStringLoop (start : ℕ) : List UInt8 → ℕ → ℕ → Window → Option Window
  | [], _, _, w => some w
  | c :: str, i, space, w => do
    let (space, w) ← stringSpace i space w
    appendStringLoop start str (i + 1) (szSub space 1) (w.store (start + i) [c])

/-- `lev_memslice_append_string`; it returns how many bytes `str` has in front of its NUL. -/
def levMemsliceAppendString (w : Window) (start : ℕ) (str : List UInt8) : Option Window :=
  appendStringLoop start str 0 (levMemsliceEmptyLength w.ms) w

end Lev.Memory

namespace Lev.Json
open CInt Slab Memory

def strbufDefaultSize : ℕ := 1023

/-- `strbuf_t`; `ms` is NULL before `strbuf_init` and after `strbuf_free`. -/
structure Strbuf where
  ms : Option MemSlice
  length : ℕ
  deriving DecidableEq, Repr

/-- The memory, and a string buffer in it. `log` is bookkeeping of ours: the stores a call has
made through the buffer, the last one first. -/
structure Mem where
  heap : Heap
  buf : Strbuf
  log : List Access

/-- `memslice_wrap_strbuf_init`; `none` is the crash on the NULL of an allocation the slab
cannot satisfy. -/
def strbufInit (h : Heap) (len : ℤ) : Option Mem :=
  let size := toSizeT (if len ≤ 0 then strbufDefaultSize else len + 1)
  (levSlabGetBlock h size).map fun (mb, h) =>
    ⟨(levSlabIncRef h mb).store mb 0 [0], ⟨some ⟨mb, 0, size⟩, 0⟩, [⟨0, 1, size⟩]⟩

def strbufFree (m : Mem) : Mem :=
  match m.buf.ms with
  | none => m
  | some ms => { m with heap := levSlabDecRef m.heap ms.mb, buf := { m.buf with ms := none } }

def strbufReset (m : Mem) : Mem := { m with buf := { m.buf with length := 0 } }

def strbufExtendLength (m : Mem) (l : ℕ) : Mem :=
  { m with buf := { m.buf with length := m.buf.length + l } }

/-- An operation of lev_new_buffer.c on the slice of the buffer; `none` is a crash on NULL. -/
def Mem.onSlice (m : Mem) (f : Window → Option Window) : Option Mem :=
  match m.buf.ms with
  | none => none
  | some ms => (f ⟨m.heap, ms, m.log⟩).map fun w => ⟨w.heap, { m.buf with ms := some w.ms }, w.log⟩

def strbufEnsureEmptyLength (m : Mem) (l : ℕ) : Option Mem :=
  m.onSlice fun w => w.ensureEmptyLength (toInt (szAdd m.buf.length l))

def strbufAppendChar (m : Mem) (c : UInt8) : Option Mem :=
  (m.onSlice fun w => levMemsliceAppendChar w m.buf.length c).map (strbufExtendLength · 1)

def strbufAppendMem (m : Mem) (c : List UInt8) : Option Mem :=
  (m.onSlice fun w => w.appendMem m.buf.length c).map (strbufExtendLength · c.length)

def strbufAppendString (m : Mem) (str : List UInt8) : Option Mem :=
  (m.onSlice fun w => levMemsliceAppendString w m.buf.length str).map
    (strbufExtendLength · str.length)

/-- Bytes put behind those in use, by memcpy, an assignment or `snprintf`. -/
def strbufStore (m : Mem) (c : List UInt8) : Option Mem :=
  m.onSlice fun w => some (w.store m.buf.length c)

def strbufAppendCharUnsafe (m : Mem) (c : UInt8) : Option Mem :=
  (strbufStore m [c]).map (strbufExtendLength · 1)

def strbufAppendMemUnsafe (m : Mem) (c : List UInt8) : Option Mem :=
  (strbufStore m c).map (strbufExtendLength · c.length)

def strbufEnsureNull (m : Mem) : Option Mem := strbufStore m [0]

/-- The bytes `strbuf_string` points to. -/
def strbufString (m : Mem) : Option (List UInt8) :=
  m.buf.ms.map fun ms => m.heap.load ms.mb ms.slice m.buf.length

end Lev.Json
