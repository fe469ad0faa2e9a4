import Lev.CInt
import Lev.SlabOwnership

/-! MemSlices, the windows onto MemBlocks that Buffers and string buffers are made
of, and the operations of lev_new_buffer.c that create, grow and fill them. The
pointer `slice` is kept as its offset from `mb->bytes`. -/
namespace Lev.Memory
open CInt Slab

/-- `untilLen` is the field `until`, the length of the window. -/
structure MemSlice where
  mb : BlockId
  slice : ℕ
  untilLen : ℕ
  deriving DecidableEq, Repr

def MemSlice.contents (ms : MemSlice) (h : Heap) : List UInt8 :=
  h.load ms.mb ms.slice ms.untilLen

/-- `lev_pushbuffer_from_mb`, without the Lua object around the slice: a `slice` of
NULL means the start of the block, an `until` of 0 whatever the block holds. -/
def levPushbufferFromMb (h : Heap) (mb : BlockId) (untilLen : ℕ) (slice : Option ℕ) :
    MemSlice × Heap :=
  let h := levSlabIncRef h mb
  let m := h.blocks mb
  (⟨mb, slice.getD 0, if untilLen = 0 then (if m.nbytes = 0 then m.size else m.nbytes)
    else untilLen⟩, h)

def levMemsliceEmptyLength (ms : MemSlice) : ℕ := szSub ms.untilLen 1

/-- Does the slice end at the fill mark of its block, and does the block have room? -/
def canExpand (h : Heap) (ms : MemSlice) (size : ℕ) : Bool :=
  ms.slice + ms.untilLen == (h.blocks ms.mb).nbytes &&
    decide (size ≤ szAdd ms.untilLen (szSub (h.blocks ms.mb).size (h.blocks ms.mb).nbytes))

/-- `lev_memslice_resize`; `size` is the size wanted, not the size of what is appended.
`none` is the crash on the NULL of an allocation the slab cannot satisfy. -/
def levMemsliceResize (h : Heap) (ms : MemSlice) (size : ℕ) : Option (MemSlice × Heap) :=
  if size ≤ levMemsliceEmptyLength ms then some (ms, h)
  else
    let size := szAdd size 1
    if canExpand h ms size then
      -- the cursor is advanced by the whole new size, not by the growth
      some ({ ms with untilLen := size }, h.addNbytes ms.mb size)
    else
      match levSlabGetBlock h size with
      | none => none
      | some (mbNew, h) =>
        let h := levSlabIncRef h mbNew
        let h := h.store mbNew 0 (h.load ms.mb ms.slice ms.untilLen)
        let h := levSlabDecRef h ms.mb
        some (⟨mbNew, 0, size⟩, h.addNbytes mbNew size)

/-- `lev_memslice_ensure_empty_length`: the length arrives as an `int` and is compared
and passed on as a `size_t`. -/
def levMemsliceEnsureEmptyLength (h : Heap) (ms : MemSlice) (len : ℤ) :
    Option (MemSlice × Heap) :=
  if levMemsliceEmptyLength ms < toSizeT len then levMemsliceResize h ms (toSizeT len)
  else some (ms, h)

def levMemsliceAppendMem (h : Heap) (ms : MemSlice) (start : ℕ) (c : List UInt8) :
    Option (MemSlice × Heap) :=
  match levMemsliceEnsureEmptyLength h ms (toInt (szAdd start c.length)) with
  | none => none
  | some (ms, h) => some (ms, h.store ms.mb (ms.slice + start) c)

end Lev.Memory
