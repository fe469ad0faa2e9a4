import Lev.MemSlice

/-! The shared read block of lev_new_base.c. libuv asks `on_alloc` for memory, the
kernel fills it, and `lev_pushbuffer_from_static_mb` makes a Buffer of what was read. -/
namespace Lev.Memory
open CInt Slab

def staticMbSize : ℕ := 8192

/-- `staticMb` is the `_static_mb` of lev_new_base.c. -/
structure Reader where
  heap : Heap
  staticMb : Option BlockId

/-- A `uv_buf_t`, its base as a block and an offset. -/
structure UvBuf where
  mb : BlockId
  base : ℕ
  len : ℕ
  deriving DecidableEq, Repr

/-- `none` is the crash on the NULL of a failed allocation. -/
def onAlloc (s : Reader) : Option (UvBuf × Reader) :=
  let chosen := match s.staticMb with
    | some mb =>
      if szSub (s.heap.blocks mb).size (s.heap.blocks mb).nbytes < staticMbSize then
        levSlabGetBlock (levSlabDecRef s.heap mb) staticMbSize
      else some (mb, s.heap)
    | none => levSlabGetBlock s.heap staticMbSize
  chosen.map fun (mb, h) =>
    let m := h.blocks mb
    (⟨mb, m.nbytes, szSub m.size m.nbytes⟩, ⟨h, some mb⟩)

/-- `lev_pushbuffer_from_static_mb`; an `nread` of -1 pushes nothing. `none` is the crash
on a NULL block. -/
def levPushbufferFromStaticMb (s : Reader) (nread : ℤ) : Option (Option MemSlice × Reader) :=
  s.staticMb.map fun mb =>
    let owned := staticMbSize == (s.heap.blocks mb).size
    let h := if owned then s.heap else levSlabIncRef s.heap mb
    let staticMb := if owned then none else some mb
    if nread = -1 then
      (none, ⟨if owned then levSlabDecRef (levSlabIncRef h mb) mb else h, staticMb⟩)
    else
      let (ms, h) := levPushbufferFromMb h mb (toSizeT nread) (some (h.blocks mb).nbytes)
      (some ms, ⟨h.addNbytes mb (toSizeT nread), staticMb⟩)

/-- A read of `data`: the memory is allocated, filled and pushed. -/
def readData (s : Reader) (data : List UInt8) : Option (Option MemSlice × Reader) :=
  (onAlloc s).bind fun (buf, s) =>
    levPushbufferFromStaticMb ⟨s.heap.store buf.mb buf.base data, s.staticMb⟩ data.length

end Lev.Memory
