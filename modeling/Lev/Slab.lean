import Mathlib

/-! The slab allocator of lev_slab.c: five static pools of MemBlocks, blocks taken
from a pool or from malloc, and reference counts that send a block back. Block
identities stand for addresses; malloc never hands out the same one twice, which
is harmless as long as no one keeps a pointer to a freed block. -/
namespace Lev.Slab

/-- The static allocators `mem_1k` to `mem_1024k`. -/
inductive SlabClass
  | mem1k | mem8k | mem16k | mem64k | mem1024k
  deriving DecidableEq, Repr

def SlabClass.blocksize : SlabClass → ℕ
  | .mem1k => 1024
  | .mem8k => 8 * 1024
  | .mem16k => 16 * 1024
  | .mem64k => 64 * 1024
  | .mem1024k => 1024 * 1024

def slabMaxFreelist : ℕ := 1024 * 16 * 2

abbrev BlockId := ℕ

structure MemBlock where
  allocator : SlabClass
  refcount : ℤ
  size : ℕ
  nbytes : ℕ
  deriving DecidableEq, Repr

/-- `pool[0 .. pool_count - 1]`, the top of the free list first. -/
structure Allocator where
  pool : List BlockId
  poolMin : ℕ
  deriving DecidableEq, Repr

/-- One memcpy or memset: `len` bytes from `off` on, in the data of block `mb`. -/
structure Store where
  mb : BlockId
  off : ℕ
  len : ℕ
  deriving DecidableEq, Repr

/-- `capacity`, `freed` and `stores` are bookkeeping of ours: what malloc was asked
for, what was given to free, and which stores were made, the last one first. A block has
its bytes to itself; that a store ended in a neighbour only shows in `stores`. -/
structure Heap where
  blocks : BlockId → MemBlock
  bytes : BlockId → ℕ → UInt8
  pools : SlabClass → Allocator
  mallocs : ℕ
  capacity : BlockId → ℕ
  freed : List BlockId
  stores : List Store

namespace Heap

/-- The zeroed static allocators of a fresh process, over memory of any content. -/
def boot (junk : BlockId → ℕ → UInt8) : Heap where
  blocks := fun _ => ⟨.mem1k, 0, 0, 0⟩
  bytes := junk
  pools := fun _ => ⟨[], 0⟩
  mallocs := 0
  capacity := fun _ => 0
  freed := []
  stores := []

def malloc (h : Heap) (blocksize : ℕ) : BlockId × Heap :=
  (h.mallocs,
    { h with mallocs := h.mallocs + 1, capacity := Function.update h.capacity h.mallocs blocksize })

def setBlock (h : Heap) (b : BlockId) (m : MemBlock) : Heap :=
  { h with blocks := Function.update h.blocks b m }

def setPool (h : Heap) (c : SlabClass) (pool : List BlockId) : Heap :=
  { h with pools := Function.update h.pools c { h.pools c with pool := pool } }

def addNbytes (h : Heap) (b : BlockId) (n : ℕ) : Heap :=
  h.setBlock b { h.blocks b with nbytes := ((h.blocks b).nbytes + n) % 2 ^ 64 }

/-- memcpy or memset of `data` to `mb->bytes + off`. -/
def store (h : Heap) (b : BlockId) (off : ℕ) (data : List UInt8) : Heap :=
  { h with
    bytes := fun b' i =>
      if b' = b ∧ off ≤ i ∧ i < off + data.length then data.getD (i - off) 0 else h.bytes b' i
    stores := ⟨b, off, data.length⟩ :: h.stores }

/-- The `len` bytes at `mb->bytes + off`. -/
def load (h : Heap) (b : BlockId) (off len : ℕ) : List UInt8 :=
  (List.range len).map fun i => h.bytes b (off + i)

end Heap

/-- The loop of `_lev_slab_fill`; the fuel is the loop bound `SLAB_MAXFREELIST`. -/
def slabFillLoop (c : SlabClass) : ℕ → Heap → Heap
  | 0, h => h
  | fuel + 1, h =>
    if (h.pools c).pool.length = (h.pools c).poolMin then h
    else
      let (b, h) := h.malloc c.blocksize
      slabFillLoop c fuel (h.setPool c (b :: (h.pools c).pool))

def slabFillClass (h : Heap) (c : SlabClass) (minNumber : ℕ) : Heap :=
  slabFillLoop c slabMaxFreelist
    { h with pools := Function.update h.pools c ⟨[], min minNumber slabMaxFreelist⟩ }

def levSlabFill (h : Heap) : Heap :=
  let h := slabFillClass h .mem1k 1024
  let h := slabFillClass h .mem8k 512
  let h := slabFillClass h .mem16k 8
  let h := slabFillClass h .mem64k 8
  slabFillClass h .mem1024k 0

def slabClassOf (size : ℕ) : Option SlabClass :=
  if size ≤ 1024 then some .mem1k
  else if size ≤ 8 * 1024 then some .mem8k
  else if size ≤ 16 * 1024 then some .mem16k
  else if size ≤ 64 * 1024 then some .mem64k
  else if size ≤ 1024 * 1024 then some .mem1024k
  else none

/-- `none` is the NULL returned for sizes above the largest class. -/
def levSlabGetBlock (h : Heap) (size : ℕ) : Option (BlockId × Heap) :=
  match slabClassOf size with
  | none => none
  | some c =>
    let (b, h) := match (h.pools c).pool with
      | b :: pool => (b, h.setPool c pool)
      | [] => h.malloc c.blocksize
    some (b, h.setBlock b ⟨c, 0, c.blocksize, 0⟩)

def levSlabIncRef (h : Heap) (b : BlockId) : Heap :=
  h.setBlock b { h.blocks b with refcount := (h.blocks b).refcount + 1 }

/-- `lev_slab_decRefCount`; its `count` argument is never used. -/
def levSlabDecRef (h : Heap) (b : BlockId) : Heap :=
  let m := { h.blocks b with refcount := (h.blocks b).refcount - 1 }
  let h := h.setBlock b m
  if m.refcount = 0 then
    let a := h.pools m.allocator
    if a.pool.length < a.poolMin then h.setPool m.allocator (b :: a.pool)
    else { h with freed := b :: h.freed }
  else h

end Lev.Slab
