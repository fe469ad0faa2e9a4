import Lev.Slab

/-! The ownership invariant of the allocator. `own b` counts the references its
clients hold to block `b`; a block with owners is in no pool and was not freed, its
refcount is that number, and its recorded size is what malloc gave it. -/
namespace Lev.Slab

namespace Heap
variable (h : Heap) (b : BlockId) (m : MemBlock) (c : SlabClass) (pool : List BlockId)
variable (n off len : ℕ) (data : List UInt8)

@[simp] theorem setBlock_blocks : (h.setBlock b m).blocks = Function.update h.blocks b m := rfl
@[simp] theorem setBlock_bytes : (h.setBlock b m).bytes = h.bytes := rfl
@[simp] theorem setBlock_pools : (h.setBlock b m).pools = h.pools := rfl
@[simp] theorem setBlock_mallocs : (h.setBlock b m).mallocs = h.mallocs := rfl
@[simp] theorem setBlock_capacity : (h.setBlock b m).capacity = h.capacity := rfl
@[simp] theorem setBlock_freed : (h.setBlock b m).freed = h.freed := rfl
@[simp] theorem setBlock_stores : (h.setBlock b m).stores = h.stores := rfl

@[simp] theorem setPool_blocks : (h.setPool c pool).blocks = h.blocks := rfl
@[simp] theorem setPool_bytes : (h.setPool c pool).bytes = h.bytes := rfl
@[simp] theorem setPool_mallocs : (h.setPool c pool).mallocs = h.mallocs := rfl
@[simp] theorem setPool_capacity : (h.setPool c pool).capacity = h.capacity := rfl
@[simp] theorem setPool_freed : (h.setPool c pool).freed = h.freed := rfl
@[simp] theorem setPool_stores : (h.setPool c pool).stores = h.stores := rfl

@[simp] theorem setPool_pool_self : ((h.setPool c pool).pools c).pool = pool := by
  simp [setPool]

@[simp] theorem setPool_poolMin (c' : SlabClass) :
    ((h.setPool c pool).pools c').poolMin = (h.pools c').poolMin := by
  by_cases hc : c' = c
  · subst hc; simp [setPool]
  · simp [setPool, hc]

theorem setPool_pool_of_ne {c' : SlabClass} (hc : c' ≠ c) :
    ((h.setPool c pool).pools c').pool = (h.pools c').pool := by
  simp [setPool, hc]

@[simp] theorem store_blocks : (h.store b off data).blocks = h.blocks := rfl
@[simp] theorem store_pools : (h.store b off data).pools = h.pools := rfl
@[simp] theorem store_mallocs : (h.store b off data).mallocs = h.mallocs := rfl
@[simp] theorem store_capacity : (h.store b off data).capacity = h.capacity := rfl
@[simp] theorem store_freed : (h.store b off data).freed = h.freed := rfl
@[simp] theorem store_stores :
    (h.store b off data).stores = ⟨b, off, data.length⟩ :: h.stores := rfl

@[simp] theorem load_length : (h.load b off len).length = len := by simp [load]

theorem load_congr {h h' : Heap} {b b' : BlockId} {off off' len : ℕ}
    (heq : ∀ i < len, h.bytes b (off + i) = h'.bytes b' (off' + i)) :
    h.load b off len = h'.load b' off' len := by
  simp only [load]
  exact List.map_congr_left fun i hi => heq i (List.mem_range.mp hi)

theorem load_append (len' : ℕ) :
    h.load b off (len + len') = h.load b off len ++ h.load b (off + len) len' := by
  simp only [load, List.range_add, List.map_append, List.map_map]
  congr 1
  exact List.map_congr_left fun i _ => by simp [Nat.add_assoc]

theorem load_store_self : (h.store b off data).load b off data.length = data := by
  apply List.ext_getElem (by simp)
  intro i hi hi'
  simp [load, store, hi']

theorem load_store_of_disjoint {b' : BlockId} {off' : ℕ}
    (hd : b' = b → off' + len ≤ off ∨ off + data.length ≤ off') :
    (h.store b off data).load b' off' len = h.load b' off' len := by
  apply load_congr
  intro i hi
  simp only [store]
  rw [if_neg]
  rintro ⟨rfl, h1, h2⟩
  rcases hd rfl with hd | hd <;> omega

end Heap

theorem SlabClass.blocksize_injective : Function.Injective SlabClass.blocksize := by
  intro c c' h
  cases c <;> cases c' <;> simp_all [blocksize]

theorem SlabClass.blocksize_pos (c : SlabClass) : 0 < c.blocksize := by
  cases c <;> simp [blocksize]

theorem SlabClass.blocksize_le (c : SlabClass) : c.blocksize ≤ 2 ^ 20 := by
  cases c <;> simp [blocksize]

theorem slabClassOf_le {size : ℕ} {c : SlabClass} (h : slabClassOf size = some c) :
    size ≤ c.blocksize := by
  unfold slabClassOf at h
  split_ifs at h <;> cases h <;> simp only [SlabClass.blocksize] <;> omega

theorem slabClassOf_isSome (size : ℕ) : (slabClassOf size).isSome ↔ size ≤ 2 ^ 20 := by
  unfold slabClassOf
  split_ifs <;> simp <;> omega

/-- Block `b` is with the clients and `n` references to it are counted. -/
structure HandedOut (h : Heap) (b : BlockId) (n : ℕ) : Prop where
  lt : b < h.mallocs
  notPooled : ∀ c, b ∉ (h.pools c).pool
  notFreed : b ∉ h.freed
  refcount : (h.blocks b).refcount = n
  size : (h.blocks b).size = (h.blocks b).allocator.blocksize
  capacity : h.capacity b = (h.blocks b).size

structure Owned (h : Heap) (own : BlockId → ℕ) : Prop where
  handedOut : ∀ b, 0 < own b → HandedOut h b (own b)
  pool_lt : ∀ c, ∀ b ∈ (h.pools c).pool, b < h.mallocs
  pool_nodup : ∀ c, (h.pools c).pool.Nodup
  pool_capacity : ∀ c, ∀ b ∈ (h.pools c).pool, h.capacity b = c.blocksize
  pool_notFreed : ∀ c, ∀ b ∈ (h.pools c).pool, b ∉ h.freed
  freed_lt : ∀ b ∈ h.freed, b < h.mallocs
  freed_nodup : h.freed.Nodup

variable {h h' : Heap} {own : BlockId → ℕ} {b : BlockId} {n : ℕ}

/-- Distinct pools share no block: their blocks have different capacities. -/
theorem Owned.pool_disjoint (ho : Owned h own) {c c' : SlabClass}
    (hb : b ∈ (h.pools c).pool) (hb' : b ∈ (h.pools c').pool) : c = c' :=
  SlabClass.blocksize_injective ((ho.pool_capacity c b hb).symm.trans (ho.pool_capacity c' b hb'))

/-- The invariant reads neither the contents of blocks nor their fill level. -/
structure SameAlloc (h h' : Heap) : Prop where
  refcount : ∀ b, (h'.blocks b).refcount = (h.blocks b).refcount
  size : ∀ b, (h'.blocks b).size = (h.blocks b).size
  allocator : ∀ b, (h'.blocks b).allocator = (h.blocks b).allocator
  pools : h'.pools = h.pools
  mallocs : h'.mallocs = h.mallocs
  capacity : h'.capacity = h.capacity
  freed : h'.freed = h.freed

theorem SameAlloc.trans {h'' : Heap} (a : SameAlloc h h') (b : SameAlloc h' h'') :
    SameAlloc h h'' where
  refcount := fun x => (b.refcount x).trans (a.refcount x)
  size := fun x => (b.size x).trans (a.size x)
  allocator := fun x => (b.allocator x).trans (a.allocator x)
  pools := b.pools.trans a.pools
  mallocs := b.mallocs.trans a.mallocs
  capacity := b.capacity.trans a.capacity
  freed := b.freed.trans a.freed

theorem HandedOut.congr (hh : HandedOut h b n) (hs : SameAlloc h h') : HandedOut h' b n where
  lt := by rw [hs.mallocs]; exact hh.lt
  notPooled := by rw [hs.pools]; exact hh.notPooled
  notFreed := by rw [hs.freed]; exact hh.notFreed
  refcount := by rw [hs.refcount]; exact hh.refcount
  size := by rw [hs.size, hs.allocator]; exact hh.size
  capacity := by rw [hs.capacity, hs.size]; exact hh.capacity

theorem Owned.congr (ho : Owned h own) (hs : SameAlloc h h') : Owned h' own where
  handedOut := fun b hb => (ho.handedOut b hb).congr hs
  pool_lt := by rw [hs.pools, hs.mallocs]; exact ho.pool_lt
  pool_nodup := by rw [hs.pools]; exact ho.pool_nodup
  pool_capacity := by rw [hs.pools, hs.capacity]; exact ho.pool_capacity
  pool_notFreed := by rw [hs.pools, hs.freed]; exact ho.pool_notFreed
  freed_lt := by rw [hs.freed, hs.mallocs]; exact ho.freed_lt
  freed_nodup := by rw [hs.freed]; exact ho.freed_nodup

theorem sameAlloc_store (h : Heap) (b off : ℕ) (data : List UInt8) :
    SameAlloc h (h.store b off data) := by
  constructor <;> simp

theorem sameAlloc_addNbytes (h : Heap) (b n : ℕ) : SameAlloc h (h.addNbytes b n) := by
  constructor <;> simp only [Heap.addNbytes, Heap.setBlock_blocks, Heap.setBlock_pools,
    Heap.setBlock_mallocs, Heap.setBlock_capacity, Heap.setBlock_freed] <;>
    intro b' <;> by_cases hb : b' = b <;> simp [hb]

/-- What `lev_slab_getBlock` returns: a block nobody owns, no longer in any pool,
empty, of the size recorded and large enough. -/
structure Fresh (h h' : Heap) (own : BlockId → ℕ) (b : BlockId) (size : ℕ) : Prop where
  unowned : own b = 0
  handedOut : HandedOut h' b 0
  nbytes : (h'.blocks b).nbytes = 0
  size_le : size ≤ (h'.blocks b).size
  others : ∀ b' ≠ b, h'.blocks b' = h.blocks b'
  bytes : h'.bytes = h.bytes
  stores : h'.stores = h.stores
  owned : Owned h' own

private theorem fresh_of_pool (ho : Owned h own) {c : SlabClass} {pool : List BlockId} {size : ℕ}
    (hp : (h.pools c).pool = b :: pool) (hsize : size ≤ c.blocksize) :
    Fresh h ((h.setPool c pool).setBlock b ⟨c, 0, c.blocksize, 0⟩) own b size := by
  have hmem : b ∈ (h.pools c).pool := by rw [hp]; exact List.mem_cons_self
  have hnodup : (b :: pool).Nodup := hp ▸ ho.pool_nodup c
  have hsub : ∀ c', ∀ x ∈ ((h.setPool c pool).pools c').pool, x ∈ (h.pools c').pool := by
    intro c' x hx
    by_cases hc : c' = c
    · subst hc
      rw [Heap.setPool_pool_self] at hx
      rw [hp]
      exact List.mem_cons_of_mem _ hx
    · rwa [Heap.setPool_pool_of_ne _ _ _ hc] at hx
  have hout : ∀ c', b ∉ ((h.setPool c pool).pools c').pool := by
    intro c' hx
    obtain rfl := ho.pool_disjoint (hsub c' b hx) hmem
    rw [Heap.setPool_pool_self] at hx
    exact (List.nodup_cons.mp hnodup).1 hx
  have hunowned : own b = 0 := by
    by_contra hne
    exact (ho.handedOut b (Nat.pos_of_ne_zero hne)).notPooled c hmem
  refine ⟨hunowned, ⟨ho.pool_lt c b hmem, hout, ho.pool_notFreed c b hmem, ?_, ?_, ?_⟩, ?_, ?_,
    ?_, rfl, rfl, ?_⟩
  · simp
  · simp
  · simpa using ho.pool_capacity c b hmem
  · simp
  · simpa using hsize
  · intro b' hb'
    simp [hb']
  · constructor
    · intro b' hb'
      have hne : b' ≠ b := by rintro rfl; omega
      have hh := ho.handedOut b' hb'
      exact ⟨hh.lt, fun c' hx => hh.notPooled c' (hsub c' b' hx), hh.notFreed,
        by simpa [hne] using hh.refcount, by simpa [hne] using hh.size,
        by simpa [hne] using hh.capacity⟩
    · exact fun c' x hx => ho.pool_lt c' x (hsub c' x hx)
    · intro c'
      simp only [Heap.setBlock_pools]
      by_cases hc : c' = c
      · subst hc
        rw [Heap.setPool_pool_self]
        exact (List.nodup_cons.mp hnodup).2
      · rw [Heap.setPool_pool_of_ne _ _ _ hc]
        exact ho.pool_nodup c'
    · exact fun c' x hx => ho.pool_capacity c' x (hsub c' x hx)
    · exact fun c' x hx => ho.pool_notFreed c' x (hsub c' x hx)
    · exact ho.freed_lt
    · exact ho.freed_nodup

private theorem fresh_of_malloc (ho : Owned h own) {c : SlabClass} {size : ℕ}
    (hsize : size ≤ c.blocksize) :
    Fresh h ((h.malloc c.blocksize).2.setBlock h.mallocs ⟨c, 0, c.blocksize, 0⟩) own h.mallocs
      size := by
  have hold : ∀ c', ∀ x ∈ (h.pools c').pool, x ≠ h.mallocs := fun c' x hx =>
    Nat.ne_of_lt (ho.pool_lt c' x hx)
  have hunowned : own h.mallocs = 0 := by
    by_contra hne
    exact Nat.lt_irrefl _ (ho.handedOut _ (Nat.pos_of_ne_zero hne)).lt
  refine ⟨hunowned, ⟨by simp [Heap.malloc], fun c' hx => hold c' _ hx rfl,
    fun hx => Nat.lt_irrefl _ (ho.freed_lt _ hx), ?_, ?_, ?_⟩, ?_, ?_, ?_, rfl, rfl, ?_⟩
  · simp
  · simp
  · simp [Heap.malloc]
  · simp
  · simpa using hsize
  · intro b' hb'
    simp [hb', Heap.malloc]
  · constructor
    · intro b' hb'
      have hh := ho.handedOut b' hb'
      have hne : b' ≠ h.mallocs := Nat.ne_of_lt hh.lt
      exact ⟨Nat.lt_succ_of_lt hh.lt, hh.notPooled, hh.notFreed,
        by simpa [hne, Heap.malloc] using hh.refcount, by simpa [hne, Heap.malloc] using hh.size,
        by simpa [hne, Heap.malloc] using hh.capacity⟩
    · exact fun c' x hx => Nat.lt_succ_of_lt (ho.pool_lt c' x hx)
    · exact ho.pool_nodup
    · intro c' x hx
      simpa [Heap.malloc, hold c' x hx] using ho.pool_capacity c' x hx
    · exact ho.pool_notFreed
    · exact fun x hx => Nat.lt_succ_of_lt (ho.freed_lt x hx)
    · exact ho.freed_nodup

theorem levSlabGetBlock_fresh (ho : Owned h own) {size : ℕ}
    (hg : levSlabGetBlock h size = some (b, h')) : Fresh h h' own b size := by
  unfold levSlabGetBlock at hg
  cases hc : slabClassOf size with
  | none => simp [hc] at hg
  | some c =>
    have hsize := slabClassOf_le hc
    simp only [hc, Option.some.injEq, Prod.mk.injEq] at hg
    cases hp : (h.pools c).pool with
    | nil =>
      simp only [hp] at hg
      obtain ⟨rfl, rfl⟩ := hg
      exact fresh_of_malloc ho hsize
    | cons b' pool =>
      simp only [hp] at hg
      obtain ⟨rfl, rfl⟩ := hg
      exact fresh_of_pool ho hp hsize

theorem levSlabGetBlock_eq_none {size : ℕ} :
    levSlabGetBlock h size = none ↔ 2 ^ 20 < size := by
  have hs := slabClassOf_isSome size
  unfold levSlabGetBlock
  cases hc : slabClassOf size with
  | none => rw [hc] at hs; simp at hs; simp; omega
  | some c => rw [hc] at hs; simp at hs; simp; omega

theorem levSlabIncRef_nbytes (h : Heap) (b b' : BlockId) :
    ((levSlabIncRef h b).blocks b').nbytes = (h.blocks b').nbytes := by
  rcases eq_or_ne b' b with rfl | hb
  · simp [levSlabIncRef]
  · simp [levSlabIncRef, hb]

theorem levSlabIncRef_size (h : Heap) (b b' : BlockId) :
    ((levSlabIncRef h b).blocks b').size = (h.blocks b').size := by
  rcases eq_or_ne b' b with rfl | hb
  · simp [levSlabIncRef]
  · simp [levSlabIncRef, hb]

theorem levSlabIncRef_owned (ho : Owned h own) (hb : HandedOut h b (own b)) :
    Owned (levSlabIncRef h b) (Function.update own b (own b + 1)) := by
  constructor
  · intro b' hb'
    by_cases hne : b' = b
    · subst hne
      refine ⟨hb.lt, hb.notPooled, hb.notFreed, ?_, ?_, ?_⟩
      · simp [levSlabIncRef, hb.refcount]
      · simpa [levSlabIncRef] using hb.size
      · simpa [levSlabIncRef] using hb.capacity
    · rw [Function.update_of_ne hne] at hb' ⊢
      have hh := ho.handedOut b' hb'
      exact ⟨hh.lt, hh.notPooled, hh.notFreed, by simpa [levSlabIncRef, hne] using hh.refcount,
        by simpa [levSlabIncRef, hne] using hh.size,
        by simpa [levSlabIncRef, hne] using hh.capacity⟩
  · exact ho.pool_lt
  · exact ho.pool_nodup
  · exact ho.pool_capacity
  · exact ho.pool_notFreed
  · exact ho.freed_lt
  · exact ho.freed_nodup

/-- The heap with one reference to `b` fewer, before the block is put anywhere. -/
def Heap.drop (h : Heap) (b : BlockId) : Heap :=
  h.setBlock b { h.blocks b with refcount := (h.blocks b).refcount - 1 }

/-- What a release does to the pools and to malloc: nothing while references remain;
with the last one the block enters one pool of its class or is freed. -/
theorem levSlabDecRef_cases (h : Heap) (b : BlockId) :
    ((h.blocks b).refcount ≠ 1 ∧ levSlabDecRef h b = h.drop b) ∨
    ((h.blocks b).refcount = 1 ∧ levSlabDecRef h b =
      (h.drop b).setPool (h.blocks b).allocator (b :: (h.pools (h.blocks b).allocator).pool)) ∨
    ((h.blocks b).refcount = 1 ∧ levSlabDecRef h b =
      { h.drop b with freed := b :: h.freed }) := by
  by_cases hm : (h.blocks b).refcount - 1 = 0
  · have h1 : (h.blocks b).refcount = 1 := by omega
    by_cases hp : (h.pools (h.blocks b).allocator).pool.length <
        (h.pools (h.blocks b).allocator).poolMin
    · exact .inr (.inl ⟨h1, (if_pos hm).trans (if_pos hp)⟩)
    · exact .inr (.inr ⟨h1, (if_pos hm).trans (if_neg hp)⟩)
  · have h1 : (h.blocks b).refcount ≠ 1 := by omega
    exact .inl ⟨h1, if_neg hm⟩

theorem levSlabDecRef_blocks (h : Heap) (b : BlockId) :
    (levSlabDecRef h b).blocks =
      Function.update h.blocks b { h.blocks b with refcount := (h.blocks b).refcount - 1 } := by
  rcases levSlabDecRef_cases h b with ⟨_, he⟩ | ⟨_, he⟩ | ⟨_, he⟩ <;> rw [he] <;> rfl

@[simp] theorem levSlabDecRef_bytes (h : Heap) (b : BlockId) :
    (levSlabDecRef h b).bytes = h.bytes := by
  rcases levSlabDecRef_cases h b with ⟨_, he⟩ | ⟨_, he⟩ | ⟨_, he⟩ <;> rw [he] <;> rfl

@[simp] theorem levSlabDecRef_stores (h : Heap) (b : BlockId) :
    (levSlabDecRef h b).stores = h.stores := by
  rcases levSlabDecRef_cases h b with ⟨_, he⟩ | ⟨_, he⟩ | ⟨_, he⟩ <;> rw [he] <;> rfl

private theorem handedOut_decRef (ho : Owned h own) (hb : 0 < own b) {b' : BlockId}
    (hb' : 0 < Function.update own b (own b - 1) b') :
    HandedOut (h.drop b) b' (Function.update own b (own b - 1) b') := by
  have hh := ho.handedOut b hb
  by_cases hne : b' = b
  · subst hne
    refine ⟨hh.lt, hh.notPooled, hh.notFreed, ?_, ?_, ?_⟩
    · simp [Heap.drop, hh.refcount]
      omega
    · simpa [Heap.drop] using hh.size
    · simpa [Heap.drop] using hh.capacity
  · rw [Function.update_of_ne hne] at hb' ⊢
    have hh' := ho.handedOut b' hb'
    exact ⟨hh'.lt, hh'.notPooled, hh'.notFreed, by simpa [Heap.drop, hne] using hh'.refcount,
      by simpa [Heap.drop, hne] using hh'.size, by simpa [Heap.drop, hne] using hh'.capacity⟩

theorem levSlabDecRef_owned (ho : Owned h own) (hb : 0 < own b) :
    Owned (levSlabDecRef h b) (Function.update own b (own b - 1)) := by
  have hh := ho.handedOut b hb
  have hlast : (h.blocks b).refcount = 1 → ∀ b', 0 < Function.update own b (own b - 1) b' →
      b' ≠ b := by
    intro h0 b' hb' hne
    subst hne
    rw [Function.update_self] at hb'
    rw [hh.refcount] at h0
    omega
  rcases levSlabDecRef_cases h b with ⟨_, he⟩ | ⟨h0, he⟩ | ⟨h0, he⟩
  · rw [he]
    exact ⟨fun b' hb' => handedOut_decRef ho hb hb', ho.pool_lt, ho.pool_nodup,
      ho.pool_capacity, ho.pool_notFreed, ho.freed_lt, ho.freed_nodup⟩
  · -- the block goes on the shelf of its class
    rw [he]
    have hin : ∀ c, ∀ x ∈ (((h.drop b).setPool (h.blocks b).allocator
        (b :: (h.pools (h.blocks b).allocator).pool)).pools c).pool,
        (x = b ∧ c = (h.blocks b).allocator) ∨ x ∈ (h.pools c).pool := by
      intro c x hx
      by_cases hc : c = (h.blocks b).allocator
      · subst hc
        rw [Heap.setPool_pool_self] at hx
        rcases List.mem_cons.mp hx with rfl | hx
        · exact .inl ⟨rfl, rfl⟩
        · exact .inr hx
      · rw [Heap.setPool_pool_of_ne _ _ _ hc] at hx
        exact .inr hx
    constructor
    · intro b' hb'
      have hne := hlast h0 b' hb'
      have hh' := handedOut_decRef ho hb hb'
      refine ⟨hh'.lt, fun c hx => ?_, hh'.notFreed, hh'.refcount, hh'.size, hh'.capacity⟩
      rcases hin c b' hx with ⟨rfl, _⟩ | hx
      · exact hne rfl
      · exact hh'.notPooled c hx
    · intro c x hx
      rcases hin c x hx with ⟨rfl, _⟩ | hx
      · exact hh.lt
      · exact ho.pool_lt c x hx
    · intro c
      by_cases hc : c = (h.blocks b).allocator
      · subst hc
        rw [Heap.setPool_pool_self]
        exact List.nodup_cons.mpr ⟨hh.notPooled _, ho.pool_nodup _⟩
      · rw [Heap.setPool_pool_of_ne _ _ _ hc]
        exact ho.pool_nodup c
    · intro c x hx
      rcases hin c x hx with ⟨rfl, rfl⟩ | hx
      · exact hh.capacity.trans hh.size
      · exact ho.pool_capacity c x hx
    · intro c x hx
      rcases hin c x hx with ⟨rfl, _⟩ | hx
      · exact hh.notFreed
      · exact ho.pool_notFreed c x hx
    · exact ho.freed_lt
    · exact ho.freed_nodup
  · -- the shelf is full and the block is freed
    rw [he]
    constructor
    · intro b' hb'
      have hne := hlast h0 b' hb'
      have hh' := handedOut_decRef ho hb hb'
      refine ⟨hh'.lt, hh'.notPooled, ?_, hh'.refcount, hh'.size, hh'.capacity⟩
      intro hx
      rcases List.mem_cons.mp hx with rfl | hx
      · exact hne rfl
      · exact hh'.notFreed hx
    · exact ho.pool_lt
    · exact ho.pool_nodup
    · exact ho.pool_capacity
    · intro c x hx hf
      rcases List.mem_cons.mp hf with rfl | hf
      · exact hh.notPooled c hx
      · exact ho.pool_notFreed c x hx hf
    · intro x hx
      rcases List.mem_cons.mp hx with rfl | hx
      · exact hh.lt
      · exact ho.freed_lt x hx
    · exact List.nodup_cons.mpr ⟨hh.notFreed, ho.freed_nodup⟩

private theorem slabFillLoop_owned {c : SlabClass} {fuel : ℕ} (ho : Owned h fun _ => 0) :
    Owned (slabFillLoop c fuel h) fun _ => 0 := by
  induction fuel generalizing h with
  | zero => exact ho
  | succ fuel ih =>
    simp only [slabFillLoop]
    split
    · exact ho
    · apply ih
      have hin : ∀ c', ∀ x ∈ (((h.malloc c.blocksize).2.setPool c
          (h.mallocs :: (h.pools c).pool)).pools c').pool,
          (x = h.mallocs ∧ c' = c) ∨ (x ≠ h.mallocs ∧ x ∈ (h.pools c').pool) := by
        intro c' x hx
        by_cases hc : c' = c
        · subst hc
          rw [Heap.setPool_pool_self] at hx
          rcases List.mem_cons.mp hx with rfl | hx
          · exact .inl ⟨rfl, rfl⟩
          · exact .inr ⟨Nat.ne_of_lt (ho.pool_lt c' x hx), hx⟩
        · rw [Heap.setPool_pool_of_ne _ _ _ hc] at hx
          exact .inr ⟨Nat.ne_of_lt (ho.pool_lt c' x hx), hx⟩
      constructor
      · intro b hb
        exact absurd hb (Nat.lt_irrefl 0)
      · intro c' x hx
        rcases hin c' x hx with ⟨rfl, _⟩ | ⟨_, hx⟩
        · exact Nat.lt_succ_self _
        · exact Nat.lt_succ_of_lt (ho.pool_lt c' x hx)
      · intro c'
        by_cases hc : c' = c
        · subst hc
          exact (Heap.setPool_pool_self _ _ _).symm ▸ List.nodup_cons.mpr
            ⟨fun hx => Nat.lt_irrefl _ (ho.pool_lt _ _ hx), ho.pool_nodup _⟩
        · exact (Heap.setPool_pool_of_ne _ _ _ hc).symm ▸ ho.pool_nodup c'
      · intro c' x hx
        rcases hin c' x hx with ⟨rfl, rfl⟩ | ⟨hne, hx⟩
        · simp [Heap.malloc]
        · simpa [Heap.malloc, hne] using ho.pool_capacity c' x hx
      · intro c' x hx hf
        rcases hin c' x hx with ⟨rfl, _⟩ | ⟨_, hx⟩
        · exact Nat.lt_irrefl _ (ho.freed_lt _ hf)
        · exact ho.pool_notFreed c' x hx hf
      · exact fun x hx => Nat.lt_succ_of_lt (ho.freed_lt x hx)
      · exact ho.freed_nodup

private theorem slabFillClass_owned {c : SlabClass} {k : ℕ} (ho : Owned h fun _ => 0) :
    Owned (slabFillClass h c k) fun _ => 0 := by
  apply slabFillLoop_owned
  have hsub : ∀ c', ∀ x ∈ (Function.update h.pools c ⟨[], min k slabMaxFreelist⟩ c').pool,
      x ∈ (h.pools c').pool := by
    intro c' x hx
    by_cases hc : c' = c
    · subst hc; simp at hx
    · simpa [hc] using hx
  refine ⟨fun b hb => absurd hb (Nat.lt_irrefl 0), fun c' x hx => ho.pool_lt c' x (hsub c' x hx),
    ?_, fun c' x hx => ho.pool_capacity c' x (hsub c' x hx),
    fun c' x hx => ho.pool_notFreed c' x (hsub c' x hx), ho.freed_lt, ho.freed_nodup⟩
  intro c'
  by_cases hc : c' = c
  · subst hc; simp
  · simpa [hc] using ho.pool_nodup c'

theorem levSlabFill_owned (junk : BlockId → ℕ → UInt8) :
    Owned (levSlabFill (Heap.boot junk)) fun _ => 0 := by
  have hboot : Owned (Heap.boot junk) fun _ => 0 := by
    constructor <;> simp [Heap.boot]
  exact slabFillClass_owned (slabFillClass_owned (slabFillClass_owned (slabFillClass_owned
    (slabFillClass_owned hboot))))

end Lev.Slab
