import Lev.Run
import Lev.SlabOwnership

/-! Runs of the allocator by itself, with clients that release only references they
took: no pool ever holds a block that is in use, and each block goes back once. -/
namespace Lev.Slab
open Run

/-- `live` and `own` are bookkeeping of the clients: the blocks they were given and have
not given back, and how many references to each they took and did not release. -/
structure Clients where
  heap : Heap
  live : BlockId → Bool
  own : BlockId → ℕ

inductive SlabOp
  | getBlock (size : ℕ)
  | incRef (b : BlockId)
  | decRef (b : BlockId)
  deriving DecidableEq, Repr

namespace Clients

def start (junk : BlockId → ℕ → UInt8) : Clients :=
  ⟨levSlabFill (Heap.boot junk), fun _ => false, fun _ => 0⟩

def next (s : Clients) : SlabOp → Clients
  | .getBlock size =>
    match levSlabGetBlock s.heap size with
    | none => s
    | some (b, h) => ⟨h, Function.update s.live b true, Function.update s.own b 0⟩
  | .incRef b => ⟨levSlabIncRef s.heap b, s.live, Function.update s.own b (s.own b + 1)⟩
  | .decRef b =>
    ⟨levSlabDecRef s.heap b, Function.update s.live b (decide (1 < s.own b)),
      Function.update s.own b (s.own b - 1)⟩

/-- References are taken to live blocks and released by those who took one. -/
def Permitted (s : Clients) : SlabOp → Prop
  | .getBlock size => size ≤ 2 ^ 20
  | .incRef b => s.live b = true
  | .decRef b => 0 < s.own b

instance (s : Clients) : (op : SlabOp) → Decidable (Permitted s op)
  | .getBlock size => inferInstanceAs (Decidable (size ≤ 2 ^ 20))
  | .incRef b => inferInstanceAs (Decidable (s.live b = true))
  | .decRef b => inferInstanceAs (Decidable (0 < s.own b))

/-- Pools and freed blocks in one state. -/
structure PoolsOk (s : Clients) : Prop where
  pool_nodup : ∀ c, (s.heap.pools c).pool.Nodup
  pool_notLive : ∀ c, ∀ b ∈ (s.heap.pools c).pool, s.live b = false
  pool_class : ∀ c, ∀ b ∈ (s.heap.pools c).pool, s.heap.capacity b = c.blocksize
  pool_count : ∀ c, (s.heap.pools c).pool.length ≤ (s.heap.pools c).poolMin
  pool_min : ∀ c, (s.heap.pools c).poolMin ≤ slabMaxFreelist
  freed_nodup : s.heap.freed.Nodup
  freed_notLive : ∀ b ∈ s.heap.freed, s.live b = false ∧ ∀ c, b ∉ (s.heap.pools c).pool

/-- `b` was put on top of the pool of its class, or was given to free. -/
def GoesBack (h h' : Heap) (b : BlockId) : Prop :=
  (∃ c, h.capacity b = c.blocksize ∧ h'.freed = h.freed ∧
    (h'.pools c).pool = b :: (h.pools c).pool ∧
    ∀ c' ≠ c, (h'.pools c').pool = (h.pools c').pool) ∨
  (h'.freed = b :: h.freed ∧ h'.pools = h.pools)

def Handled (s : Clients) : SlabOp → Prop
  | .getBlock size =>
    ∃ b h, levSlabGetBlock s.heap size = some (b, h) ∧ s.live b = false ∧
      (∀ c, b ∉ (h.pools c).pool) ∧ b ∉ h.freed ∧
      (h.blocks b).size = h.capacity b ∧ size ≤ (h.blocks b).size
  | .incRef b =>
    (levSlabIncRef s.heap b).pools = s.heap.pools ∧ (levSlabIncRef s.heap b).freed = s.heap.freed
  | .decRef b =>
    if ((levSlabDecRef s.heap b).blocks b).refcount = 0 then
      GoesBack s.heap (levSlabDecRef s.heap b) b
    else (levSlabDecRef s.heap b).pools = s.heap.pools ∧
      (levSlabDecRef s.heap b).freed = s.heap.freed

/-- A live block stays live, except at the release that brings its refcount to 0. -/
def EndsOnce (s : Clients) (op : SlabOp) : Prop :=
  ∀ b, s.live b = true → ((next s op).live b = false ↔
    op = .decRef b ∧ ((next s op).heap.blocks b).refcount = 0)

structure Safe (s : Clients) : Prop where
  owned : Owned s.heap s.own
  live : ∀ b, s.live b = true → HandedOut s.heap b (s.own b)
  own_live : ∀ b, 0 < s.own b → s.live b = true
  count : ∀ c, (s.heap.pools c).pool.length ≤ (s.heap.pools c).poolMin
  min : ∀ c, (s.heap.pools c).poolMin ≤ slabMaxFreelist

end Clients

variable {h h' : Heap} {own : BlockId → ℕ} {b b' : BlockId} {n : ℕ}

/-- The block `lev_slab_getBlock` takes: the top of the pool of its class, or a new one. -/
theorem levSlabGetBlock_cases {size : ℕ} (hg : levSlabGetBlock h size = some (b, h')) :
    ∃ c, (∃ pool, (h.pools c).pool = b :: pool ∧
      h' = (h.setPool c pool).setBlock b ⟨c, 0, c.blocksize, 0⟩) ∨
      (b = h.mallocs ∧ h' = (h.malloc c.blocksize).2.setBlock b ⟨c, 0, c.blocksize, 0⟩) := by
  unfold levSlabGetBlock at hg
  cases hc : slabClassOf size with
  | none => simp [hc] at hg
  | some c =>
    simp only [hc, Option.some.injEq, Prod.mk.injEq] at hg
    refine ⟨c, ?_⟩
    cases hp : (h.pools c).pool with
    | nil =>
      simp only [hp] at hg
      obtain ⟨rfl, rfl⟩ := hg
      exact .inr ⟨rfl, rfl⟩
    | cons b₀ pool =>
      simp only [hp] at hg
      obtain ⟨rfl, rfl⟩ := hg
      exact .inl ⟨pool, rfl, rfl⟩

theorem getBlock_block {h h' : Heap} {b : BlockId} {size : ℕ}
    (hg : levSlabGetBlock h size = some (b, h')) :
    (h'.blocks b).nbytes = 0 ∧ 0 < (h'.blocks b).size := by
  unfold levSlabGetBlock at hg
  cases hc : slabClassOf size with
  | none => simp [hc] at hg
  | some c =>
    simp only [hc, Option.some.injEq, Prod.mk.injEq] at hg
    obtain ⟨rfl, rfl⟩ := hg
    simp [SlabClass.blocksize_pos]

theorem HandedOut.getBlock {size : ℕ} (hh : HandedOut h b' n)
    (hg : levSlabGetBlock h size = some (b, h')) (hne : b' ≠ b) : HandedOut h' b' n := by
  obtain ⟨c, ⟨pool, hp, rfl⟩ | ⟨rfl, rfl⟩⟩ := levSlabGetBlock_cases hg
  · refine ⟨hh.lt, fun c' hx => ?_, hh.notFreed, ?_, ?_, ?_⟩
    · rcases eq_or_ne c' c with rfl | hc
      · rw [Heap.setBlock_pools, Heap.setPool_pool_self] at hx
        exact hh.notPooled c' (hp ▸ List.mem_cons_of_mem _ hx)
      · rw [Heap.setBlock_pools, Heap.setPool_pool_of_ne _ _ _ hc] at hx
        exact hh.notPooled c' hx
    · simpa [hne] using hh.refcount
    · simpa [hne] using hh.size
    · simpa [hne] using hh.capacity
  · exact ⟨Nat.lt_succ_of_lt hh.lt, hh.notPooled, hh.notFreed,
      by simpa [hne, Heap.malloc] using hh.refcount, by simpa [hne, Heap.malloc] using hh.size,
      by simpa [hne, Heap.malloc] using hh.capacity⟩

theorem HandedOut.incRef (hh : HandedOut h b' n) (hne : b' ≠ b) :
    HandedOut (levSlabIncRef h b) b' n :=
  ⟨hh.lt, hh.notPooled, hh.notFreed, by simpa [levSlabIncRef, hne] using hh.refcount,
    by simpa [levSlabIncRef, hne] using hh.size, by simpa [levSlabIncRef, hne] using hh.capacity⟩

theorem HandedOut.incRef_self (hh : HandedOut h b n) : HandedOut (levSlabIncRef h b) b (n + 1) :=
  ⟨hh.lt, hh.notPooled, hh.notFreed, by simp [levSlabIncRef, hh.refcount],
    by simpa [levSlabIncRef] using hh.size, by simpa [levSlabIncRef] using hh.capacity⟩

theorem HandedOut.drop (hh : HandedOut h b' n) (hne : b' ≠ b) : HandedOut (h.drop b) b' n :=
  ⟨hh.lt, hh.notPooled, hh.notFreed, by simpa [Heap.drop, hne] using hh.refcount,
    by simpa [Heap.drop, hne] using hh.size, by simpa [Heap.drop, hne] using hh.capacity⟩

theorem HandedOut.decRef (hh : HandedOut h b' n) (hne : b' ≠ b) :
    HandedOut (levSlabDecRef h b) b' n := by
  have hd := hh.drop hne
  rcases levSlabDecRef_cases h b with ⟨_, he⟩ | ⟨_, he⟩ | ⟨_, he⟩
  · rwa [he]
  · rw [he]
    refine ⟨hd.lt, fun c hx => ?_, hd.notFreed, hd.refcount, hd.size, hd.capacity⟩
    rcases eq_or_ne c (h.blocks b).allocator with rfl | hc
    · rw [Heap.setPool_pool_self] at hx
      rcases List.mem_cons.mp hx with hx | hx
      · exact hne hx
      · exact hh.notPooled _ hx
    · rw [Heap.setPool_pool_of_ne _ _ _ hc] at hx
      exact hh.notPooled c hx
  · rw [he]
    refine ⟨hd.lt, hd.notPooled, fun hx => ?_, hd.refcount, hd.size, hd.capacity⟩
    rcases List.mem_cons.mp hx with hx | hx
    · exact hne hx
    · exact hh.notFreed hx

/-- No pool is above its limit. -/
def CountsOk (h : Heap) : Prop :=
  ∀ c, (h.pools c).pool.length ≤ (h.pools c).poolMin ∧ (h.pools c).poolMin ≤ slabMaxFreelist

theorem countsOk_setPool {c : SlabClass} {pool : List BlockId} (hk : CountsOk h)
    (hp : pool.length ≤ (h.pools c).poolMin) : CountsOk (h.setPool c pool) := by
  intro c'
  rw [Heap.setPool_poolMin]
  rcases eq_or_ne c' c with rfl | hc
  · rw [Heap.setPool_pool_self]
    exact ⟨hp, (hk c').2⟩
  · rw [Heap.setPool_pool_of_ne _ _ _ hc]
    exact hk c'

theorem countsOk_getBlock {size : ℕ} (hk : CountsOk h)
    (hg : levSlabGetBlock h size = some (b, h')) : CountsOk h' := by
  obtain ⟨c, ⟨pool, hp, rfl⟩ | ⟨rfl, rfl⟩⟩ := levSlabGetBlock_cases hg
  · have hle := (hk c).1
    rw [hp, List.length_cons] at hle
    exact countsOk_setPool hk (by omega)
  · exact hk

theorem countsOk_decRef (hk : CountsOk h) (b : BlockId) : CountsOk (levSlabDecRef h b) := by
  unfold levSlabDecRef
  simp only
  split
  · split
    · rename_i hlt
      exact countsOk_setPool hk hlt
    · exact hk
  · exact hk

theorem countsOk_fillLoop {c : SlabClass} {fuel : ℕ} (hk : CountsOk h) :
    CountsOk (slabFillLoop c fuel h) := by
  induction fuel generalizing h with
  | zero => exact hk
  | succ fuel ih =>
    rw [slabFillLoop]
    split
    · exact hk
    · rename_i hne
      have hle := (hk c).1
      refine ih (countsOk_setPool (h := (h.malloc c.blocksize).2) hk ?_)
      show ((h.pools c).pool).length + 1 ≤ (h.pools c).poolMin
      omega

theorem countsOk_fillClass {c : SlabClass} {k : ℕ} (hk : CountsOk h) :
    CountsOk (slabFillClass h c k) := by
  refine countsOk_fillLoop fun c' => ?_
  rcases eq_or_ne c' c with rfl | hc
  · simp
  · simpa [hc] using hk c'

theorem countsOk_start (junk : BlockId → ℕ → UInt8) : CountsOk (levSlabFill (Heap.boot junk)) := by
  have hboot : CountsOk (Heap.boot junk) := fun c => ⟨le_rfl, Nat.zero_le _⟩
  exact countsOk_fillClass (countsOk_fillClass (countsOk_fillClass (countsOk_fillClass
    (countsOk_fillClass hboot))))

namespace Clients

theorem safe_start (junk : BlockId → ℕ → UInt8) : Safe (start junk) where
  owned := levSlabFill_owned junk
  live := by
    intro b hb
    cases hb
  own_live := by
    intro b hb
    cases hb
  count c := (countsOk_start junk c).1
  min c := (countsOk_start junk c).2

theorem Safe.counts {s : Clients} (hs : Safe s) : CountsOk s.heap := fun c => ⟨hs.count c, hs.min c⟩

theorem Safe.poolsOk {s : Clients} (hs : Safe s) : PoolsOk s where
  pool_nodup := hs.owned.pool_nodup
  pool_notLive c b hb := by
    by_contra hl
    exact (hs.live b (eq_true_of_ne_false hl)).notPooled c hb
  pool_class := hs.owned.pool_capacity
  pool_count := hs.count
  pool_min := hs.min
  freed_nodup := hs.owned.freed_nodup
  freed_notLive b hb := by
    refine ⟨?_, fun c hc => hs.owned.pool_notFreed c b hc hb⟩
    by_contra hl
    exact (hs.live b (eq_true_of_ne_false hl)).notFreed hb

theorem safe_getBlock {s : Clients} (hs : Safe s) {size : ℕ} (hp : size ≤ 2 ^ 20) :
    Safe (next s (.getBlock size)) ∧ Handled s (.getBlock size) ∧ EndsOnce s (.getBlock size) := by
  cases hg : levSlabGetBlock s.heap size with
  | none =>
    have := levSlabGetBlock_eq_none.mp hg
    omega
  | some r =>
    obtain ⟨b, h⟩ := r
    have hf := levSlabGetBlock_fresh hs.owned hg
    have hnext : next s (.getBlock size) =
        ⟨h, Function.update s.live b true, Function.update s.own b 0⟩ := by
      simp [next, hg]
    have hnot : s.live b = false := by
      by_contra hl
      have hh := hs.live b (eq_true_of_ne_false hl)
      obtain ⟨c, ⟨pool, hpool, _⟩ | ⟨hb, _⟩⟩ := levSlabGetBlock_cases hg
      · exact hh.notPooled c (hpool ▸ List.mem_cons_self)
      · exact absurd hh.lt (hb ▸ lt_irrefl _)
    have hown : Function.update s.own b 0 = s.own := by
      rw [← hf.unowned, Function.update_eq_self]
    have hk := countsOk_getBlock hs.counts hg
    refine ⟨?_, ⟨b, h, hg, hnot, hf.handedOut.notPooled, hf.handedOut.notFreed,
      hf.handedOut.capacity.symm, hf.size_le⟩, ?_⟩
    · rw [hnext, hown]
      refine ⟨hf.owned, fun b' hb' => ?_, fun b' hb' => ?_, fun c => (hk c).1, fun c => (hk c).2⟩
      · rcases eq_or_ne b' b with rfl | hne
        · have := hf.handedOut
          rwa [← hf.unowned] at this
        · have hl : s.live b' = true := by simpa [hne] using hb'
          exact (hs.live b' hl).getBlock hg hne
      · rcases eq_or_ne b' b with rfl | hne
        · exact Function.update_self _ _ _
        · show Function.update s.live b true b' = true
          rw [Function.update_of_ne hne]
          exact hs.own_live b' hb'
    · intro b' hb'
      have hne : b' ≠ b := by
        rintro rfl
        rw [hnot] at hb'
        cases hb'
      rw [hnext]
      simp [hne, hb']

theorem safe_incRef {s : Clients} (hs : Safe s) {b : BlockId} (hp : s.live b = true) :
    Safe (next s (.incRef b)) ∧ Handled s (.incRef b) ∧ EndsOnce s (.incRef b) := by
  refine ⟨⟨levSlabIncRef_owned hs.owned (hs.live b hp), fun b' hb' => ?_, fun b' hb' => ?_,
    hs.count, hs.min⟩, ⟨rfl, rfl⟩, fun b' hb' => ?_⟩
  · show HandedOut _ b' (Function.update s.own b (s.own b + 1) b')
    rcases eq_or_ne b' b with rfl | hne
    · rw [Function.update_self]
      exact (hs.live b' hp).incRef_self
    · rw [Function.update_of_ne hne]
      exact (hs.live b' hb').incRef hne
  · rcases eq_or_ne b' b with rfl | hne
    · exact hp
    · change 0 < Function.update s.own b (s.own b + 1) b' at hb'
      rw [Function.update_of_ne hne] at hb'
      exact hs.own_live b' hb'
  · simp [next, hb']

theorem safe_decRef {s : Clients} (hs : Safe s) {b : BlockId} (hp : 0 < s.own b) :
    Safe (next s (.decRef b)) ∧ Handled s (.decRef b) ∧ EndsOnce s (.decRef b) := by
  have hown := levSlabDecRef_owned hs.owned hp
  have hlive := hs.own_live b hp
  have hb := hs.live b hlive
  have hk := countsOk_decRef hs.counts b
  have hcount : ((levSlabDecRef s.heap b).blocks b).refcount = (s.own b : ℤ) - 1 := by
    rw [levSlabDecRef_blocks, Function.update_self]
    show (s.heap.blocks b).refcount - 1 = _
    rw [hb.refcount]
  refine ⟨⟨hown, fun b' hb' => ?_, fun b' hb' => ?_, fun c => (hk c).1, fun c => (hk c).2⟩, ?_, ?_⟩
  · show HandedOut _ b' (Function.update s.own b (s.own b - 1) b')
    rcases eq_or_ne b' b with rfl | hne
    · have h1 : 1 < s.own b' := by simpa [next] using hb'
      exact hown.handedOut b' (by rw [Function.update_self]; omega)
    · have hl : s.live b' = true := by simpa [next, hne] using hb'
      rw [Function.update_of_ne hne]
      exact (hs.live b' hl).decRef hne
  · rcases eq_or_ne b' b with rfl | hne
    · change 0 < Function.update s.own b' (s.own b' - 1) b' at hb'
      rw [Function.update_self] at hb'
      show Function.update s.live b' (decide (1 < s.own b')) b' = true
      rw [Function.update_self]
      exact decide_eq_true (by omega)
    · change 0 < Function.update s.own b (s.own b - 1) b' at hb'
      rw [Function.update_of_ne hne] at hb'
      show Function.update s.live b (decide (1 < s.own b)) b' = true
      rw [Function.update_of_ne hne]
      exact hs.own_live b' hb'
  · rw [Handled, hcount]
    rcases levSlabDecRef_cases s.heap b with ⟨hne, he⟩ | ⟨h1, he⟩ | ⟨h1, he⟩
    · rw [if_neg (by rw [hb.refcount] at hne; omega), he]
      exact ⟨rfl, rfl⟩
    · rw [if_pos (by rw [hb.refcount] at h1; omega), he]
      refine .inl ⟨(s.heap.blocks b).allocator, hb.capacity.trans hb.size, rfl,
        Heap.setPool_pool_self _ _ _, fun c hc => Heap.setPool_pool_of_ne _ _ _ hc⟩
    · rw [if_pos (by rw [hb.refcount] at h1; omega), he]
      exact .inr ⟨rfl, rfl⟩
  · intro b' hb'
    rcases eq_or_ne b' b with rfl | hne
    · have hl : (next s (.decRef b')).live b' = decide (1 < s.own b') := Function.update_self _ _ _
      have hr : ((next s (.decRef b')).heap.blocks b').refcount = (s.own b' : ℤ) - 1 := hcount
      rw [hl, hr, decide_eq_false_iff_not]
      constructor
      · intro h1
        exact ⟨rfl, by omega⟩
      · rintro ⟨_, h0⟩
        omega
    · have hl : (next s (.decRef b)).live b' = s.live b' := Function.update_of_ne hne _ _
      rw [hl, hb']
      simp [hne.symm]

theorem safe_step {s : Clients} (hs : Safe s) {op : SlabOp} (hp : Permitted s op) :
    Safe (next s op) ∧ Handled s op ∧ EndsOnce s op := by
  cases op with
  | getBlock size => exact safe_getBlock hs hp
  | incRef b => exact safe_incRef hs hp
  | decRef b => exact safe_decRef hs hp

theorem safe_run {s : Clients} (hs : Safe s) {ops : List SlabOp} (h : Along next Permitted s ops) :
    Always next PoolsOk s ops ∧ Along next (fun t op => Handled t op ∧ EndsOnce t op) s ops := by
  have hstep : ∀ t op, Safe t → Permitted t op →
      Safe (next t op) ∧ Handled t op ∧ EndsOnce t op := fun t op ht hp => safe_step ht hp
  have hpools : ∀ t, Safe t → PoolsOk t := fun t ht => ht.poolsOk
  exact ⟨always_of_inv hpools (fun t op ht hp => (hstep t op ht hp).1) hs h,
    along_of_inv hstep hs h⟩

/-- In every run whose clients release only what they took, the pools are sound in each
state, each call treats its block as it should, and blocks end exactly with their last
reference. -/
theorem slab_safe (junk : BlockId → ℕ → UInt8) (ops : List SlabOp)
    (h : Along next Permitted (start junk) ops) :
    Always next PoolsOk (start junk) ops ∧
      Along next (fun s op => Handled s op ∧ EndsOnce s op) (start junk) ops :=
  safe_run (safe_start junk) h

/-- Two blocks of one class and one that has no shelf, given back in between. -/
def shelfRun : List SlabOp :=
  [.getBlock 600, .incRef 1023, .incRef 1023, .getBlock 1000000, .incRef 1552, .decRef 1023,
    .decRef 1552, .decRef 1023, .getBlock 1]

theorem slab_safe_shelfRun :
    Along next Permitted (start fun _ _ => 0) shelfRun ∧
      Always next PoolsOk (start fun _ _ => 0) shelfRun ∧
      Along next (fun s op => Handled s op ∧ EndsOnce s op) (start fun _ _ => 0) shelfRun := by
  have h : Along next Permitted (start fun _ _ => 0) shelfRun := by decide +kernel
  exact ⟨h, slab_safe (fun _ _ => 0) shelfRun h⟩

end Clients

end Lev.Slab
