import Lev.BufferCounts

/-! How much memory the allocator holds. What malloc gave for a class and free has not taken back
is on the shelf of its pool or with a client, and a block comes from malloc only where the shelf is
empty. So a process holds no more for a class than the shelf keeps, or than its clients once used
at a time. -/
namespace Lev.Slab
open Run

/-- The `min_number` that `lev_slab_fill` asks for. -/
def SlabClass.minNumber : SlabClass → ℕ
  | .mem1k => 1024
  | .mem8k => 512
  | .mem16k => 8
  | .mem64k => 8
  | .mem1024k => 0

/-- The blocks of a class that malloc gave and free has not got. -/
def Heap.residents (h : Heap) (c : SlabClass) : Finset BlockId :=
  (Finset.range h.mallocs).filter fun b => b ∉ h.freed ∧ h.capacity b = c.blocksize

def Heap.resident (h : Heap) (c : SlabClass) : ℕ := (h.residents c).card

variable {h h' : Heap} {b : BlockId} {c : SlabClass}

theorem Heap.mem_residents :
    b ∈ h.residents c ↔ b < h.mallocs ∧ b ∉ h.freed ∧ h.capacity b = c.blocksize := by
  rw [Heap.residents, Finset.mem_filter, Finset.mem_range]

theorem fillLoop_poolMin {fuel : ℕ} {c' : SlabClass} :
    ((slabFillLoop c fuel h).pools c').poolMin = (h.pools c').poolMin := by
  induction fuel generalizing h with
  | zero => rfl
  | succ fuel ih =>
    rw [slabFillLoop]
    split
    · rfl
    · rw [ih, Heap.setPool_poolMin]
      rfl

theorem fillClass_poolMin {k : ℕ} (c' : SlabClass) :
    ((slabFillClass h c k).pools c').poolMin =
      if c' = c then min k slabMaxFreelist else (h.pools c').poolMin := by
  rw [slabFillClass, fillLoop_poolMin]
  rcases eq_or_ne c' c with rfl | hne
  · simp
  · simp [hne]

theorem levSlabFill_poolMin (junk : BlockId → ℕ → UInt8) (c : SlabClass) :
    ((levSlabFill (Heap.boot junk)).pools c).poolMin = c.minNumber := by
  simp only [levSlabFill, fillClass_poolMin]
  cases c with
  | _ => rfl

namespace Clients

def users (s : Clients) (c : SlabClass) : Finset BlockId :=
  (Finset.range s.heap.mallocs).filter fun b =>
    s.live b = true ∧ s.heap.capacity b = c.blocksize

def inUse (s : Clients) (c : SlabClass) : ℕ := (s.users c).card

/-- A block that a client was given and has no reference to yet. -/
def Unreferenced (s : Clients) (b : BlockId) : Prop := s.live b = true ∧ s.own b = 0

/-- The clients are sound, and every block that is not with them went back. -/
structure Settled (s : Clients) : Prop where
  safe : Safe s
  exact : Buffer.Exact s.heap s.own s.Unreferenced

variable {s : Clients} {op : SlabOp}

theorem mem_users :
    b ∈ s.users c ↔ b < s.heap.mallocs ∧ s.live b = true ∧ s.heap.capacity b = c.blocksize := by
  rw [users, Finset.mem_filter, Finset.mem_range]

theorem settled_start (junk : BlockId → ℕ → UInt8) : Settled (start junk) where
  safe := safe_start junk
  exact := by
    have hx := Buffer.exact_start junk
    refine ⟨(safe_start junk).owned, fun b hb _ _ => ?_⟩
    exact hx.returned b hb id rfl

theorem settled_getBlock (hs : Settled s) {size : ℕ} (hp : size ≤ 2 ^ 20) :
    Settled (next s (.getBlock size)) where
  safe := (safe_getBlock hs.safe hp).1
  exact := by
    cases hg : levSlabGetBlock s.heap size with
    | none =>
      have hbig := levSlabGetBlock_eq_none.mp hg
      omega
    | some r =>
      obtain ⟨b, h⟩ := r
      have hunowned := (levSlabGetBlock_fresh hs.safe.owned hg).unowned
      have hnext : next s (.getBlock size) =
          ⟨h, Function.update s.live b true, Function.update s.own b 0⟩ := by
        simp [next, hg]
      have hown : Function.update s.own b 0 = s.own := by
        rw [← hunowned, Function.update_eq_self]
      have hx := hs.exact.getBlock hg
      rw [hnext, hown]
      refine ⟨hx.owned, fun b' hb' hskip => hx.returned b' hb' ?_⟩
      rintro (rfl | ⟨hlive, hzero⟩)
      · exact hskip ⟨Function.update_self _ _ _, hunowned⟩
      · refine hskip ⟨?_, hzero⟩
        show Function.update s.live b true b' = true
        rcases eq_or_ne b' b with rfl | hne
        · exact Function.update_self _ _ _
        · rw [Function.update_of_ne hne]
          exact hlive

theorem settled_incRef (hs : Settled s) (hp : s.live b = true) : Settled (next s (.incRef b)) where
  safe := (safe_incRef hs.safe hp).1
  exact := by
    refine hs.exact.incRef (hs.safe.live b hp) fun b' hskip => ?_
    obtain ⟨hlive, hzero⟩ := hskip
    rcases eq_or_ne b' b with rfl | hne
    · exact .inl rfl
    · refine .inr ⟨hlive, ?_⟩
      show Function.update s.own b (s.own b + 1) b' = 0
      rw [Function.update_of_ne hne]
      exact hzero

theorem settled_decRef (hs : Settled s) (hp : 0 < s.own b) : Settled (next s (.decRef b)) where
  safe := (safe_decRef hs.safe hp).1
  exact := by
    have hx := hs.exact.decRef hp
    refine ⟨hx.owned, fun b' hb' hskip hown => hx.returned b' hb' ?_ hown⟩
    rintro ⟨hlive, hzero⟩
    have hne : b' ≠ b := by
      rintro rfl
      omega
    refine hskip ⟨?_, hown⟩
    show Function.update s.live b (decide (1 < s.own b)) b' = true
    rw [Function.update_of_ne hne]
    exact hlive

theorem settled_step (hs : Settled s) (hp : Permitted s op) : Settled (next s op) := by
  cases op with
  | getBlock size => exact settled_getBlock hs hp
  | incRef b => exact settled_incRef hs hp
  | decRef b => exact settled_decRef hs hp

/-- What malloc gave and free has not got is on the shelf or with a client. -/
theorem Settled.residents_eq (hs : Settled s) (c : SlabClass) :
    s.heap.residents c = (s.heap.pools c).pool.toFinset ∪ s.users c := by
  ext b
  rw [Heap.mem_residents, Finset.mem_union, List.mem_toFinset, mem_users]
  constructor
  · rintro ⟨hlt, hkept, hcap⟩
    by_cases hlive : s.live b = true
    · exact .inr ⟨hlt, hlive, hcap⟩
    have hown : s.own b = 0 := by
      by_contra hne
      exact hlive (hs.safe.own_live b (Nat.pos_of_ne_zero hne))
    rcases hs.exact.returned b hlt (fun hskip => hlive hskip.1) hown with ⟨c', hin⟩ | hin
    · have hclass := SlabClass.blocksize_injective
        ((hs.safe.owned.pool_capacity c' b hin).symm.trans hcap)
      exact .inl (hclass ▸ hin)
    · exact absurd hin hkept
  · rintro (hin | ⟨hlt, hlive, hcap⟩)
    · exact ⟨hs.safe.owned.pool_lt c b hin, hs.safe.owned.pool_notFreed c b hin,
        hs.safe.owned.pool_capacity c b hin⟩
    · exact ⟨hlt, (hs.safe.live b hlive).notFreed, hcap⟩

theorem Settled.resident_eq (hs : Settled s) (c : SlabClass) :
    s.heap.resident c = (s.heap.pools c).pool.length + s.inUse c := by
  have hdisjoint : Disjoint (s.heap.pools c).pool.toFinset (s.users c) := by
    rw [Finset.disjoint_left]
    intro b hb hlive
    exact (hs.safe.live b (mem_users.mp hlive).2.1).notPooled c (List.mem_toFinset.mp hb)
  rw [Heap.resident, hs.residents_eq, Finset.card_union_of_disjoint hdisjoint,
    List.toFinset_card_of_nodup (hs.safe.owned.pool_nodup c), inUse]

theorem residents_decRef (h : Heap) (b : BlockId) (c : SlabClass) :
    (levSlabDecRef h b).residents c ⊆ h.residents c := by
  intro b' hb'
  rw [Heap.mem_residents] at hb' ⊢
  rcases levSlabDecRef_cases h b with ⟨_, he⟩ | ⟨_, he⟩ | ⟨_, he⟩
  · rwa [he] at hb'
  · rwa [he] at hb'
  · rw [he] at hb'
    exact ⟨hb'.1, fun hin => hb'.2.1 (List.mem_cons_of_mem _ hin), hb'.2.2⟩

theorem residents_getBlock {size : ℕ} (hg : levSlabGetBlock h size = some (b, h')) :
    h'.residents c ⊆ h.residents c ∨ (h'.pools c).pool = [] := by
  obtain ⟨d, hd, hcase⟩ : ∃ d, slabClassOf size = some d ∧
      ((∃ pool, (h.pools d).pool = b :: pool ∧
        h' = (h.setPool d pool).setBlock b ⟨d, 0, d.blocksize, 0⟩) ∨
      ((h.pools d).pool = [] ∧ b = h.mallocs ∧
        h' = (h.malloc d.blocksize).2.setBlock b ⟨d, 0, d.blocksize, 0⟩)) := by
    unfold levSlabGetBlock at hg
    cases hc : slabClassOf size with
    | none => simp [hc] at hg
    | some d =>
      simp only [hc, Option.some.injEq, Prod.mk.injEq] at hg
      refine ⟨d, rfl, ?_⟩
      cases hp : (h.pools d).pool with
      | nil =>
        simp only [hp] at hg
        obtain ⟨rfl, rfl⟩ := hg
        exact .inr ⟨rfl, rfl, rfl⟩
      | cons b₀ pool =>
        simp only [hp] at hg
        obtain ⟨rfl, rfl⟩ := hg
        exact .inl ⟨pool, rfl, rfl⟩
  rcases hcase with ⟨pool, -, rfl⟩ | ⟨hempty, rfl, rfl⟩
  · exact .inl fun b' hb' => hb'
  rcases eq_or_ne c d with rfl | hne
  · exact .inr hempty
  -- the new block is of the other class
  refine .inl fun b' hb' => ?_
  rw [Heap.mem_residents] at hb' ⊢
  obtain ⟨hlt, hkept, hcap⟩ := hb'
  change b' < h.mallocs + 1 at hlt
  change Function.update h.capacity h.mallocs d.blocksize b' = _ at hcap
  rcases eq_or_ne b' h.mallocs with rfl | hold
  · rw [Function.update_self] at hcap
    exact absurd (SlabClass.blocksize_injective hcap).symm hne
  · rw [Function.update_of_ne hold] at hcap
    exact ⟨lt_of_le_of_ne (Nat.le_of_lt_succ hlt) hold, hkept, hcap⟩

/-- One call takes more from malloc only where all that the class holds is in use. -/
theorem resident_step (hs : Settled s) (hp : Permitted s op) (c : SlabClass) :
    (next s op).heap.resident c ≤ max (s.heap.resident c) ((next s op).inUse c) := by
  cases op with
  | getBlock size =>
    have hs' := settled_getBlock hs hp
    cases hg : levSlabGetBlock s.heap size with
    | none =>
      have hbig := levSlabGetBlock_eq_none.mp hg
      change size ≤ 2 ^ 20 at hp
      omega
    | some r =>
      have hheap : (next s (.getBlock size)).heap = r.2 := by simp [next, hg]
      rcases residents_getBlock (c := c) hg with hsub | hempty
      · rw [hheap]
        exact le_max_of_le_left (Finset.card_le_card hsub)
      · rw [hs'.resident_eq, hheap, hempty, List.length_nil, Nat.zero_add]
        exact le_max_right _ _
  | incRef b => exact le_max_left _ _
  | decRef b => exact le_max_of_le_left (Finset.card_le_card (residents_decRef _ _ _))

theorem resident_start (junk : BlockId → ℕ → UInt8) (c : SlabClass) :
    (start junk).heap.resident c ≤ c.minNumber := by
  have hnone : (start junk).users c = ∅ := by
    refine Finset.eq_empty_of_forall_notMem fun b hb => ?_
    exact Bool.false_ne_true (mem_users.mp hb).2.1
  rw [(settled_start junk).resident_eq, inUse, hnone, Finset.card_empty, Nat.add_zero,
    ← levSlabFill_poolMin junk c]
  exact (countsOk_start junk c).1

/-- In every run whose clients release only what they took, what a class holds is on its shelf or
in use, and never more than the shelf keeps or than was in use at one time. -/
theorem resident_le_peak (junk : BlockId → ℕ → UInt8) (ops : List SlabOp) (c : SlabClass) (k : ℕ)
    (h : Along next Permitted (start junk) ops)
    (hk : Always next (fun s => s.inUse c ≤ k) (start junk) ops) :
    Always next (fun s => s.heap.resident c = (s.heap.pools c).pool.length + s.inUse c ∧
      s.heap.resident c ≤ max c.minNumber k) (start junk) ops := by
  have hkeep : ∀ t op, Settled t → Permitted t op → Settled (next t op) :=
    fun t op ht hp => settled_step ht hp
  have hsplit : Always next (fun s => s.heap.resident c = (s.heap.pools c).pool.length + s.inUse c)
      (start junk) ops := always_of_inv (fun t ht => ht.resident_eq c) hkeep (settled_start junk) h
  have hpeak : Always next (fun s => s.heap.resident c ≤ max c.minNumber k) (start junk) ops :=
    always_le_peak (f := fun s => s.heap.resident c) (g := fun s => s.inUse c) hkeep
      (fun t op ht hp => resident_step ht hp c) (settled_start junk) (resident_start junk c) h hk
  exact hsplit.and hpeak

theorem resident_le_peak_shelfRun :
    Along next Permitted (start fun _ _ => 0) shelfRun ∧
      Always next (fun s => s.inUse .mem1024k ≤ 1) (start fun _ _ => 0) shelfRun ∧
      Always next (fun s => s.heap.resident .mem1024k =
          (s.heap.pools .mem1024k).pool.length + s.inUse .mem1024k ∧
        s.heap.resident .mem1024k ≤ max SlabClass.mem1024k.minNumber 1)
        (start fun _ _ => 0) shelfRun := by
  have h : Along next Permitted (start fun _ _ => 0) shelfRun := by decide +kernel
  have hk : Always next (fun s => s.inUse .mem1024k ≤ 1) (start fun _ _ => 0) shelfRun := by
    decide +kernel
  exact ⟨h, hk, resident_le_peak (fun _ _ => 0) shelfRun .mem1024k 1 h hk⟩

end Clients

end Lev.Slab
