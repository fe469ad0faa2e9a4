import Lev.BufferCounts
import Lev.Strbuf

/-! What the string buffers do to the memory: to the blocks of other owners nothing, to their
own block stores in its range, and a new block only if the slab has one. -/
namespace Lev.Json
open CInt Slab Memory
open Buffer (Exact)

variable {h h' h'' : Heap} {own : BlockId → ℕ} {lost : BlockId → Prop}

/-- Every block but the `lost` ones has as many references as owners, and without an owner it is
back in the slab. -/
structure Accounts (h : Heap) (own : BlockId → ℕ) (lost : BlockId → Prop) : Prop
    extends Exact h own lost where
  quiet : ∀ b < h.mallocs, ¬ lost b → own b = 0 → (h.blocks b).refcount = 0

section accounts
variable {skip skip' : BlockId → Prop} {b : BlockId}

theorem Accounts.congr (hx : Accounts h own skip) (hs : SameAlloc h h') : Accounts h' own skip where
  toExact := hx.toExact.congr hs
  quiet b hb hskip hown := by
    rw [hs.mallocs] at hb
    rw [hs.refcount]
    exact hx.quiet b hb hskip hown

theorem Accounts.getBlock {size : ℕ} (hx : Accounts h own skip)
    (hg : levSlabGetBlock h size = some (b, h')) :
    Accounts h' own (fun b' => b' = b ∨ skip b') where
  toExact := hx.toExact.getBlock hg
  quiet b' hb' hskip hown := by
    rw [not_or] at hskip
    obtain ⟨hne, hskip⟩ := hskip
    rw [(levSlabGetBlock_fresh hx.owned hg).others b' hne]
    refine hx.quiet b' ?_ hskip hown
    obtain ⟨c, ⟨pool, hp, rfl⟩ | ⟨rfl, rfl⟩⟩ := levSlabGetBlock_cases hg
    · exact hb'
    · have hle : b' < h.mallocs + 1 := hb'
      exact lt_of_le_of_ne (Nat.le_of_lt_succ hle) hne

theorem Accounts.incRef (hx : Accounts h own skip) (hb : HandedOut h b (own b))
    (hskip : ∀ b', skip b' → b' = b ∨ skip' b') :
    Accounts (levSlabIncRef h b) (Function.update own b (own b + 1)) skip' where
  toExact := hx.toExact.incRef hb hskip
  quiet b' hb' hskip' hown := by
    have hne : b' ≠ b := by
      rintro rfl
      rw [Function.update_self] at hown
      omega
    rw [Function.update_of_ne hne] at hown
    have hsame : (levSlabIncRef h b).blocks b' = h.blocks b' := Function.update_of_ne hne _ _
    rw [hsame]
    exact hx.quiet b' hb' (fun hs => (hskip b' hs).elim hne hskip') hown

theorem Accounts.decRef (hx : Accounts h own skip) (hb : 0 < own b) :
    Accounts (levSlabDecRef h b) (Function.update own b (own b - 1)) skip where
  toExact := hx.toExact.decRef hb
  quiet b' hb' hskip hown := by
    rw [Buffer.levSlabDecRef_mallocs] at hb'
    rw [levSlabDecRef_blocks]
    rcases eq_or_ne b' b with rfl | hne
    · rw [Function.update_self] at hown
      have hcount := (hx.owned.handedOut b' hb).refcount
      rw [Function.update_self]
      dsimp only
      omega
    · rw [Function.update_of_ne hne] at hown
      rw [Function.update_of_ne hne]
      exact hx.quiet b' hb' hskip hown

theorem accounts_fresh {size : ℕ} {h₀ : Heap} (hx : Accounts h own skip)
    (hg : levSlabGetBlock h size = some (b, h₀)) :
    own b = 0 ∧ Accounts (levSlabIncRef h₀ b) (Function.update own b 1) skip := by
  have hf := levSlabGetBlock_fresh hx.owned hg
  have hinc : Accounts (levSlabIncRef h₀ b) (Function.update own b (own b + 1)) skip :=
    (hx.getBlock hg).incRef (by rw [hf.unowned]; exact hf.handedOut) fun _ => id
  rw [hf.unowned] at hinc
  exact ⟨hf.unowned, hinc⟩

theorem accounts_move {mb : BlockId} {size : ℕ} {h₀ h₁ : Heap} (halone : own mb = 0)
    (hx : Accounts h (Function.update own mb 1) skip)
    (hg : levSlabGetBlock h size = some (b, h₀)) (hs : SameAlloc (levSlabIncRef h₀ b) h₁) :
    b ≠ mb ∧ own b = 0 ∧ Accounts (levSlabDecRef h₁ mb) (Function.update own b 1) skip := by
  obtain ⟨hunowned, hinc⟩ := accounts_fresh hx hg
  have hne : b ≠ mb := by
    rintro rfl
    rw [Function.update_self] at hunowned
    cases hunowned
  rw [Function.update_of_ne hne] at hunowned
  have hone : Function.update (Function.update own mb 1) b 1 mb = 1 := by
    rw [Function.update_of_ne hne.symm, Function.update_self]
  have hdec := (hinc.congr hs).decRef (b := mb) (by rw [hone]; exact Nat.one_pos)
  have hown : Function.update (Function.update (Function.update own mb 1) b 1) mb 0 =
      Function.update own b 1 := by
    funext x
    rcases eq_or_ne x mb with rfl | hx
    · rw [Function.update_self, Function.update_of_ne hne.symm, halone]
    · rw [Function.update_of_ne hx]
      rcases eq_or_ne x b with rfl | hxb
      · rw [Function.update_self, Function.update_self]
      · rw [Function.update_of_ne hxb, Function.update_of_ne hxb, Function.update_of_ne hx]
  rw [hone, Nat.sub_self, hown] at hdec
  exact ⟨hne, hunowned, hdec⟩

theorem accounts_free {mb : BlockId} (halone : own mb = 0)
    (hx : Accounts h (Function.update own mb 1) skip) : Accounts (levSlabDecRef h mb) own skip := by
  have hdec := hx.decRef (b := mb) (by rw [Function.update_self]; exact Nat.one_pos)
  rwa [Function.update_self, Nat.sub_self, Function.update_idem, ← halone,
    Function.update_eq_self] at hdec

end accounts

def Small (h : Heap) : Prop := ∀ b, h.capacity b ≤ 2 ^ 20

/-- Stores are only added, and no block of malloc changes its size. -/
structure Later (h h' : Heap) : Prop where
  stores : ∃ new, h'.stores = new ++ h.stores
  mallocs : h.mallocs ≤ h'.mallocs
  capacity : ∀ b < h.mallocs, h'.capacity b = h.capacity b
  small : Small h → Small h'

theorem Later.refl (h : Heap) : Later h h := ⟨⟨[], rfl⟩, le_rfl, fun _ _ => rfl, id⟩

theorem Later.trans (a : Later h h') (b : Later h' h'') : Later h h'' where
  stores := by
    obtain ⟨new, hnew⟩ := a.stores
    obtain ⟨new', hnew'⟩ := b.stores
    exact ⟨new' ++ new, by rw [hnew', hnew, List.append_assoc]⟩
  mallocs := a.mallocs.trans b.mallocs
  capacity x hx := (b.capacity x (hx.trans_le a.mallocs)).trans (a.capacity x hx)
  small hs := b.small (a.small hs)

theorem later_setBlock (h : Heap) (b : BlockId) (m : MemBlock) : Later h (h.setBlock b m) :=
  ⟨⟨[], rfl⟩, le_rfl, fun _ _ => rfl, id⟩

theorem later_store (h : Heap) (b off : ℕ) (data : List UInt8) : Later h (h.store b off data) :=
  ⟨⟨[_], rfl⟩, le_rfl, fun _ _ => rfl, id⟩

theorem later_malloc (h : Heap) (c : SlabClass) : Later h (h.malloc c.blocksize).2 := by
  refine ⟨⟨[], rfl⟩, Nat.le_succ _, fun b hb => Function.update_of_ne (Nat.ne_of_lt hb) _ _, ?_⟩
  intro hs b
  change Function.update h.capacity h.mallocs c.blocksize b ≤ 2 ^ 20
  rcases eq_or_ne b h.mallocs with rfl | hb
  · rw [Function.update_self]
    exact SlabClass.blocksize_le c
  · rw [Function.update_of_ne hb]
    exact hs b

theorem later_getBlock {size : ℕ} {b : BlockId} (hg : levSlabGetBlock h size = some (b, h')) :
    Later h h' := by
  obtain ⟨c, ⟨pool, hp, rfl⟩ | ⟨rfl, rfl⟩⟩ := levSlabGetBlock_cases hg
  · exact ⟨⟨[], rfl⟩, le_rfl, fun _ _ => rfl, id⟩
  · exact (later_malloc h c).trans (later_setBlock _ _ _)

theorem later_decRef (h : Heap) (b : BlockId) : Later h (levSlabDecRef h b) := by
  obtain ⟨-, he⟩ | ⟨-, he⟩ | ⟨-, he⟩ := levSlabDecRef_cases h b
  · exact he ▸ ⟨⟨[], rfl⟩, le_rfl, fun _ _ => rfl, id⟩
  · exact he ▸ ⟨⟨[], rfl⟩, le_rfl, fun _ _ => rfl, id⟩
  · exact he ▸ ⟨⟨[], rfl⟩, le_rfl, fun _ _ => rfl, id⟩

def Inside (h h' : Heap) : Prop :=
  ∃ new, h'.stores = new ++ h.stores ∧
    ∀ st ∈ new, st.mb < h'.mallocs ∧ st.off + st.len ≤ h'.capacity st.mb

theorem Inside.trans (a : Inside h h') (hl : Later h' h'') (b : Inside h' h'') :
    Inside h h'' := by
  obtain ⟨new, hnew, hin⟩ := a
  obtain ⟨new', hnew', hin'⟩ := b
  refine ⟨new' ++ new, by rw [hnew', hnew, List.append_assoc], fun st hst => ?_⟩
  obtain hst | hst := List.mem_append.mp hst
  · exact hin' st hst
  · obtain ⟨hlt, hle⟩ := hin st hst
    exact ⟨hlt.trans_le hl.mallocs, (hl.capacity _ hlt).symm ▸ hle⟩

def Frame (own : BlockId → ℕ) (h h' : Heap) : Prop :=
  ∀ b, 0 < own b → h'.blocks b = h.blocks b ∧ h'.bytes b = h.bytes b

/-- What a string buffer may do beside other owners. -/
structure Tidy (own : BlockId → ℕ) (h h' : Heap) : Prop where
  later : Later h h'
  inside : Inside h h'
  frame : Frame own h h'

theorem Tidy.refl (own : BlockId → ℕ) (h : Heap) : Tidy own h h where
  later := .refl h
  inside := ⟨[], rfl, fun st hst => by cases hst⟩
  frame _ _ := ⟨rfl, rfl⟩

theorem Tidy.trans (a : Tidy own h h') (b : Tidy own h' h'') : Tidy own h h'' where
  later := a.later.trans b.later
  inside := a.inside.trans b.later b.inside
  frame x hx := ⟨(b.frame x hx).1.trans (a.frame x hx).1, (b.frame x hx).2.trans (a.frame x hx).2⟩

/-- The size of a slice that starts where its block starts, the fill mark and the size of the
block. -/
structure Room where
  untilLen : ℕ
  nbytes : ℕ
  size : ℕ
  deriving DecidableEq, Repr

/-- The slab class for a size that has one. -/
def classSize (n : ℕ) : ℕ := ((slabClassOf n).map SlabClass.blocksize).getD 0

/-- How room for `n` bytes is made, as far as sizes go. -/
def Room.ensure (r : Room) (n : ℕ) : Room :=
  if n < r.untilLen then r
  else if r.untilLen = r.nbytes ∧ n + 1 ≤ r.size then ⟨n + 1, r.nbytes + (n + 1), r.size⟩
  else ⟨n + 1, n + 1, classSize (n + 1)⟩

structure Room.Ok (r : Room) : Prop where
  pos : 2 ≤ r.untilLen
  le : r.untilLen ≤ r.size
  size_le : r.size ≤ 2 ^ 20
  nbytes_lt : r.nbytes ≤ 2 ^ 21

theorem classSize_spec {n : ℕ} (hn : n ≤ 2 ^ 20) :
    ∃ c, slabClassOf n = some c ∧ classSize n = c.blocksize ∧ n ≤ c.blocksize := by
  obtain ⟨c, hc⟩ := Option.isSome_iff_exists.mp ((slabClassOf_isSome n).mpr hn)
  exact ⟨c, hc, by rw [classSize, hc]; rfl, slabClassOf_le hc⟩

theorem roomOk_fresh {k nbytes : ℕ} (hpos : 2 ≤ k) (hk : k ≤ 2 ^ 20) (hnbytes : nbytes ≤ 2 ^ 21) :
    Room.Ok ⟨k, nbytes, classSize k⟩ := by
  obtain ⟨c, -, hclass, hfit⟩ := classSize_spec hk
  exact ⟨hpos, by rw [hclass]; exact hfit, by rw [hclass]; exact SlabClass.blocksize_le c, hnbytes⟩

theorem Room.Ok.ensure {r : Room} (hr : r.Ok) {n : ℕ} (hn : n < 2 ^ 20) : (r.ensure n).Ok := by
  obtain ⟨hpos, hle, hsize, hnbytes⟩ := hr
  rw [Room.ensure]
  split
  · exact ⟨hpos, hle, hsize, hnbytes⟩
  · split
    · next hroom => exact ⟨by dsimp only; omega, hroom.2, hsize, by dsimp only; omega⟩
    · exact roomOk_fresh (by omega) (by omega) (by omega)

theorem Room.lt_ensure (r : Room) (n : ℕ) : n < (r.ensure n).untilLen := by
  rw [Room.ensure]
  split
  · assumption
  · split
    · exact Nat.lt_succ_self n
    · exact Nat.lt_succ_self n

/-- The buffer holds a block that is nobody else's; no block is without an owner but those in
the slab and the `lost` ones. -/
structure Held (own : BlockId → ℕ) (lost : BlockId → Prop) (m : Mem) (mb : BlockId) (r : Room) :
    Prop where
  ms : m.buf.ms = some ⟨mb, 0, r.untilLen⟩
  alone : own mb = 0
  exact : Accounts m.heap (Function.update own mb 1) lost
  nbytes : (m.heap.blocks mb).nbytes = r.nbytes
  size : (m.heap.blocks mb).size = r.size
  ok : r.Ok

variable {m m' : Mem} {mb : BlockId} {r : Room}

theorem Held.owned (hm : Held own lost m mb r) : Owned m.heap (Function.update own mb 1) :=
  hm.exact.owned

theorem Held.handedOut (hm : Held own lost m mb r) : HandedOut m.heap mb 1 := by
  have hout := hm.owned.handedOut mb (by rw [Function.update_self]; exact Nat.one_pos)
  rwa [Function.update_self] at hout

theorem Held.capacity (hm : Held own lost m mb r) : m.heap.capacity mb = r.size :=
  hm.handedOut.capacity.trans hm.size

theorem Held.store (hm : Held own lost m mb r) (off : ℕ) (data : List UInt8) :
    Held own lost { m with heap := m.heap.store mb off data } mb r :=
  ⟨hm.ms, hm.alone, hm.exact.congr (sameAlloc_store _ _ _ _), hm.nbytes, hm.size, hm.ok⟩

theorem Held.tidy_store (hm : Held own lost m mb r) {k : ℕ} {c : List UInt8}
    (hfit : k + c.length ≤ r.size) : Tidy own m.heap (m.heap.store mb k c) where
  later := later_store _ _ _ _
  inside := by
    refine ⟨[⟨mb, k, c.length⟩], rfl, fun st hst => ?_⟩
    cases List.mem_singleton.mp hst
    exact ⟨hm.handedOut.lt, hfit.trans_eq hm.capacity.symm⟩
  frame b hb := by
    have hne : b ≠ mb := by
      rintro rfl
      rw [hm.alone] at hb
      exact Nat.lt_irrefl 0 hb
    refine ⟨rfl, funext fun i => ?_⟩
    exact if_neg fun hx => hne hx.1

theorem Held.congr (hm : Held own lost m mb r) (hheap : m'.heap = m.heap)
    (hms : m'.buf.ms = m.buf.ms) : Held own lost m' mb r where
  ms := hms.trans hm.ms
  alone := hm.alone
  exact := hheap ▸ hm.exact
  nbytes := hheap ▸ hm.nbytes
  size := hheap ▸ hm.size
  ok := hm.ok

theorem Held.canExpand_iff (hm : Held own lost m mb r) (n : ℕ) :
    canExpand m.heap ⟨mb, 0, r.untilLen⟩ n = true ↔ r.untilLen = r.nbytes ∧ n ≤ r.size := by
  obtain ⟨hpos, hle, hsize, hnbytes⟩ := hm.ok
  simp only [canExpand, hm.nbytes, hm.size, Nat.zero_add, Bool.and_eq_true, beq_iff_eq,
    decide_eq_true_eq]
  refine and_congr_right fun hmark => ?_
  rw [szSub_of_le (by omega) (by omega), szAdd_of_lt (by omega)]
  omega

theorem getBlock_size {size : ℕ} {b : BlockId} (hg : levSlabGetBlock h size = some (b, h')) :
    (h'.blocks b).size = classSize size := by
  rw [levSlabGetBlock] at hg
  rw [classSize]
  cases hc : slabClassOf size with
  | none =>
    rw [hc] at hg
    cases hg
  | some c =>
    rw [hc] at hg
    cases hg
    simp

theorem Held.move (hm : Held own lost m mb r) {n : ℕ} (hge : r.untilLen ≤ n) (hn : n < 2 ^ 20) :
    ∃ b h₀, levSlabGetBlock m.heap (n + 1) = some (b, h₀) ∧
      let h₁ := (levSlabIncRef h₀ b).store b 0 ((levSlabIncRef h₀ b).load mb 0 r.untilLen)
      let h₂ := (levSlabDecRef h₁ mb).addNbytes b (n + 1)
      Held own lost ⟨h₂, ⟨some ⟨b, 0, n + 1⟩, m.buf.length⟩, m.log⟩ b
        ⟨n + 1, n + 1, classSize (n + 1)⟩ ∧
      Tidy own m.heap h₂ ∧ h₂.load b 0 r.untilLen = m.heap.load mb 0 r.untilLen := by
  obtain ⟨⟨b, h₀⟩, hg⟩ : ∃ x, levSlabGetBlock m.heap (n + 1) = some x := by
    rw [← Option.isSome_iff_exists, Option.isSome_iff_ne_none, ne_eq, levSlabGetBlock_eq_none]
    omega
  have hf := levSlabGetBlock_fresh hm.owned hg
  obtain ⟨hne, hfree, hdec⟩ := accounts_move hm.alone hm.exact hg
    (sameAlloc_store _ b 0 ((levSlabIncRef h₀ b).load mb 0 r.untilLen))
  refine ⟨b, h₀, hg, ?_⟩
  intro h₁ h₂
  have hblocks : ∀ x, x ≠ mb → h₂.blocks x = ((h₁.addNbytes b (n + 1)).blocks x) := by
    intro x hx
    have hbm : (levSlabDecRef h₁ mb).blocks b = h₁.blocks b := by
      rw [levSlabDecRef_blocks, Function.update_of_ne hne]
    have hxm : (levSlabDecRef h₁ mb).blocks x = h₁.blocks x := by
      rw [levSlabDecRef_blocks, Function.update_of_ne hx]
    simp only [h₂, Heap.addNbytes, Heap.setBlock_blocks, hbm]
    rcases eq_or_ne x b with rfl | hxb
    · rw [Function.update_self, Function.update_self]
    · rw [Function.update_of_ne hxb, Function.update_of_ne hxb, hxm]
  have hbytes : h₂.bytes = h₁.bytes := levSlabDecRef_bytes h₁ mb
  have hsize : (h₁.blocks b).size = classSize (n + 1) :=
    (levSlabIncRef_size h₀ b b).trans (getBlock_size hg)
  have hnbytes : (h₁.blocks b).nbytes = 0 := (levSlabIncRef_nbytes h₀ b b).trans hf.nbytes
  have hself : h₂.blocks b = { h₁.blocks b with nbytes := n + 1 } := by
    rw [hblocks b hne, Heap.addNbytes, Heap.setBlock_blocks, Function.update_self, hnbytes,
      Nat.zero_add, Nat.mod_eq_of_lt (by omega)]
  have hfit : r.untilLen ≤ (h₁.blocks b).size :=
    ((hge.trans (Nat.le_succ n)).trans hf.size_le).trans_eq (levSlabIncRef_size h₀ b b).symm
  have hlater : Later m.heap h₁ :=
    (later_getBlock hg).trans ((later_setBlock _ _ _).trans (later_store _ _ _ _))
  have hlater' : Later h₁ h₂ := (later_decRef _ _).trans (later_setBlock _ _ _)
  have hcapacity : h₁.capacity b = (h₁.blocks b).size :=
    hf.handedOut.capacity.trans (levSlabIncRef_size h₀ b b).symm
  have hlength : ((levSlabIncRef h₀ b).load mb 0 r.untilLen).length = r.untilLen :=
    Heap.load_length _ _ _ _
  refine ⟨⟨rfl, hfree, hdec.congr (sameAlloc_addNbytes _ _ _), ?_, ?_, ?_⟩, ⟨?_, ?_, ?_⟩, ?_⟩
  · exact congrArg MemBlock.nbytes hself
  · exact (congrArg MemBlock.size hself).trans hsize
  · have hpos := hm.ok.pos
    exact roomOk_fresh (by omega) (by omega) (by omega)
  · exact hlater.trans hlater'
  · refine ⟨[⟨b, 0, r.untilLen⟩], ?_, fun st hst => ?_⟩
    · have hstores : h₂.stores = h₁.stores := levSlabDecRef_stores h₁ mb
      rw [hstores, Heap.store_stores, hlength]
      exact congrArg _ hf.stores
    · cases List.mem_singleton.mp hst
      refine ⟨hf.handedOut.lt.trans_le hlater'.mallocs, ?_⟩
      rw [hlater'.capacity b hf.handedOut.lt, hcapacity, Nat.zero_add]
      exact hfit
  · intro x hx
    have hxb : x ≠ b := by
      rintro rfl
      rw [hfree] at hx
      exact Nat.lt_irrefl 0 hx
    have hxm : x ≠ mb := by
      rintro rfl
      rw [hm.alone] at hx
      exact Nat.lt_irrefl 0 hx
    constructor
    · rw [hblocks x hxm, Heap.addNbytes, Heap.setBlock_blocks, Function.update_of_ne hxb]
      exact (Function.update_of_ne hxb _ _).trans (hf.others x hxb)
    · rw [hbytes]
      refine funext fun i => ?_
      exact (if_neg fun hi => hxb hi.1).trans (congrFun (congrFun hf.bytes x) i)
  · have hload : h₂.load b 0 r.untilLen = h₁.load b 0 r.untilLen := by
      simp only [Heap.load, hbytes]
    have hdata := Heap.load_store_self (levSlabIncRef h₀ b) b 0
      ((levSlabIncRef h₀ b).load mb 0 r.untilLen)
    rw [hlength] at hdata
    rw [hload, hdata]
    have hsame : (levSlabIncRef h₀ b).bytes = m.heap.bytes := hf.bytes
    simp only [Heap.load, hsame]

/-- Room for `n` bytes and a NUL is made, with the bytes there were. -/
theorem Held.ensure (hm : Held own lost m mb r) {n : ℕ} (hn : n < 2 ^ 20) :
    ∃ mb' h', levMemsliceEnsureEmptyLength m.heap ⟨mb, 0, r.untilLen⟩ (toInt n) =
        some (⟨mb', 0, (r.ensure n).untilLen⟩, h') ∧
      Held own lost ⟨h', ⟨some ⟨mb', 0, (r.ensure n).untilLen⟩, m.buf.length⟩, m.log⟩ mb'
        (r.ensure n) ∧
      Tidy own m.heap h' ∧ h'.load mb' 0 r.untilLen = m.heap.load mb 0 r.untilLen := by
  obtain ⟨hpos, hle, hsize, hnbytes⟩ := hm.ok
  have hempty : levMemsliceEmptyLength ⟨mb, 0, r.untilLen⟩ = r.untilLen - 1 :=
    szSub_of_le (by dsimp only; omega) (by dsimp only; omega)
  have hint : toSizeT (toInt n) = n := by
    rw [toInt_of_lt (by omega), toSizeT_natCast (by omega)]
  rw [levMemsliceEnsureEmptyLength, hempty, hint]
  by_cases hlt : n < r.untilLen
  · have hroom : r.ensure n = r := if_pos hlt
    rw [if_neg (by omega), hroom]
    exact ⟨mb, m.heap, rfl, ⟨rfl, hm.alone, hm.exact, hm.nbytes, hm.size, hm.ok⟩, .refl _ _, rfl⟩
  · have hadd : szAdd n 1 = n + 1 := szAdd_of_lt (by omega)
    rw [if_pos (by omega), levMemsliceResize, hempty, hadd, if_neg (by omega)]
    dsimp only
    by_cases hexp : r.untilLen = r.nbytes ∧ n + 1 ≤ r.size
    · have hroom : r.ensure n = ⟨n + 1, r.nbytes + (n + 1), r.size⟩ :=
        (if_neg hlt).trans (if_pos hexp)
      rw [if_pos ((hm.canExpand_iff (n + 1)).mpr hexp), hroom]
      have hmark : ((m.heap.addNbytes mb (n + 1)).blocks mb).nbytes = r.nbytes + (n + 1) := by
        rw [Buffer.addNbytes_nbytes (by rw [hm.nbytes]; omega), hm.nbytes]
      have hsame := sameAlloc_addNbytes m.heap mb (n + 1)
      refine ⟨mb, _, rfl, ⟨rfl, hm.alone, hm.exact.congr hsame, hmark,
        (hsame.size mb).trans hm.size, ?_⟩, ⟨later_setBlock _ _ _, ⟨[], rfl, ?_⟩, ?_⟩, rfl⟩
      · exact hroom ▸ hm.ok.ensure hn
      · intro st hst
        cases hst
      · intro b hb
        have hne : b ≠ mb := by
          rintro rfl
          rw [hm.alone] at hb
          exact Nat.lt_irrefl 0 hb
        exact ⟨Function.update_of_ne hne _ _, rfl⟩
    · have hroom : r.ensure n = ⟨n + 1, n + 1, classSize (n + 1)⟩ :=
        (if_neg hlt).trans (if_neg hexp)
      rw [if_neg (fun hc => hexp ((hm.canExpand_iff (n + 1)).mp hc)), hroom]
      obtain ⟨b, h₀, hg, hheld, htidy, hload⟩ := hm.move (Nat.le_of_not_lt hlt) hn
      rw [hg]
      exact ⟨b, _, rfl, hheld, htidy, hload⟩

/-- A request of 1 MiB or more that fits an `int` ends in the crash. -/
theorem Held.ensure_crash (hm : Held own lost m mb r) {n : ℕ} (hn : 2 ^ 20 ≤ n)
    (hint : n < 2 ^ 31) :
    levMemsliceEnsureEmptyLength m.heap ⟨mb, 0, r.untilLen⟩ (toInt n) = none := by
  obtain ⟨hpos, hle, hsize, hnbytes⟩ := hm.ok
  have hempty : levMemsliceEmptyLength ⟨mb, 0, r.untilLen⟩ = r.untilLen - 1 :=
    szSub_of_le (by dsimp only; omega) (by dsimp only; omega)
  have hadd : szAdd n 1 = n + 1 := szAdd_of_lt (by omega)
  have hcannot : ¬ canExpand m.heap ⟨mb, 0, r.untilLen⟩ (n + 1) = true := by
    rw [hm.canExpand_iff]
    omega
  rw [levMemsliceEnsureEmptyLength, hempty, toInt_of_lt hint, toSizeT_natCast (by omega),
    if_pos (by omega), levMemsliceResize, hempty, hadd, if_neg (by omega)]
  dsimp only
  rw [if_neg hcannot, levSlabGetBlock_eq_none.mpr (by omega)]

/-- The size a buffer of wanted length `len` starts with. -/
def initSize (len : ℤ) : ℕ := toSizeT (if len ≤ 0 then strbufDefaultSize else len + 1)

theorem strbufInit_held (hx : Accounts h own lost) {len : ℤ} (hpos : 2 ≤ initSize len)
    (hsize : initSize len ≤ 2 ^ 20) :
    ∃ mb h', strbufInit h len =
        some ⟨h', ⟨some ⟨mb, 0, initSize len⟩, 0⟩, [⟨0, 1, initSize len⟩]⟩ ∧
      Held own lost ⟨h', ⟨some ⟨mb, 0, initSize len⟩, 0⟩, [⟨0, 1, initSize len⟩]⟩ mb
        ⟨initSize len, 0, classSize (initSize len)⟩ ∧
      Tidy own h h' := by
  obtain ⟨⟨b, h₀⟩, hg⟩ : ∃ x, levSlabGetBlock h (initSize len) = some x := by
    rw [← Option.isSome_iff_exists, Option.isSome_iff_ne_none, ne_eq, levSlabGetBlock_eq_none]
    omega
  have hf := levSlabGetBlock_fresh hx.owned hg
  obtain ⟨-, hinc⟩ := accounts_fresh hx hg
  have hinit : strbufInit h len = some ⟨(levSlabIncRef h₀ b).store b 0 [0],
      ⟨some ⟨b, 0, initSize len⟩, 0⟩, [⟨0, 1, initSize len⟩]⟩ := by
    change Option.map _ (levSlabGetBlock h (initSize len)) = _
    rw [hg]
    rfl
  have hbefore : Held own lost ⟨levSlabIncRef h₀ b, ⟨some ⟨b, 0, initSize len⟩, 0⟩,
      [⟨0, 1, initSize len⟩]⟩ b ⟨initSize len, 0, classSize (initSize len)⟩ :=
    ⟨rfl, hf.unowned, hinc, (levSlabIncRef_nbytes h₀ b b).trans hf.nbytes,
      (levSlabIncRef_size h₀ b b).trans (getBlock_size hg),
      roomOk_fresh hpos hsize (Nat.zero_le _)⟩
  have hroom := hbefore.ok.le
  have hlater : Later h₀ (levSlabIncRef h₀ b) := later_setBlock _ _ _
  refine ⟨b, _, hinit, hbefore.store 0 [0], Tidy.trans ⟨(later_getBlock hg).trans hlater, ?_, ?_⟩
    (hbefore.tidy_store (by dsimp only at hroom ⊢; rw [List.length_singleton]; omega))⟩
  · exact ⟨[], hf.stores, fun st hst => by cases hst⟩
  · intro x hx
    have hxb : x ≠ b := by
      rintro rfl
      rw [hf.unowned] at hx
      exact Nat.lt_irrefl 0 hx
    exact ⟨(Function.update_of_ne hxb _ _).trans (hf.others x hxb), congrFun hf.bytes x⟩

theorem strbufInit_crash (h : Heap) {len : ℤ} (hsize : 2 ^ 20 < initSize len) :
    strbufInit h len = none := by
  change Option.map _ (levSlabGetBlock h (initSize len)) = _
  rw [levSlabGetBlock_eq_none.mpr hsize]
  rfl

theorem strbufFree_exact (hm : Held own lost m mb r) :
    Accounts (strbufFree m).heap own lost ∧ Tidy own m.heap (strbufFree m).heap := by
  have hfree : (strbufFree m).heap = levSlabDecRef m.heap mb := by
    rw [strbufFree, hm.ms]
  rw [hfree]
  constructor
  · exact accounts_free hm.alone hm.exact
  · refine ⟨later_decRef _ _, ⟨[], levSlabDecRef_stores _ _, fun st hst => by cases hst⟩,
      fun x hx => ?_⟩
    have hne : x ≠ mb := by
      rintro rfl
      rw [hm.alone] at hx
      exact Nat.lt_irrefl 0 hx
    refine ⟨?_, congrFun (levSlabDecRef_bytes _ _) x⟩
    rw [levSlabDecRef_blocks, Function.update_of_ne hne]

section string
variable {u : List UInt8}

theorem strbufAppend_string (h : strbufString m = some u) (c : List UInt8) :
    ∃ m', strbufAppendMemUnsafe m c = some m' ∧ strbufString m' = some (u ++ c) := by
  obtain ⟨ms, hms, rfl⟩ := Option.map_eq_some_iff.mp h
  refine ⟨⟨m.heap.store ms.mb (ms.slice + m.buf.length) c, ⟨some ms, m.buf.length + c.length⟩,
    ⟨m.buf.length, c.length, ms.untilLen⟩ :: m.log⟩, ?_, ?_⟩
  · rw [strbufAppendMemUnsafe, strbufStore, Mem.onSlice, hms]
    rfl
  · have hkeep : (m.heap.store ms.mb (ms.slice + m.buf.length) c).load ms.mb ms.slice m.buf.length =
        m.heap.load ms.mb ms.slice m.buf.length :=
      Heap.load_store_of_disjoint _ _ _ _ _ fun _ => .inl le_rfl
    rw [strbufString, Option.map_some, Heap.load_append, hkeep, Heap.load_store_self]

theorem strbufEnsureNull_string (h : strbufString m = some u) :
    ∃ m', strbufEnsureNull m = some m' ∧ strbufString m' = some u ∧ m'.buf.length = u.length := by
  obtain ⟨ms, hms, rfl⟩ := Option.map_eq_some_iff.mp h
  refine ⟨⟨m.heap.store ms.mb (ms.slice + m.buf.length) [0], ⟨some ms, m.buf.length⟩,
    ⟨m.buf.length, 1, ms.untilLen⟩ :: m.log⟩, ?_, ?_, (Heap.load_length _ _ _ _).symm⟩
  · rw [strbufEnsureNull, strbufStore, Mem.onSlice, hms]
    exact congrArg (fun x => some (⟨_, ⟨x, _⟩, _⟩ : Mem)) rfl
  · have hkeep : (m.heap.store ms.mb (ms.slice + m.buf.length) [0]).load ms.mb ms.slice
        m.buf.length = m.heap.load ms.mb ms.slice m.buf.length :=
      Heap.load_store_of_disjoint _ _ _ _ _ fun _ => .inl le_rfl
    rw [strbufString, Option.map_some, hkeep]

theorem strbufReset_string (h : strbufString m = some u) :
    strbufString (strbufReset m) = some [] := by
  obtain ⟨ms, hms, -⟩ := Option.map_eq_some_iff.mp h
  rw [strbufString, strbufReset, hms]
  rfl

theorem Held.ensure_string (hm : Held own lost m mb r) (hlen : m.buf.length ≤ r.untilLen) {l : ℕ}
    (hl : m.buf.length + l < 2 ^ 20) (hu : strbufString m = some u) :
    ∃ m', strbufEnsureEmptyLength m l = some m' ∧ strbufString m' = some u := by
  obtain ⟨mb', h', hensure, -, -, hload⟩ := hm.ensure hl
  refine ⟨⟨h', ⟨some ⟨mb', 0, (r.ensure (m.buf.length + l)).untilLen⟩, m.buf.length⟩, m.log⟩,
    ?_, ?_⟩
  · rw [strbufEnsureEmptyLength, Mem.onSlice, hm.ms, szAdd_of_lt (by omega)]
    simp only [Window.ensureEmptyLength, Window.onSlice, hensure, Option.map_some]
  · obtain ⟨k, hk⟩ := Nat.exists_eq_add_of_le hlen
    rw [hk, Heap.load_append, Heap.load_append] at hload
    have hsame : h'.load mb' 0 m.buf.length = m.heap.load mb 0 m.buf.length :=
      List.append_inj_left hload (by rw [Heap.load_length, Heap.load_length])
    rw [strbufString, hm.ms] at hu
    rw [strbufString, Option.map_some, hsame]
    exact hu

end string

end Lev.Json
