import Lev.Buffer
import Lev.Run

/-! The invariant that links the refcounts of blocks, their fill marks and the ranges
of the live Buffers, and what every Buffer operation does to it. -/
namespace Lev.Buffer
open CInt Slab Memory

def holds (b : BlockId) (o : Option MemSlice) : Bool := o.any fun ms => ms.mb == b

/-- The number of live Buffers on block `b`. -/
def held (objs : List (Option MemSlice)) (b : BlockId) : ℕ := objs.countP (holds b)

/-- The owners of block `b`: its live Buffers, and `_static_mb`. -/
def refs (s : State) (b : BlockId) : ℕ :=
  held s.objs b + if s.staticMb = some b then 1 else 0

structure Wf (s : State) : Prop where
  owned : Owned s.heap (refs s)
  nbytes_le : ∀ b, (s.heap.blocks b).nbytes ≤ (s.heap.blocks b).size
  size_le : ∀ b, (s.heap.blocks b).size ≤ 2 ^ 20
  static_used : ∀ b, s.staticMb = some b → 0 < (s.heap.blocks b).nbytes
  range : ∀ ms, some ms ∈ s.objs → ms.slice + ms.untilLen ≤ (s.heap.blocks ms.mb).nbytes
  pos : ∀ ms, some ms ∈ s.objs → 0 < ms.untilLen

theorem slice?_eq_some {s : State} {o : ObjId} {ms : MemSlice} :
    s.slice? o = some ms ↔ s.objs[o]? = some (some ms) := by
  simp [State.slice?, Option.join_eq_some_iff]

theorem slice?_mem {s : State} {o : ObjId} {ms : MemSlice} (h : s.slice? o = some ms) :
    some ms ∈ s.objs :=
  List.mem_of_getElem? (slice?_eq_some.mp h)

theorem held_pos {objs : List (Option MemSlice)} {ms : MemSlice} (h : some ms ∈ objs) :
    0 < held objs ms.mb :=
  List.countP_pos_iff.mpr ⟨some ms, h, by simp [holds]⟩

theorem held_append (objs : List (Option MemSlice)) (ms : MemSlice) :
    held (objs ++ [some ms]) = Function.update (held objs) ms.mb (held objs ms.mb + 1) := by
  funext b
  rcases eq_or_ne b ms.mb with rfl | hb
  · simp [held, holds]
  · simp [held, holds, hb, hb.symm]

theorem held_set {objs : List (Option MemSlice)} {o : ObjId} {ms : MemSlice}
    (h : objs[o]? = some (some ms)) (x : Option MemSlice) (b : BlockId) :
    held (objs.set o x) b =
      held objs b - (if ms.mb = b then 1 else 0) + (if holds b x then 1 else 0) := by
  obtain ⟨ho, he⟩ := List.getElem?_eq_some_iff.mp h
  rw [held, List.countP_set ho, he]
  simp [held, holds]

theorem refs_pos_of_slice {s : State} {ms : MemSlice} (h : some ms ∈ s.objs) :
    0 < refs s ms.mb :=
  Nat.add_pos_left (held_pos h) _

theorem fillLoop_blocks (c : SlabClass) (fuel : ℕ) (h : Heap) :
    (slabFillLoop c fuel h).blocks = h.blocks := by
  induction fuel generalizing h with
  | zero => rfl
  | succ fuel ih =>
    rw [slabFillLoop]
    split
    · rfl
    · exact ih _

theorem start_blocks (junk : BlockId → ℕ → UInt8) :
    (levSlabFill (Heap.boot junk)).blocks = fun _ => ⟨.mem1k, 0, 0, 0⟩ := by
  simp only [levSlabFill, slabFillClass, fillLoop_blocks]
  rfl

theorem wf_start (junk : BlockId → ℕ → UInt8) : Wf (start junk) := by
  have hb : (start junk).heap.blocks = fun _ => ⟨.mem1k, 0, 0, 0⟩ := start_blocks junk
  refine ⟨?_, ?_, ?_, ?_, ?_, ?_⟩
  · have hr : refs (start junk) = fun _ => 0 := by
      funext b
      simp [refs, start, held]
    rw [hr]
    exact levSlabFill_owned junk
  · simp [hb]
  · simp [hb]
  · simp [start]
  · simp [start]
  · simp [start]

theorem Wf.handedOut {s : State} (hw : Wf s) {ms : MemSlice} (h : some ms ∈ s.objs) :
    HandedOut s.heap ms.mb (refs s ms.mb) :=
  hw.owned.handedOut _ (refs_pos_of_slice h)

theorem Wf.slice_lt {s : State} (hw : Wf s) {ms : MemSlice} (h : some ms ∈ s.objs) :
    ms.slice + ms.untilLen ≤ 2 ^ 20 :=
  (hw.range ms h).trans ((hw.nbytes_le _).trans (hw.size_le _))

/-- The block and heap chosen at the head of `lev_buffer_new`. Either the shared block
has room and is kept, or its reference was dropped and the block is a fresh one. -/
inductive Chosen (s : State) (size : ℕ) (mb : BlockId) (h : Heap) : Prop
  | kept (static : s.staticMb = some mb) (heap : h = s.heap)
      (room : size ≤ (s.heap.blocks mb).size - (s.heap.blocks mb).nbytes)
  | fresh (h₀ : Heap) (own : Owned h₀ (held s.objs)) (blocks : ∀ b,
      (h₀.blocks b).nbytes = (s.heap.blocks b).nbytes ∧
      (h₀.blocks b).size = (s.heap.blocks b).size)
      (bytes : h₀.bytes = s.heap.bytes) (stores : h₀.stores = s.heap.stores)
      (new : Fresh h₀ h (held s.objs) mb size)

theorem staticBlock_chosen {s : State} (hw : Wf s) {size : ℕ} {mb : BlockId} {h : Heap}
    (hs : staticBlock s size = some (mb, h)) : Chosen s size mb h := by
  unfold staticBlock at hs
  cases hst : s.staticMb with
  | none =>
    simp only [hst] at hs
    have hown : Owned s.heap (held s.objs) := by
      have hr : refs s = held s.objs := by
        funext b
        simp [refs, hst]
      exact hr ▸ hw.owned
    exact .fresh s.heap hown (fun b => ⟨rfl, rfl⟩) rfl rfl (levSlabGetBlock_fresh hown hs)
  | some b =>
    have hb := hw.nbytes_le b
    have hb' := hw.size_le b
    simp only [hst, szSub_of_le hb (by omega)] at hs
    split at hs
    · have hown : Owned (levSlabDecRef s.heap b) (held s.objs) := by
        have hd := levSlabDecRef_owned hw.owned (b := b) (by simp [refs, hst])
        convert hd using 1
        funext b'
        rcases eq_or_ne b' b with rfl | hne
        · simp [refs, hst]
        · simp [refs, hst, hne, hne.symm]
      refine .fresh _ hown (fun b' => ?_) (levSlabDecRef_bytes _ _) (levSlabDecRef_stores _ _)
        (levSlabGetBlock_fresh hown hs)
      rw [levSlabDecRef_blocks]
      rcases eq_or_ne b' b with rfl | hne
      · simp
      · simp [hne]
    · simp only [Option.some.injEq, Prod.mk.injEq] at hs
      obtain ⟨rfl, rfl⟩ := hs
      exact .kept hst rfl (by omega)

/-- The state `lev_buffer_new` is in before it pushes the Buffer: the block is chosen
and `_static_mb` is settled, together with the reference it counts for. -/
def settle (s : State) (size : ℕ) (mb : BlockId) (h : Heap) : State :=
  let shared := size ≠ (h.blocks mb).size
  ⟨if shared ∧ (h.blocks mb).refcount = 0 then levSlabIncRef h mb else h,
    if shared then some mb else none, s.objs, s.created⟩

structure Settled (s t : State) (mb : BlockId) (size : ℕ) : Prop where
  owned : Owned t.heap (refs t)
  mine : HandedOut t.heap mb (refs t mb)
  static : t.staticMb = none ∨ t.staticMb = some mb
  objs : t.objs = s.objs
  created : t.created = s.created
  room : (t.heap.blocks mb).nbytes + size ≤ (t.heap.blocks mb).size
  nbytes_le : ∀ b, (t.heap.blocks b).nbytes ≤ (t.heap.blocks b).size
  size_le : ∀ b, (t.heap.blocks b).size ≤ 2 ^ 20
  range : ∀ ms, some ms ∈ t.objs → ms.slice + ms.untilLen ≤ (t.heap.blocks ms.mb).nbytes
  bytes : t.heap.bytes = s.heap.bytes
  stores : t.heap.stores = s.heap.stores

theorem settle_kept {s : State} (hw : Wf s) {size : ℕ} {mb : BlockId}
    (static : s.staticMb = some mb)
    (room : size ≤ (s.heap.blocks mb).size - (s.heap.blocks mb).nbytes) :
    settle s size mb s.heap = s := by
  have hused := hw.static_used mb static
  have hle := hw.nbytes_le mb
  have hmine := hw.owned.handedOut mb (by simp [refs, static])
  have hshared : size ≠ (s.heap.blocks mb).size := by omega
  have hcount : (s.heap.blocks mb).refcount ≠ 0 := by
    rw [hmine.refcount]
    simp [refs, static]
    omega
  simp [settle, hshared, hcount, ← static]

theorem settled_of_chosen {s : State} (hw : Wf s) {size : ℕ} {mb : BlockId} {h : Heap}
    (hc : Chosen s size mb h) : Settled s (settle s size mb h) mb size := by
  cases hc with
  | kept static heap room =>
    subst heap
    have hle := hw.nbytes_le mb
    have hmine := hw.owned.handedOut mb (by simp [refs, static])
    rw [settle_kept hw static room]
    exact ⟨hw.owned, hmine, .inr static, rfl, rfl, by omega, hw.nbytes_le, hw.size_le,
      hw.range, rfl, rfl⟩
  | fresh h₀ own blocks bytes stores new =>
    have hzero := new.unowned
    have hmine := new.handedOut
    have hother : ∀ b, b ≠ mb → (h.blocks b).nbytes = (s.heap.blocks b).nbytes ∧
        (h.blocks b).size = (s.heap.blocks b).size := by
      intro b hb
      rw [new.others b hb]
      exact blocks b
    have hmb : (h.blocks mb).nbytes = 0 := new.nbytes
    have hcap : (h.blocks mb).size ≤ 2 ^ 20 := by
      rw [hmine.size]
      exact SlabClass.blocksize_le _
    -- the block is fresh, so no live Buffer is on it
    have hlive : ∀ ms, some ms ∈ s.objs → ms.mb ≠ mb := by
      rintro ms hms rfl
      have := held_pos hms
      omega
    have hnb : ∀ b, (h.blocks b).nbytes ≤ (h.blocks b).size := by
      intro b
      rcases eq_or_ne b mb with rfl | hb
      · omega
      · rw [(hother b hb).1, (hother b hb).2]
        exact hw.nbytes_le b
    have hsz : ∀ b, (h.blocks b).size ≤ 2 ^ 20 := by
      intro b
      rcases eq_or_ne b mb with rfl | hb
      · exact hcap
      · rw [(hother b hb).2]
        exact hw.size_le b
    have hrange : ∀ ms, some ms ∈ s.objs → ms.slice + ms.untilLen ≤ (h.blocks ms.mb).nbytes := by
      intro ms hms
      rw [(hother _ (hlive ms hms)).1]
      exact hw.range ms hms
    rcases eq_or_ne size (h.blocks mb).size with hfull | hshared
    · have ht : settle s size mb h = ⟨h, none, s.objs, s.created⟩ := by
        simp [settle, hfull]
      have hr : refs (settle s size mb h) = held s.objs := by
        funext b
        simp [ht, refs]
      rw [ht] at hr ⊢
      refine ⟨hr ▸ new.owned, ?_, .inl rfl, rfl, rfl, ?_, hnb, hsz, hrange,
        new.bytes.trans bytes, new.stores.trans stores⟩
      · rw [hr, hzero]
        exact hmine
      · show (h.blocks mb).nbytes + size ≤ (h.blocks mb).size
        omega
    · have hcount : (h.blocks mb).refcount = 0 := by simpa using hmine.refcount
      have ht : settle s size mb h = ⟨levSlabIncRef h mb, some mb, s.objs, s.created⟩ := by
        simp [settle, hshared, hcount]
      have hr :
          refs (settle s size mb h) = Function.update (held s.objs) mb (held s.objs mb + 1) := by
        funext b
        rcases eq_or_ne b mb with rfl | hb
        · simp [ht, refs]
        · simp [ht, refs, hb, hb.symm]
      have hinc : Owned (levSlabIncRef h mb) (refs (settle s size mb h)) := by
        rw [hr]
        exact levSlabIncRef_owned new.owned (hzero ▸ hmine)
      have hfield : ∀ b, ((levSlabIncRef h mb).blocks b).nbytes = (h.blocks b).nbytes ∧
          ((levSlabIncRef h mb).blocks b).size = (h.blocks b).size := by
        intro b
        rcases eq_or_ne b mb with rfl | hb
        · simp [levSlabIncRef]
        · simp [levSlabIncRef, hb]
      have hself : 0 < refs (settle s size mb h) mb := by simp [hr]
      rw [ht] at hinc hself ⊢
      refine ⟨hinc, hinc.handedOut mb hself, .inr rfl, rfl, rfl, ?_, fun b => ?_, fun b => ?_,
        fun ms hms => ?_, new.bytes.trans bytes, new.stores.trans stores⟩
      · have hfit := new.size_le
        rw [(hfield mb).1, (hfield mb).2]
        omega
      · rw [(hfield b).1, (hfield b).2]
        exact hnb b
      · rw [(hfield b).2]
        exact hsz b
      · rw [(hfield _).1]
        exact hrange ms hms

theorem refs_push (s : State) (ms : MemSlice) :
    refs (s.push ms) = Function.update (refs s) ms.mb (refs s ms.mb + 1) := by
  funext b
  have hb : refs (s.push ms) b = held (s.objs ++ [some ms]) b +
      if s.staticMb = some b then 1 else 0 := rfl
  rw [hb, held_append]
  rcases eq_or_ne b ms.mb with rfl | hb
  · rw [Function.update_self, Function.update_self, refs]
    omega
  · rw [Function.update_of_ne hb, Function.update_of_ne hb, refs]

/-- A Buffer pushed onto a counted block, whose fill mark moves by `n`. -/
theorem wf_push {t : State} (ms : MemSlice) (n : ℕ) (howned : Owned t.heap (refs t))
    (hmine : HandedOut t.heap ms.mb (refs t ms.mb))
    (hstatic : ∀ b, t.staticMb = some b → b ≠ ms.mb → 0 < (t.heap.blocks b).nbytes)
    (hnb : ∀ b, (t.heap.blocks b).nbytes ≤ (t.heap.blocks b).size)
    (hsz : ∀ b, (t.heap.blocks b).size ≤ 2 ^ 20)
    (hrange : ∀ ms', some ms' ∈ t.objs →
      ms'.slice + ms'.untilLen ≤ (t.heap.blocks ms'.mb).nbytes)
    (hpos : ∀ ms', some ms' ∈ t.objs → 0 < ms'.untilLen)
    (hroom : (t.heap.blocks ms.mb).nbytes + n ≤ (t.heap.blocks ms.mb).size)
    (hend : ms.slice + ms.untilLen ≤ (t.heap.blocks ms.mb).nbytes + n)
    (hlen : 0 < ms.untilLen) :
    Wf { t.push ms with heap := (levSlabIncRef t.heap ms.mb).addNbytes ms.mb n } := by
  have hcap := hsz ms.mb
  have hinc : Owned (levSlabIncRef t.heap ms.mb) (refs (t.push ms)) := by
    rw [refs_push]
    exact levSlabIncRef_owned howned hmine
  have hself : (((levSlabIncRef t.heap ms.mb).addNbytes ms.mb n).blocks ms.mb).nbytes =
      (t.heap.blocks ms.mb).nbytes + n := by
    simp only [Heap.addNbytes, Heap.setBlock_blocks, Function.update_self, levSlabIncRef_nbytes]
    omega
  have hother : ∀ b, b ≠ ms.mb →
      (((levSlabIncRef t.heap ms.mb).addNbytes ms.mb n).blocks b).nbytes =
        (t.heap.blocks b).nbytes := by
    intro b hb
    simp [Heap.addNbytes, hb, levSlabIncRef_nbytes]
  have hsize : ∀ b, (((levSlabIncRef t.heap ms.mb).addNbytes ms.mb n).blocks b).size =
      (t.heap.blocks b).size := fun b =>
    ((sameAlloc_addNbytes _ _ _).size b).trans (levSlabIncRef_size _ _ _)
  have hgrow : ∀ b, (t.heap.blocks b).nbytes ≤
      (((levSlabIncRef t.heap ms.mb).addNbytes ms.mb n).blocks b).nbytes := by
    intro b
    rcases eq_or_ne b ms.mb with rfl | hb
    · omega
    · exact (hother b hb).ge
  refine ⟨hinc.congr (sameAlloc_addNbytes _ _ _), fun b => ?_, fun b => ?_, fun b hb => ?_,
    fun ms' hms' => ?_, fun ms' hms' => ?_⟩
  · rw [hsize]
    rcases eq_or_ne b ms.mb with rfl | hb
    · exact hself.trans_le hroom
    · rw [hother b hb]
      exact hnb b
  · rw [hsize]
    exact hsz b
  · rcases eq_or_ne b ms.mb with rfl | hne
    · show 0 < (((levSlabIncRef t.heap ms.mb).addNbytes ms.mb n).blocks ms.mb).nbytes
      omega
    · exact (hstatic b hb hne).trans_le (hgrow b)
  · rcases List.mem_append.mp hms' with hold | hnew
    · exact (hrange ms' hold).trans (hgrow _)
    · simp only [List.mem_singleton, Option.some.injEq] at hnew
      subst hnew
      exact hend.trans hself.ge
  · rcases List.mem_append.mp hms' with hold | hnew
    · exact hpos ms' hold
    · simp only [List.mem_singleton, Option.some.injEq] at hnew
      subst hnew
      exact hlen

theorem Wf.congr {s : State} (hw : Wf s) {h : Heap} (hs : SameAlloc s.heap h)
    (hn : ∀ b, (h.blocks b).nbytes = (s.heap.blocks b).nbytes) : Wf { s with heap := h } where
  owned := hw.owned.congr hs
  nbytes_le b := by
    rw [hn, hs.size]
    exact hw.nbytes_le b
  size_le b := by
    rw [hs.size]
    exact hw.size_le b
  static_used b hb := by
    rw [hn]
    exact hw.static_used b hb
  range ms hms := by
    rw [hn]
    exact hw.range ms hms
  pos := hw.pos

theorem Wf.store {s : State} (hw : Wf s) (b : BlockId) (off : ℕ) (data : List UInt8) :
    Wf { s with heap := s.heap.store b off data } :=
  hw.congr (sameAlloc_store _ _ _ _) fun _ => rfl

/-- The stores of a creating step: they lie in one block, from `off` on, and every
live Buffer of that block ends at or before `off`. -/
structure Behind (s s' : State) (mb : BlockId) (off : ℕ) : Prop where
  live : ∀ ms, some ms ∈ s.objs → ms.mb = mb → ms.slice + ms.untilLen ≤ off
  stores : ∃ w, s'.heap.stores = w ++ s.heap.stores ∧ ∀ st ∈ w, st.mb = mb ∧ off ≤ st.off
  bytes : ∀ b i, (b = mb → i < off) → s'.heap.bytes b i = s.heap.bytes b i

theorem Behind.store {s s' : State} {mb : BlockId} {off at' : ℕ} (h : Behind s s' mb off)
    (hat : off ≤ at') (data : List UInt8) :
    Behind s { s' with heap := s'.heap.store mb at' data } mb off where
  live := h.live
  stores := by
    obtain ⟨w, hw, hin⟩ := h.stores
    refine ⟨⟨mb, at', data.length⟩ :: w, by simp [hw], ?_⟩
    intro st hst
    rcases List.mem_cons.mp hst with rfl | hst
    · exact ⟨rfl, hat⟩
    · exact hin st hst
  bytes b i hi := by
    rw [← h.bytes b i hi]
    simp only [Heap.store]
    rw [if_neg]
    rintro ⟨hb, hge, _⟩
    exact absurd (hi hb) (by omega)

theorem Behind.contents {s s' : State} {mb : BlockId} {off : ℕ} (h : Behind s s' mb off)
    {ms : MemSlice} (hms : some ms ∈ s.objs) : ms.contents s'.heap = ms.contents s.heap := by
  apply Heap.load_congr
  intro i hi
  apply h.bytes
  intro hb
  have := h.live ms hms hb
  omega

theorem Behind.refl (s : State) (mb : BlockId) (off : ℕ)
    (h : ∀ ms, some ms ∈ s.objs → ms.mb = mb → ms.slice + ms.untilLen ≤ off) :
    Behind s s mb off :=
  ⟨h, ⟨[], rfl, by simp⟩, fun _ _ _ => rfl⟩

/-- What `lev_buffer_new` returns: a Buffer behind everything live in its block. -/
structure Made (s s' : State) (ms : MemSlice) (size : ℕ) : Prop where
  wf : Wf s'
  objs : s'.objs = s.objs ++ [some ms]
  created : s'.created = s.created
  untilLen : ms.untilLen = size
  behind : Behind s s' ms.mb ms.slice

theorem levBufferNew_made {s s' : State} (hw : Wf s) {ms : MemSlice} {size tempSize : ℕ}
    {temp : Option (List UInt8)} (hpos : 0 < size)
    (hnew : levBufferNew s size temp tempSize = some (ms, s')) : Made s s' ms size := by
  unfold levBufferNew at hnew
  cases hst : staticBlock s size with
  | none => simp [hst] at hnew
  | some r =>
    obtain ⟨mb, h⟩ := r
    have hs := settled_of_chosen hw (staticBlock_chosen hw hst)
    simp only [hst, Option.some.injEq, Prod.mk.injEq] at hnew
    obtain ⟨hms, hs'⟩ := hnew
    generalize ht : settle s size mb h = t at hs
    have hheap : (if size ≠ (h.blocks mb).size ∧ (h.blocks mb).refcount = 0 then
        levSlabIncRef h mb else h) = t.heap := by rw [← ht]; rfl
    have hstat : (if size ≠ (h.blocks mb).size then some mb else none) = t.staticMb := by
      rw [← ht]; rfl
    have hlen : (levPushbufferFromMb t.heap mb size (some (t.heap.blocks mb).nbytes)).1 =
        ⟨mb, (t.heap.blocks mb).nbytes, size⟩ := by
      simp [levPushbufferFromMb, Nat.ne_of_gt hpos]
    rw [hheap, hlen] at hms
    subst hms
    have hwf := wf_push ⟨mb, (t.heap.blocks mb).nbytes, size⟩ size hs.owned hs.mine
      (by rcases hs.static with hn | hn <;> simp [hn]) hs.nbytes_le hs.size_le
      hs.range (by rw [hs.objs]; exact hw.pos) hs.room le_rfl hpos
    have hbeh : Behind s { t.push ⟨mb, (t.heap.blocks mb).nbytes, size⟩ with
        heap := (levSlabIncRef t.heap mb).addNbytes mb size } mb (t.heap.blocks mb).nbytes := by
      refine ⟨fun ms hms hmb => ?_, ⟨[], hs.stores, by simp⟩, fun b i _ => ?_⟩
      · rw [← hmb]
        exact hs.range ms (hs.objs ▸ hms)
      · exact congrFun (congrFun hs.bytes b) i
    rw [hheap, hstat, ← hs.objs, ← hs.created, hlen] at hs'
    subst hs'
    exact ⟨hwf.store _ _ _, congrArg (· ++ _) hs.objs, hs.created, rfl, hbeh.store le_rfl _⟩

end Lev.Buffer
