import Lev.BufferConcat
import Lev.MPackReads
import Lev.ReadBuffer

/-! What a created Buffer covers. The constructor takes a length of 0 for an absent one
and falls back on the block, so every caller gets what it asked for unless it asked
for nothing. -/
namespace Lev.Buffer
open CInt Slab Memory Run

theorem pushbuffer_covers {h : Heap} {mb : ℕ} (untilLen slice : ℕ)
    (hsize : 0 < (h.blocks mb).size) :
    (levPushbufferFromMb h mb untilLen (some slice)).1 = ⟨mb, slice, untilLen⟩ ↔ untilLen ≠ 0 := by
  have hinc : ∀ m : MemBlock, m = (levSlabIncRef h mb).blocks mb → 0 < m.size := by
    rintro m rfl
    rw [levSlabIncRef_size]
    exact hsize
  constructor
  · intro he hzero
    have hlen := congrArg MemSlice.untilLen he
    simp only [levPushbufferFromMb, hzero, if_true] at hlen
    have := hinc _ rfl
    split at hlen <;> omega
  · intro hne
    simp [levPushbufferFromMb, hne]

def NewArg.bytes : NewArg → List UInt8
  | .number n => List.replicate (toSizeT n) 0
  | .str t => t

def LastHolds (s : State) (bs : List UInt8) : Prop :=
  ∃ ms, s.objs.getLast? = some (some ms) ∧ ms.untilLen = bs.length ∧ ms.contents s.heap = bs

/-- The shared block has a size. -/
def Sized (s : State) : Prop := ∀ mb, s.staticMb = some mb → 0 < (s.heap.blocks mb).size

/-- Blocks with a size keep one. -/
def KeepsSizes (h h' : Heap) : Prop := ∀ b, 0 < (h.blocks b).size → 0 < (h'.blocks b).size

theorem KeepsSizes.trans {h h' h'' : Heap} (a : KeepsSizes h h') (b : KeepsSizes h' h'') :
    KeepsSizes h h'' :=
  fun x hx => b x (a x hx)

theorem keepsSizes_same {h h' : Heap} (hs : SameAlloc h h') : KeepsSizes h h' := by
  intro b hb
  rwa [hs.size]

theorem keepsSizes_incRef (h : Heap) (b : BlockId) : KeepsSizes h (levSlabIncRef h b) := by
  intro b' hb'
  rwa [levSlabIncRef_size]

theorem keepsSizes_decRef (h : Heap) (b : BlockId) : KeepsSizes h (levSlabDecRef h b) := by
  intro b' hb'
  rw [levSlabDecRef_blocks]
  rcases eq_or_ne b' b with rfl | hne
  · rwa [Function.update_self]
  · rwa [Function.update_of_ne hne]

theorem keepsSizes_getBlock {h h' : Heap} {b : BlockId} {n : ℕ}
    (hg : levSlabGetBlock h n = some (b, h')) : KeepsSizes h h' ∧ 0 < (h'.blocks b).size := by
  obtain ⟨c, ⟨pool, _, rfl⟩ | ⟨_, rfl⟩⟩ := levSlabGetBlock_cases hg
  all_goals
    have hpos := c.blocksize_pos
    refine ⟨fun b' hb' => ?_, by simpa using hpos⟩
    rcases eq_or_ne b' b with rfl | hne
    · simpa using hpos
    · simpa [hne, Heap.malloc] using hb'

theorem staticBlock_sized {s : State} (hz : Sized s) {size : ℕ} {mb : BlockId} {h : Heap}
    (hs : staticBlock s size = some (mb, h)) : KeepsSizes s.heap h ∧ 0 < (h.blocks mb).size := by
  unfold staticBlock at hs
  cases hst : s.staticMb with
  | none =>
    simp only [hst] at hs
    exact keepsSizes_getBlock hs
  | some b =>
    simp only [hst] at hs
    split at hs
    · obtain ⟨hk, hpos⟩ := keepsSizes_getBlock hs
      exact ⟨(keepsSizes_decRef _ _).trans hk, hpos⟩
    · simp only [Option.some.injEq, Prod.mk.injEq] at hs
      obtain ⟨rfl, rfl⟩ := hs
      exact ⟨fun _ hb => hb, hz b hst⟩

theorem keepsSizes_settle (s : State) (size : ℕ) (mb : BlockId) (h : Heap) :
    KeepsSizes h (settle s size mb h).heap := by
  unfold settle
  simp only
  split
  · exact keepsSizes_incRef h mb
  · exact fun _ hb => hb

theorem levBufferNew_sized {s s' : State} (hz : Sized s) {ms : MemSlice} {size tempSize : ℕ}
    {temp : Option (List UInt8)} (hnew : levBufferNew s size temp tempSize = some (ms, s')) :
    Sized s' := by
  obtain ⟨mb, h, h', hst, hmb, rfl, hsame⟩ := levBufferNew_eq hnew
  obtain ⟨_, hpos⟩ := staticBlock_sized hz hst
  intro b hb
  have hb' : (if size ≠ (h.blocks mb).size then some mb else none) = some b := hb
  split at hb'
  · obtain rfl : mb = b := Option.some.inj hb'
    exact keepsSizes_same hsame _ (keepsSizes_incRef _ _ _ (keepsSizes_settle s size mb h mb hpos))
  · cases hb'

theorem Sized.of_keeps {s s' : State} (hz : Sized s) (hst : s'.staticMb = s.staticMb)
    (hk : KeepsSizes s.heap s'.heap) : Sized s' := by
  intro mb hmb
  exact hk mb (hz mb (hst ▸ hmb))

theorem levMemsliceResize_sizes {h h' : Heap} {ms ms' : MemSlice} {size : ℕ}
    (hr : levMemsliceResize h ms size = some (ms', h')) : KeepsSizes h h' := by
  unfold levMemsliceResize at hr
  split at hr
  · simp only [Option.some.injEq, Prod.mk.injEq] at hr
    obtain ⟨_, rfl⟩ := hr
    exact fun _ hb => hb
  · simp only at hr
    split at hr
    · simp only [Option.some.injEq, Prod.mk.injEq] at hr
      obtain ⟨_, rfl⟩ := hr
      exact keepsSizes_same (sameAlloc_addNbytes _ _ _)
    · cases hg : levSlabGetBlock h (szAdd size 1) with
      | none => simp [hg] at hr
      | some r =>
        obtain ⟨b, h₀⟩ := r
        simp only [hg, Option.some.injEq, Prod.mk.injEq] at hr
        obtain ⟨_, rfl⟩ := hr
        exact (keepsSizes_getBlock hg).1.trans ((keepsSizes_incRef _ _).trans
          ((keepsSizes_same (sameAlloc_store _ _ _ _)).trans ((keepsSizes_decRef _ _).trans
            (keepsSizes_same (sameAlloc_addNbytes _ _ _)))))

theorem sized_newindex {s s' : State} (hz : Sized s) {o : ObjId} {i : ℤ} {v : Value}
    (hs : bufferNewindex s o i v = .ok s') : Sized s' := by
  unfold bufferNewindex at hs
  cases ho : s.slice? o with
  | none => simp [ho] at hs
  | some ms =>
    simp only [ho] at hs
    split at hs
    · cases hs
    · cases v with
      | number n =>
        simp only at hs
        split at hs
        · cases hs
        · simp only [Except.ok.injEq] at hs
          subst hs
          exact hz.of_keeps rfl (keepsSizes_same (sameAlloc_store _ _ _ _))
      | operand v =>
        cases hc : operandBytes s v with
        | none => simp [hc] at hs
        | some c =>
          simp only [hc] at hs
          cases hm : levMemsliceAppendMem s.heap ms (toSizeT i - 1) c with
          | none => simp [hm] at hs
          | some r =>
            obtain ⟨ms', h'⟩ := r
            simp only [hm, Except.ok.injEq] at hs
            subst hs
            obtain ⟨h₁, he, rfl⟩ := ensure_of_append hm
            have hstore := keepsSizes_same (sameAlloc_store h₁ ms'.mb
              (ms'.slice + (toSizeT i - 1)) c)
            refine hz.of_keeps rfl (KeepsSizes.trans ?_ hstore)
            unfold levMemsliceEnsureEmptyLength at he
            split at he
            · exact levMemsliceResize_sizes he
            · simp only [Option.some.injEq, Prod.mk.injEq] at he
              obtain ⟨_, rfl⟩ := he
              exact fun _ hb => hb

theorem sized_step {s : State} {op : Op} (hz : Sized s) : Sized (next s op) := by
  cases hs : step s op with
  | error f =>
    rw [next_of_error hs]
    exact hz
  | ok s' =>
    rw [next_of_ok hs]
    cases op with
    | new a =>
      simp only [step, bufferNew] at hs
      cases hb : levBufferNew s a.size a.temp 0 with
      | none => simp [hb] at hs
      | some r =>
        obtain ⟨ms, t⟩ := r
        simp only [hb, Except.ok.injEq] at hs
        have ht : Sized t := levBufferNew_sized hz hb
        subst hs
        exact ht
    | slice o i j =>
      obtain ⟨_, ms, _, _, rfl⟩ := bufferSlice_eq hs
      exact hz.of_keeps rfl (keepsSizes_incRef _ _)
    | concat x y =>
      have hj := bufferConcat_joined s x y
      generalize newSize s (.concat x y) = n at hj
      generalize joinedSlice s (.concat x y) = onto at hj
      rw [show bufferConcat s x y = .ok s' from hs] at hj
      generalize hr : Except.ok s' = r at hj
      cases hj with
      | error f => cases hr
      | union =>
        cases hr
        exact hz.of_keeps rfl (keepsSizes_incRef _ _)
      | behind _ _ _ _ hheap =>
        cases hr
        subst hheap
        exact hz.of_keeps rfl ((keepsSizes_incRef _ _).trans (keepsSizes_same
          ((sameAlloc_addNbytes _ _ _).trans (sameAlloc_store _ _ _ _))))
      | fresh first second =>
        obtain ⟨ms, t, h', hnew, rfl, hsame⟩ := concatFresh_ok hr.symm
        exact (levBufferNew_sized hz hnew).of_keeps rfl (keepsSizes_same hsame)
    | newindex o i v => exact sized_newindex hz hs
    | gc o =>
      obtain ⟨ms, ho, rfl⟩ := bufferGc_eq hs
      exact hz.of_keeps rfl (keepsSizes_decRef _ _)

theorem sized_start (junk : BlockId → ℕ → UInt8) : Sized (start junk) := by
  intro mb hmb
  cases hmb

/-- What `lev_buffer_new` returns and stores, seen from the settled heap. -/
theorem levBufferNew_shape {s s' : State} {ms : MemSlice} {size : ℕ} {temp : Option (List UInt8)}
    (hnew : levBufferNew s size temp 0 = some (ms, s')) :
    ∃ mb h h₁, staticBlock s size = some (mb, h) ∧ KeepsSizes h h₁ ∧
      ms = (levPushbufferFromMb h₁ mb size (some (h₁.blocks mb).nbytes)).1 ∧
      s'.objs = s.objs ++ [some ms] ∧
      s'.heap.bytes = (h₁.store mb (h₁.blocks mb).nbytes
        (temp.elim (List.replicate size 0) fun t => t.take size)).bytes := by
  unfold levBufferNew at hnew
  cases hst : staticBlock s size with
  | none => simp [hst] at hnew
  | some r =>
    obtain ⟨mb, h⟩ := r
    simp only [hst, Option.some.injEq, Prod.mk.injEq] at hnew
    obtain ⟨rfl, rfl⟩ := hnew
    refine ⟨mb, h, (settle s size mb h).heap, rfl, keepsSizes_settle s size mb h, rfl, rfl, ?_⟩
    cases temp with
    | none => rfl
    | some t =>
      simp only [if_true, min_self]
      rfl

theorem NewArg.data_eq (a : NewArg) :
    (a.temp.elim (List.replicate a.size 0) fun t => t.take a.size) = a.bytes := by
  cases a with
  | number n => rfl
  | str t => exact List.take_length

theorem NewArg.bytes_length (a : NewArg) : a.bytes.length = a.size := by
  cases a with
  | number n => exact List.length_replicate
  | str t => rfl

/-- The Buffer `Buffer:new` returns holds what was asked for, unless that was nothing. -/
theorem bufferNew_holds {s s' : State} (hz : Sized s) {a : NewArg} (hs : bufferNew s a = .ok s') :
    LastHolds s' a.bytes ↔ a.size ≠ 0 := by
  unfold bufferNew at hs
  cases hb : levBufferNew s a.size a.temp 0 with
  | none => simp [hb] at hs
  | some r =>
    obtain ⟨ms, t⟩ := r
    simp only [hb, Except.ok.injEq] at hs
    subst hs
    obtain ⟨mb, h, h₁, hst, hk, hms, hobjs, hbytes⟩ := levBufferNew_shape hb
    obtain ⟨_, hpos⟩ := staticBlock_sized hz hst
    have hcov := pushbuffer_covers a.size (h₁.blocks mb).nbytes (hk mb hpos)
    rw [← hms] at hcov
    have hlast : t.objs.getLast? = some (some ms) := by
      rw [hobjs]
      exact List.getLast?_concat
    rw [NewArg.data_eq] at hbytes
    constructor
    · rintro ⟨ms', hms', hlen, _⟩ hzero
      obtain rfl : ms = ms' := Option.some.inj (Option.some.inj (hlast.symm.trans hms'))
      refine hcov.mp ?_ hzero
      rw [a.bytes_length] at hlen
      rw [← hlen, hms]
      rfl
    · intro hne
      have hwin := hcov.mpr hne
      refine ⟨ms, hlast, by rw [hwin, a.bytes_length], ?_⟩
      have hload : ms.contents t.heap =
          (h₁.store mb (h₁.blocks mb).nbytes a.bytes).load mb
            (h₁.blocks mb).nbytes a.bytes.length := by
        rw [hwin, MemSlice.contents, a.bytes_length]
        exact Heap.load_congr fun i _ => congrFun (congrFun hbytes mb) _
      exact hload.trans (Heap.load_store_self _ _ _ _)

theorem onAlloc_sized {s s' : Reader}
    (hz : ∀ mb, s.staticMb = some mb → 0 < (s.heap.blocks mb).size)
    {buf : UvBuf} (ha : onAlloc s = some (buf, s')) :
    s'.staticMb = some buf.mb ∧ buf.base = (s'.heap.blocks buf.mb).nbytes ∧
      0 < (s'.heap.blocks buf.mb).size := by
  unfold onAlloc at ha
  obtain ⟨⟨mb, h⟩, hc, he⟩ := Option.map_eq_some_iff.mp ha
  simp only [Prod.mk.injEq] at he
  obtain ⟨rfl, rfl⟩ := he
  refine ⟨rfl, rfl, ?_⟩
  cases hst : s.staticMb with
  | none =>
    simp only [hst] at hc
    exact (keepsSizes_getBlock hc).2
  | some b =>
    simp only [hst] at hc
    split at hc
    · exact (keepsSizes_getBlock hc).2
    · simp only [Option.some.injEq, Prod.mk.injEq] at hc
      obtain ⟨rfl, rfl⟩ := hc
      exact hz b hst

theorem pushed_holds {h₀ h h' : Heap} {mb base : ℕ} {data : List UInt8} {ms : MemSlice}
    (hms : (levPushbufferFromMb h mb data.length (some base)).1 = ms)
    (hsize : 0 < (h.blocks mb).size) (hbytes : h'.bytes = (h₀.store mb base data).bytes) :
    (ms.untilLen = data.length ∧ ms.contents h' = data) ↔ data.length ≠ 0 := by
  have hcov := pushbuffer_covers data.length base hsize
  rw [hms] at hcov
  constructor
  · rintro ⟨hl, _⟩
    refine hcov.mp ?_
    rw [← hl, ← hms]
    rfl
  · intro hne
    have hwin := hcov.mpr hne
    refine ⟨by rw [hwin], ?_⟩
    rw [hwin, MemSlice.contents]
    exact (Heap.load_congr fun i _ => congrFun (congrFun hbytes mb) _).trans
      (Heap.load_store_self h₀ mb base data)

/-- What is pushed, with or without a reference for `_static_mb`. -/
theorem pushbufferFromStaticMb_eq {s s' : Reader} {mb : BlockId} {nread : ℤ} {ms : MemSlice}
    (hst : s.staticMb = some mb) (hne : nread ≠ -1)
    (hp : levPushbufferFromStaticMb s nread = some (some ms, s')) :
    ∃ h, (h = s.heap ∨ h = levSlabIncRef s.heap mb) ∧
      (levPushbufferFromMb h mb (toSizeT nread) (some (h.blocks mb).nbytes)).1 = ms ∧
      s'.heap.bytes = h.bytes := by
  simp only [levPushbufferFromStaticMb, hst, Option.map_some, if_neg hne, Option.some.injEq,
    Prod.mk.injEq] at hp
  obtain ⟨hms, rfl⟩ := hp
  refine ⟨_, ?_, hms, rfl⟩
  split
  · exact .inl rfl
  · exact .inr rfl

/-- A read of `data` pushes a Buffer that holds it, unless nothing was read. -/
theorem readData_holds {s : Reader} {data : List UInt8} (hlen : data.length < 2 ^ 31)
    (hz : ∀ mb, s.staticMb = some mb → 0 < (s.heap.blocks mb).size) {ms : MemSlice} {s' : Reader}
    (hr : readData s data = some (some ms, s')) :
    (ms.untilLen = data.length ∧ ms.contents s'.heap = data) ↔ data.length ≠ 0 := by
  unfold readData at hr
  obtain ⟨⟨buf, t⟩, ha, hp⟩ := Option.bind_eq_some_iff.mp hr
  obtain ⟨hst, hbase, hpos⟩ := onAlloc_sized hz ha
  change levPushbufferFromStaticMb ⟨t.heap.store buf.mb buf.base data, t.staticMb⟩
    data.length = _ at hp
  have hread : (data.length : ℤ) ≠ -1 := by omega
  obtain ⟨h, hh, hms, hbytes⟩ := pushbufferFromStaticMb_eq
    (s := ⟨t.heap.store buf.mb buf.base data, t.staticMb⟩) hst hread hp
  have hbase' : (h.blocks buf.mb).nbytes = buf.base := by
    rcases hh with rfl | rfl
    · exact hbase.symm
    · rw [levSlabIncRef_nbytes]
      exact hbase.symm
  have hsize : 0 < (h.blocks buf.mb).size := by
    rcases hh with rfl | rfl
    · exact hpos
    · rw [levSlabIncRef_size]
      exact hpos
  have hstored : h.bytes = (t.heap.store buf.mb buf.base data).bytes := by
    rcases hh with rfl | rfl <;> rfl
  rw [toSizeT_natCast (by omega), hbase'] at hms
  exact pushed_holds hms hsize (hbytes.trans hstored)

theorem onAlloc_isSome (s : Reader) : ∃ buf s' mb, onAlloc s = some (buf, s') ∧
    s'.staticMb = some mb := by
  have hget : ∀ h, ∃ r, levSlabGetBlock h staticMbSize = some r := by
    intro h
    refine Option.ne_none_iff_exists'.mp fun hnone => ?_
    have := levSlabGetBlock_eq_none.mp hnone
    rw [staticMbSize] at this
    omega
  unfold onAlloc
  split
  · split
    · next mb _ _ =>
      obtain ⟨r, hr⟩ := hget (levSlabDecRef s.heap mb)
      exact ⟨_, _, r.1, by rw [hr, Option.map_some], rfl⟩
    · next mb _ _ => exact ⟨_, _, mb, rfl, rfl⟩
  · obtain ⟨r, hr⟩ := hget s.heap
    exact ⟨_, _, r.1, by rw [hr, Option.map_some], rfl⟩

theorem readData_isSome (s : Reader) (data : List UInt8) :
    ∃ ms s', readData s data = some (some ms, s') := by
  obtain ⟨buf, t, mb, halloc, hst⟩ := onAlloc_isSome s
  have hread : (data.length : ℤ) ≠ -1 := by omega
  simp only [readData, halloc, Option.bind_some, levPushbufferFromStaticMb, hst, Option.map_some,
    if_neg hread]
  exact ⟨_, _, rfl⟩

end Lev.Buffer
