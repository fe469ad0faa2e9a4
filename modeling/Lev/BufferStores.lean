import Lev.BufferCounts

/-! Where the Buffer operations store. A refcount lies in memory next to the data of the
blocks, so that counts are only as good as the stores: they are exact along a run as long
as no shared block is taken over and no store ends behind its block. -/
namespace Lev.Buffer
open CInt Slab Memory Run

/-- No store so far ended behind the data of its block. -/
def StoresInside (h : Heap) : Prop := ∀ st ∈ h.stores, st.off + st.len ≤ h.capacity st.mb

/-- The counts of the blocks are exact, and no store went over one. -/
structure Counted (s : State) : Prop where
  exact : RefsExact s
  inside : StoresInside s.heap

/-- The shared block that a call of `lev_buffer_new` with this size keeps. -/
def keptBlock (s : State) (size : ℕ) : Option BlockId :=
  s.staticMb.filter fun mb =>
    ¬ szSub (s.heap.blocks mb).size (s.heap.blocks mb).nbytes < size

/-- The block behind whose fill mark the operation puts bytes. -/
def filledBlock (s : State) (op : Op) : Option BlockId :=
  (newSize s op).elim ((joinedSlice s op).map MemSlice.mb) (keptBlock s)

/-- An assignment that ends `n` bytes behind the start of the slice leaves it on its block. -/
def StaysPut (h : Heap) (ms : MemSlice) (n : ℕ) : Prop :=
  n < ms.untilLen ∨ canExpand h ms (n + 1) = true

/-- The bytes an assignment puts into the slice's block end inside the block. -/
def AssignsInside (s : State) : Op → Prop
  | .newindex o i (.number n) => ∀ ms ∈ s.slice? o,
    1 ≤ toSizeT i → toSizeT i - 1 ≤ ms.untilLen → toSizeT n ≤ 255 →
    ms.slice + toSizeT i ≤ (s.heap.blocks ms.mb).size
  | .newindex o i (.operand v) => ∀ ms ∈ s.slice? o, ∀ c ∈ operandBytes s v,
    1 ≤ toSizeT i → toSizeT i - 1 ≤ ms.untilLen →
    StaysPut s.heap ms (toSizeT i - 1 + c.length) →
    ms.slice + (toSizeT i - 1) + c.length ≤ (s.heap.blocks ms.mb).size
  | _ => True

/-- A block that is filled further was not filled beyond its size before, and what is
assigned ends inside the block. -/
def Fits (s : State) (op : Op) : Prop :=
  (∀ mb ∈ filledBlock s op, (s.heap.blocks mb).nbytes ≤ (s.heap.blocks mb).size) ∧
  AssignsInside s op

/-- What keeps stores inside: fill marks and slices may lie behind the end of a block, but
by no more than the block's size. -/
structure Contained (h : Heap) (objs : List (Option MemSlice)) : Prop where
  stores : ∀ st ∈ h.stores, st.mb < h.mallocs ∧ st.off + st.len ≤ h.capacity st.mb
  filled : ∀ b, (h.blocks b).nbytes ≤ 2 * (h.blocks b).size
  size_le : ∀ b, (h.blocks b).size ≤ 2 ^ 20
  window : ∀ ms, some ms ∈ objs → ms.slice + ms.untilLen ≤ 2 * (h.blocks ms.mb).size
  pos : ∀ ms, some ms ∈ objs → 0 < ms.untilLen

variable {h h' : Heap} {objs : List (Option MemSlice)} {b : BlockId}

theorem Contained.inside (hc : Contained h objs) : StoresInside h :=
  fun st hst => (hc.stores st hst).2

theorem Contained.end_le (hc : Contained h objs) {ms : MemSlice} (hms : some ms ∈ objs) :
    ms.slice + ms.untilLen ≤ 2 ^ 21 := by
  have := hc.window ms hms
  have := hc.size_le ms.mb
  omega

structure SameFill (h h' : Heap) : Prop where
  nbytes : ∀ b, (h'.blocks b).nbytes = (h.blocks b).nbytes
  size : ∀ b, (h'.blocks b).size = (h.blocks b).size
  mallocs : h'.mallocs = h.mallocs
  capacity : h'.capacity = h.capacity
  stores : h'.stores = h.stores

theorem sameFill_incRef (h : Heap) (b : BlockId) : SameFill h (levSlabIncRef h b) :=
  ⟨levSlabIncRef_nbytes h b, levSlabIncRef_size h b, rfl, rfl, rfl⟩

theorem sameFill_decRef (h : Heap) (b : BlockId) : SameFill h (levSlabDecRef h b) where
  nbytes b' := by
    rw [levSlabDecRef_blocks]
    rcases eq_or_ne b' b with rfl | hb
    · rw [Function.update_self]
    · rw [Function.update_of_ne hb]
  size b' := by
    rw [levSlabDecRef_blocks]
    rcases eq_or_ne b' b with rfl | hb
    · rw [Function.update_self]
    · rw [Function.update_of_ne hb]
  mallocs := levSlabDecRef_mallocs h b
  capacity := by rcases levSlabDecRef_cases h b with ⟨_, he⟩ | ⟨_, he⟩ | ⟨_, he⟩ <;> rw [he] <;> rfl
  stores := levSlabDecRef_stores h b

theorem sameFill_settle (s : State) (size : ℕ) (mb : BlockId) (h : Heap) :
    SameFill h (settle s size mb h).heap := by
  unfold settle
  simp only
  split
  · exact sameFill_incRef h mb
  · exact ⟨fun _ => rfl, fun _ => rfl, rfl, rfl, rfl⟩

theorem Contained.congr (hc : Contained h objs) (hs : SameFill h h') : Contained h' objs where
  stores := by
    rw [hs.stores, hs.mallocs, hs.capacity]
    exact hc.stores
  filled b := by
    rw [hs.nbytes, hs.size]
    exact hc.filled b
  size_le b := by
    rw [hs.size]
    exact hc.size_le b
  window ms hms := by
    rw [hs.size]
    exact hc.window ms hms
  pos := hc.pos

theorem Contained.store (hc : Contained h objs) {off : ℕ} {data : List UInt8} (hb : b < h.mallocs)
    (hin : off + data.length ≤ h.capacity b) : Contained (h.store b off data) objs where
  stores st hst := by
    rcases List.mem_cons.mp hst with rfl | hst
    · exact ⟨hb, hin⟩
    · exact hc.stores st hst
  filled := hc.filled
  size_le := hc.size_le
  window := hc.window
  pos := hc.pos

theorem Contained.addNbytes (hc : Contained h objs) {n : ℕ}
    (hn : (h.blocks b).nbytes + n ≤ 2 * (h.blocks b).size) : Contained (h.addNbytes b n) objs := by
  have hsame := sameAlloc_addNbytes h b n
  refine ⟨hc.stores, fun b' => ?_, fun b' => ?_, fun ms hms => ?_, hc.pos⟩
  · rw [hsame.size]
    rcases eq_or_ne b' b with rfl | hb
    · have := hc.size_le b'
      rw [addNbytes_nbytes (by omega)]
      exact hn
    · rw [addNbytes_nbytes_of_ne hb]
      exact hc.filled b'
  · rw [hsame.size]
    exact hc.size_le b'
  · rw [hsame.size]
    exact hc.window ms hms

theorem Contained.getBlock (hc : Contained h objs) {size : ℕ}
    (hlive : ∀ ms, some ms ∈ objs → ms.mb ≠ b) (hg : levSlabGetBlock h size = some (b, h')) :
    Contained h' objs := by
  have hstores : ∀ st ∈ h'.stores, st.mb < h'.mallocs ∧ st.off + st.len ≤ h'.capacity st.mb := by
    obtain ⟨c, ⟨pool, _, rfl⟩ | ⟨_, rfl⟩⟩ := levSlabGetBlock_cases hg
    · exact hc.stores
    · intro st hst
      obtain ⟨hlt, hin⟩ := hc.stores st hst
      refine ⟨Nat.lt_succ_of_lt hlt, ?_⟩
      simpa [Heap.malloc, Nat.ne_of_lt hlt] using hin
  have hblocks : ∀ b', b' ≠ b → h'.blocks b' = h.blocks b' := by
    obtain ⟨c, ⟨pool, _, rfl⟩ | ⟨_, rfl⟩⟩ := levSlabGetBlock_cases hg <;> intro b' hb' <;>
      simp [hb', Heap.malloc]
  have hself : (h'.blocks b).nbytes = 0 ∧ (h'.blocks b).size ≤ 2 ^ 20 := by
    obtain ⟨c, ⟨pool, _, rfl⟩ | ⟨_, rfl⟩⟩ := levSlabGetBlock_cases hg <;>
      simpa using c.blocksize_le
  refine ⟨hstores, fun b' => ?_, fun b' => ?_, fun ms hms => ?_, hc.pos⟩
  · rcases eq_or_ne b' b with rfl | hb
    · omega
    · rw [hblocks b' hb]
      exact hc.filled b'
  · rcases eq_or_ne b' b with rfl | hb
    · exact hself.2
    · rw [hblocks b' hb]
      exact hc.size_le b'
  · rw [hblocks _ (hlive ms hms)]
    exact hc.window ms hms

theorem Contained.windows (hc : Contained h objs) {objs' : List (Option MemSlice)}
    (hobjs : ∀ ms, some ms ∈ objs' → some ms ∈ objs ∨
      (ms.slice + ms.untilLen ≤ 2 * (h.blocks ms.mb).size ∧ 0 < ms.untilLen)) :
    Contained h objs' where
  stores := hc.stores
  filled := hc.filled
  size_le := hc.size_le
  window ms hms := (hobjs ms hms).elim (hc.window ms) fun hnew => hnew.1
  pos ms hms := (hobjs ms hms).elim (hc.pos ms) fun hnew => hnew.2

theorem Contained.push (hc : Contained h objs) {ms : MemSlice}
    (hend : ms.slice + ms.untilLen ≤ 2 * (h.blocks ms.mb).size) (hpos : 0 < ms.untilLen) :
    Contained h (objs ++ [some ms]) := by
  refine hc.windows fun ms' hms' => ?_
  rcases List.mem_append.mp hms' with hold | hnew
  · exact .inl hold
  · simp only [List.mem_singleton, Option.some.injEq] at hnew
    subst hnew
    exact .inr ⟨hend, hpos⟩

theorem contained_start (junk : BlockId → ℕ → UInt8) :
    Contained (start junk).heap (start junk).objs := by
  have hb : (start junk).heap.blocks = fun _ => ⟨.mem1k, 0, 0, 0⟩ := start_blocks junk
  have hloop : ∀ (c : SlabClass) (fuel : ℕ) (h : Heap),
      (slabFillLoop c fuel h).stores = h.stores := by
    intro c fuel
    induction fuel with
    | zero => exact fun h => rfl
    | succ fuel ih =>
      intro h
      rw [slabFillLoop]
      split
      · rfl
      · exact ih _
  have hs : (start junk).heap.stores = [] := by
    simp only [start, levSlabFill, slabFillClass, hloop]
    rfl
  refine ⟨by simp [hs], ?_, ?_, ?_, ?_⟩
  · simp [hb]
  · simp [hb]
  · simp [start]
  · simp [start]

/-- The block `lev_buffer_new` works on has room behind its fill mark. -/
structure Ready (h : Heap) (objs : List (Option MemSlice)) (mb : BlockId) (size : ℕ) : Prop where
  contained : Contained h objs
  lt : mb < h.mallocs
  capacity : h.capacity mb = (h.blocks mb).size
  room : (h.blocks mb).nbytes + size ≤ (h.blocks mb).size
  pos : 0 < (h.blocks mb).size

theorem Ready.congr {mb : BlockId} {size : ℕ} (hr : Ready h objs mb size) (hs : SameFill h h') :
    Ready h' objs mb size where
  contained := hr.contained.congr hs
  lt := by
    rw [hs.mallocs]
    exact hr.lt
  capacity := by
    rw [hs.capacity, hs.size]
    exact hr.capacity
  room := by
    rw [hs.nbytes, hs.size]
    exact hr.room
  pos := by
    rw [hs.size]
    exact hr.pos

theorem size_pos_of_handedOut {n : ℕ} (hh : HandedOut h b n) : 0 < (h.blocks b).size := by
  rw [hh.size]
  exact SlabClass.blocksize_pos _

theorem mem_keptBlock {s : State} {size : ℕ} {mb : BlockId} :
    mb ∈ keptBlock s size ↔ s.staticMb = some mb ∧
      ¬ szSub (s.heap.blocks mb).size (s.heap.blocks mb).nbytes < size := by
  simp [keptBlock, Option.mem_def, Option.filter_eq_some_iff]

section state
variable {s s' : State}

theorem Contained.ready_fresh {size : ℕ} {mb : BlockId} {own : BlockId → ℕ}
    (hc : Contained h s.objs) (hown : Owned h own) (hheld : ∀ ms, some ms ∈ s.objs → 0 < own ms.mb)
    (hg : levSlabGetBlock h size = some (mb, h')) : Ready h' s.objs mb size := by
  have hf := levSlabGetBlock_fresh hown hg
  have hroom := hf.size_le
  have hzero := hf.nbytes
  refine ⟨hc.getBlock (fun ms hms hmb => ?_) hg, hf.handedOut.lt, hf.handedOut.capacity, by omega,
    size_pos_of_handedOut hf.handedOut⟩
  have hpos := hheld ms hms
  rw [hmb, hf.unowned] at hpos
  exact Nat.lt_irrefl 0 hpos

theorem staticBlock_ready (hx : Exact s.heap (refs s) NoBlock) (hc : Contained s.heap s.objs)
    {size : ℕ} {mb : BlockId}
    (hkept : ∀ mb ∈ keptBlock s size, (s.heap.blocks mb).nbytes ≤ (s.heap.blocks mb).size)
    (hs : staticBlock s size = some (mb, h)) : Ready h s.objs mb size := by
  unfold staticBlock at hs
  cases hst : s.staticMb with
  | none =>
    simp only [hst] at hs
    exact hc.ready_fresh hx.owned (fun ms hms => refs_pos_of_slice hms) hs
  | some b =>
    simp only [hst] at hs
    split at hs
    · have hdec := levSlabDecRef_owned hx.owned (b := b) (by simp [refs, hst])
      have hr : Function.update (refs s) b (refs s b - 1) = held s.objs := by
        funext b'
        rcases eq_or_ne b' b with rfl | hne
        · simp [refs, hst]
        · simp [refs, hst, hne, hne.symm]
      rw [hr] at hdec
      exact (hc.congr (sameFill_decRef s.heap b)).ready_fresh hdec (fun ms hms => held_pos hms) hs
    · rename_i hkeep
      simp only [Option.some.injEq, Prod.mk.injEq] at hs
      obtain ⟨rfl, rfl⟩ := hs
      have hmine := hx.owned.handedOut b (by simp [refs, hst])
      have hle := hkept b (mem_keptBlock.mpr ⟨hst, hkeep⟩)
      have hsize := hc.size_le b
      rw [szSub_of_le hle (by omega)] at hkeep
      exact ⟨hc, hmine.lt, hmine.capacity, by omega, size_pos_of_handedOut hmine⟩

/-- The new Buffer starts at the old fill mark and ends in the room behind it; the one of
length 0 may reach further. -/
theorem Ready.pushed {mb : BlockId} {size : ℕ} (hr : Ready h objs mb size) {ms : MemSlice}
    (hms : ms = (levPushbufferFromMb h mb size (some (h.blocks mb).nbytes)).1) :
    ms.mb = mb ∧ ms.slice = (h.blocks mb).nbytes ∧
      ms.slice + ms.untilLen ≤ 2 * (h.blocks mb).size ∧ 0 < ms.untilLen := by
  have hpos := hr.pos
  have hroom := hr.room
  subst hms
  refine ⟨rfl, rfl, ?_⟩
  simp only [levPushbufferFromMb, Option.getD_some, levSlabIncRef_nbytes, levSlabIncRef_size]
  split
  · split <;> omega
  · omega

theorem levBufferNew_contained (hx : Exact s.heap (refs s) NoBlock)
    (hc : Contained s.heap s.objs) {ms : MemSlice} {size tempSize : ℕ}
    {temp : Option (List UInt8)}
    (hkept : ∀ mb ∈ keptBlock s size, (s.heap.blocks mb).nbytes ≤ (s.heap.blocks mb).size)
    (hnew : levBufferNew s size temp tempSize = some (ms, s')) :
    Contained s'.heap s'.objs ∧ ms.mb < s'.heap.mallocs ∧
      ms.slice + size ≤ s'.heap.capacity ms.mb := by
  obtain ⟨mb, h, t, hst, rfl, hms, hobjs, hheap⟩ := levBufferNew_writes hnew
  have hdata := newData_length_le size temp tempSize
  have hready := (staticBlock_ready hx hc hkept hst).congr (sameFill_settle s size mb h)
  generalize (settle s size mb h).heap = t at hready hms hheap
  have hinc := hready.congr (sameFill_incRef t mb)
  obtain ⟨rfl, hslice, hend, hpos⟩ := hready.pushed hms
  have hroom := hinc.room
  have hnb := levSlabIncRef_nbytes t ms.mb ms.mb
  have hcap := hinc.capacity
  rw [hobjs, hheap]
  refine ⟨?_, hinc.lt, ?_⟩
  · refine (((hinc.contained.push ?_ hpos).store hinc.lt ?_).addNbytes ?_)
    · rw [levSlabIncRef_size]
      exact hend
    · omega
    · show (((levSlabIncRef t ms.mb)).blocks ms.mb).nbytes + size ≤ 2 * _
      show _ ≤ 2 * ((levSlabIncRef t ms.mb).blocks ms.mb).size
      omega
  · show ms.slice + size ≤ (levSlabIncRef t ms.mb).capacity ms.mb
    omega

theorem contained_new (hx : Exact s.heap (refs s) NoBlock) (hc : Contained s.heap s.objs)
    {a : NewArg} (hfits : Fits s (.new a)) (hs : bufferNew s a = .ok s') :
    Contained s'.heap s'.objs := by
  unfold bufferNew at hs
  cases hb : levBufferNew s a.size a.temp 0 with
  | none => simp [hb] at hs
  | some r =>
    obtain ⟨ms, t⟩ := r
    simp only [hb, Except.ok.injEq] at hs
    have ht := (levBufferNew_contained hx hc hfits.1 hb).1
    subst hs
    exact ht

theorem contained_slice (hc : Contained s.heap s.objs) {o : ObjId} {i j : ℤ}
    (hs : bufferSlice s o i j = .ok s') : Contained s'.heap s'.objs := by
  unfold bufferSlice at hs
  cases ho : s.slice? o with
  | none => simp [ho] at hs
  | some src =>
    have hwindow := hc.window src (slice?_mem ho)
    simp only [ho] at hs
    generalize hoff : (if toSizeT i = 0 then 1 else toSizeT i) = offset at hs
    have hone : 1 ≤ offset := by
      rw [← hoff]
      split <;> omega
    split at hs
    · cases hs
    · generalize hlen : (if toSizeT j = 0 then src.untilLen - (offset - 1) else toSizeT j) = length
        at hs
      have hpos : 0 < length := by
        rw [← hlen]
        split <;> omega
      split at hs
      · cases hs
      · simp only [Except.ok.injEq] at hs
        subst hs
        refine Contained.congr (Contained.push hc ?_ hpos) (sameFill_incRef s.heap src.mb)
        dsimp only
        omega

theorem Contained.operandLen_lt (hc : Contained s.heap s.objs) {x : Operand} (hx : x.Short) :
    operandLen s x < 2 ^ 31 := by
  cases x with
  | str t => exact hx
  | buffer o =>
    cases ho : s.slice? o with
    | none => simp [operandLen, ho]
    | some ms =>
      have := hc.end_le (slice?_mem ho)
      simp only [operandLen, ho, Option.map_some, Option.getD_some]
      omega

theorem Contained.operandBytes_lt (hc : Contained s.heap s.objs) {v : Operand} (hv : v.Short)
    {c : List UInt8} (hb : operandBytes s v = some c) : c.length < 2 ^ 31 := by
  cases v with
  | str t =>
    rw [← Option.some.inj hb]
    exact hv
  | buffer o =>
    cases ho : s.slice? o with
    | none => simp [operandBytes, ho] at hb
    | some ms =>
      have := hc.end_le (slice?_mem ho)
      simp only [operandBytes, ho, Option.map_some, Option.some.injEq] at hb
      rw [← hb, MemSlice.contents, Heap.load_length]
      omega

theorem contained_union (hc : Contained s.heap s.objs) {first second ms : MemSlice}
    (hfirst : some first ∈ s.objs) (hsecond : some second ∈ s.objs)
    (hadj : adjacent first second = true)
    (hms : ms = (levPushbufferFromMb s.heap first.mb (szAdd first.untilLen second.untilLen)
      (some (min first.slice second.slice))).1) :
    Contained (levSlabIncRef s.heap ms.mb) (s.objs ++ [some ms]) := by
  have hf := hc.window first hfirst
  have hw := hc.window second hsecond
  have hpos := hc.pos first hfirst
  have hsize := hc.size_le first.mb
  simp only [adjacent, Bool.and_eq_true, Bool.or_eq_true, beq_iff_eq, decide_eq_true_eq] at hadj
  obtain ⟨hmb, hends⟩ := hadj
  rw [← hmb] at hw
  have hsum : szAdd first.untilLen second.untilLen = first.untilLen + second.untilLen :=
    szAdd_of_lt (by omega)
  rw [hsum] at hms
  have hshape :
      ms = ⟨first.mb, min first.slice second.slice, first.untilLen + second.untilLen⟩ := by
    rw [hms, levPushbufferFromMb]
    simp only [Option.getD_some]
    rw [if_neg (by omega)]
  subst hshape
  refine Contained.congr (hc.push ?_ ?_) (sameFill_incRef s.heap first.mb) <;> dsimp only <;> omega

theorem contained_behind (hx : Exact s.heap (refs s) NoBlock) (hc : Contained s.heap s.objs)
    {first ms : MemSlice} {data : List UInt8} (hfirst : some first ∈ s.objs)
    (hlen : data.length < 2 ^ 31) (hroom : joinsBehind s first data.length)
    (hle : (s.heap.blocks first.mb).nbytes ≤ (s.heap.blocks first.mb).size)
    (hms : ms = (levPushbufferFromMb s.heap first.mb (szAdd first.untilLen data.length)
      (some first.slice)).1) :
    Contained (((levSlabIncRef s.heap first.mb).addNbytes first.mb data.length).store first.mb
      (first.slice + first.untilLen) data) (s.objs ++ [some ms]) := by
  have hpos := hc.pos first hfirst
  have hend := hc.end_le hfirst
  have hsum : szAdd first.untilLen data.length = first.untilLen + data.length :=
    szAdd_of_lt (by omega)
  have hshape : ms = ⟨first.mb, first.slice, first.untilLen + data.length⟩ := by
    rw [hms, levPushbufferFromMb, hsum]
    simp only [Option.getD_some]
    rw [if_neg (by omega)]
  subst hshape
  have hmine := hx.owned.handedOut _ (refs_pos_of_slice hfirst)
  have hcap := hmine.capacity
  have hsize := hc.size_le first.mb
  obtain ⟨hat, hfree⟩ := hroom
  rw [szSub_of_le hle (by omega)] at hfree
  have hinc : Contained (levSlabIncRef s.heap first.mb)
      (s.objs ++ [some ⟨first.mb, first.slice, first.untilLen + data.length⟩]) := by
    refine Contained.congr (hc.push ?_ ?_) (sameFill_incRef s.heap first.mb) <;> dsimp only <;>
      omega
  refine (hinc.addNbytes (b := first.mb) (n := data.length) ?_).store hmine.lt ?_
  · rw [levSlabIncRef_nbytes, levSlabIncRef_size]
    omega
  · show first.slice + first.untilLen + data.length ≤ s.heap.capacity first.mb
    omega

theorem contained_concat (hx : Exact s.heap (refs s) NoBlock) (hc : Contained s.heap s.objs)
    {x y : Operand} (hshort : x.Short ∧ y.Short) (hfits : Fits s (.concat x y))
    (hs : bufferConcat s x y = .ok s') : Contained s'.heap s'.objs := by
  have hlx := hc.operandLen_lt hshort.1
  have hly := hc.operandLen_lt hshort.2
  have hfill := hfits.1
  have hj := bufferConcat_joined s x y
  rw [filledBlock] at hfill
  generalize newSize s (.concat x y) = n at hj hfill
  generalize joinedSlice s (.concat x y) = onto at hj hfill
  rw [hs] at hj
  generalize hr : Except.ok s' = r at hj
  cases hj with
  | error f => cases hr
  | union hfirst hsecond hadj hms =>
    cases hr
    exact contained_union hc hfirst hsecond hadj hms
  | behind hfirst hdata hroom hms hheap =>
    cases hr
    subst hheap
    exact contained_behind hx hc hfirst (by omega) hroom (hfill _ rfl) hms
  | fresh first second hfirst hlen hsecond =>
    rename_i firstLen secondLen
    rw [Option.elim_some, szAdd_of_lt (by omega)] at hfill
    unfold concatFresh at hr
    rw [szAdd_of_lt (by omega)] at hr
    cases hnew : levBufferNew s (firstLen + secondLen) first firstLen with
    | none => simp [hnew] at hr
    | some r =>
      obtain ⟨ms, t⟩ := r
      simp only [hnew, Except.ok.injEq] at hr
      obtain ⟨ht, hlt, hroom⟩ := levBufferNew_contained hx hc hfill hnew
      subst hr
      refine ht.store hlt ?_
      rw [hsecond]
      omega

theorem canExpand_mono {ms : MemSlice} {n m : ℕ} (hnm : n ≤ m) (hm : canExpand h ms m = true) :
    canExpand h ms n = true := by
  simp only [canExpand, Bool.and_eq_true, decide_eq_true_eq] at hm ⊢
  exact ⟨hm.1, hnm.trans hm.2⟩

/-- What an assignment of bytes does to its slice: the bytes lie inside, or it grows at the
end of its block, or it moves to a new block. A wanted length from 2^31 on does not survive
the way through an `int`. -/
theorem append_cases (hc : Contained s.heap s.objs) {ms ms' : MemSlice} {start : ℕ}
    {c : List UInt8} (hms : some ms ∈ s.objs) (hstart : start ≤ ms.untilLen)
    (hlen : c.length < 2 ^ 31) (ha : levMemsliceAppendMem s.heap ms start c = some (ms', h')) :
    (start + c.length < ms.untilLen ∧ ms' = ms ∧
      h' = s.heap.store ms.mb (ms.slice + start) c) ∨
    (ms.untilLen ≤ start + c.length ∧ canExpand s.heap ms (start + c.length + 1) = true ∧
      ∃ w, (start + c.length < 2 ^ 31 → w = start + c.length) ∧
        ms' = { ms with untilLen := w + 1 } ∧
        h' = (s.heap.addNbytes ms.mb (w + 1)).store ms.mb (ms.slice + start) c) ∨
    (¬ StaysPut s.heap ms (start + c.length) ∧ ms.untilLen ≤ start + c.length ∧
      ∃ b h₀, levSlabGetBlock s.heap (start + c.length + 1) = some (b, h₀) ∧
        ms' = ⟨b, 0, start + c.length + 1⟩ ∧
        h' = ((levSlabDecRef ((levSlabIncRef h₀ b).store b 0
          ((levSlabIncRef h₀ b).load ms.mb ms.slice ms.untilLen)) ms.mb).addNbytes b
            (start + c.length + 1)).store b (0 + start) c) := by
  have hpos := hc.pos ms hms
  have hend := hc.end_le hms
  obtain ⟨h₁, he, rfl⟩ := ensure_of_append ha
  rw [szAdd_of_lt (by omega)] at he
  have hempty : levMemsliceEmptyLength ms = ms.untilLen - 1 := szSub_of_le hpos (by omega)
  generalize hn : start + c.length = n at *
  have hwant : (n < 2 ^ 31 → toSizeT (toInt n) = n) ∧ n ≤ toSizeT (toInt n) ∧
      toSizeT (toInt n) < 2 ^ 64 - 1 ∧ (2 ^ 31 ≤ n → 2 ^ 63 ≤ toSizeT (toInt n)) := by
    have hlt := toSizeT_toInt_lt (n := n) (by omega)
    rcases Nat.lt_or_ge n (2 ^ 31) with hsmall | hlarge
    · rw [toInt_of_lt hsmall, toSizeT_natCast (by omega)]
      omega
    · have hge := toSizeT_toInt_ge hlarge (by omega)
      omega
  unfold levMemsliceEnsureEmptyLength at he
  rw [hempty] at he
  generalize toSizeT (toInt n) = w at hwant he
  obtain ⟨hexact, hge, hlt, hhuge⟩ := hwant
  split at he
  · rename_i hgrow
    rcases levMemsliceResize_cases hpos (by omega) hlt he with
      ⟨hin, _, _⟩ | ⟨_, hexp, rfl, rfl⟩ | ⟨_, hexp, b, h₀, hg, rfl, rfl⟩
    · omega
    · exact .inr (.inl ⟨by omega, canExpand_mono (by omega) hexp, w, hexact, rfl, rfl⟩)
    · have hnot : ¬ 2 ^ 20 < w + 1 := by
        intro hbig
        rw [levSlabGetBlock_eq_none.mpr hbig] at hg
        cases hg
      obtain rfl := hexact (by omega)
      refine .inr (.inr ⟨?_, by omega, b, h₀, hg, rfl, rfl⟩)
      rintro (hin | hexp')
      · omega
      · exact absurd hexp' (Bool.eq_false_iff.mp hexp)
  · simp only [Option.some.injEq, Prod.mk.injEq] at he
    obtain ⟨rfl, rfl⟩ := he
    refine .inl ⟨by omega, rfl, rfl⟩

/-- A slice inside its block that grows in place stays inside, whatever the fill mark. -/
theorem canExpand_room {ms : MemSlice} {n : ℕ} (hstart : ms.slice ≤ (h.blocks ms.mb).size)
    (he : canExpand h ms n = true) :
    ms.slice + ms.untilLen = (h.blocks ms.mb).nbytes ∧ ms.slice + n ≤ (h.blocks ms.mb).size := by
  simp only [canExpand, Bool.and_eq_true, beq_iff_eq, decide_eq_true_eq] at he
  obtain ⟨hat, hroom⟩ := he
  refine ⟨hat, ?_⟩
  unfold szAdd szSub at hroom
  omega

/-- A slice that moves takes a block with room for the old bytes and the new ones. -/
theorem contained_move (hx : Exact s.heap (refs s) NoBlock) (hc : Contained s.heap s.objs)
    {o : ObjId} {ms : MemSlice} {start : ℕ} {c : List UInt8} {b : BlockId} {h₀ : Heap}
    (hgrow : ms.untilLen ≤ start + c.length)
    (hg : levSlabGetBlock s.heap (start + c.length + 1) = some (b, h₀)) :
    Contained (((levSlabDecRef ((levSlabIncRef h₀ b).store b 0
        ((levSlabIncRef h₀ b).load ms.mb ms.slice ms.untilLen)) ms.mb).addNbytes b
          (start + c.length + 1)).store b (0 + start) c)
      (s.objs.set o (some ⟨b, 0, start + c.length + 1⟩)) := by
  generalize hn : start + c.length = n at *
  have hready : Ready h₀ s.objs b (n + 1) :=
    hc.ready_fresh hx.owned (fun ms hms => refs_pos_of_slice hms) hg
  have hinc := hready.congr (sameFill_incRef h₀ b)
  generalize levSlabIncRef h₀ b = h₁ at hinc
  have hroom := hinc.room
  have hcap := hinc.capacity
  have hcopied : Contained (h₁.store b 0 (h₁.load ms.mb ms.slice ms.untilLen)) s.objs := by
    refine hinc.contained.store hinc.lt ?_
    rw [Heap.load_length]
    omega
  have hfill := sameFill_decRef (h₁.store b 0 (h₁.load ms.mb ms.slice ms.untilLen)) ms.mb
  generalize levSlabDecRef (h₁.store b 0 (h₁.load ms.mb ms.slice ms.untilLen)) ms.mb = h₂ at hfill
  have hnb : (h₂.blocks b).nbytes = (h₁.blocks b).nbytes := hfill.nbytes b
  have hsz : (h₂.blocks b).size = (h₁.blocks b).size := hfill.size b
  have hfilled : Contained (h₂.addNbytes b (n + 1)) s.objs :=
    (hcopied.congr hfill).addNbytes (by omega)
  have hmoved : Contained (h₂.addNbytes b (n + 1)) (s.objs.set o (some ⟨b, 0, n + 1⟩)) := by
    refine hfilled.windows fun ms' hms' => ?_
    rcases mem_set hms' with he | hold
    · cases he
      refine .inr ⟨?_, Nat.succ_pos n⟩
      rw [(sameAlloc_addNbytes _ _ _).size]
      dsimp only
      omega
    · exact .inl hold
  refine hmoved.store (hfill.mallocs ▸ hinc.lt) ?_
  show 0 + start + c.length ≤ h₂.capacity b
  rw [hfill.capacity]
  show 0 + start + c.length ≤ h₁.capacity b
  omega

theorem contained_newindex (hx : Exact s.heap (refs s) NoBlock) (hc : Contained s.heap s.objs)
    {o : ObjId} {i : ℤ} {v : Value} (hv : v.Short) (hfits : Fits s (.newindex o i v))
    (hs : bufferNewindex s o i v = .ok s') : Contained s'.heap s'.objs := by
  have hin := hfits.2
  unfold bufferNewindex at hs
  cases ho : s.slice? o with
  | none => simp [ho] at hs
  | some ms =>
    have hms := slice?_mem ho
    have hmine := hx.owned.handedOut _ (refs_pos_of_slice hms)
    have hcap := hmine.capacity
    simp only [ho] at hs
    split at hs
    · cases hs
    · rename_i hidx
      cases v with
      | number n =>
        simp only at hs
        split at hs
        · cases hs
        · simp only [Except.ok.injEq] at hs
          subst hs
          have hend := hin ms ho (by omega) (by omega) (by omega)
          refine hc.store hmine.lt ?_
          rw [List.length_singleton]
          omega
      | operand v =>
        cases hb : operandBytes s v with
        | none => simp [hb] at hs
        | some c =>
          have hlen := hc.operandBytes_lt hv hb
          have hend := hin ms ho c hb (by omega) (by omega)
          simp only [hb] at hs
          cases hm : levMemsliceAppendMem s.heap ms (toSizeT i - 1) c with
          | none => simp [hm] at hs
          | some r =>
            obtain ⟨ms', h'⟩ := r
            simp only [hm, Except.ok.injEq] at hs
            subst hs
            generalize toSizeT i - 1 = start at *
            have hwindow := hc.end_le hms
            have hsize := hc.size_le ms.mb
            rcases append_cases hc hms (by omega) hlen hm with
              ⟨hsmall, rfl, rfl⟩ | ⟨hgrow, hexp, w, hw, rfl, rfl⟩ |
              ⟨_, hgrow, b, h₀, hg, rfl, rfl⟩
            · have hend := hend (.inl hsmall)
              have hsame : (s.put o ms' s.heap).objs = s.objs := by rw [put_self ho]
              refine Contained.store ?_ hmine.lt (by omega)
              rw [← hsame] at hc
              exact hc
            · have hend := hend (.inr hexp)
              obtain ⟨hat, hroom⟩ := canExpand_room (by omega) hexp
              obtain rfl := hw (by omega)
              refine Contained.store (h := s.heap.addNbytes ms.mb (start + c.length + 1))
                ?_ hmine.lt ?_
              · refine (hc.addNbytes (by omega)).windows fun ms' hms' => ?_
                rcases mem_set hms' with he | hold
                · cases he
                  refine .inr ⟨?_, Nat.succ_pos _⟩
                  rw [(sameAlloc_addNbytes _ _ _).size]
                  dsimp only
                  omega
                · exact .inl hold
              · show ms.slice + start + c.length ≤ s.heap.capacity ms.mb
                omega
            · exact contained_move hx hc hgrow hg

theorem contained_step (hx : Exact s.heap (refs s) NoBlock) (hc : Contained s.heap s.objs)
    {op : Op} (hserved : Served s op) (hfits : Fits s op) :
    Contained (next s op).heap (next s op).objs := by
  cases hs : step s op with
  | error f =>
    rw [next_of_error hs]
    exact hc
  | ok s' =>
    rw [next_of_ok hs]
    cases op with
    | new a => exact contained_new hx hc hfits hs
    | slice o i j => exact contained_slice hc hs
    | concat x y => exact contained_concat hx hc hserved.1 hfits hs
    | newindex o i v => exact contained_newindex hx hc hserved.1 hfits hs
    | gc o =>
      obtain ⟨ms, ho, rfl⟩ := bufferGc_eq hs
      refine (hc.windows fun ms' hms' => ?_).congr (sameFill_decRef s.heap ms.mb)
      rcases mem_set hms' with he | hold
      · cases he
      · exact .inl hold

theorem not_inside_of_mem {mb : BlockId} {off len : ℕ} (hmem : ⟨mb, off, len⟩ ∈ h.stores)
    (hover : h.capacity mb < off + len) : ¬ StoresInside h := fun hin =>
  Nat.not_lt.mpr (hin _ hmem) hover

/-- A shared block filled beyond its size is filled on, whatever is asked for. -/
theorem levBufferNew_overruns (hx : Exact s.heap (refs s) NoBlock) {size : ℕ} {mb : BlockId}
    (hkept : mb ∈ keptBlock s size)
    (hover : (s.heap.blocks mb).size < (s.heap.blocks mb).nbytes)
    (temp : Option (List UInt8)) (tempSize : ℕ) :
    ∃ ms t, levBufferNew s size temp tempSize = some (ms, t) ∧ ¬ StoresInside t.heap := by
  obtain ⟨hst, hkeep⟩ := mem_keptBlock.mp hkept
  have hblock : staticBlock s size = some (mb, s.heap) := by
    simp only [staticBlock, hst]
    rw [if_neg hkeep]
  obtain ⟨⟨ms, t⟩, hnew⟩ : ∃ r, levBufferNew s size temp tempSize = some r := by
    unfold levBufferNew
    rw [hblock]
    exact ⟨_, rfl⟩
  obtain ⟨mb', h', t', hblock', ht', _, _, hheap⟩ := levBufferNew_writes hnew
  rw [hblock, Option.some.injEq, Prod.mk.injEq] at hblock'
  obtain ⟨rfl, rfl⟩ := hblock'
  have hfill := sameFill_settle s size mb s.heap
  rw [← ht'] at hfill
  have hmine := hx.owned.handedOut mb (by simp [refs, hst])
  refine ⟨ms, t, hnew, ?_⟩
  have hmem : ⟨mb, (t'.blocks mb).nbytes, (newData size temp tempSize).length⟩ ∈
      t.heap.stores := by
    rw [hheap]
    exact List.mem_cons_self
  refine not_inside_of_mem hmem ?_
  have hcap : t.heap.capacity mb = s.heap.capacity mb := by
    rw [hheap]
    exact congrFun hfill.capacity mb
  rw [hcap, hfill.nbytes, hmine.capacity]
  omega

theorem overruns_of_filled {op : Op} (hx : Exact s.heap (refs s) NoBlock) {mb : BlockId}
    (hfill : mb ∈ filledBlock s op) (hover : (s.heap.blocks mb).size < (s.heap.blocks mb).nbytes) :
    ¬ StoresInside (next s op).heap := by
  cases op with
  | new a =>
    obtain ⟨ms, t, hnew, hout⟩ := levBufferNew_overruns hx hfill hover a.temp 0
    have hok : step s (.new a) = .ok { t with created := s.objs.length :: s.created } := by
      simp [step, bufferNew, hnew]
    rw [next_of_ok hok]
    exact hout
  | slice o i j => cases hfill
  | newindex o i v => cases hfill
  | gc o => cases hfill
  | concat x y =>
    have hj := bufferConcat_joined s x y
    rw [filledBlock] at hfill
    generalize newSize s (.concat x y) = n at hj hfill
    generalize joinedSlice s (.concat x y) = onto at hj hfill
    generalize hr : bufferConcat s x y = r at hj
    change step s (.concat x y) = r at hr
    cases hj with
    | error f => cases hfill
    | union => cases hfill
    | @behind first ms h' data hfirst hdata hroom hms hheap =>
      obtain rfl : first.mb = mb := Option.some.inj hfill
      have hmine := hx.owned.handedOut _ (refs_pos_of_slice hfirst)
      have hat := hroom.1
      rw [next_of_ok hr, hheap]
      refine not_inside_of_mem List.mem_cons_self ?_
      show s.heap.capacity first.mb < _
      rw [hmine.capacity]
      omega
    | @fresh first firstLen second secondLen _ _ _ =>
      obtain ⟨ms, t, hnew, hout⟩ := levBufferNew_overruns hx hfill hover first firstLen
      rw [concatFresh, hnew] at hr
      rw [next_of_ok hr]
      exact fun hin => hout fun st hst => hin st (List.mem_cons_of_mem _ hst)

theorem overruns_of_assign {op : Op} (hx : Exact s.heap (refs s) NoBlock)
    (hc : Contained s.heap s.objs) (hserved : Served s op) (hfits : ¬ AssignsInside s op) :
    ¬ StoresInside (next s op).heap := by
  cases op with
  | new a => exact absurd trivial hfits
  | slice o i j => exact absurd trivial hfits
  | concat x y => exact absurd trivial hfits
  | gc o => exact absurd trivial hfits
  | newindex o i v =>
    cases v with
    | number n =>
      simp only [AssignsInside, not_forall, not_le] at hfits
      obtain ⟨ms, ho, hlow, hidx, hn, hout⟩ := hfits
      rw [Option.mem_def] at ho
      have hmine := hx.owned.handedOut _ (refs_pos_of_slice (slice?_mem ho))
      generalize hh : s.heap.store ms.mb (ms.slice + (toSizeT i - 1))
        [UInt8.ofNat (toSizeT n)] = h'
      have hok : step s (.newindex o i (.number n)) = .ok { s with heap := h' } := by
        simp only [step, bufferNewindex, ho]
        rw [if_neg (by omega), if_neg (by omega), hh]
      rw [next_of_ok hok, ← hh]
      refine not_inside_of_mem List.mem_cons_self ?_
      show s.heap.capacity ms.mb < _
      rw [hmine.capacity, List.length_singleton]
      omega
    | operand v =>
      simp only [AssignsInside, not_forall, not_le] at hfits
      obtain ⟨ms, ho, c, hb, hlow, hidx, hput, hout⟩ := hfits
      rw [Option.mem_def] at ho hb
      have hms := slice?_mem ho
      have hmine := hx.owned.handedOut _ (refs_pos_of_slice hms)
      have hlen := hc.operandBytes_lt hserved.1 hb
      have hcrash := hserved.2
      simp only [crashes, step, bufferNewindex, ho, hb] at hcrash
      rw [if_neg (by omega)] at hcrash
      cases hm : levMemsliceAppendMem s.heap ms (toSizeT i - 1) c with
      | none => simp [hm] at hcrash
      | some r =>
        obtain ⟨ms', h'⟩ := r
        have hok : step s (.newindex o i (.operand v)) = .ok (s.put o ms' h') := by
          simp only [step, bufferNewindex, ho, hb]
          rw [if_neg (by omega), hm]
        rw [next_of_ok hok, put_heap]
        have hcap := hmine.capacity
        rcases append_cases hc hms hidx hlen hm with
          ⟨_, _, rfl⟩ | ⟨_, _, w, _, _, rfl⟩ | ⟨hmove, _⟩
        · refine not_inside_of_mem List.mem_cons_self ?_
          show s.heap.capacity ms.mb < _
          omega
        · refine not_inside_of_mem List.mem_cons_self ?_
          show s.heap.capacity ms.mb < _
          omega
        · exact absurd hput hmove

theorem not_counted_of_unfit {op : Op} (hx : Exact s.heap (refs s) NoBlock)
    (hc : Contained s.heap s.objs) (hserved : Served s op)
    (hbad : ¬ (NoTakeover s op ∧ Fits s op)) : ¬ Counted (next s op) := by
  intro hcounted
  refine hbad ⟨?_, fun mb hfill => ?_, ?_⟩
  · by_contra htaken
    exact not_refsExact_of_takeover hx htaken hcounted.exact
  · by_contra hover
    exact overruns_of_filled hx hfill (Nat.lt_of_not_le hover) hcounted.inside
  · by_contra hout
    exact overruns_of_assign hx hc hserved hout hcounted.inside

end state

theorem counts_run {s : State} {ops : List Op} (hx : Exact s.heap (refs s) NoBlock)
    (hc : Contained s.heap s.objs) (h : Along next Served s ops) :
    Always next Counted s ops ↔ Along next (fun t op => NoTakeover t op ∧ Fits t op) s ops := by
  have hok : ∀ t : State, (Exact t.heap (refs t) NoBlock ∧ Contained t.heap t.objs) → Counted t :=
    fun t ht => ⟨ht.1.refsExact, ht.2.inside⟩
  have hkeep : ∀ t op, (Exact t.heap (refs t) NoBlock ∧ Contained t.heap t.objs) → Served t op →
      (NoTakeover t op ∧ Fits t op) →
      Exact (next t op).heap (refs (next t op)) NoBlock ∧
        Contained (next t op).heap (next t op).objs := fun t op ht hserved hgood =>
    ⟨exact_step ht.1 hgood.1, contained_step ht.1 ht.2 hserved hgood.2⟩
  have hbreak : ∀ t op, (Exact t.heap (refs t) NoBlock ∧ Contained t.heap t.objs) →
      Served t op → ¬ (NoTakeover t op ∧ Fits t op) → ¬ Counted (next t op) :=
    fun t op ht hserved hbad => not_counted_of_unfit ht.1 ht.2 hserved hbad
  exact always_iff_along hok hkeep hbreak ⟨hx, hc⟩ h

/-- The counts are exact in every state of a run, with every store inside its block,
precisely when no step takes over a shared block it kept and every step fits its blocks. -/
theorem counted_iff (junk : BlockId → ℕ → UInt8) (ops : List Op)
    (h : Along next Served (start junk) ops) :
    Always next Counted (start junk) ops ↔
      Along next (fun s op => NoTakeover s op ∧ Fits s op) (start junk) ops :=
  counts_run (exact_start junk) (contained_start junk) h

/-- An empty Buffer leaves the fill mark of a fresh shared block at 0, so that a Buffer
of 1024 bytes fits and takes the block over. -/
def emptyRun : List Op := [.new (.number 0), .new (.number 1024)]

theorem emptyRun_leaks :
    Along next Served (start fun _ _ => 0) emptyRun ∧
      ¬ Always next RefsExact (start fun _ _ => 0) emptyRun := by
  refine ⟨by decide +kernel, fun h => ?_⟩
  have hstate : (exec next (start fun _ _ => 0) emptyRun).heap.mallocs = 1552 ∧
      refs (exec next (start fun _ _ => 0) emptyRun) 1023 = 2 ∧
      ((exec next (start fun _ _ => 0) emptyRun).heap.blocks 1023).refcount = 3 := by
    decide +kernel
  obtain ⟨hm, hr, hc⟩ := hstate
  have hcount := (h.exec 1023 (by rw [hm]; decide)).2 (by rw [hr]; decide)
  rw [hr, hc] at hcount
  exact absurd hcount (by decide)

/-- A Buffer of three bytes and its last two. -/
def twoWindows : List Op := [.new (.str [1, 2, 3]), .slice 0 2 2]

theorem counted_iff_twoWindows : Always next Counted (start fun _ _ => 0) twoWindows := by
  have hserved : Along next Served (start fun _ _ => 0) twoWindows := by decide +kernel
  refine (counted_iff (fun _ _ => 0) twoWindows hserved).mpr
    ⟨⟨?_, nofun, trivial⟩, ⟨nofun, nofun, trivial⟩, trivial⟩
  rintro size - ⟨mb, hst, -⟩
  cases hst

end Lev.Buffer
