import Lev.BufferIsolation

/-! Bounds of blocks and slices under every operation, indexed assignment included.
Growing a slice in place advances the fill mark by the whole new size, so bounds
survive a run exactly when every such step finds room for that much. -/
namespace Lev.Buffer
open CInt Slab Memory Run

/-- No block is filled beyond its size, and every live slice lies in the filled part. -/
def RepOk (s : State) : Prop :=
  (∀ b, (s.heap.blocks b).nbytes ≤ (s.heap.blocks b).size) ∧
  ∀ o ms, s.slice? o = some ms →
    ms.slice + ms.untilLen ≤ (s.heap.blocks ms.mb).size ∧
    ms.slice + ms.untilLen ≤ (s.heap.blocks ms.mb).nbytes

/-- The slab was asked for more than 1 MiB. -/
def crashes (s : State) (op : Op) : Bool :=
  match step s op with
  | .error .nullBlock => true
  | _ => false

/-- Lua strings are shorter than 2 GiB. -/
def Operand.Short : Operand → Prop
  | .buffer _ => True
  | .str t => t.length < 2 ^ 31

def Value.Short : Value → Prop
  | .operand v => v.Short
  | .number _ => True

def Allowed (s : State) (op : Op) : Prop :=
  (match op with
    | .new a => 1 ≤ a.size ∧ a.size ≤ 2 ^ 20
    | .concat x y => x.Short ∧ y.Short
    | .newindex _ _ v => v.Short
    | .slice _ _ _ => True
    | .gc _ => True) ∧
  crashes s op = false

instance : (v : Operand) → Decidable v.Short
  | .buffer _ => isTrue trivial
  | .str t => inferInstanceAs (Decidable (t.length < 2 ^ 31))

instance : (v : Value) → Decidable v.Short
  | .operand v => inferInstanceAs (Decidable v.Short)
  | .number _ => isTrue trivial

instance (s : State) (op : Op) : Decidable (Allowed s op) := by
  unfold Allowed
  cases op <;> infer_instance

/-- If the assignment grows its slice in place, the block has room for the whole new
size behind its fill mark, not only for the growth. -/
def GrowFits (s : State) : Op → Prop
  | .newindex o i (.operand v) =>
    ∀ ms ∈ s.slice? o, ∀ c ∈ operandBytes s v,
      1 ≤ toSizeT i → toSizeT i - 1 ≤ ms.untilLen →
      ms.untilLen ≤ toSizeT i - 1 + c.length →
      canExpand s.heap ms (toSizeT i - 1 + c.length + 1) →
      (s.heap.blocks ms.mb).nbytes + (toSizeT i - 1 + c.length + 1) ≤ (s.heap.blocks ms.mb).size
  | _ => True

theorem Wf.repOk {s : State} (hw : Wf s) : RepOk s :=
  ⟨hw.nbytes_le, fun _ ms ho =>
    ⟨(hw.range ms (slice?_mem ho)).trans (hw.nbytes_le _), hw.range ms (slice?_mem ho)⟩⟩

theorem levMemsliceResize_cases {h h' : Heap} {ms ms' : MemSlice} {size : ℕ}
    (hpos : 0 < ms.untilLen) (hlt : ms.untilLen < 2 ^ 64) (hsize : size < 2 ^ 64 - 1)
    (hr : levMemsliceResize h ms size = some (ms', h')) :
    (size < ms.untilLen ∧ ms' = ms ∧ h' = h) ∨
    (ms.untilLen ≤ size ∧ canExpand h ms (size + 1) = true ∧
      ms' = { ms with untilLen := size + 1 } ∧ h' = h.addNbytes ms.mb (size + 1)) ∨
    (ms.untilLen ≤ size ∧ canExpand h ms (size + 1) = false ∧
      ∃ b h₀, levSlabGetBlock h (size + 1) = some (b, h₀) ∧
      ms' = ⟨b, 0, size + 1⟩ ∧
      h' = (levSlabDecRef ((levSlabIncRef h₀ b).store b 0
        ((levSlabIncRef h₀ b).load ms.mb ms.slice ms.untilLen)) ms.mb).addNbytes b (size + 1)) := by
  have hempty : levMemsliceEmptyLength ms = ms.untilLen - 1 := szSub_of_le hpos hlt
  have hadd : szAdd size 1 = size + 1 := szAdd_of_lt (by omega)
  simp only [levMemsliceResize, hempty, hadd] at hr
  split at hr
  · simp only [Option.some.injEq, Prod.mk.injEq] at hr
    exact .inl ⟨by omega, hr.1.symm, hr.2.symm⟩
  · split at hr
    · rename_i hexp
      simp only [Option.some.injEq, Prod.mk.injEq] at hr
      exact .inr (.inl ⟨by omega, hexp, hr.1.symm, hr.2.symm⟩)
    · rename_i hexp
      cases hg : levSlabGetBlock h (size + 1) with
      | none => simp [hg] at hr
      | some r =>
        obtain ⟨b, h₀⟩ := r
        simp only [hg, Option.some.injEq, Prod.mk.injEq] at hr
        exact .inr (.inr ⟨by omega, eq_false_of_ne_true hexp, b, h₀, rfl, hr.1.symm, hr.2.symm⟩)

theorem put_heap (s : State) (o : ObjId) (ms : MemSlice) (h : Heap) : (s.put o ms h).heap = h := rfl

theorem refs_put {s : State} {o : ObjId} {ms : MemSlice} (ho : s.slice? o = some ms) (h : Heap)
    (ms' : MemSlice) (b : BlockId) :
    refs (s.put o ms' h) b =
      refs s b - (if ms.mb = b then 1 else 0) + (if ms'.mb = b then 1 else 0) := by
  have hb : refs (s.put o ms' h) b =
      held (s.objs.set o (some ms')) b + if s.staticMb = some b then 1 else 0 := rfl
  have hx : holds b (some ms') = decide (ms'.mb = b) := by simp [holds]; rfl
  have hpos := held_pos (slice?_mem ho)
  rw [hb, held_set (slice?_eq_some.mp ho), hx, refs]
  simp only [decide_eq_true_eq]
  rcases eq_or_ne ms.mb b with rfl | hne
  · rw [if_pos rfl]
    omega
  · rw [if_neg hne]
    omega

theorem mem_set {s : State} {o : ObjId} {x : Option MemSlice} {ms : MemSlice}
    (h : some ms ∈ s.objs.set o x) : x = some ms ∨ some ms ∈ s.objs := by
  rcases List.mem_or_eq_of_mem_set h with h | h
  · exact .inr h
  · exact .inl h.symm

theorem addNbytes_nbytes {h : Heap} {b : BlockId} {n : ℕ} (hlt : (h.blocks b).nbytes + n < 2 ^ 64) :
    ((h.addNbytes b n).blocks b).nbytes = (h.blocks b).nbytes + n := by
  simp only [Heap.addNbytes, Heap.setBlock_blocks, Function.update_self]
  exact Nat.mod_eq_of_lt hlt

theorem addNbytes_nbytes_of_ne {h : Heap} {b b' : BlockId} {n : ℕ} (hb : b' ≠ b) :
    ((h.addNbytes b n).blocks b').nbytes = (h.blocks b').nbytes := by
  simp [Heap.addNbytes, hb]

theorem wf_grow {s : State} (hw : Wf s) {o : ObjId} {ms : MemSlice} {n : ℕ}
    (ho : s.slice? o = some ms) (hpos : 0 < n)
    (hroom : (s.heap.blocks ms.mb).nbytes + n ≤ (s.heap.blocks ms.mb).size) :
    Wf (s.put o { ms with untilLen := n } (s.heap.addNbytes ms.mb n)) := by
  have hms := slice?_mem ho
  have hcap := hw.size_le ms.mb
  have hin := hw.range ms hms
  have hself := addNbytes_nbytes (h := s.heap) (b := ms.mb) (n := n) (by omega)
  have hsame := sameAlloc_addNbytes s.heap ms.mb n
  have hgrow : ∀ b, (s.heap.blocks b).nbytes ≤ ((s.heap.addNbytes ms.mb n).blocks b).nbytes := by
    intro b
    rcases eq_or_ne b ms.mb with rfl | hb
    · omega
    · exact (addNbytes_nbytes_of_ne hb).ge
  refine ⟨?_, fun b => ?_, fun b => ?_, fun b hb => ?_, fun ms' h' => ?_, fun ms' h' => ?_⟩
  · have hr : refs (s.put o { ms with untilLen := n } (s.heap.addNbytes ms.mb n)) = refs s := by
      funext b
      have hp := refs_pos_of_slice hms
      rw [refs_put ho]
      rcases eq_or_ne ms.mb b with rfl | hb
      · simp only [if_true]
        omega
      · simp [hb]
    rw [hr]
    exact hw.owned.congr hsame
  · rw [put_heap, hsame.size]
    rcases eq_or_ne b ms.mb with rfl | hb
    · exact hself.trans_le hroom
    · rw [addNbytes_nbytes_of_ne hb]
      exact hw.nbytes_le b
  · rw [put_heap, hsame.size]
    exact hw.size_le b
  · exact (hw.static_used b hb).trans_le (hgrow b)
  · rcases mem_set h' with h' | h'
    · cases h'
      show ms.slice + n ≤ ((s.heap.addNbytes ms.mb n).blocks ms.mb).nbytes
      omega
    · exact (hw.range ms' h').trans (hgrow _)
  · rcases mem_set h' with h' | h'
    · cases h'
      exact hpos
    · exact hw.pos ms' h'

theorem wf_move {s : State} (hw : Wf s) {o : ObjId} {ms : MemSlice} {n : ℕ} {b : BlockId}
    {h₀ : Heap} (data : List UInt8) (ho : s.slice? o = some ms) (hpos : 0 < n)
    (hg : levSlabGetBlock s.heap n = some (b, h₀)) :
    Wf (s.put o ⟨b, 0, n⟩
      ((levSlabDecRef ((levSlabIncRef h₀ b).store b 0 data) ms.mb).addNbytes b n)) := by
  have hms := slice?_mem ho
  have hf := levSlabGetBlock_fresh hw.owned hg
  have hne : ms.mb ≠ b := by
    have hp := refs_pos_of_slice hms
    rintro rfl
    have := hf.unowned
    omega
  have hone : Owned (levSlabIncRef h₀ b) (Function.update (refs s) b 1) := by
    have h := levSlabIncRef_owned hf.owned (b := b) (by rw [hf.unowned]; exact hf.handedOut)
    rwa [hf.unowned] at h
  generalize hh : (levSlabIncRef h₀ b).store b 0 data = h₁
  have hown : Owned h₁ (Function.update (refs s) b 1) := by
    rw [← hh]
    exact hone.congr (sameAlloc_store _ _ _ _)
  have hdec : Owned (levSlabDecRef h₁ ms.mb)
      (Function.update (Function.update (refs s) b 1) ms.mb (refs s ms.mb - 1)) := by
    have hval : Function.update (refs s) b 1 ms.mb = refs s ms.mb := Function.update_of_ne hne _ _
    have h := levSlabDecRef_owned hown (b := ms.mb) (by rw [hval]; exact refs_pos_of_slice hms)
    rwa [hval] at h
  -- fields of the blocks before the cursor of the new one is set
  have hsz : ∀ b', ((levSlabDecRef h₁ ms.mb).blocks b').size = (h₀.blocks b').size := by
    intro b'
    rw [levSlabDecRef_blocks, ← hh]
    rcases eq_or_ne b' ms.mb with rfl | hb
    · simp [levSlabIncRef_size]
    · simp [hb, levSlabIncRef_size]
  have hnb : ∀ b', ((levSlabDecRef h₁ ms.mb).blocks b').nbytes = (h₀.blocks b').nbytes := by
    intro b'
    rw [levSlabDecRef_blocks, ← hh]
    rcases eq_or_ne b' ms.mb with rfl | hb
    · simp [levSlabIncRef_nbytes]
    · simp [hb, levSlabIncRef_nbytes]
  have hcap : (h₀.blocks b).size ≤ 2 ^ 20 := by
    rw [hf.handedOut.size]
    exact SlabClass.blocksize_le _
  have hfit := hf.size_le
  have hzero := hf.nbytes
  have hself : (((levSlabDecRef h₁ ms.mb).addNbytes b n).blocks b).nbytes = n := by
    rw [addNbytes_nbytes (by rw [hnb]; omega), hnb, hzero, Nat.zero_add]
  have hother : ∀ b' ≠ b, (((levSlabDecRef h₁ ms.mb).addNbytes b n).blocks b').nbytes =
      (s.heap.blocks b').nbytes := by
    intro b' hb
    rw [addNbytes_nbytes_of_ne hb, hnb, hf.others b' hb]
  have hsame := sameAlloc_addNbytes (levSlabDecRef h₁ ms.mb) b n
  have hlive : ∀ ms', some ms' ∈ s.objs → ms'.mb ≠ b := by
    rintro ms' h' rfl
    have := refs_pos_of_slice h'
    have := hf.unowned
    omega
  refine ⟨?_, fun b' => ?_, fun b' => ?_, fun b' hb => ?_, fun ms' h' => ?_, fun ms' h' => ?_⟩
  · have hr : refs (s.put o ⟨b, 0, n⟩ ((levSlabDecRef h₁ ms.mb).addNbytes b n)) =
        Function.update (Function.update (refs s) b 1) ms.mb (refs s ms.mb - 1) := by
      funext b'
      rw [refs_put ho]
      rcases eq_or_ne b' ms.mb with rfl | hb
      · simp [hne.symm]
      · rw [Function.update_of_ne hb, if_neg hb.symm]
        rcases eq_or_ne b' b with rfl | hb'
        · simp [hf.unowned]
        · simp [hb', hb'.symm]
    rw [hr]
    exact hdec.congr hsame
  · rw [put_heap, hsame.size, hsz]
    rcases eq_or_ne b' b with rfl | hb
    · exact hself.trans_le hfit
    · rw [hother b' hb, hf.others b' hb]
      exact hw.nbytes_le b'
  · rw [put_heap, hsame.size, hsz]
    rcases eq_or_ne b' b with rfl | hb
    · exact hcap
    · rw [hf.others b' hb]
      exact hw.size_le b'
  · have hb' : b' ≠ b := by
      rintro rfl
      have := hf.unowned
      simp [refs, show s.staticMb = some b' from hb] at this
    rw [put_heap, hother b' hb']
    exact hw.static_used b' hb
  · rcases mem_set h' with h' | h'
    · cases h'
      exact (Nat.zero_add n).trans_le hself.ge
    · rw [put_heap, hother _ (hlive ms' h')]
      exact hw.range ms' h'
  · rcases mem_set h' with h' | h'
    · cases h'
      exact hpos
    · exact hw.pos ms' h'

/-- What `lev_memslice_ensure_empty_length` asks for passes through an `int`; wanted
lengths from 2^31 on become sizes no slab class satisfies. -/
theorem resize_of_ensure {s : State} (hw : Wf s) {ms : MemSlice} (hms : some ms ∈ s.objs) {n : ℕ}
    (hn : n < 2 ^ 32 - 1) {r : MemSlice × Heap}
    (hr : levMemsliceEnsureEmptyLength s.heap ms (toInt n) = some r) :
    levMemsliceResize s.heap ms n = some r := by
  have hpos := hw.pos ms hms
  have hend := hw.slice_lt hms
  have hempty : levMemsliceEmptyLength ms = ms.untilLen - 1 := szSub_of_le hpos (by omega)
  unfold levMemsliceEnsureEmptyLength at hr
  rw [hempty] at hr
  rcases Nat.lt_or_ge n (2 ^ 31) with hsmall | hlarge
  · rw [toInt_of_lt hsmall, toSizeT_natCast (by omega)] at hr
    split at hr
    · exact hr
    · rw [levMemsliceResize, hempty, if_pos (by omega)]
      exact hr
  · have hge := toSizeT_toInt_ge hlarge (by omega)
    have hlt := toSizeT_toInt_lt hn
    rw [if_pos (by omega)] at hr
    have hle := hw.nbytes_le ms.mb
    have hcap := hw.size_le ms.mb
    generalize toSizeT (toInt n) = m at *
    rcases levMemsliceResize_cases hpos (by omega) hlt hr with
      ⟨h, _⟩ | ⟨_, hexp, _⟩ | ⟨_, _, b, h₀, hg, _⟩
    · omega
    · simp only [canExpand, Bool.and_eq_true, decide_eq_true_eq, szSub_of_le hle (by omega)] at hexp
      have hexp := hexp.2
      rw [szAdd_of_lt (by omega)] at hexp
      omega
    · have hnone : levSlabGetBlock s.heap (m + 1) = none :=
        levSlabGetBlock_eq_none.mpr (by omega)
      rw [hnone] at hg
      cases hg

theorem operandBytes_short {s : State} (hw : Wf s) {v : Operand} (hv : v.Short) {c : List UInt8}
    (hc : operandBytes s v = some c) : c.length < 2 ^ 31 := by
  cases v with
  | buffer o =>
    cases ho : s.slice? o with
    | none => simp [operandBytes, ho] at hc
    | some ms =>
      simp only [operandBytes, ho, Option.map_some, Option.some.injEq] at hc
      have hend := hw.slice_lt (slice?_mem ho)
      have hlen : c.length = ms.untilLen := by
        rw [← hc, MemSlice.contents, Heap.load_length]
      omega
  | str t =>
    simp only [operandBytes, Option.some.injEq] at hc
    rw [← hc]
    exact hv

theorem ensure_of_append {h h' : Heap} {ms ms' : MemSlice} {start : ℕ} {c : List UInt8}
    (ha : levMemsliceAppendMem h ms start c = some (ms', h')) :
    ∃ h₁, levMemsliceEnsureEmptyLength h ms (toInt (szAdd start c.length)) = some (ms', h₁) ∧
      h' = h₁.store ms'.mb (ms'.slice + start) c := by
  unfold levMemsliceAppendMem at ha
  cases he : levMemsliceEnsureEmptyLength h ms (toInt (szAdd start c.length)) with
  | none => simp [he] at ha
  | some r =>
    obtain ⟨ms₁, h₁⟩ := r
    simp only [he, Option.some.injEq, Prod.mk.injEq] at ha
    obtain ⟨rfl, rfl⟩ := ha
    exact ⟨h₁, rfl, rfl⟩

theorem newindex_resize {s s' : State} (hw : Wf s) {o : ObjId} {i : ℤ} {v : Operand}
    (hv : v.Short) (hs : bufferNewindex s o i (.operand v) = .ok s') :
    ∃ ms c ms' h', s.slice? o = some ms ∧ operandBytes s v = some c ∧
      c.length < 2 ^ 31 ∧ 1 ≤ toSizeT i ∧ toSizeT i - 1 ≤ ms.untilLen ∧
      levMemsliceResize s.heap ms (toSizeT i - 1 + c.length) = some (ms', h') ∧
      s' = s.put o ms' (h'.store ms'.mb (ms'.slice + (toSizeT i - 1)) c) := by
  unfold bufferNewindex at hs
  cases ho : s.slice? o with
  | none => simp [ho] at hs
  | some ms =>
    simp only [ho] at hs
    split at hs
    · cases hs
    · rename_i hidx
      cases hc : operandBytes s v with
      | none => simp [hc] at hs
      | some c =>
        have hlen := operandBytes_short hw hv hc
        have hend := hw.slice_lt (slice?_mem ho)
        simp only [hc] at hs
        cases hm : levMemsliceAppendMem s.heap ms (toSizeT i - 1) c with
        | none => simp [hm] at hs
        | some r =>
          obtain ⟨ms', h'⟩ := r
          simp only [hm, Except.ok.injEq] at hs
          obtain ⟨h₁, he, rfl⟩ := ensure_of_append hm
          rw [szAdd_of_lt (by omega)] at he
          exact ⟨ms, c, ms', h₁, rfl, rfl, hlen, by omega, by omega,
            resize_of_ensure hw (slice?_mem ho) (by omega) he, hs.symm⟩

theorem Wf.put_store {s : State} {o : ObjId} {ms : MemSlice} {h : Heap} (hw : Wf (s.put o ms h))
    (b : BlockId) (off : ℕ) (data : List UInt8) : Wf (s.put o ms (h.store b off data)) :=
  hw.store b off data

theorem put_self {s : State} {o : ObjId} {ms : MemSlice} (ho : s.slice? o = some ms) :
    s.put o ms s.heap = s := by
  have hset : s.objs.set o (some ms) = s.objs := by
    obtain ⟨hlt, he⟩ := List.getElem?_eq_some_iff.mp (slice?_eq_some.mp ho)
    rw [← he, List.set_getElem_self]
  rw [State.put, hset]

theorem newindex_wf {s s' : State} (hw : Wf s) {o : ObjId} {i : ℤ} {v : Value} (hv : v.Short)
    (hfits : GrowFits s (.newindex o i v)) (hs : bufferNewindex s o i v = .ok s') : Wf s' := by
  cases v with
  | number n =>
    unfold bufferNewindex at hs
    cases ho : s.slice? o with
    | none => simp [ho] at hs
    | some ms =>
      simp only [ho] at hs
      split at hs
      · cases hs
      · split at hs
        · cases hs
        · simp only [Except.ok.injEq] at hs
          subst hs
          exact hw.store _ _ _
  | operand v =>
    obtain ⟨ms, c, ms', h', ho, hc, hlen, hlow, hidx, hr, rfl⟩ := newindex_resize hw hv hs
    have hpos := hw.pos ms (slice?_mem ho)
    have hend := hw.slice_lt (slice?_mem ho)
    have hfit := hfits ms ho c hc hlow hidx
    generalize toSizeT i - 1 = start at *
    apply Wf.put_store
    rcases levMemsliceResize_cases hpos (by omega) (by omega) hr with
      ⟨_, rfl, rfl⟩ | ⟨hgrow, hexp, rfl, rfl⟩ | ⟨_, _, b, h₀, hg, rfl, rfl⟩
    · rwa [put_self ho]
    · exact wf_grow hw ho (Nat.succ_pos _) (hfit hgrow hexp)
    · exact wf_move hw _ ho (Nat.succ_pos _) hg

theorem operandLen_lt {s : State} (hw : Wf s) {y : Operand} (hy : y.Short) :
    operandLen s y < 2 ^ 32 := by
  cases y with
  | str t =>
    have : t.length < 2 ^ 31 := hy
    show t.length < 2 ^ 32
    omega
  | buffer o =>
    cases ho : s.slice? o with
    | none => simp [operandLen, ho]
    | some ms =>
      have hend := hw.slice_lt (slice?_mem ho)
      simp only [operandLen, ho, Option.map_some, Option.getD_some]
      omega

theorem wf_step {s : State} {op : Op} (hw : Wf s) (ha : Allowed s op) (hfits : GrowFits s op) :
    Wf (next s op) := by
  cases hs : step s op with
  | error f =>
    rw [next_of_error hs]
    exact hw
  | ok s' =>
    rw [next_of_ok hs]
    cases op with
    | new a =>
      simp only [step, bufferNew] at hs
      cases hb : levBufferNew s a.size a.temp 0 with
      | none => simp [hb] at hs
      | some r =>
        simp only [hb, Except.ok.injEq] at hs
        subst hs
        have hm := (levBufferNew_made hw ha.1.1 hb).wf
        exact ⟨hm.owned, hm.nbytes_le, hm.size_le, hm.static_used, hm.range, hm.pos⟩
    | slice o i j =>
      obtain ⟨_, hc⟩ := bufferSlice_creates hw hs
      exact hc.wf
    | concat x y =>
      obtain ⟨_, hc⟩ := bufferConcat_creates hw (operandLen_lt hw ha.1.2) hs
      exact hc.wf
    | newindex o i v => exact newindex_wf hw ha.1 hfits hs
    | gc o => exact bufferGc_wf hw hs

/-- Growth in place without that room leaves a block filled beyond its size. -/
theorem not_repOk_of_grow {s : State} {op : Op} (hw : Wf s) (ha : Allowed s op)
    (hfits : ¬ GrowFits s op) : ¬ RepOk (next s op) := by
  cases op with
  | new a => exact absurd trivial hfits
  | slice o i j => exact absurd trivial hfits
  | concat x y => exact absurd trivial hfits
  | gc o => exact absurd trivial hfits
  | newindex o i v =>
    cases v with
    | number n => exact absurd trivial hfits
    | operand v =>
      simp only [GrowFits, not_forall] at hfits
      obtain ⟨ms, ho, c, hc, hlow, hidx, hgrow, hexp, hover⟩ := hfits
      rw [Option.mem_def] at ho hc
      cases hs : step s (.newindex o i (.operand v)) with
      | error f =>
        -- the operands are valid, so the only error left is the crash
        have hcrash := ha.2
        simp only [crashes, hs] at hcrash
        simp only [step, bufferNewindex, ho, hc] at hs
        rw [if_neg (by omega)] at hs
        cases hm : levMemsliceAppendMem s.heap ms (toSizeT i - 1) c with
        | none =>
          simp only [hm, Except.error.injEq] at hs
          subst hs
          cases hcrash
        | some r => simp [hm] at hs
      | ok s' =>
        rw [next_of_ok hs]
        obtain ⟨ms', c', ms₁, h₁, ho', hc', hlen, _, _, hr, rfl⟩ := newindex_resize hw ha.1 hs
        rw [ho, Option.some.injEq] at ho'
        rw [hc, Option.some.injEq] at hc'
        subst ho'
        subst hc'
        have hpos := hw.pos ms (slice?_mem ho)
        have hend := hw.slice_lt (slice?_mem ho)
        have hle := hw.nbytes_le ms.mb
        have hcap := hw.size_le ms.mb
        rcases levMemsliceResize_cases hpos (by omega) (by omega) hr with
          ⟨h, _, _⟩ | ⟨_, _, rfl, rfl⟩ | ⟨_, hnot, _⟩
        · omega
        · intro hok
          have hb := hok.1 ms.mb
          rw [put_heap, Heap.store_blocks, addNbytes_nbytes (by omega),
            (sameAlloc_addNbytes _ _ _).size] at hb
          omega
        · rw [hexp] at hnot
          cases hnot

theorem bounds_run {s : State} {ops : List Op} (hw : Wf s) (h : Along next Allowed s ops) :
    Always next RepOk s ops ↔ Along next GrowFits s ops := by
  have hok : ∀ t, Wf t → RepOk t := fun t ht => ht.repOk
  have hkeep : ∀ t op, Wf t → Allowed t op → GrowFits t op → Wf (next t op) :=
    fun t op ht ha hg => wf_step ht ha hg
  have hbreak : ∀ t op, Wf t → Allowed t op → ¬ GrowFits t op → ¬ RepOk (next t op) :=
    fun t op ht ha hg => not_repOk_of_grow ht ha hg
  exact always_iff_along hok hkeep hbreak hw h

/-- The bounds hold in every state of a run exactly when every in-place growth of the
run finds room for the whole new size behind the fill mark. -/
theorem bounds_iff_growFits (junk : BlockId → ℕ → UInt8) (ops : List Op)
    (h : Along next Allowed (start junk) ops) :
    Always next RepOk (start junk) ops ↔ Along next GrowFits (start junk) ops :=
  @bounds_run (start junk) ops (wf_start junk) h

/-- A Buffer of 600 bytes overwritten by a string of 700: it could grow into the 1024
bytes of its block, and the fill mark is advanced to 1301. -/
def overfillRun : List Op :=
  [.new (.number 600), .newindex 0 1 (.operand (.str (List.replicate 700 0x61)))]

theorem overfillRun_breaks_bounds :
    Along next Allowed (start fun _ _ => 0) overfillRun ∧
      ¬ Always next RepOk (start fun _ _ => 0) overfillRun := by
  refine ⟨by decide +kernel, fun h => ?_⟩
  have hfill := h.exec.1 1023
  have hover : ((exec next (start fun _ _ => 0) overfillRun).heap.blocks 1023).nbytes = 1301 ∧
      ((exec next (start fun _ _ => 0) overfillRun).heap.blocks 1023).size = 1024 := by
    decide +kernel
  omega

/-- The same with a string that stays inside. -/
def insideRun : List Op := [.new (.number 600), .newindex 0 1 (.operand (.str [0x61, 0x62]))]

theorem bounds_iff_growFits_insideRun : Always next RepOk (start fun _ _ => 0) insideRun := by
  have h : Along next Allowed (start fun _ _ => 0) insideRun := by decide +kernel
  have hslice : (exec next (start fun _ _ => 0) (insideRun.take 1)).slice? 0 =
      some ⟨1023, 0, 600⟩ := by decide +kernel
  refine (bounds_iff_growFits (fun _ _ => 0) insideRun h).mpr ⟨trivial, ?_, trivial⟩
  intro ms hms c hc _ _ hlong
  cases hslice.symm.trans hms
  cases hc
  exact absurd hlong (by decide +kernel)

end Lev.Buffer
