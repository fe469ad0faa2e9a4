import Lev.BufferInvariant

/-! What each Buffer operation does to a state that meets the invariant. Creating
operations write behind everything live; the finaliser only drops a reference. -/
namespace Lev.Buffer
open CInt Slab Memory

theorem Wf.push {s : State} (hw : Wf s) {src : MemSlice} (ms : MemSlice) (n : ℕ)
    (hsrc : some src ∈ s.objs) (hmb : ms.mb = src.mb)
    (hroom : (s.heap.blocks ms.mb).nbytes + n ≤ (s.heap.blocks ms.mb).size)
    (hend : ms.slice + ms.untilLen ≤ (s.heap.blocks ms.mb).nbytes + n) (hlen : 0 < ms.untilLen) :
    Wf { s.push ms with heap := (levSlabIncRef s.heap ms.mb).addNbytes ms.mb n } :=
  wf_push ms n hw.owned (hmb ▸ hw.handedOut hsrc) (fun b hb _ => hw.static_used b hb) hw.nbytes_le
    hw.size_le hw.range hw.pos hroom hend hlen

theorem addNbytes_zero {h : Heap} {b : BlockId} (hb : (h.blocks b).nbytes < 2 ^ 64) :
    h.addNbytes b 0 = h := by
  have hm : { h.blocks b with nbytes := ((h.blocks b).nbytes + 0) % 2 ^ 64 } = h.blocks b := by
    rw [Nat.add_zero, Nat.mod_eq_of_lt hb]
  rw [Heap.addNbytes, hm, Heap.setBlock, Function.update_eq_self]

theorem Wf.window {s : State} (hw : Wf s) {src : MemSlice} (ms : MemSlice)
    (hsrc : some src ∈ s.objs) (hmb : ms.mb = src.mb)
    (hend : ms.slice + ms.untilLen ≤ (s.heap.blocks ms.mb).nbytes)
    (hlen : 0 < ms.untilLen) : Wf { s.push ms with heap := levSlabIncRef s.heap ms.mb } := by
  have hle := hw.nbytes_le ms.mb
  have hcap := hw.size_le ms.mb
  have hz : (levSlabIncRef s.heap ms.mb).addNbytes ms.mb 0 = levSlabIncRef s.heap ms.mb :=
    addNbytes_zero (by rw [levSlabIncRef_nbytes]; omega)
  have h := hw.push ms 0 hsrc hmb hle hend hlen
  rwa [hz] at h

/-- What `..` and `slice` do: one Buffer more, written behind all the others. -/
structure Creates (s s' : State) (ms : MemSlice) : Prop where
  wf : Wf s'
  objs : s'.objs = s.objs ++ [some ms]
  created : s'.created = s.created
  behind : ∃ off, Behind s s' ms.mb off

theorem creates_window {s : State} (hw : Wf s) {src : MemSlice} (ms : MemSlice)
    (hsrc : some src ∈ s.objs) (hmb : ms.mb = src.mb)
    (hend : ms.slice + ms.untilLen ≤ (s.heap.blocks ms.mb).nbytes)
    (hlen : 0 < ms.untilLen) :
    Creates s { s.push ms with heap := levSlabIncRef s.heap ms.mb } ms where
  wf := hw.window ms hsrc hmb hend hlen
  objs := rfl
  created := rfl
  behind := by
    refine ⟨(s.heap.blocks ms.mb).nbytes, fun ms' h' hb => hb ▸ hw.range ms' h',
      ⟨[], rfl, by simp⟩, fun _ _ _ => rfl⟩

theorem bufferSlice_creates {s s' : State} (hw : Wf s) {o : ObjId} {i j : ℤ}
    (hs : bufferSlice s o i j = .ok s') : ∃ ms, Creates s s' ms := by
  unfold bufferSlice at hs
  cases ho : s.slice? o with
  | none => simp [ho] at hs
  | some src =>
    have hsrc := slice?_mem ho
    have hrange := hw.range src hsrc
    simp only [ho] at hs
    generalize hi : (if toSizeT i = 0 then 1 else toSizeT i) = offset at hs
    have hoff : 1 ≤ offset := by split at hi <;> omega
    split at hs
    · cases hs
    · rename_i hin
      generalize hj : (if toSizeT j = 0 then src.untilLen - (offset - 1) else toSizeT j) = length
        at hs
      have hlen : 0 < length := by split at hj <;> omega
      split at hs
      · cases hs
      · simp only [Except.ok.injEq] at hs
        subst hs
        refine ⟨_, creates_window hw ⟨src.mb, src.slice + (offset - 1), length⟩ hsrc rfl ?_ hlen⟩
        show src.slice + (offset - 1) + length ≤ (s.heap.blocks src.mb).nbytes
        omega

theorem concatFresh_creates {s s' : State} (hw : Wf s) {first : Option (List UInt8)}
    {firstLen secondLen : ℕ} {second : Heap → List UInt8}
    (hpos : 0 < szAdd firstLen secondLen)
    (hs : concatFresh s first firstLen second secondLen = .ok s') : ∃ ms, Creates s s' ms := by
  unfold concatFresh at hs
  cases hn : levBufferNew s (szAdd firstLen secondLen) first firstLen with
  | none => simp [hn] at hs
  | some r =>
    obtain ⟨ms, t⟩ := r
    simp only [hn, Except.ok.injEq] at hs
    subst hs
    have hm := levBufferNew_made hw hpos hn
    exact ⟨ms, hm.wf.store _ _ _, hm.objs, hm.created, ms.slice,
      hm.behind.store (Nat.le_add_right _ _) _⟩

theorem concatBehind_creates {s s' : State} (hw : Wf s) {first : MemSlice}
    (hfirst : some first ∈ s.objs) {secondLen : ℕ} {second : Heap → List UInt8}
    (hsecond : secondLen < 2 ^ 32)
    (hs : concatBehind s first second secondLen = .ok s') : ∃ ms, Creates s s' ms := by
  have hle := hw.nbytes_le first.mb
  have hcap := hw.size_le first.mb
  have hend := hw.slice_lt hfirst
  have hpos := hw.pos first hfirst
  have hsum : szAdd first.untilLen secondLen = first.untilLen + secondLen :=
    szAdd_of_lt (by omega)
  unfold concatBehind at hs
  simp only [szSub_of_le hle (by omega), hsum] at hs
  split at hs
  · rename_i hroom
    obtain ⟨hat, hroom⟩ := hroom
    have hpush : levPushbufferFromMb s.heap first.mb (first.untilLen + secondLen)
        (some first.slice) = (⟨first.mb, first.slice, first.untilLen + secondLen⟩,
          levSlabIncRef s.heap first.mb) := by
      simp [levPushbufferFromMb, Nat.ne_of_gt hpos]
    simp only [hpush, Except.ok.injEq] at hs
    subst hs
    have hwf := hw.push ⟨first.mb, first.slice, first.untilLen + secondLen⟩ secondLen hfirst rfl
      (by show (s.heap.blocks first.mb).nbytes + secondLen ≤ (s.heap.blocks first.mb).size; omega)
      (by show first.slice + (first.untilLen + secondLen) ≤
            (s.heap.blocks first.mb).nbytes + secondLen
          omega)
      (by show 0 < first.untilLen + secondLen; omega)
    have hbeh : Behind s { s.push ⟨first.mb, first.slice, first.untilLen + secondLen⟩ with
        heap := (levSlabIncRef s.heap first.mb).addNbytes first.mb secondLen } first.mb
        (s.heap.blocks first.mb).nbytes :=
      ⟨fun ms hms hmb => hmb ▸ hw.range ms hms, ⟨[], rfl, by simp⟩, fun _ _ _ => rfl⟩
    exact ⟨_, hwf.store _ _ _, rfl, rfl, (s.heap.blocks first.mb).nbytes, hbeh.store hat.le _⟩
  · exact concatFresh_creates hw (by rw [hsum]; omega) hs

/-- The length an operand is taken to have by the programmer. -/
def operandLen (s : State) : Operand → ℕ
  | .buffer o => ((s.slice? o).map MemSlice.untilLen).getD 0
  | .str t => t.length

theorem bufferConcat_creates {s s' : State} (hw : Wf s) {x y : Operand}
    (hy : operandLen s y < 2 ^ 32) (hs : bufferConcat s x y = .ok s') :
    ∃ ms, Creates s s' ms := by
  cases x with
  | str t =>
    cases y with
    | str t' => simp [bufferConcat] at hs
    | buffer o' =>
      cases ho' : s.slice? o' with
      | none => simp [bufferConcat, ho'] at hs
      | some second =>
        have hsecond := slice?_mem ho'
        have hpos := hw.pos second hsecond
        have hlt := hw.slice_lt hsecond
        simp only [bufferConcat, ho'] at hs
        exact concatFresh_creates hw (by rw [szAdd_of_lt (by omega)]; omega) hs
  | buffer o =>
    cases ho : s.slice? o with
    | none =>
      cases y with
      | str t => simp [bufferConcat, ho] at hs
      | buffer o' => simp [bufferConcat, ho] at hs
    | some first =>
      have hfirst := slice?_mem ho
      cases y with
      | str t =>
        simp only [bufferConcat, ho] at hs
        exact concatBehind_creates hw hfirst hy hs
      | buffer o' =>
        cases ho' : s.slice? o' with
        | none => simp [bufferConcat, ho, ho'] at hs
        | some second =>
          have hsecond := slice?_mem ho'
          simp only [bufferConcat, ho, ho'] at hs
          split at hs
          · rename_i hadj
            have hlt := hw.slice_lt hfirst
            have hlt' := hw.slice_lt hsecond
            have hr := hw.range first hfirst
            have hr' := hw.range second hsecond
            have hpos := hw.pos first hfirst
            have hsum : szAdd first.untilLen second.untilLen = first.untilLen + second.untilLen :=
              szAdd_of_lt (by omega)
            simp only [adjacent, Bool.and_eq_true, beq_iff_eq, Bool.or_eq_true,
              decide_eq_true_eq] at hadj
            obtain ⟨hmb, hadj⟩ := hadj
            rw [← hmb] at hr'
            simp only [levPushbufferFromMb, hsum, Option.getD_some, Except.ok.injEq,
              if_neg (show first.untilLen + second.untilLen ≠ 0 by omega)] at hs
            subst hs
            refine ⟨_, creates_window hw ⟨first.mb, min first.slice second.slice,
              first.untilLen + second.untilLen⟩ hfirst rfl ?_ ?_⟩
            · show min first.slice second.slice + (first.untilLen + second.untilLen) ≤
                (s.heap.blocks first.mb).nbytes
              rcases hadj with ⟨h1, h2⟩ | ⟨h1, h2⟩ <;> omega
            · show 0 < first.untilLen + second.untilLen
              omega
          · have hlt' := hw.slice_lt hsecond
            exact concatBehind_creates hw hfirst (by omega) hs

theorem refs_gc {s : State} {o : ObjId} {ms : MemSlice} (ho : s.slice? o = some ms) (h : Heap) :
    refs { s with heap := h, objs := s.objs.set o none } =
      Function.update (refs s) ms.mb (refs s ms.mb - 1) := by
  have hpos := held_pos (slice?_mem ho)
  funext b
  have hb : refs { s with heap := h, objs := s.objs.set o none } b =
      held (s.objs.set o none) b + if s.staticMb = some b then 1 else 0 := rfl
  rw [hb, held_set (slice?_eq_some.mp ho)]
  rcases eq_or_ne b ms.mb with rfl | hne
  · rw [Function.update_self, refs]
    simp [holds]
    omega
  · rw [Function.update_of_ne hne, refs]
    simp [holds, hne.symm]

theorem bufferGc_wf {s s' : State} (hw : Wf s) {o : ObjId} (hs : bufferGc s o = .ok s') :
    Wf s' := by
  unfold bufferGc at hs
  cases ho : s.slice? o with
  | none => simp [ho] at hs
  | some ms =>
    simp only [ho, Except.ok.injEq] at hs
    subst hs
    have hsub : ∀ ms', some ms' ∈ s.objs.set o none → some ms' ∈ s.objs := by
      intro ms' h
      rcases List.mem_or_eq_of_mem_set h with h | h
      · exact h
      · cases h
    have hn : ∀ b, ((levSlabDecRef s.heap ms.mb).blocks b).nbytes = (s.heap.blocks b).nbytes ∧
        ((levSlabDecRef s.heap ms.mb).blocks b).size = (s.heap.blocks b).size := by
      intro b
      rw [levSlabDecRef_blocks]
      rcases eq_or_ne b ms.mb with rfl | hb
      · simp
      · simp [hb]
    refine ⟨?_, fun b => ?_, fun b => ?_, fun b hb => ?_, fun ms' h' => ?_,
      fun ms' h' => hw.pos ms' (hsub ms' h')⟩
    · rw [refs_gc ho]
      exact levSlabDecRef_owned hw.owned (refs_pos_of_slice (slice?_mem ho))
    · rw [(hn b).1, (hn b).2]
      exact hw.nbytes_le b
    · rw [(hn b).2]
      exact hw.size_le b
    · rw [(hn b).1]
      exact hw.static_used b hb
    · rw [(hn _).1]
      exact hw.range ms' (hsub ms' h')

end Lev.Buffer
