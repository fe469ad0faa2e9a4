import Lev.BufferBounds

/-! Indexed assignment of a string or a Buffer as a splice. It is one as long as it ends
before the last byte of the Buffer: from there on the slice is resized, for a
terminating NULL, and gets one byte too many. -/
namespace Lev.Buffer
open CInt Slab Memory Run

/-- What memcpy demands: the bytes to write and the bytes read have no address in common. -/
def SourceApart (s : State) (ms : MemSlice) (start : ℕ) : Operand → Prop
  | .buffer o => ∀ src, s.slice? o = some src →
    Apart ms.mb (ms.slice + start) src.untilLen src.mb src.slice src.untilLen
  | .str _ => True

/-- The Buffer is as long as it was or as it must be, it has the bytes `c` from `start` on
and its old ones elsewhere, and the Buffers apart from its old range are as they were. -/
structure Spliced (s s' : State) (o : ObjId) (ms : MemSlice) (start : ℕ) (c : List UInt8) :
    Prop where
  self : ∃ ms', s'.slice? o = some ms' ∧
    ms'.untilLen = max ms.untilLen (start + c.length) ∧
    ms'.contents s'.heap = (ms.contents s.heap).take start ++ c ++
      (ms.contents s.heap).drop (start + c.length)
  others : ∀ o' other, s.slice? o' = some other →
    Apart ms.mb ms.slice ms.untilLen other.mb other.slice other.untilLen →
    s'.slice? o' = some other ∧ other.contents s'.heap = other.contents s.heap

/-- `b[i] = v` is a splice, made by a copy that is defined. -/
def Splices (s : State) (o : ObjId) (i : ℤ) (v : Operand) : Prop :=
  ∃ ms c s', s.slice? o = some ms ∧ operandBytes s v = some c ∧
    SourceApart s ms (i.toNat - 1) v ∧ bufferNewindex s o i (.operand v) = .ok s' ∧
    Spliced s s' o ms (i.toNat - 1) c

theorem load_store_within (h : Heap) (mb off len k : ℕ) (c : List UInt8)
    (hfit : k + c.length ≤ len) :
    (h.store mb (off + k) c).load mb off len =
      (h.load mb off len).take k ++ c ++ (h.load mb off len).drop (k + c.length) := by
  obtain ⟨rest, rfl⟩ : ∃ rest, len = k + c.length + rest := ⟨len - (k + c.length), by omega⟩
  have hbefore : (h.store mb (off + k) c).load mb off k = h.load mb off k :=
    Heap.load_store_of_disjoint _ _ _ _ _ fun _ => .inl (Nat.le_refl _)
  have hafter : (h.store mb (off + k) c).load mb (off + (k + c.length)) rest =
      h.load mb (off + (k + c.length)) rest :=
    Heap.load_store_of_disjoint _ _ _ _ _ fun _ => .inr (by omega)
  have htake : (h.load mb off (k + c.length + rest)).take k = h.load mb off k := by
    rw [Nat.add_assoc, Heap.load_append]
    exact List.take_left' (Heap.load_length _ _ _ _)
  have hdrop : (h.load mb off (k + c.length + rest)).drop (k + c.length) =
      h.load mb (off + (k + c.length)) rest := by
    rw [Heap.load_append]
    exact List.drop_left' (Heap.load_length _ _ _ _)
  rw [Heap.load_append, Heap.load_append, Heap.load_store_self, hbefore, hafter, htake, hdrop]

/-- Short of 2 GiB the length does not change on its way through `int`. -/
theorem levMemsliceAppendMem_eq {h : Heap} {ms : MemSlice} {start : ℕ} {c : List UInt8}
    (hpos : 0 < ms.untilLen) (hlt : ms.untilLen < 2 ^ 64) (hn : start + c.length < 2 ^ 31) :
    levMemsliceAppendMem h ms start c =
      if start + c.length < ms.untilLen then some (ms, h.store ms.mb (ms.slice + start) c)
      else (levMemsliceResize h ms (start + c.length)).map fun (ms, h) =>
        (ms, h.store ms.mb (ms.slice + start) c) := by
  have hempty : levMemsliceEmptyLength ms = ms.untilLen - 1 := szSub_of_le hpos hlt
  rw [levMemsliceAppendMem, szAdd_of_lt (by omega), toInt_of_lt hn, levMemsliceEnsureEmptyLength,
    toSizeT_natCast (by omega), hempty]
  by_cases hfit : start + c.length < ms.untilLen
  · rw [if_neg (by omega), if_pos hfit]
  · rw [if_pos (by omega), if_neg hfit]
    cases levMemsliceResize h ms (start + c.length) <;> rfl

/-- A resize that is needed makes the slice one byte longer than asked for. -/
theorem untilLen_of_resize {h h' : Heap} {ms ms' : MemSlice} {size : ℕ} (hpos : 0 < ms.untilLen)
    (hlt : ms.untilLen < 2 ^ 64) (hsize : size < 2 ^ 64 - 1) (hge : ms.untilLen ≤ size)
    (hr : levMemsliceResize h ms size = some (ms', h')) : ms'.untilLen = size + 1 := by
  rcases levMemsliceResize_cases hpos hlt hsize hr with
    ⟨h, _⟩ | ⟨_, _, rfl, _⟩ | ⟨_, _, b, h₀, _, rfl, _⟩
  · omega
  · rfl
  · rfl

theorem slice?_put {s : State} {o : ObjId} {ms : MemSlice} (ho : s.slice? o = some ms)
    (ms' : MemSlice) (h : Heap) : (s.put o ms' h).slice? o = some ms' := by
  rw [slice?_eq_some]
  exact List.getElem?_set_self (slice?_lt ho)

/-- The checks of `buffer__newindex` passed, what is left is the copy. -/
theorem bufferNewindex_operand {s : State} {o : ObjId} {i : ℤ} {v : Operand} {ms : MemSlice}
    {c : List UInt8} (ho : s.slice? o = some ms) (hc : operandBytes s v = some c)
    (hlt : ms.untilLen < 2 ^ 64) (hi : 1 ≤ i) (hle : i ≤ ms.untilLen) :
    bufferNewindex s o i (.operand v) =
      match levMemsliceAppendMem s.heap ms (i.toNat - 1) c with
      | none => .error .nullBlock
      | some (ms, h) => .ok (s.put o ms h) := by
  have hidx : toSizeT i = i.toNat := by
    have h := toSizeT_natCast (show i.toNat < 2 ^ 64 by omega)
    rwa [Int.toNat_of_nonneg (by omega)] at h
  simp only [bufferNewindex, ho, hc, hidx]
  exact if_neg (by omega)

theorem spliced_of_fits {s : State} {o : ObjId} {ms : MemSlice} {start : ℕ} {c : List UInt8}
    (ho : s.slice? o = some ms) (hfit : start + c.length < ms.untilLen) :
    Spliced s (s.put o ms (s.heap.store ms.mb (ms.slice + start) c)) o ms start c := by
  refine ⟨⟨ms, slice?_put ho _ _, (max_eq_left hfit.le).symm, ?_⟩, fun o' other ho' hapart => ?_⟩
  · exact load_store_within s.heap ms.mb ms.slice ms.untilLen start c hfit.le
  · have hsame : (s.put o ms s.heap).objs = s.objs := congrArg State.objs (put_self ho)
    change s.objs.set o (some ms) = s.objs at hsame
    constructor
    · rw [State.slice?, State.put, hsame]
      exact ho'
    · refine Heap.load_store_of_disjoint _ _ _ _ _ fun hmb => ?_
      rcases hapart hmb.symm with h | h
      · exact .inr (by omega)
      · exact .inl (by omega)

/-- The assignment is a splice exactly if it ends before the last byte of the Buffer and
reads no byte that it writes. -/
theorem splices_iff {s : State} {o : ObjId} {ms : MemSlice} {i : ℤ} {v : Operand} {c : List UInt8}
    (ho : s.slice? o = some ms) (hlt : ms.untilLen < 2 ^ 64) (hc : operandBytes s v = some c)
    (hi : 1 ≤ i) (hle : i ≤ ms.untilLen) (hmib : i.toNat - 1 + c.length < 2 ^ 20) :
    Splices s o i v ↔
      i.toNat - 1 + c.length < ms.untilLen ∧ SourceApart s ms (i.toNat - 1) v := by
  have hnew := bufferNewindex_operand ho hc hlt hi hle
  rw [levMemsliceAppendMem_eq (by omega) hlt (by omega)] at hnew
  constructor
  · rintro ⟨ms₁, c₁, s', ho₁, hc₁, hapart, hs, hspliced⟩
    cases ho.symm.trans ho₁
    cases hc.symm.trans hc₁
    refine ⟨?_, hapart⟩
    by_contra hfit
    rw [if_neg hfit, hs] at hnew
    obtain ⟨ms', ho', hlen, -⟩ := hspliced.self
    cases hr : levMemsliceResize s.heap ms (i.toNat - 1 + c.length) with
    | none =>
      rw [hr] at hnew
      cases hnew
    | some r =>
      obtain ⟨ms₂, h₂⟩ := r
      rw [hr] at hnew
      simp only [Option.map_some, Except.ok.injEq] at hnew
      subst hnew
      rw [slice?_put ho] at ho'
      cases ho'
      have hgrown := untilLen_of_resize (by omega) hlt (by omega) (by omega) hr
      omega
  · rintro ⟨hfit, hapart⟩
    rw [if_pos hfit] at hnew
    exact ⟨ms, c, _, ho, hc, hapart, hnew, spliced_of_fits ho hfit⟩

/-- One byte assigned to a Buffer of one byte, which has two afterwards. -/
theorem exactFit_grows :
    ¬ Splices (exec next (start fun _ _ => 0) [.new (.number 1)]) 0 1 (.str [0x61]) := by
  have hlen : ((bufferNewindex (exec next (start fun _ _ => 0) [.new (.number 1)]) 0 1
      (.operand (.str [0x61]))).toOption.bind fun s' =>
        (s'.slice? 0).map MemSlice.untilLen) = some 2 := by decide +kernel
  have hold : ((exec next (start fun _ _ => 0) [.new (.number 1)]).slice? 0).map
      MemSlice.untilLen = some 1 := by decide +kernel
  rintro ⟨ms, c, s', ho, hc, -, hs, hspliced⟩
  obtain ⟨ms', ho', hmax, -⟩ := hspliced.self
  cases hc
  rw [ho] at hold
  rw [hs] at hlen
  simp only [Except.toOption, Option.bind_some, ho', Option.map_some, Option.some.injEq]
    at hlen hold
  rw [hlen, hold] at hmax
  exact absurd hmax (by decide)

theorem splices_iff_inside :
    Splices (exec next (start fun _ _ => 0) [.new (.number 4)]) 0 2 (.str [0x61, 0x62]) := by
  refine (@splices_iff _ 0 ⟨1023, 0, 4⟩ 2 (.str [0x61, 0x62]) [0x61, 0x62] (by decide +kernel)
    (by decide) rfl (by decide) (by decide) (by decide)).mpr ⟨by decide, trivial⟩

end Lev.Buffer
