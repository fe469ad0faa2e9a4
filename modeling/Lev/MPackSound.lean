import Lev.MPackHead
import Lev.MPackSafety

/-! What `lev.mpack.unpack` returns is the value its bytes are, where the counts of arrays and
maps fit an `int` and no Buffer has to be made of no bytes. -/
namespace Lev.MPack
open CInt Endian Slab Memory Lua

namespace Wire

mutual

/-- `P` holds of the strings in value position, and the offsets of their bytes. -/
def ValueStrings (P : ℕ → List UInt8 → Prop) : Bool → ℕ → Wire → Prop
  | _, _, .single _ => True
  | _, _, .scalar _ _ => True
  | k, ofs, .raw w s => k = false → P (ofs + (1 + w.size)) s
  | k, ofs, .array w _ items => ValueStringsList P k (ofs + (1 + w.size)) items
  | _, ofs, .map w _ items => ValueStringsPairs P (ofs + (1 + w.size)) items

def ValueStringsList (P : ℕ → List UInt8 → Prop) : Bool → ℕ → List Wire → Prop
  | _, _, [] => True
  | k, ofs, x :: items =>
    ValueStrings P k ofs x ∧ ValueStringsList P (x.keyingAfter k) (ofs + x.len) items

def ValueStringsPairs (P : ℕ → List UInt8 → Prop) : ℕ → List Wire → Prop
  | _, [] => True
  | _, [_] => True
  | ofs, k :: v :: items => ValueStrings P true ofs k ∧ ValueStrings P false (ofs + k.len) v ∧
    ValueStringsPairs P (ofs + (k.len + v.len)) items

end

section lists
variable {P Q : ℕ → List UInt8 → Prop} {c c' : Source}

theorem pairs_induct {motive : List Wire → Prop} (nil : motive []) (one : ∀ x, motive [x])
    (two : ∀ k v items, motive items → motive (k :: v :: items)) : ∀ items, motive items
  | [] => nil
  | [x] => one x
  | k :: v :: items => two k v items (pairs_induct nil one two items)

theorem ValueStrings.mono (hPQ : ∀ o s, P o s → Q o s) {x : Wire} {k : Bool} {ofs : ℕ}
    (hx : x.ValueStrings P k ofs) : x.ValueStrings Q k ofs := by
  induction x using Wire.induct generalizing k ofs with
  | single t | scalar s p => trivial
  | raw w s => exact fun hk => hPQ _ _ (hx hk)
  | array w n items ih =>
    rw [ValueStrings] at hx ⊢
    generalize ofs + (1 + w.size) = o at hx ⊢
    induction items generalizing k o with
    | nil => trivial
    | cons x items ihitems =>
      obtain ⟨hfirst, hrest⟩ := hx
      exact ⟨ih x List.mem_cons_self hfirst,
        ihitems (fun y hy => ih y (List.mem_cons_of_mem _ hy)) _ hrest⟩
  | map w n items ih =>
    rw [ValueStrings] at hx ⊢
    generalize ofs + (1 + w.size) = o at hx ⊢
    induction items using pairs_induct generalizing o with
    | nil => trivial
    | one x => trivial
    | two key v items ihitems =>
      obtain ⟨hkey, hv, hrest⟩ := hx
      refine ⟨ih key List.mem_cons_self hkey, ih v (by simp) hv, ?_⟩
      exact ihitems (fun y hy => ih y (by simp [hy])) _ hrest

/-- Two sources that read the strings of a tree alike read the tree alike. -/
theorem Reads.congr {x : Wire} {k : Bool} {ofs : ℕ} {v : LuaValue}
    (hkeys : ∀ o s, c.string true o s = c'.string true o s)
    (hx : x.ValueStrings (fun o s => c.string false o s = c'.string false o s) k ofs)
    (hr : x.Reads c k ofs v) : x.Reads c' k ofs v := by
  induction x using Wire.induct generalizing k ofs v with
  | single t | scalar s p => exact hr
  | raw w s =>
    rw [Reads] at hr ⊢
    cases k with
    | true => rw [hr, hkeys]
    | false => rw [hr, hx rfl]
  | array w n items ih =>
    rw [ValueStrings] at hx
    obtain ⟨id, vs, rfl, hlist⟩ := hr
    refine ⟨id, vs, rfl, ?_⟩
    generalize ofs + (1 + w.size) = o at hx hlist ⊢
    induction items generalizing k o vs with
    | nil => exact hlist
    | cons x items ihitems =>
      obtain ⟨u, us, rfl, hfirst, hrest⟩ := hlist
      exact ⟨u, us, rfl, ih x List.mem_cons_self hx.1 hfirst,
        ihitems (fun y hy => ih y (List.mem_cons_of_mem _ hy)) us _ hx.2 hrest⟩
  | map w n items ih =>
    rw [ValueStrings] at hx
    obtain ⟨id, hash, rfl, hpairs⟩ := hr
    refine ⟨id, hash, rfl, ?_⟩
    generalize ofs + (1 + w.size) = o at hx hpairs ⊢
    generalize ([] : List (LuaValue × LuaValue)) = acc at hpairs ⊢
    induction items using pairs_induct generalizing o acc with
    | nil => exact hpairs
    | one x => exact hpairs
    | two key v items ihitems =>
      obtain ⟨kv, vv, hkey, hv, hrest⟩ := hpairs
      exact ⟨kv, vv, ih key List.mem_cons_self hx.1 hkey, ih v (by simp) hx.2.1 hv,
        ihitems (fun y hy => ih y (by simp [hy])) _ hx.2.2 _ hrest⟩

end lists

end Wire

/-- What is pushed for a string of value position is the Buffer of its bytes. -/
def ExactBuffer (h : Heap) (ms : MemSlice) (ofs : ℕ) (s : List UInt8) : Prop :=
  (((unpackStart h ms).advance ofs).pushString s.length).stack.head? =
    some (.buffer ⟨ms.mb, ms.slice + ofs, s.length⟩)

/-- The first `n` bytes are one value of the format, and `v` is what it stands for. -/
def StandsFor (h : Heap) (ms : MemSlice) (n : ℕ) (v : LuaValue) : Prop :=
  n ≤ ms.untilLen ∧ ∃ x : Wire, x.WellFormed ∧ (ms.contents h).take n = x.bytes ∧ n = x.len ∧
    x.Reads ⟨some ms.mb, ms.slice, 0⟩ false 0 v ∧ x.ValueStrings (ExactBuffer h ms) false 0

/-- If the first result is not nil, it is the number of bytes read, and the second one the
value of these. -/
def UnpackSound (grants : Grants) (h : Heap) (ms : MemSlice) : Prop :=
  ∀ m vs h', unpackRun grants h ms = .ok m → msgpackUnpack grants h ms = .ok (vs, h') →
    (received vs).1.isNil = false →
    (received vs).1 = .number (.ofInt m.ofs) ∧ StandsFor h ms m.ofs (received vs).2

/-- If the decoder accepts the start of the bytes, no array or map there has a count of 2^31 or
more, and no string in value position is empty. -/
def Faithful (grants : Grants) (d : List UInt8) : Prop :=
  ∀ (x : Wire) (r : List UInt8), x.Legal → grants.All [] x.tables → d = x.bytes ++ r →
    x.Small ∧ x.ValueStrings (fun _ s => s ≠ []) false 0

variable {grants : Grants} {h : Heap} {ms : MemSlice}

theorem unpackResults_err {m : Machine} (hm : ¬ (0 < m.ofs ∧ m.err = false)) :
    (received (unpackResults m)).1.isNil = true := by
  rw [unpackResults, if_neg hm]
  rcases m.stack with _ | ⟨v, _ | ⟨w, stack⟩⟩
  · rfl
  · rfl
  · rfl

theorem exactBuffer_iff (hsize : 0 < (h.blocks ms.mb).size) (ofs : ℕ) (s : List UInt8) :
    ExactBuffer h ms ofs s ↔ s ≠ [] := by
  have hpush : (((unpackStart h ms).advance ofs).pushString s.length).stack.head? =
      some (.buffer ⟨ms.mb, ms.slice + (0 + ofs),
        if s.length = 0 then (unpackStart h ms).source.fill else s.length⟩) := by
    simp only [Machine.source, unpackStart, Machine.advance, Machine.pushString, Bool.false_eq_true,
      if_false, levPushbufferFromMb, levSlabIncRef, Heap.setBlock, Function.update_self]
    rfl
  have hfill : (unpackStart h ms).source.fill ≠ 0 := by
    rcases eq_or_ne (h.blocks ms.mb).nbytes 0 with hzero | hne
    · exact (if_pos hzero).trans_ne (Nat.ne_of_gt hsize)
    · exact (if_neg hne).trans_ne hne
  rw [Nat.zero_add] at hpush
  rw [ExactBuffer, hpush]
  cases s with
  | nil => simpa using hfill
  | cons b s => simp

theorem unpackSound_of_faithful (hsize : 0 < (h.blocks ms.mb).size)
    (hf : Faithful grants (ms.contents h)) : UnpackSound grants h ms := by
  intro m vs h' hrun hunpack hnil
  have hpos : ms.untilLen ≠ 0 := by
    intro hzero
    rw [msgpackUnpack, if_pos hzero] at hunpack
    cases hunpack
    cases hnil
  rw [msgpackUnpack_eq hpos hrun] at hunpack
  cases hunpack
  have herr : m.err = false := by
    by_contra herr
    rw [unpackResults_err fun hok => herr hok.2] at hnil
    cases hnil
  have hleft : (unpackStart h ms).left < ms.untilLen + 1 := by
    rw [unpackStart_left]
    exact Nat.lt_succ_self _
  obtain ⟨x, r, v, hx, hd, ht, hgrants⟩ := unpackAnytype_accepted hleft hrun herr
  have hdata : ms.contents h = x.bytes ++ r := hd
  obtain ⟨hsmall, hstrings⟩ := hf x r hx hgrants hdata
  have hofs : m.ofs = x.len := ht.ofs.trans (Nat.zero_add _)
  rw [unpackResults_took ht, hofs]
  refine ⟨rfl, ?_, x, hx.wellFormed hsmall, ?_, rfl, ?_, ?_⟩
  · rw [← contents_length h ms, hdata, List.length_append]
    exact Nat.le_add_right _ _
  · rw [hdata, Wire.len, List.take_left]
  · have hreads : x.Reads (unpackStart h ms).source false 0 v := ht.reads
    have hstrings' : x.ValueStrings (fun o s => (unpackStart h ms).source.string false o s =
        Source.string ⟨some ms.mb, ms.slice, 0⟩ false o s) false 0 := by
      refine hstrings.mono fun o s hs => ?_
      have hlen : s.length ≠ 0 := fun hz => hs (List.eq_nil_of_length_eq_zero hz)
      have hfill : (if s.length = 0 then (unpackStart h ms).source.fill else s.length) =
          if s.length = 0 then 0 else s.length := by rw [if_neg hlen, if_neg hlen]
      exact congrArg (fun n => LuaValue.buffer ⟨ms.mb, ms.slice + o, n⟩) hfill
    exact Wire.Reads.congr (c := (unpackStart h ms).source) (fun _ _ => rfl) hstrings' hreads
  · exact hstrings.mono fun o s hs => (exactBuffer_iff hsize o s).mpr hs

theorem faithful_of_unpackSound (hsize : 0 < (h.blocks ms.mb).size) (hs : UnpackSound grants h ms) :
    Faithful grants (ms.contents h) := by
  intro x r hx hgrants hd
  have hfuel : (x.bytes ++ r).length < ms.untilLen + 1 := by
    rw [← hd, contents_length]
    exact Nat.lt_succ_self _
  obtain ⟨m, v, hm, ht⟩ := takes_of_length hx hfuel (unpackStart h ms) r rfl hd hgrants
  have hpos : ms.untilLen ≠ 0 := by
    rw [← contents_length h ms, hd, List.length_append]
    have := x.len_pos
    rw [Wire.len] at this
    omega
  have hunpack := msgpackUnpack_eq hpos hm
  rw [unpackResults_took ht] at hunpack
  obtain ⟨-, -, y, hy, hbytes, -, -, hstrings⟩ := hs m _ _ hm hunpack rfl
  have hofs : m.ofs = x.bytes.length := ht.ofs.trans (Nat.zero_add _)
  rw [hofs, hd, List.take_left] at hbytes
  obtain ⟨hwell, rfl⟩ := Wire.eq_of_bytes hx hy hbytes
  exact ⟨hx.small hwell, hstrings.mono fun o s => (exactBuffer_iff hsize o s).mp⟩

/-- For which bytes what is returned is the value they start with. -/
theorem unpack_sound_iff (hsize : 0 < (h.blocks ms.mb).size) :
    UnpackSound grants h ms ↔ Faithful grants (ms.contents h) :=
  ⟨faithful_of_unpackSound hsize, unpackSound_of_faithful hsize⟩

def heapOf (d : List UInt8) : Heap :=
  ((Heap.boot fun _ _ => 0).setBlock 0 ⟨.mem1k, 1, 1024, d.length⟩).store 0 0 d

/-- An array header that counts 2^31 elements is read as an empty array. -/
theorem hugeArray_unsound :
    ¬ UnpackSound luajitGrants (heapOf [0xdd, 0x80, 0, 0, 0]) ⟨0, 0, 5⟩ := by
  intro hs
  have hx : (Wire.array .four (2 ^ 31) []).Legal := by
    refine ⟨by decide, ?_, trivial⟩
    rw [toInt_toNat_eq (by decide), if_neg (by decide)]
    rfl
  have hf := faithful_of_unpackSound (by decide) hs _ [] hx ⟨trivial, by decide +kernel⟩
    (by decide +kernel)
  exact absurd hf.1.1 (by decide)

/-- The one byte of the number 1. -/
theorem unpack_sound_iff_one : UnpackSound luajitGrants (heapOf [1]) ⟨0, 0, 1⟩ := by
  refine (unpack_sound_iff (by decide)).mpr fun x r hx _ h => ?_
  have hd : (⟨0, 0, 1⟩ : MemSlice).contents (heapOf [1]) = [1] := by decide +kernel
  rw [hd] at h
  obtain ⟨rfl, -⟩ := Wire.eq_single (by decide) hx.head.1 h
  exact ⟨trivial, trivial⟩

end Lev.MPack
