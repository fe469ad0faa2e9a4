import Lev.MPackPlain
import Lev.SlabSafety

/-! What `lev.mpack.unpack(lev.mpack.pack(v))` returns: the value again, with Buffers in
the place of strings, as long as there is a byte to make each Buffer of. -/
namespace Lev.MPack
open CInt Endian Slab Memory Lua

/-- A Buffer of the bytes `s`. -/
def IsBuffer (h : Heap) (s : List UInt8) (w : LuaValue) : Prop :=
  ∃ ms, w = .buffer ms ∧ ms.untilLen = s.length ∧ ms.contents h = s

/-- `w` is the value `v` again, with a Buffer of the same bytes for every string. -/
def Same (h : Heap) (v w : LuaValue) : Prop := SameBy (IsBuffer h) v w

def NoEmpty (v : LuaValue) : Prop := Strings (fun s => s ≠ []) v

/-- Packing succeeds, and unpacking the result returns the length of the encoding and
the value again. -/
def RoundTrips (grants : Grants) (h : Heap) (v : LuaValue) : Prop :=
  ∃ ms h₁ w h₂, msgpackPack h v = .ok (ms, h₁) ∧ ms.untilLen = (toWire h v).len ∧
    msgpackUnpack grants h₁ ms = .ok ([.number (.ofInt ms.untilLen), w], h₂) ∧ Same h₂ v w

theorem string_reads {h₁ : Heap} {mb base n fill : ℕ} (hfill : fill ≠ 0) {s r : List UInt8}
    {ofs : ℕ} {w : LuaValue}
    (hr : (stringWire s).Reads ⟨some mb, base, fill⟩ false ofs w)
    (hd : (h₁.load mb base n).drop ofs = (stringWire s).bytes ++ r) :
    IsBuffer h₁ s w ↔ s ≠ [] := by
  rw [stringWire, Wire.Reads, Source.string] at hr
  simp only [Bool.false_eq_true, if_false] at hr
  constructor
  · rintro ⟨ms, hms, hlen, _⟩ rfl
    rw [hr] at hms
    obtain rfl := LuaValue.buffer.inj hms
    exact hfill hlen
  · intro hs
    have hpos : s.length ≠ 0 := fun hz => hs (List.eq_nil_of_length_eq_zero hz)
    rw [if_neg hpos] at hr
    refine ⟨_, hr, rfl, ?_⟩
    have hdrop : (h₁.load mb base n).drop (ofs + (1 + (widthOf 32 s.length).size)) = s ++ r := by
      rw [← List.drop_drop, hd, stringWire, Wire.bytes, List.append_assoc]
      refine List.drop_left' ?_
      rw [Wire.rawHeader, Width.header_length, Nat.add_comm]
    exact load_of_drop hdrop

theorem same_iff_noEmpty {h h₁ : Heap} {mb base n fill : ℕ} (hfill : fill ≠ 0) {v : LuaValue}
    (hv : Plain v) {ofs : ℕ} {r : List UInt8} {w : LuaValue}
    (hr : (toWire h v).Reads ⟨some mb, base, fill⟩ false ofs w)
    (hd : (h₁.load mb base n).drop ofs = (toWire h v).bytes ++ r) : Same h₁ v w ↔ NoEmpty v :=
  sameBy_iff (S := IsBuffer h₁) (E := fun s => s ≠ [])
    (fun hs hb => string_reads hfill hs hb) hv hr hd

/-- A Buffer made by the decoder for an empty string shows the whole block. -/
theorem msgpackPack_fill {h h₁ : Heap} {v : LuaValue} {ms : MemSlice}
    (hp : msgpackPack h v = .ok (ms, h₁)) : (unpackStart h₁ ms).source.fill ≠ 0 := by
  unfold msgpackPack at hp
  simp only at hp
  split at hp
  · split at hp
    · cases hp
    · rename_i mb h' hget
      obtain ⟨hn, hsize⟩ := getBlock_block hget
      simp only [levPushbufferFromMb, levSlabIncRef, Except.ok.injEq, Prod.mk.injEq] at hp
      obtain ⟨rfl, rfl⟩ := hp
      simp [Machine.source, unpackStart, hn, Nat.ne_of_gt hsize]
  · cases hp

/-- The value comes back exactly if no string outside keys is empty: the Buffer for an
empty string shows the whole block. -/
theorem roundTrip_iff (grants : Grants) (hgrants : grants.Ample) (h : Heap) (v : LuaValue)
    (hv : Plain v) (hfit : (toWire h v).len ≤ 2 ^ 20) : RoundTrips grants h v ↔ NoEmpty v := by
  have hsound := sound_of_plain hv hfit
  obtain ⟨hok, hbytes, -⟩ := pack_iff h v hsound.range
  obtain ⟨⟨ms, h₁⟩, hpack⟩ := hok.mpr ⟨hsound.packable, hfit⟩
  have hcontents := hbytes ms h₁ hpack
  have hlen : ms.untilLen = (toWire h v).len := by
    rw [← contents_length h₁ ms, hcontents, Wire.len]
  have hdata : ms.contents h₁ = (toWire h v).bytes ++ [] := by
    rw [hcontents, List.append_nil]
  have hfuel : ((toWire h v).bytes ++ []).length < ms.untilLen + 1 := by
    rw [List.append_nil, hlen]
    exact Nat.lt_succ_self _
  obtain ⟨m, w, hm, ht⟩ := takes_of_length hsound.legal hfuel (unpackStart h₁ ms) [] rfl hdata
    (hsound.granted hgrants hfit)
  have hpos : ms.untilLen ≠ 0 := by
    rw [hlen]
    exact Nat.ne_of_gt (toWire h v).len_pos
  have hunpack := msgpackUnpack_eq hpos hm
  rw [unpackResults_took ht, ← hlen] at hunpack
  have hsame : Same m.heap v w ↔ NoEmpty v := by
    have hreads := ht.reads
    have hd : (m.heap.load ms.mb ms.slice ms.untilLen).drop 0 = (toWire h v).bytes ++ [] :=
      (contents_congr ht.frame.heap.bytes ms).trans hdata
    exact same_iff_noEmpty (msgpackPack_fill hpack) hv hreads hd
  rw [← hsame]
  constructor
  · rintro ⟨ms', h₁', w', h₂, hp, -, hu, hs⟩
    cases hpack.symm.trans hp
    cases hunpack.symm.trans hu
    exact hs
  · exact fun hs => ⟨ms, h₁, w, m.heap, hpack, hlen, hunpack, hs⟩

/-- The length of the Buffer that a value comes back as. -/
def lengthBack (grants : Grants) (h : Heap) (v : LuaValue) : ℕ :=
  match msgpackPack h v with
  | .ok (ms, h₁) =>
    match msgpackUnpack grants h₁ ms with
    | .ok ([_, .buffer ms'], _) => ms'.untilLen
    | _ => 0
  | _ => 0

/-- The empty string comes back as a Buffer of 1024 bytes. -/
theorem emptyString_grows : ¬ RoundTrips luajitGrants (Heap.boot fun _ _ => 0) (.string []) := by
  have hrun : lengthBack luajitGrants (Heap.boot fun _ _ => 0) (.string []) = 1024 := by
    decide +kernel
  rw [lengthBack] at hrun
  rintro ⟨ms, h₁, w, h₂, hp, -, hu, hs⟩
  simp only [Same, SameBy] at hs
  obtain ⟨ms', rfl, hlen, -⟩ := hs
  simp only [hp, hu, hlen, List.length_nil] at hrun
  omega

theorem roundTrip_iff_pair :
    RoundTrips luajitGrants (Heap.boot fun _ _ => 0)
      (.table 0 [] [(.string [107], .string [118])]) := by
  refine (roundTrip_iff _ Grants.luajit_ample _ _ ?_ (by decide +kernel)).mpr ?_
  · simp [Plain, PlainPairs, PlainKey, LuaValue.isNil]
  · simp [NoEmpty, Strings, StringsList, StringsPairs]

end Lev.MPack
