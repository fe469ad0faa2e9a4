import Lev.Ipc
import Lev.MPackSafety

/-! The read loop on a Buffer of whole trees: it calls its callback once for each, with
what it was read as, its length and a Buffer that starts at it. -/
namespace Lev.Ipc
open CInt Slab Memory Lua MPack

/-- The arguments of one call of `ipc__process_packet` or `client__process_packet`. -/
structure Received where
  heap : Heap
  packet : LuaValue
  len : ℕ
  buf : MemSlice

def process1 {σ : Type} (process : Process σ) (s : σ) (r : Received) : Option σ :=
  process s r.heap r.packet r.len r.buf

theorem bufferSlice_window {h : Heap} {buf : MemSlice} {o len : ℕ} (hlen : 0 < len)
    (hin : o + len ≤ buf.untilLen) (hsmall : buf.untilLen < 2 ^ 31) :
    slice h buf (o + 1) len =
      some (⟨buf.mb, buf.slice + o, len⟩, levSlabIncRef h buf.mb) := by
  have ho : toSizeT ((o : ℤ) + 1) = o + 1 := by
    have := toSizeT_natCast (n := o + 1) (by omega)
    exact_mod_cast this
  have hl : toSizeT (len : ℤ) = len := toSizeT_natCast (by omega)
  have hobj : (⟨h, none, [some buf], []⟩ : Buffer.State).slice? 0 = some buf := rfl
  unfold slice Buffer.bufferSlice
  simp only [hobj, ho, hl, if_neg (Nat.succ_ne_zero o), if_neg (Nat.ne_of_gt hlen),
    Nat.add_sub_cancel]
  rw [if_neg (by omega), if_neg (by omega)]
  rfl

theorem slice_rest {h : Heap} {buf : MemSlice} {len : ℕ} (hin : len < buf.untilLen)
    (hsmall : buf.untilLen < 2 ^ 31) :
    slice h buf (len + 1) 0 =
      some (⟨buf.mb, buf.slice + len, buf.untilLen - len⟩, levSlabIncRef h buf.mb) := by
  have ho : toSizeT ((len : ℤ) + 1) = len + 1 := by
    have := toSizeT_natCast (n := len + 1) (by omega)
    exact_mod_cast this
  have hz : toSizeT 0 = 0 := toSizeT_natCast (n := 0) (by omega)
  have hobj : (⟨h, none, [some buf], []⟩ : Buffer.State).slice? 0 = some buf := rfl
  unfold slice Buffer.bufferSlice
  simp only [hobj, ho, hz, if_neg (Nat.succ_ne_zero len), if_true, Nat.add_sub_cancel]
  rw [if_neg (by omega), if_neg (Nat.lt_irrefl _)]
  rfl

theorem contents_slice {h : Heap} {buf : MemSlice} {bs r : List UInt8}
    (hdata : buf.contents h = bs ++ r) :
    (⟨buf.mb, buf.slice + bs.length, buf.untilLen - bs.length⟩ : MemSlice).contents h = r := by
  have hlen := contents_length h buf
  rw [hdata, List.length_append] at hlen
  have hdrop : (h.load buf.mb buf.slice buf.untilLen).drop bs.length = r ++ [] := by
    rw [List.append_nil]
    exact (congrArg (List.drop bs.length) hdata).trans List.drop_left
  have hload := load_of_drop hdrop
  rw [show buf.untilLen - bs.length = r.length by omega]
  exact hload

/-- A call for tree `x`, out of a Buffer of block `mb` in heap `h`. -/
structure Got (h : Heap) (mb : BlockId) (x : Wire) (r : Received) : Prop where
  mb_eq : r.buf.mb = mb
  heap : ∀ b, (r.heap.blocks b).size = (h.blocks b).size
  len_eq : r.len = x.len
  front : ∃ rest, r.buf.contents r.heap = x.bytes ++ rest
  small : r.buf.untilLen < 2 ^ 31
  reads : x.Reads (unpackStart r.heap r.buf).source false 0 r.packet

theorem source_sameFill {h h' : Heap} (hs : SameFill h h') (buf : MemSlice) :
    (unpackStart h' buf).source = (unpackStart h buf).source := by
  simp only [Machine.source, unpackStart, hs.nbytes, hs.size]
  rfl

theorem unpack_legal {grants : Grants} {h : Heap} {buf : MemSlice} {x : Wire}
    (hx : x.Decodable grants) {rest : List UInt8} (hdata : buf.contents h = x.bytes ++ rest)
    (hsmall : buf.untilLen < 2 ^ 31) :
    ∃ v h', unpack grants h buf = some (x.len, v, h') ∧ SameFill h h' ∧
      Got h buf.mb x ⟨h', v, x.len, buf⟩ := by
  have hlen := contents_length h buf
  rw [hdata, List.length_append] at hlen
  have hwire := x.len_pos
  simp only [Wire.len] at hwire
  have hfuel : (x.bytes ++ rest).length < buf.untilLen + 1 := by
    rw [List.length_append]
    omega
  obtain ⟨m, v, hm, ht⟩ := takes_of_length hx.legal hfuel (unpackStart h buf) rest rfl hdata
    hx.granted
  have hrun := msgpackUnpack_eq (by omega) hm
  rw [unpackResults_took ht] at hrun
  have hint : (Double.ofInt (x.len : ℤ)).toInt? = some (x.len : ℤ) := by
    refine Double.toInt?_ofNat ?_
    simp only [Wire.len]
    omega
  have hsame : SameFill h m.heap := ht.frame.heap
  refine ⟨v, m.heap, ?_, hsame, rfl, hsame.size, rfl,
    ⟨rest, (contents_congr hsame.bytes buf).trans hdata⟩, hsmall, ?_⟩
  · rw [unpack, hrun]
    simp only [hint, Option.map_some, Int.toNat_natCast]
  · rw [source_sameFill hsame]
    exact ht.reads

/-- The loop over a Buffer of whole trees calls the callback once for each, in order. -/
theorem readLoop_whole {σ : Type} {grants : Grants} (process : Process σ) {xs : List Wire}
    (hne : xs ≠ []) (hx : ∀ x ∈ xs, x.Decodable grants) {fuel at_ nread : ℕ} {h : Heap}
    {buf : MemSlice}
    (hfuel : (Wire.bytesList xs).length < fuel) (hdata : buf.contents h = Wire.bytesList xs)
    (hsmall : buf.untilLen < 2 ^ 31) (hat : at_ + buf.untilLen = nread) :
    ∃ rs, List.Forall₂ (Got h buf.mb) xs rs ∧
      ∀ s, readLoop grants process fuel at_ nread h buf s = rs.foldlM (process1 process) s := by
  induction xs generalizing fuel at_ h buf with
  | nil => exact absurd rfl hne
  | cons x xs ih =>
    obtain ⟨fuel, rfl⟩ : ∃ k, fuel = k + 1 := ⟨fuel - 1, by omega⟩
    rw [Wire.bytesList] at hdata hfuel
    rw [List.length_append] at hfuel
    have hwire := x.len_pos
    obtain ⟨v, h', hunpack, hsame, hgot⟩ := unpack_legal (hx x List.mem_cons_self) hdata hsmall
    have hlen := contents_length h buf
    rw [hdata, List.length_append] at hlen
    simp only [Wire.len] at hwire
    rcases eq_or_ne xs [] with rfl | hxs
    · -- the last tree
      refine ⟨[⟨h', v, x.len, buf⟩], .cons hgot .nil, fun s => ?_⟩
      have hend : ¬ at_ + x.len < nread := by
        simp only [Wire.len]
        simp only [Wire.bytesList, List.length_nil] at hlen
        omega
      rw [readLoop, hunpack]
      simp only [List.foldlM_cons, List.foldlM_nil, process1]
      cases process s h' v x.len buf with
      | none => rfl
      | some s' => simp only [if_neg hend, Option.bind_eq_bind, Option.bind_some, Option.pure_def]
    · have hpos : 0 < (Wire.bytesList xs).length := by
        have hcount := Wire.length_le_bytesList xs
        have := List.length_pos_of_ne_nil hxs
        omega
      have hin : x.bytes.length < buf.untilLen := by omega
      have hslice := slice_rest (h := h') hin hsmall
      have hrest : (⟨buf.mb, buf.slice + x.bytes.length,
          buf.untilLen - x.bytes.length⟩ : MemSlice).contents (levSlabIncRef h' buf.mb) =
          Wire.bytesList xs := by
        have hbytes : (levSlabIncRef h' buf.mb).bytes = h.bytes := hsame.bytes
        rw [contents_congr hbytes]
        exact contents_slice hdata
      have hless : (Wire.bytesList xs).length < fuel := by omega
      obtain ⟨rs, hrs, hloop⟩ := ih hxs (fun y hy => hx y (List.mem_cons_of_mem _ hy)) hless hrest
        (show buf.untilLen - x.bytes.length < 2 ^ 31 by omega)
        (show at_ + x.bytes.length + (buf.untilLen - x.bytes.length) = nread by omega)
      have hsizes : ∀ b, ((levSlabIncRef h' buf.mb).blocks b).size = (h.blocks b).size := by
        intro b
        rw [levSlabIncRef_size]
        exact hsame.size b
      refine ⟨⟨h', v, x.len, buf⟩ :: rs, .cons hgot ?_, fun s => ?_⟩
      · exact hrs.imp fun _ _ g =>
          ⟨g.mb_eq, fun b => (g.heap b).trans (hsizes b), g.len_eq, g.front, g.small, g.reads⟩
      · have hmore : at_ + x.len < nread := by
          simp only [Wire.len]
          omega
        rw [readLoop, hunpack, List.foldlM_cons, process1]
        simp only
        cases process s h' v x.len buf with
        | none => rfl
        | some s' =>
          simp only [if_pos hmore, Option.bind_eq_bind, Option.bind_some]
          have hl : x.len = x.bytes.length := rfl
          rw [hl, hslice]
          exact hloop s'

end Lev.Ipc
