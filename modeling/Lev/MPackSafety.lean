import Lev.MPackAccepts

/-! Safety of `lev.mpack.unpack` on arbitrary bytes. The inputs on which the decoder keeps
to its data and to its own tables are those that start with a legal tree, with enough
bytes behind it for the loads of a `long`, and those that break off where no `lua_rawset`
is left to be done without its operands; in both cases Lua has to make the tables that the
headers announce. -/
namespace Lev.MPack
open CInt Endian Slab Memory Lua

/-- No value can be read here: the data end too early, or the tag byte is reserved. -/
def Stuck : List UInt8 → Prop
  | [] => True
  | t :: r =>
    match tagOf t with
    | .single => False
    | .scalar s => r.length < s.size
    | .raw w k => r.length < w.size ∨ r.length < w.size + countOf k (r.take w.size) w
    | .array w _ => r.length < w.size
    | .map w _ => r.length < w.size
    | .reserved => True

/-- Data the decoder gives up on cleanly, leaving `δ` unfinished tables on the stack, and
the tables asked for, the last one first. It may break off inside arrays, but inside a map
only in the value of the last pair, and that value has to have left exactly one table for
`lua_rawset` to store. -/
inductive Cut : ℕ → List (ℤ × ℤ) → List UInt8 → Prop
  | stuck {r : List UInt8} (h : Stuck r) : Cut 0 [] r
  | array {w : Width} {n δ : ℕ} {ts : List (ℤ × ℤ)} {items : List Wire} {r : List UInt8}
      (fits : w.fits 16 n) (legal : ∀ x ∈ items, x.Legal) (short : items.length < (toInt n).toNat)
      (roomy : Wire.RoomyList r.length items) (rest : Cut δ ts r) :
      Cut (δ + 1) (ts ++ (Wire.tablesList items ++ [(toInt n, 0)]))
        (Wire.arrayHeader w n ++ (Wire.bytesList items ++ r))
  | map {w : Width} {n : ℕ} {ts : List (ℤ × ℤ)} {items : List Wire} {key : Wire} {r : List UInt8}
      (fits : w.fits 16 n) (legal : ∀ x ∈ items, x.Legal) (keyLegal : key.Legal)
      (keys : Wire.GoodKeys items) (key_good : key.GoodKey)
      (last : items.length + 2 = 2 * (toInt n).toNat)
      (roomy : Wire.RoomyList (key.len + r.length) items) (keyRoomy : key.Roomy r.length)
      (rest : Cut 1 ts r) :
      Cut 1 (ts ++ (key.tables ++ (Wire.tablesList items ++ [(0, toInt n)])))
        (Wire.mapHeader w n ++ (Wire.bytesList items ++ (key.bytes ++ r)))

section safety
variable {grants : Grants}

theorem takes_of_length {fuel : ℕ} {x : Wire} {r : List UInt8} (hx : x.Legal)
    (h : (x.bytes ++ r).length < fuel) : TakesWith grants (mprbufUnpackAnytype grants fuel) x := by
  refine unpackAnytype_takes hx ?_
  have hd := x.depth_le_len
  rw [List.length_append] at h
  simp only [Wire.len] at hd
  omega

/-- The new loads were within the data and the new table accesses went to own tables. -/
structure Clean (m m' : Machine) : Prop where
  loads : Loads m m' True
  rawsets : ∃ rs, m'.rawsets = rs ++ m.rawsets ∧ ∀ r ∈ rs, r.Good

theorem Clean.split {m m₁ m' : Machine} (h : Clean m m') (a : Extends m m₁) (b : Extends m₁ m') :
    Clean m m₁ ∧ Clean m₁ m' := by
  obtain ⟨⟨ls, hls, hin⟩, rs, hrs, hgood⟩ := h
  obtain ⟨la, hla⟩ := a.loads
  obtain ⟨lb, hlb⟩ := b.loads
  obtain ⟨ra, hra⟩ := a.rawsets
  obtain ⟨rb, hrb⟩ := b.rawsets
  obtain rfl : ls = lb ++ la := by
    rw [hls, hla, ← List.append_assoc] at hlb
    exact List.append_cancel_right hlb
  obtain rfl : rs = rb ++ ra := by
    rw [hrs, hra, ← List.append_assoc] at hrb
    exact List.append_cancel_right hrb
  have hin' := hin.mpr trivial
  constructor
  · exact ⟨⟨la, hla, iff_true_intro fun l hl => hin' l (List.mem_append_right _ hl)⟩,
      ra, hra, fun r hr => hgood r (List.mem_append_right _ hr)⟩
  · exact ⟨⟨lb, hlb, iff_true_intro fun l hl => a.data ▸ hin' l (List.mem_append_left _ hl)⟩,
      rb, hrb, fun r hr => hgood r (List.mem_append_left _ hr)⟩

theorem Clean.inside {m m' : Machine} {p : Prop} (h : Clean m m') (hl : Loads m m' p) : p := by
  obtain ⟨ls, hls, hin⟩ := h.loads
  obtain ⟨ls', hls', hp⟩ := hl
  obtain rfl : ls' = ls := List.append_cancel_right (hls'.symm.trans hls)
  exact hp.mp (hin.mpr trivial)

theorem Clean.rawset {m m' : Machine} {own : ℕ} {key : Bool} (h : Clean m m')
    (hset : m.rawset own key = .ok m') : key = true := by
  obtain ⟨v, k, id, arr, hash, st, _, _, _, rfl⟩ := rawset_ok hset
  obtain ⟨rs, hrs, hgood⟩ := h.rawsets
  have hone : ⟨id, own, key⟩ :: m.rawsets = rs ++ m.rawsets := hrs
  rw [← List.singleton_append] at hone
  obtain rfl : [⟨id, own, key⟩] = rs := List.append_cancel_right hone
  exact (hgood _ List.mem_cons_self).2

section recovers
variable {fuel : ℕ} {m m' : Machine} {t : UInt8} {r : List UInt8} {w : Width} {k : ℕ}

end recovers

/-- What `offset, value = lev.mpack.unpack(b)` assigns; missing results are nil. -/
def received (results : List LuaValue) : LuaValue × LuaValue :=
  (results.getD 0 .nil, results.getD 1 .nil)

theorem contents_length (h : Heap) (ms : MemSlice) : (ms.contents h).length = ms.untilLen := by
  rw [MemSlice.contents, Heap.load_length]

theorem contents_congr {h h' : Heap} (hb : h'.bytes = h.bytes) (ms : MemSlice) :
    ms.contents h' = ms.contents h := by
  unfold MemSlice.contents
  exact Heap.load_congr fun i _ => congrFun (congrFun hb _) _

theorem load_of_drop {h : Heap} {mb : BlockId} {base n o : ℕ} {s r : List UInt8}
    (hd : (h.load mb base n).drop o = s ++ r) : h.load mb (base + o) s.length = s := by
  have hlen := congrArg List.length hd
  rw [List.length_drop, Heap.load_length, List.length_append] at hlen
  rcases Nat.lt_or_ge n o with hlt | hle
  · have hnil : s = [] := List.eq_nil_of_length_eq_zero (by omega)
    rw [hnil]
    rfl
  · obtain ⟨k, rfl⟩ := Nat.exists_eq_add_of_le hle
    rw [Heap.load_append, List.drop_left' (Heap.load_length _ _ _ _),
      show k = s.length + r.length by omega, Heap.load_append] at hd
    exact (List.append_inj hd (Heap.load_length _ _ _ _)).1

theorem unpackStart_left (h : Heap) (ms : MemSlice) : (unpackStart h ms).left = ms.untilLen :=
  contents_length h ms

theorem unpackResults_took {h : Heap} {ms : MemSlice} {m : Machine} {x : Wire} {v : LuaValue}
    {n : ℕ} (ht : Took (unpackStart h ms) m x v n) :
    unpackResults m = [.number (.ofInt x.len), v] := by
  have hofs : m.ofs = x.len := ht.ofs.trans (Nat.zero_add _)
  have hpos : 0 < m.ofs ∧ m.err = false := ⟨hofs ▸ x.len_pos, ht.err⟩
  have hstack : m.stack = [v, .number (.ofInt (-123456)), .buffer ms] := ht.stack
  rw [unpackResults, if_pos hpos, hstack, hofs]
  rfl

theorem msgpackUnpack_eq {h : Heap} {ms : MemSlice} {m : Machine} (hpos : ms.untilLen ≠ 0)
    (hrun : unpackRun grants h ms = .ok m) :
    msgpackUnpack grants h ms = .ok (unpackResults m, m.heap) := by
  rw [msgpackUnpack, if_neg hpos, hrun]
  rfl

end safety

/-- An array of 2^31 - 1 elements is announced, and there is no such table. -/
example : (unpackRun luajitGrants
    ((Heap.boot fun _ _ => 0).store 0 0 [0xdd, 0x7f, 0xff, 0xff, 0xff])
      ⟨0, 0, 5⟩).toOption.isNone := by
  decide +kernel

end Lev.MPack
