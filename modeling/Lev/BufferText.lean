import Lev.BufferCodec
import Lev.BufferConcat
import Lev.BufferSplice
import Lev.LuaText

/-! The functions of lev.buffer that take a Buffer for a text: the first place of a delimiter and
the text before it, the three ways to compare two Buffers, and `fill`. -/
namespace Lev.Buffer
open CInt Slab Memory Lua

/-- `memmem`, from the left through all places with enough room. -/
def memmem (l s : List UInt8) : Option ℕ :=
  if l = [] ∨ s = [] then none
  else if l.length < s.length then none
  else (List.range (l.length - s.length + 1)).find? fun cur => (l.drop cur).take s.length == s

/-- `buffer_tostring`; the arguments are as for `buffer_slice`. -/
def bufferTostring (h : Heap) (ms : MemSlice) (i j : ℤ) : Except Fault (List UInt8) :=
  let offset := if toSizeT i = 0 then 1 else toSizeT i
  if offset > ms.untilLen then .error (.argerror 2 "Offset out of bounds")
  else
    let offset := offset - 1
    let length := if toSizeT j = 0 then ms.untilLen - offset else toSizeT j
    if length > ms.untilLen - offset then .error (.argerror 3 "length out of bounds")
    else .ok (h.load ms.mb (ms.slice + offset) length)

/-- `buffer_find`; the delimiter is what `lua_tolstring` gives. -/
def bufferFind (h : Heap) (ms : MemSlice) : Option (List UInt8) → Except Fault (Option ℕ)
  | none => .error (.argerror 2 "String is Required")
  | some delimiter =>
    if delimiter = [] then .ok none
    else .ok ((memmem (ms.contents h) delimiter).map (· + 1))

def bufferUpuntil (h : Heap) (ms : MemSlice) (i : ℤ) :
    Option (List UInt8) → Except Fault (List UInt8)
  | none => .error (.argerror 2 "Delimiter String is Required")
  | some delimiter =>
    if delimiter = [] then .ok []
    else
      let offset := if toSizeT i = 0 then 1 else toSizeT i
      if offset > ms.untilLen then .error (.argerror 3 "Offset out of bounds")
      else
        let offset := offset - 1
        let rest := h.load ms.mb (ms.slice + offset) (ms.untilLen - offset)
        match memmem rest delimiter with
        | none => .ok rest
        | some found => .ok (h.load ms.mb (ms.slice + offset) found)

/-- `buffer__eq` -/
def bufferEq (h : Heap) (ms₁ ms₂ : MemSlice) : Bool :=
  if ms₁.untilLen ≠ ms₂.untilLen then false else ms₁.contents h == ms₂.contents h

/-- The hexadecimal digits of a byte, with a space behind. -/
def inspectByte (b : UInt8) : List UInt8 :=
  [hexDigit true (b.toNat / 16), hexDigit true (b.toNat % 16), 32]

def bufferInspect (h : Heap) (ms : MemSlice) : List UInt8 :=
  ascii "<Buffer " ++ (ms.contents h).flatMap inspectByte ++ ascii ">"

section search
variable {l s t u : List UInt8} {k : ℕ} {h : Heap} {ms : MemSlice}

theorem infix_iff_drop : s <:+: l ↔ ∃ k, s <+: l.drop k := by
  rw [List.infix_iff_prefix_suffix]
  constructor
  · rintro ⟨t, hs, ht⟩
    rw [List.suffix_iff_eq_drop.mp ht] at hs
    exact ⟨_, hs⟩
  · rintro ⟨k, hs⟩
    exact ⟨_, hs, List.drop_suffix k l⟩

theorem length_room (hs : s ≠ []) (h : s <+: l.drop k) : k + s.length ≤ l.length := by
  have hpos := List.length_pos_iff.mpr hs
  have hle := h.length_le
  rw [List.length_drop] at hle
  omega

theorem memmem_eq_some (hs : s ≠ []) :
    memmem l s = some k ↔ s <+: l.drop k ∧ ∀ j < k, ¬ s <+: l.drop j := by
  have hmatch : ∀ j, ((l.drop j).take s.length == s) = true ↔ s <+: l.drop j := by
    intro j
    rw [beq_iff_eq, List.prefix_iff_eq_take]
    exact eq_comm
  have hpos := List.length_pos_iff.mpr hs
  by_cases hlen : l.length < s.length
  · have hnone : memmem l s = none := by
      rw [memmem, if_pos hlen, ite_self]
    rw [hnone]
    refine iff_of_false (Option.some_ne_none k).symm ?_
    rintro ⟨hk, -⟩
    exact absurd (length_room hs hk) (by omega)
  · have hl : ¬ (l = [] ∨ s = []) := by
      rintro (rfl | rfl)
      · exact hlen hpos
      · exact hs rfl
    rw [memmem, if_neg hl, if_neg hlen, List.find?_range_eq_some, hmatch, List.mem_range]
    have hbefore : (∀ j < k, (!((l.drop j).take s.length == s)) = true) ↔
        ∀ j < k, ¬ s <+: l.drop j := by
      refine forall₂_congr fun j _ => ?_
      rw [Bool.not_eq_true', ← Bool.not_eq_true, hmatch]
    rw [hbefore]
    constructor
    · rintro ⟨hk, -, hfirst⟩
      exact ⟨hk, hfirst⟩
    · rintro ⟨hk, hfirst⟩
      have hroom := length_room hs hk
      exact ⟨hk, by omega, hfirst⟩

theorem memmem_eq_none (hs : s ≠ []) : memmem l s = none ↔ ¬ s <:+: l := by
  rw [infix_iff_drop]
  constructor
  · rintro hnone hex
    classical
    have hfound : memmem l s = some (Nat.find hex) :=
      (memmem_eq_some hs).mpr ⟨Nat.find_spec hex, fun _ hj => Nat.find_min hex hj⟩
    cases hnone.symm.trans hfound
  · intro hno
    cases hk : memmem l s with
    | none => rfl
    | some k => exact absurd ⟨k, ((memmem_eq_some hs).mp hk).1⟩ hno

/-- `u` is the text before the first delimiter, or the whole text where there is none. -/
def Before (d t u : List UInt8) : Prop :=
  (∃ v, t = u ++ (d ++ v) ∧ ∀ j < u.length, ¬ d <+: t.drop j) ∨ (t = u ∧ ¬ d <:+: t)

theorem before_iff (hs : s ≠ []) :
    Before s t u ↔ (∃ k, memmem t s = some k ∧ u = t.take k) ∨ (memmem t s = none ∧ u = t) := by
  rw [Before, memmem_eq_none hs]
  refine or_congr ⟨?_, ?_⟩ ?_
  · rintro ⟨v, rfl, hfirst⟩
    refine ⟨u.length, (memmem_eq_some hs).mpr ⟨?_, hfirst⟩, List.take_left.symm⟩
    rw [List.drop_left]
    exact List.prefix_append s v
  · rintro ⟨k, hk, rfl⟩
    obtain ⟨⟨v, hv⟩, hfirst⟩ := (memmem_eq_some hs).mp hk
    have hroom : k + s.length ≤ t.length := length_room hs ⟨v, hv⟩
    refine ⟨v, ?_, ?_⟩
    · rw [hv, List.take_append_drop]
    · intro j hj
      rw [List.length_take_of_le (by omega)] at hj
      exact hfirst j hj
  · rw [and_comm, eq_comm]

theorem contents_drop {n : ℕ} : (ms.contents h).drop n =
    h.load ms.mb (ms.slice + n) (ms.untilLen - n) := by
  apply List.ext_getElem
  · rw [List.length_drop, contents_length', Heap.load_length]
  · intro i _ _
    simp only [MemSlice.contents, Heap.load, List.getElem_drop, List.getElem_map,
      List.getElem_range, Nat.add_assoc]

theorem load_take {b : BlockId} {off n m : ℕ} (hm : m ≤ n) :
    (h.load b off n).take m = h.load b off m := by
  rw [Heap.load, ← List.map_take, List.take_range, Nat.min_eq_left hm, Heap.load]

theorem toSizeT_zero : toSizeT 0 = 0 := by
  unfold toSizeT
  omega

theorem toSizeT_inside {i : ℤ} (hlen : ms.untilLen < 2 ^ 64) (hi : 1 ≤ i ∧ i ≤ ms.untilLen) :
    toSizeT i = i.toNat := by
  unfold toSizeT
  omega

theorem bufferUpuntil_iff {d : List UInt8} {i : ℤ} (hd : d ≠ []) (hlen : ms.untilLen < 2 ^ 64)
    (hi : 1 ≤ i ∧ i ≤ ms.untilLen) :
    bufferUpuntil h ms i (some d) = .ok u ↔ Before d ((ms.contents h).drop (i.toNat - 1)) u := by
  have hcast := toSizeT_inside hlen hi
  have hzero : ¬ i.toNat = 0 := by omega
  have hbound : ¬ i.toNat > ms.untilLen := by omega
  simp only [bufferUpuntil]
  rw [before_iff hd, contents_drop, if_neg hd, hcast, if_neg hzero, if_neg hbound]
  cases hfound : memmem
      (h.load ms.mb (ms.slice + (i.toNat - 1)) (ms.untilLen - (i.toNat - 1))) d with
  | none =>
    constructor
    · intro hu
      exact .inr ⟨rfl, (Except.ok.inj hu).symm⟩
    · rintro (⟨k, hk, -⟩ | ⟨-, rfl⟩)
      · cases hk
      · rfl
  | some found =>
    have hroom := length_room hd ((memmem_eq_some hd).mp hfound).1
    rw [Heap.load_length] at hroom
    constructor
    · intro hu
      refine .inl ⟨found, rfl, ?_⟩
      rw [load_take (by omega)]
      exact (Except.ok.inj hu).symm
    · rintro (⟨k, hk, rfl⟩ | ⟨hk, -⟩)
      · cases hk
        rw [load_take (by omega)]
      · cases hk

theorem bufferFind_eq_some {d : List UInt8} {p : ℕ} (hd : d ≠ []) :
    bufferFind h ms (some d) = .ok (some p) ↔ 1 ≤ p ∧ d <+: (ms.contents h).drop (p - 1) ∧
      ∀ q < p - 1, ¬ d <+: (ms.contents h).drop q := by
  rw [bufferFind, if_neg hd]
  constructor
  · intro hp
    obtain ⟨k, hk, rfl⟩ := Option.map_eq_some_iff.mp (Except.ok.inj hp)
    rw [Nat.add_sub_cancel]
    exact ⟨Nat.succ_pos k, (memmem_eq_some hd).mp hk⟩
  · rintro ⟨hp, hat⟩
    rw [(memmem_eq_some hd).mpr hat, Option.map_some, Nat.sub_add_cancel hp]

theorem bufferFind_eq_none {d : List UInt8} (hd : d ≠ []) :
    bufferFind h ms (some d) = .ok none ↔ ¬ d <:+: ms.contents h := by
  rw [bufferFind, if_neg hd, ← memmem_eq_none hd]
  constructor
  · intro hnone
    exact Option.map_eq_none_iff.mp (Except.ok.inj hnone)
  · intro hnone
    rw [hnone, Option.map_none]

theorem bufferTostring_from {i : ℤ} (hlen : ms.untilLen < 2 ^ 64)
    (hi : 1 ≤ i ∧ i ≤ ms.untilLen) :
    bufferTostring h ms i 0 = .ok ((ms.contents h).drop (i.toNat - 1)) := by
  have hcast := toSizeT_inside hlen hi
  have hzero : ¬ i.toNat = 0 := by omega
  have hbound : ¬ i.toNat > ms.untilLen := by omega
  simp only [bufferTostring]
  rw [hcast, if_neg hzero, if_neg hbound, toSizeT_zero, if_pos rfl, if_neg (Nat.lt_irrefl _),
    contents_drop]

end search

/-- A delimiter is found at its first place, and not found where there is none. The text before it,
from any place on, ends there, and with the text from the place found on it is the whole. -/
theorem delimiter_found (h : Heap) (ms : MemSlice) (d : List UInt8) (hd : d ≠ [])
    (hlen : ms.untilLen < 2 ^ 64) :
    (∀ p, bufferFind h ms (some d) = .ok (some p) ↔ 1 ≤ p ∧ d <+: (ms.contents h).drop (p - 1) ∧
      ∀ q < p - 1, ¬ d <+: (ms.contents h).drop q) ∧
    (bufferFind h ms (some d) = .ok none ↔ ¬ d <:+: ms.contents h) ∧
    (∀ i : ℤ, 1 ≤ i → i ≤ ms.untilLen → ∀ u, bufferUpuntil h ms i (some d) = .ok u ↔
      Before d ((ms.contents h).drop (i.toNat - 1)) u) ∧
    ∀ p, bufferFind h ms (some d) = .ok (some p) → ∃ u v, bufferUpuntil h ms 1 (some d) = .ok u ∧
      bufferTostring h ms p 0 = .ok (d ++ v) ∧ ms.contents h = u ++ (d ++ v) := by
  refine ⟨fun p => bufferFind_eq_some hd, bufferFind_eq_none hd,
    fun i hone hle u => bufferUpuntil_iff hd hlen ⟨hone, hle⟩, ?_⟩
  intro p hp
  obtain ⟨hone, ⟨v, hv⟩, hfirst⟩ := (bufferFind_eq_some hd).mp hp
  have hroom := length_room hd ⟨v, hv⟩
  have hpos := List.length_pos_iff.mpr hd
  rw [contents_length'] at hroom
  have htext : ms.contents h = (ms.contents h).take (p - 1) ++ (d ++ v) := by
    rw [hv, List.take_append_drop]
  refine ⟨(ms.contents h).take (p - 1), v, ?_, ?_, htext⟩
  · refine (bufferUpuntil_iff hd hlen (by omega)).mpr (.inl ⟨v, htext, ?_⟩)
    intro j hj
    rw [List.length_take_of_le (by rw [contents_length']; omega)] at hj
    exact hfirst j hj
  · rw [bufferTostring_from hlen (by omega), Int.toNat_natCast, hv]

/-- The first ten letters, behind two bytes of another Buffer. -/
def letters : Heap := (Heap.boot fun _ _ => 0).store 0 0 (ascii "--abcdefghij")

theorem delimiter_found_fgh :
    bufferFind letters ⟨0, 2, 10⟩ (some (ascii "fgh")) = .ok (some 6) ∧
      bufferUpuntil letters ⟨0, 2, 10⟩ 3 (some (ascii "fgh")) = .ok (ascii "cde") ∧
      bufferFind letters ⟨0, 2, 10⟩ (some (ascii "kristopher")) = .ok none := by
  have hlen : (⟨0, 2, 10⟩ : MemSlice).untilLen < 2 ^ 64 := by decide
  obtain ⟨hfind, -, hupuntil, -⟩ := delimiter_found letters ⟨0, 2, 10⟩ (ascii "fgh")
    (by decide +kernel) hlen
  have hmissing := (delimiter_found letters ⟨0, 2, 10⟩ (ascii "kristopher")
    (by decide +kernel) hlen).2.1
  refine ⟨(hfind 6).mpr (by decide +kernel), ?_, hmissing.mpr (by decide +kernel)⟩
  refine (hupuntil 3 (by decide) (by decide) _).mpr (.inl ⟨ascii "ij", ?_, ?_⟩)
  · decide +kernel
  · decide +kernel

section compare
variable {h : Heap} {ms ms' : MemSlice}

theorem bufferEq_iff_contents : bufferEq h ms ms' = true ↔ ms.contents h = ms'.contents h := by
  rw [bufferEq]
  split
  · next hne =>
    refine iff_of_false Bool.false_ne_true ?_
    intro heq
    have hlength := congrArg List.length heq
    rw [contents_length', contents_length'] at hlength
    exact hne hlength
  · exact beq_iff_eq

theorem bufferTostring_whole : bufferTostring h ms 0 0 =
    if ms.untilLen = 0 then .error (.argerror 2 "Offset out of bounds")
    else .ok (ms.contents h) := by
  simp only [bufferTostring]
  rw [toSizeT_zero, if_pos rfl]
  by_cases hempty : ms.untilLen = 0
  · rw [if_pos hempty, if_pos (by omega)]
  · rw [if_neg hempty, if_neg (by omega), if_pos rfl, if_neg (Nat.lt_irrefl _)]
    rfl

theorem hexDigit_injective : ∀ d < 16, ∀ d' < 16, hexDigit true d = hexDigit true d' → d = d' := by
  decide +kernel

theorem inspectByte_injective : Function.Injective inspectByte := by
  intro b b' hb
  obtain ⟨hhigh, hlow⟩ : hexDigit true (b.toNat / 16) = hexDigit true (b'.toNat / 16) ∧
      hexDigit true (b.toNat % 16) = hexDigit true (b'.toNat % 16) := by
    injection hb with hhigh htail
    injection htail with hlow _
    exact ⟨hhigh, hlow⟩
  have hlt := b.toNat_lt
  have hlt' := b'.toNat_lt
  have hdiv := hexDigit_injective _ (by omega) _ (by omega) hhigh
  have hmod := hexDigit_injective _ (by omega) _ (by omega) hlow
  exact UInt8.toNat_inj.mp (by omega)

/-- The texts of the bytes have one length, so they can be told apart one by one. -/
theorem flatMap_inspectByte_injective :
    Function.Injective fun bs : List UInt8 => bs.flatMap inspectByte := by
  intro bs
  induction bs with
  | nil =>
    intro bs' h
    cases bs' with
    | nil => rfl
    | cons b' bs' => cases h
  | cons b bs ih =>
    intro bs' h
    cases bs' with
    | nil => cases h
    | cons b' bs' =>
      obtain ⟨hb, hbs⟩ := List.append_inj h rfl
      rw [inspectByte_injective hb, ih hbs]

end compare

/-- Buffers are equal where `toString` says the same of them, and where `inspect` does. -/
theorem bufferEq_iff (h : Heap) (ms ms' : MemSlice) :
    (bufferEq h ms ms' = true ↔ bufferTostring h ms 0 0 = bufferTostring h ms' 0 0) ∧
    (bufferEq h ms ms' = true ↔ bufferInspect h ms = bufferInspect h ms') := by
  constructor
  · rw [bufferEq_iff_contents, bufferTostring_whole, bufferTostring_whole]
    have hlen := contents_length' ms h
    have hlen' := contents_length' ms' h
    constructor
    · intro heq
      rw [← hlen, ← hlen', heq]
    · intro heq
      by_cases hempty : ms.untilLen = 0 <;> by_cases hempty' : ms'.untilLen = 0
      · rw [List.length_eq_zero_iff.mp (hlen.trans hempty),
          List.length_eq_zero_iff.mp (hlen'.trans hempty')]
      · rw [if_pos hempty, if_neg hempty'] at heq
        cases heq
      · rw [if_neg hempty, if_pos hempty'] at heq
        cases heq
      · rw [if_neg hempty, if_neg hempty'] at heq
        exact Except.ok.inj heq
  · rw [bufferEq_iff_contents, bufferInspect, bufferInspect, List.append_left_inj,
      List.append_right_inj]
    exact flatMap_inspectByte_injective.eq_iff.symm

end Lev.Buffer
