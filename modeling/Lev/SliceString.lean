import Lev.BufferSplice
import Lev.Strbuf

/-! A string put into a slice byte by byte. The room left is counted from the length of the
slice and not from where the string starts, and a resize asks for the bytes of the string
alone, so most strings that reach the end of their slice are stored beyond it. -/
namespace Lev.Memory
open CInt Slab Buffer

/-- The loop of `lev_memslice_append_string` with the position it keeps: `position` is `_from`. -/
def appendStringFrom : List UInt8 → ℕ → ℕ → ℕ → Window → Option (ℕ × Window)
  | [], _, position, _, w => some (position, w)
  | c :: str, i, position, space, w => do
    let (space, w) ← stringSpace i space w
    appendStringFrom str (i + 1) (szAdd position 1) (szSub space 1) (w.store position [c])

/-- `lev_memslice_append_string` with what it returns. -/
def memsliceAppendString (w : Window) (start : ℕ) (str : List UInt8) : Option (ℕ × Window) :=
  (appendStringFrom str 0 start (levMemsliceEmptyLength w.ms) w).map fun (position, w) =>
    (szSub position start, w)

/-- The first `k` bytes of the slice. -/
def Window.before (w : Window) (k : ℕ) : List UInt8 := w.heap.load w.ms.mb w.ms.slice k

/-- The string is in the slice, behind what was in front of it, and no store left the slice as
it was at that moment. -/
structure Appended (w : Window) (start : ℕ) (str : List UInt8) (returned : ℕ) (w' : Window) :
    Prop where
  returned : returned = str.length
  untilLen : start + str.length ≤ w'.ms.untilLen
  kept : w'.before start = w.before start
  text : w'.heap.load w'.ms.mb (w'.ms.slice + start) str.length = str
  stores : ∃ new, w'.log = new ++ w.log ∧ ∀ a ∈ new, a.Inside

def AppendsString (w : Window) (start : ℕ) (str : List UInt8) : Prop :=
  ∃ n w', memsliceAppendString w start str = some (n, w') ∧ Appended w start str n w'

/-- The strings that `lev_memslice_append_string` appends: those that fit the slice as it is,
and from its first two bytes a little more. -/
def StringFits (untilLen start n : ℕ) : Prop :=
  start + n ≤ untilLen ∨
    0 < untilLen ∧
      (start = 0 ∧ (n ≤ untilLen + 1 ∨ untilLen ≤ 2 ∧ n ≤ 5) ∨
        start = 1 ∧ (n ≤ untilLen ∨ untilLen = 1 ∧ n ≤ 2))

instance (untilLen start n : ℕ) : Decidable (StringFits untilLen start n) :=
  inferInstanceAs (Decidable (_ ∨ _ ∧ (_ ∧ _ ∨ _ ∧ _)))

/-- The loop in terms of lengths alone: `n` bytes go to `position`, `i` are stored, and the slice
is `untilLen` long. Every store has to be inside it, and its end has to be. -/
def StoresInside : ℕ → ℕ → ℕ → ℕ → ℕ → Prop
  | 0, _, position, _, untilLen => position ≤ untilLen
  | n + 1, i, position, 0, _ =>
    position < i + 2 ∧ StoresInside n (i + 1) (position + 1) i (i + 2)
  | n + 1, i, position, space + 1, untilLen =>
    position < untilLen ∧ StoresInside n (i + 1) (position + 1) space untilLen

section lengths

theorem storesInside_succ (n i position space untilLen : ℕ) :
    StoresInside (n + 1) i position space untilLen ↔
      position < (if space = 0 then i + 2 else untilLen) ∧
        StoresInside n (i + 1) (position + 1) ((if space = 0 then i + 1 else space) - 1)
          (if space = 0 then i + 2 else untilLen) := by
  cases space with
  | zero => exact Iff.rfl
  | succ space => exact Iff.rfl

theorem storesInside_of_le {n i position space untilLen : ℕ} (hn : n ≤ space) :
    StoresInside n i position space untilLen ↔ position + n ≤ untilLen := by
  induction n generalizing i position space with
  | zero => exact Iff.rfl
  | succ n ih =>
    obtain ⟨k, rfl⟩ : ∃ k, space = k + 1 := ⟨space - 1, by omega⟩
    have hrest := @ih (i + 1) (position + 1) k (by omega)
    rw [StoresInside, hrest]
    omega

theorem storesInside_of_lt {n i position space untilLen : ℕ} (hn : space < n) :
    StoresInside n i position space untilLen ↔ (space = 0 ∨ position + space ≤ untilLen) ∧
      StoresInside (n - space) (i + space) (position + space) 0 untilLen := by
  induction space generalizing n i position with
  | zero => simp
  | succ space ih =>
    obtain ⟨k, rfl⟩ : ∃ k, n = k + 1 := ⟨n - 1, by omega⟩
    have hrest := @ih k (i + 1) (position + 1) (by omega)
    have hsub : k + 1 - (space + 1) = k - space := by omega
    rw [StoresInside, hrest, hsub, show i + 1 + space = i + (space + 1) by omega,
      show position + 1 + space = position + (space + 1) by omega, ← and_assoc]
    refine and_congr_left fun _ => ?_
    omega

/-- From a resize to the next: it makes room for all `i` bytes once more, counted from the start
of the slice. -/
theorem storesInside_resize {n i start untilLen : ℕ} (hn : 0 < n) :
    StoresInside n i (start + i) 0 untilLen ↔
      if n ≤ i + 1 then start + n ≤ 2
      else start + i ≤ 1 ∧ StoresInside (n - (i + 1)) (2 * i + 1) (start + (2 * i + 1)) 0 0 := by
  obtain ⟨k, rfl⟩ : ∃ k, n = k + 1 := ⟨n - 1, by omega⟩
  rw [StoresInside]
  by_cases hk : k ≤ i
  · rw [if_pos (by omega), storesInside_of_le hk]
    omega
  · obtain ⟨l, hl⟩ : ∃ l, k - i = l + 1 := ⟨k - i - 1, by omega⟩
    rw [if_neg (by omega), storesInside_of_lt (by omega), show k + 1 - (i + 1) = k - i by omega,
      show i + 1 + i = 2 * i + 1 by omega, show start + i + 1 + i = start + (2 * i + 1) by omega,
      hl, StoresInside, StoresInside, ← and_assoc]
    refine and_congr_left fun _ => ?_
    omega

theorem storesInside_resize_large {n i start untilLen : ℕ} (hn : 0 < n) (hi : 2 ≤ i) :
    StoresInside n i (start + i) 0 untilLen ↔ start + n ≤ 2 := by
  rw [storesInside_resize hn]
  split
  · exact Iff.rfl
  · omega

theorem storesInside_resize_one {n start untilLen : ℕ} (hn : 0 < n) :
    StoresInside n 1 (start + 1) 0 untilLen ↔ start + n ≤ 2 ∨ start = 0 ∧ n ≤ 4 := by
  rw [storesInside_resize hn]
  split
  · omega
  · rw [storesInside_resize_large (by omega) (by omega)]
    omega

theorem storesInside_resize_zero {n start untilLen : ℕ} (hn : 0 < n) :
    StoresInside n 0 (start + 0) 0 untilLen ↔ start = 0 ∧ n ≤ 5 ∨ start = 1 ∧ n ≤ 2 := by
  rw [storesInside_resize hn]
  split
  · omega
  · rw [storesInside_resize_one (by omega)]
    omega

theorem storesInside_iff {n start untilLen : ℕ} (hpos : 0 < untilLen) (hstart : start ≤ untilLen) :
    StoresInside n 0 start (untilLen - 1) untilLen ↔ StringFits untilLen start n := by
  rw [StringFits]
  by_cases hn : n ≤ untilLen - 1
  · rw [storesInside_of_le hn]
    omega
  · rw [storesInside_of_lt (by omega), Nat.zero_add]
    obtain rfl | rfl | hlarge : untilLen = 1 ∨ untilLen = 2 ∨ 2 ≤ untilLen - 1 := by omega
    · rw [storesInside_resize_zero (by omega)]
      omega
    · rw [storesInside_resize_one (by omega)]
      omega
    · rw [storesInside_resize_large (by omega) hlarge]
      omega

end lengths

section bytes

theorem before_append (w : Window) (k n : ℕ) :
    w.before (k + n) = w.before k ++ w.heap.load w.ms.mb (w.ms.slice + k) n :=
  Heap.load_append _ _ _ _ _

theorem before_store (w : Window) (k : ℕ) (c : UInt8) :
    (w.store k [c]).before (k + 1) = w.before k ++ [c] := by
  have hkept : (w.heap.store w.ms.mb (w.ms.slice + k) [c]).load w.ms.mb w.ms.slice k =
      w.heap.load w.ms.mb w.ms.slice k :=
    Heap.load_store_of_disjoint _ _ _ _ _ fun _ => .inl le_rfl
  have hself : (w.heap.store w.ms.mb (w.ms.slice + k) [c]).load w.ms.mb (w.ms.slice + k) 1 = [c] :=
    Heap.load_store_self _ _ _ _
  calc
    _ = (w.store k [c]).before k ++
        (w.heap.store w.ms.mb (w.ms.slice + k) [c]).load w.ms.mb (w.ms.slice + k) 1 :=
      before_append _ _ _
    _ = w.before k ++ [c] := by rw [hself]; exact congrArg (· ++ [c]) hkept

theorem getBlock_bytes {h h₀ : Heap} {size : ℕ} {b : BlockId}
    (hg : levSlabGetBlock h size = some (b, h₀)) : h₀.bytes = h.bytes := by
  obtain ⟨c, ⟨pool, -, rfl⟩ | ⟨rfl, rfl⟩⟩ := levSlabGetBlock_cases hg
  · rfl
  · rfl

/-- What is copied to a new block, read there after the old one is released. -/
theorem copy_bytes (h : Heap) (b : BlockId) (ms : MemSlice) {size j : ℕ} (hj : j < ms.untilLen) :
    ((levSlabDecRef (h.store b 0 (h.load ms.mb ms.slice ms.untilLen)) ms.mb).addNbytes b
      size).bytes b (0 + j) = h.bytes ms.mb (ms.slice + j) := by
  have hlength := Heap.load_length h ms.mb ms.slice ms.untilLen
  have hin : 0 ≤ j ∧ j < 0 + (h.load ms.mb ms.slice ms.untilLen).length := by omega
  calc
    _ = (h.store b 0 (h.load ms.mb ms.slice ms.untilLen)).bytes b j := by
      rw [Nat.zero_add]
      exact congrFun (congrFun (levSlabDecRef_bytes _ _) b) j
    _ = (h.load ms.mb ms.slice ms.untilLen).getD (j - 0) 0 := if_pos ⟨rfl, hin⟩
    _ = h.bytes ms.mb (ms.slice + j) := by
      rw [Nat.sub_zero, List.getD_eq_getElem _ _ (by omega)]
      simp only [Heap.load, List.getElem_map, List.getElem_range]

/-- A resize to more than the slice has: the slice is moved or grows where it is, and keeps its
bytes. -/
theorem resize_grows (h : Heap) {ms : MemSlice} {size : ℕ} (hpos : 0 < ms.untilLen)
    (hge : ms.untilLen ≤ size) (hlt : size < 2 ^ 20) :
    ∃ ms' h', levMemsliceResize h ms size = some (ms', h') ∧ ms'.untilLen = size + 1 ∧
      ∀ k ≤ ms.untilLen, h'.load ms'.mb ms'.slice k = h.load ms.mb ms.slice k := by
  have hempty : levMemsliceEmptyLength ms = ms.untilLen - 1 := szSub_of_le hpos (by omega)
  rw [levMemsliceResize, if_neg (by omega), szAdd_of_lt (by omega)]
  by_cases hexpand : canExpand h ms (size + 1) = true
  · rw [if_pos hexpand]
    exact ⟨_, _, rfl, rfl, fun k _ => rfl⟩
  · obtain ⟨c, hc⟩ := Option.isSome_iff_exists.mp
      ((slabClassOf_isSome (size + 1)).mpr (by omega))
    obtain ⟨⟨b, h₀⟩, hg⟩ : ∃ r, levSlabGetBlock h (size + 1) = some r := by
      rw [levSlabGetBlock, hc]
      exact ⟨_, rfl⟩
    rw [if_neg hexpand, hg]
    refine ⟨_, _, rfl, rfl, fun k hk => Heap.load_congr fun j hj => ?_⟩
    exact (copy_bytes _ _ _ (by omega)).trans (congrFun (congrFun (getBlock_bytes hg) _) _)

end bytes

theorem stringSpace_spec {i space : ℕ} {w : Window} (hpos : space = 0 → 0 < w.ms.untilLen)
    (hroom : w.ms.untilLen ≤ space + i + 1) (hi : i + 1 < 2 ^ 20) :
    ∃ w', stringSpace i space w = some (if space = 0 then i + 1 else space, w') ∧
      w'.log = w.log ∧ w'.ms.untilLen = (if space = 0 then i + 2 else w.ms.untilLen) ∧
      ∀ k ≤ w.ms.untilLen, w'.before k = w.before k := by
  rw [stringSpace]
  by_cases hspace : space = 0
  · obtain ⟨ms', h', hresize, huntil, hbytes⟩ := resize_grows w.heap (hpos hspace)
      (show w.ms.untilLen ≤ i + 1 by omega) hi
    have hempty : levMemsliceEmptyLength ms' = i + 1 := by
      rw [levMemsliceEmptyLength, szSub_of_le (by omega) (by omega), huntil]
      rfl
    rw [if_pos (by omega), if_pos hspace, if_pos hspace, Window.onSlice, hresize]
    exact ⟨⟨h', ms', w.log⟩, congrArg (fun n => some (n, _)) hempty, rfl, huntil, hbytes⟩
  · rw [if_neg (by omega), if_neg hspace, if_neg hspace]
    exact ⟨w, rfl, rfl, rfl, fun k _ => rfl⟩

theorem appendStringFrom_spec (str : List UInt8) (i position space : ℕ) (w : Window)
    (hpos : space < str.length → 0 < w.ms.untilLen) (hroom : w.ms.untilLen ≤ space + i + 1)
    (hle : space < 2 ^ 64) (hi : position + str.length < 2 ^ 21) (hlt : i + str.length < 2 ^ 20) :
    ∃ w' new, appendStringFrom str i position space w = some (position + str.length, w') ∧
      w'.log = new ++ w.log ∧
      (StoresInside str.length i position space w.ms.untilLen ↔
        (∀ a ∈ new, a.Inside) ∧ position + str.length ≤ w'.ms.untilLen) ∧
      (StoresInside str.length i position space w.ms.untilLen → position ≤ w.ms.untilLen →
        w'.before (position + str.length) = w.before position ++ str) := by
  induction str generalizing i position space w with
  | nil =>
    refine ⟨w, [], rfl, rfl, ?_, fun _ _ => (List.append_nil _).symm⟩
    exact ⟨fun h => ⟨fun a ha => (List.not_mem_nil ha).elim, h⟩, And.right⟩
  | cons c str ih =>
    rw [List.length_cons] at hpos hi hlt
    obtain ⟨w₁, hspace, hlog, huntil, hbefore⟩ :=
      stringSpace_spec (fun hzero => hpos (by omega)) hroom (by omega)
    have hadd : szAdd position 1 = position + 1 := szAdd_of_lt (by omega)
    generalize hk : (if space = 0 then i + 1 else space) = k at hspace
    have hk' : 0 < k ∧ k < 2 ^ 64 ∧ (space = 0 → k = i + 1) ∧ (space ≠ 0 → k = space) := by
      split at hk
      · omega
      · omega
    have hsub : szSub k 1 = k - 1 := szSub_of_le hk'.1 hk'.2.1
    have huntil' : (space = 0 → w₁.ms.untilLen = i + 2) ∧
        (space ≠ 0 → w₁.ms.untilLen = w.ms.untilLen) := by
      split at huntil
      · omega
      · omega
    obtain ⟨w', new, hrun, hnew, hiff, hbytes⟩ := ih (i + 1) (position + 1) (k - 1)
      (w₁.store position [c]) (by dsimp only [Window.store]; omega)
      (by dsimp only [Window.store]; omega) (by omega) (by omega) (by omega)
    have hlength : position + 1 + str.length = position + (c :: str).length := by
      rw [List.length_cons]
      omega
    have hstep : StoresInside (c :: str).length i position space w.ms.untilLen ↔
        position < w₁.ms.untilLen ∧
          StoresInside str.length (i + 1) (position + 1) (k - 1) w₁.ms.untilLen := by
      rw [List.length_cons, storesInside_succ, hk, ← huntil]
    rw [hlength] at hrun hiff hbytes
    refine ⟨w', new ++ [⟨position, 1, w₁.ms.untilLen⟩], ?_, ?_, ?_, fun hin hle' => ?_⟩
    · rw [appendStringFrom, hspace]
      simp only [Option.bind_eq_bind, Option.bind_some, hadd, hsub]
      exact hrun
    · rw [hnew, List.append_assoc, ← hlog]
      rfl
    · rw [hstep]
      constructor
      · rintro ⟨hlt', hrest⟩
        obtain ⟨hall, hend⟩ := hiff.mp hrest
        refine ⟨fun a ha => ?_, hend⟩
        obtain ha | ha := List.mem_append.mp ha
        · exact hall a ha
        · cases List.mem_singleton.mp ha
          exact hlt'
      · rintro ⟨hall, hend⟩
        have hfirst : Access.Inside ⟨position, 1, w₁.ms.untilLen⟩ :=
          hall _ (List.mem_append_right _ (List.mem_singleton_self _))
        exact ⟨hfirst, hiff.mpr ⟨fun a ha => hall a (List.mem_append_left _ ha), hend⟩⟩
    · obtain ⟨hlt', hrest⟩ := hstep.mp hin
      calc
        w'.before (position + (c :: str).length) =
            (w₁.store position [c]).before (position + 1) ++ str := hbytes hrest hlt'
        _ = w₁.before position ++ [c] ++ str := by rw [before_store]
        _ = w.before position ++ (c :: str) := by
          rw [hbefore position hle', List.append_assoc]
          rfl

theorem before_eq_iff {w w' : Window} {start : ℕ} {str : List UInt8} :
    w'.before (start + str.length) = w.before start ++ str ↔ w'.before start = w.before start ∧
      w'.heap.load w'.ms.mb (w'.ms.slice + start) str.length = str := by
  rw [before_append]
  constructor
  · exact fun h => List.append_inj h (by
      rw [Window.before, Window.before, Heap.load_length, Heap.load_length])
  · rintro ⟨hkept, htext⟩
    rw [hkept, htext]

theorem memsliceAppendString_of_run {w w' : Window} {start n : ℕ} {str : List UInt8}
    (hrun : appendStringFrom str 0 start (levMemsliceEmptyLength w.ms) w = some (start + n, w'))
    (hlt : start + n < 2 ^ 64) : memsliceAppendString w start str = some (n, w') := by
  have hsub : szSub (start + n) start = n := by
    rw [szSub_of_le (by omega) hlt, Nat.add_sub_cancel_left]
  rw [memsliceAppendString, hrun]
  exact congrArg (fun n => some (n, w')) hsub

/-- The space in front of the loop; a slice without bytes counts as one of 2^64. -/
theorem emptyLength_spec {ms : MemSlice} {start n : ℕ} (huntil : ms.untilLen < 2 ^ 64)
    (hstart : start ≤ ms.untilLen) (hn : n < 2 ^ 20) :
    ms.untilLen ≤ levMemsliceEmptyLength ms + 1 ∧ levMemsliceEmptyLength ms < 2 ^ 64 ∧
      (levMemsliceEmptyLength ms < n → 0 < ms.untilLen) ∧
      (StoresInside n 0 start (levMemsliceEmptyLength ms) ms.untilLen ↔
        StringFits ms.untilLen start n) := by
  obtain hzero | hpos := Nat.eq_zero_or_pos ms.untilLen
  · have hempty : levMemsliceEmptyLength ms = 2 ^ 64 - 1 := by
      rw [levMemsliceEmptyLength, hzero]
      decide +kernel
    rw [hempty, storesInside_of_le (by omega), StringFits, hzero]
    omega
  · have hempty : levMemsliceEmptyLength ms = ms.untilLen - 1 := szSub_of_le hpos huntil
    rw [hempty]
    exact ⟨by omega, by omega, fun _ => hpos, storesInside_iff hpos hstart⟩

theorem appendsString_storesInside {w : Window} {start : ℕ} {str : List UInt8}
    (huntil : w.ms.untilLen < 2 ^ 64) (hstart : start ≤ w.ms.untilLen)
    (hlt : start + str.length < 2 ^ 20) :
    AppendsString w start str ↔
      StoresInside str.length 0 start (levMemsliceEmptyLength w.ms) w.ms.untilLen := by
  obtain ⟨hroom, hspace, hpos, -⟩ := emptyLength_spec huntil hstart (n := str.length) (by omega)
  obtain ⟨w', new, hrun, hlog, hiff, hbytes⟩ := appendStringFrom_spec str 0 start _ w hpos
    hroom hspace (by omega) (by omega)
  have happend : memsliceAppendString w start str = some (str.length, w') :=
    memsliceAppendString_of_run hrun (by omega)
  constructor
  · rintro ⟨n, w'', hsome, happended⟩
    cases happend.symm.trans hsome
    obtain ⟨new', hlog', hinside⟩ := happended.stores
    obtain rfl : new = new' := List.append_cancel_right (hlog.symm.trans hlog')
    exact hiff.mpr ⟨hinside, happended.untilLen⟩
  · intro hin
    obtain ⟨hinside, hend⟩ := hiff.mp hin
    obtain ⟨hkept, htext⟩ := before_eq_iff.mp (hbytes hin hstart)
    exact ⟨_, w', happend, rfl, hend, hkept, htext, new, hlog, hinside⟩

/-- `lev_memslice_append_string` appends exactly the strings that `StringFits` allows. -/
theorem memsliceAppendString_iff (w : Window) (start : ℕ) (str : List UInt8)
    (huntil : w.ms.untilLen < 2 ^ 64) (hstart : start ≤ w.ms.untilLen)
    (hlt : start + str.length < 2 ^ 20) :
    AppendsString w start str ↔ StringFits w.ms.untilLen start str.length := by
  obtain ⟨-, -, -, hfits⟩ := emptyLength_spec huntil hstart (n := str.length) (by omega)
  rw [← hfits]
  exact appendsString_storesInside huntil hstart hlt

/-- A slice of four bytes, in a block of which it has the beginning. -/
def fourBytes : Window :=
  ⟨(Heap.boot fun _ _ => 0).setBlock 0 ⟨.mem1k, 1, 1024, 4⟩, ⟨0, 0, 4⟩, []⟩

theorem memsliceAppendString_iff_twoBytes : AppendsString fourBytes 2 [97, 98] :=
  (memsliceAppendString_iff fourBytes 2 [97, 98] (by decide) (by decide) (by decide)).mpr
    (by decide)

/-- Behind the fourth byte there is no room, and none is made. -/
theorem fourthByte_storesOutside : ¬ AppendsString fourBytes 4 [97] := by
  rw [appendsString_storesInside (by decide) (by decide) (by decide)]
  have hempty : levMemsliceEmptyLength fourBytes.ms = 2 + 1 := szSub_of_le (by decide) (by decide)
  rw [hempty]
  exact fun h => absurd h.1 (by decide)

/-- The function of the string buffers is the one above, whose result they count themselves. -/
theorem appendStringFrom_eq (start : ℕ) (str : List UInt8) (i space : ℕ) (w : Window)
    (hlt : start + i + str.length < 2 ^ 64) :
    appendStringFrom str i (start + i) space w =
      (appendStringLoop start str i space w).map (start + i + str.length, ·) := by
  induction str generalizing i space w with
  | nil => rfl
  | cons c str ih =>
    rw [List.length_cons] at hlt
    rw [appendStringFrom, appendStringLoop]
    cases hspace : stringSpace i space w with
    | none => rfl
    | some r =>
      have hadd : szAdd (start + i) 1 = start + (i + 1) := szAdd_of_lt (by omega)
      have hlength : start + i + (c :: str).length = start + (i + 1) + str.length := by
        rw [List.length_cons]
        omega
      simp only [Option.bind_eq_bind, Option.bind_some, hadd, hlength]
      exact ih _ _ _ (by omega)

theorem memsliceAppendString_eq {w : Window} {start : ℕ} {str : List UInt8}
    (hlt : start + str.length < 2 ^ 64) :
    memsliceAppendString w start str =
      (levMemsliceAppendString w start str).map (str.length, ·) := by
  have hfrom := appendStringFrom_eq start str 0 (levMemsliceEmptyLength w.ms) w (by omega)
  have hsub : szSub (start + str.length) start = str.length := by
    rw [szSub_of_le (by omega) hlt, Nat.add_sub_cancel_left]
  rw [Nat.add_zero] at hfrom
  rw [memsliceAppendString, levMemsliceAppendString, hfrom, Option.map_map]
  refine congrArg (fun f => Option.map f _) (funext fun w' => ?_)
  exact congrArg (·, w') hsub

end Lev.Memory
