import Lev.Aliases
import Lev.BufferAccess
import Lev.BufferConcat
import Lev.BufferContents
import Lev.BufferSplice

/-! What Buffers are for, and that they are it. A Buffer is a list of references to bytes: a new
one has fresh bytes, a slice those of its origin, a join those of its operands or fresh ones, and
an assignment changes bytes for all Buffers that have them. Blocks, fill marks and reference
counts do not show. -/
namespace Lev.Buffer
open CInt Slab Memory Run Aliases

section spec
variable {α : Type*}

/-- Where a slice of a Buffer of length `len` starts, and its length. -/
def window (len : ℕ) (i j : ℤ) : Option (ℕ × ℕ) :=
  let offset := if i = 0 then 1 else i
  if offset < 1 ∨ len < offset then none
  else
    let length := if j = 0 then len - (offset - 1) else j
    if length < 0 ∨ len - (offset - 1) < length then none
    else some ((offset - 1).toNat, length.toNat)

def shown (s : Store α UInt8) : Operand → Option (List UInt8)
  | .buffer o => s.value o
  | .str t => some t

def assigned (s : Store α UInt8) : Value → Option (List UInt8)
  | .operand v => shown s v
  | .number n => if 0 ≤ n ∧ n ≤ 255 then some [UInt8.ofNat n.toNat] else none

inductive Refused (s : Store α UInt8) : Op → Prop
  | noBuffer {o : ObjId} {i j : ℤ} (h : s.cells? o = none) : Refused s (.slice o i j)
  | window {o : ObjId} {i j : ℤ} {cells : List α} (ho : s.cells? o = some cells)
    (h : window cells.length i j = none) : Refused s (.slice o i j)
  | left {x y : Operand} (h : shown s x = none) : Refused s (.concat x y)
  | right {x y : Operand} (h : shown s y = none) : Refused s (.concat x y)
  | strings {t t' : List UInt8} : Refused s (.concat (.str t) (.str t'))
  | noTarget {o : ObjId} {i : ℤ} {v : Value} (h : s.cells? o = none) : Refused s (.newindex o i v)
  | index {o : ObjId} {i : ℤ} {v : Value} {cells : List α} (ho : s.cells? o = some cells)
    (h : i < 1 ∨ cells.length < i) : Refused s (.newindex o i v)
  | value {o : ObjId} {i : ℤ} {v : Value} (h : assigned s v = none) : Refused s (.newindex o i v)
  | gone {o : ObjId} (h : s.cells? o = none) : Refused s (.gc o)

/-- What an operation does to Buffers. -/
inductive Effect (s : Store α UInt8) : Op → Store α UInt8 → Prop
  | new {a : NewArg} {t : Store α UInt8} {cells : List α} (h : Adds s t [] cells a.bytes) :
    Effect s (.new a) t
  | slice {o : ObjId} {i j : ℤ} {t : Store α UInt8} {cells : List α} {off len : ℕ}
    (ho : s.cells? o = some cells) (hw : window cells.length i j = some (off, len))
    (h : Adds s t ((cells.drop off).take len) [] []) : Effect s (.slice o i j) t
  | copy {x y : Operand} {t : Store α UInt8} {cells : List α} {a b : List UInt8}
    (hx : shown s x = some a) (hy : shown s y = some b) (h : Adds s t [] cells (a ++ b)) :
    Effect s (.concat x y) t
  | behind {o : ObjId} {y : Operand} {t : Store α UInt8} {cells new : List α} {b : List UInt8}
    (ho : s.cells? o = some cells) (hy : shown s y = some b) (h : Adds s t cells new b) :
    Effect s (.concat (.buffer o) y) t
  | joined {o o' : ObjId} {t : Store α UInt8} {cells cells' : List α}
    (ho : s.cells? o = some cells) (ho' : s.cells? o' = some cells')
    (h : Adds s t (cells ++ cells') [] []) : Effect s (.concat (.buffer o) (.buffer o')) t
  | assign {o : ObjId} {i : ℤ} {v : Value} {t : Store α UInt8} {cells : List α} {b : List UInt8}
    (ho : s.cells? o = some cells) (hv : assigned s v = some b) (hi : 1 ≤ i)
    (hfit : i.toNat - 1 + b.length ≤ cells.length) (h : Assigns s t cells (i.toNat - 1) b) :
    Effect s (.newindex o i v) t
  | gc {o : ObjId} {cells : List α} (ho : s.cells? o = some cells) :
    Effect s (.gc o) { s with objs := s.objs.set o none }
  | refused {op : Op} (h : Refused s op) : Effect s op s

end spec

def cellsOf (ms : MemSlice) : List (BlockId × ℕ) :=
  (List.range ms.untilLen).map fun i => (ms.mb, ms.slice + i)

/-- The Buffers of a state, without all that the slab knows of them. -/
def store (s : State) : Store (BlockId × ℕ) UInt8 where
  read c := s.heap.bytes c.1 c.2
  objs := s.objs.map (Option.map cellsOf)

/-- The left operand is no string that counts, and no Buffer right behind the other one. -/
def InOrder (s : State) : Operand → Operand → Prop
  | .str t, _ => t = []
  | .buffer o, .buffer o' => ∀ first ∈ s.slice? o, ∀ second ∈ s.slice? o', ¬ Backwards first second
  | .buffer _, .str _ => True

/-- An assignment ends before the last byte of the Buffer, and does not copy onto its source. -/
def Inside (s : State) (ms : MemSlice) (i : ℤ) : Value → Prop
  | .operand v => ∀ c ∈ operandBytes s v, i.toNat - 1 + c.length < ms.untilLen ∧
    SourceApart s ms (i.toNat - 1) v
  | .number n => IsInteger n

/-- The use of Buffers that the code is made for: sizes from 1 byte to 1 MiB, joins in order, and
assignments inside. An index one behind the end is none. -/
def Orderly (s : State) : Op → Prop
  | .new a => 1 ≤ a.size ∧ a.size ≤ 2 ^ 20
  | .slice _ i j => IsInteger i ∧ IsInteger j
  | .concat x y => operandLen s x + operandLen s y ≤ 2 ^ 20 ∧ InOrder s x y
  | .newindex o i v => IsInteger i ∧ ∀ ms ∈ s.slice? o, i ≠ ms.untilLen + 1 ∧
    (1 ≤ i → i ≤ ms.untilLen → Inside s ms i v)
  | .gc _ => True

structure Inv (s : State) : Prop where
  wf : Wf s
  sized : Sized s

variable {s s' : State} {ms : MemSlice} {o : ObjId} {op : Op}

theorem inv_start (junk : BlockId → ℕ → UInt8) : Inv (start junk) :=
  ⟨wf_start junk, sized_start junk⟩

@[simp] theorem length_cellsOf (ms : MemSlice) : (cellsOf ms).length = ms.untilLen := by
  rw [cellsOf, List.length_map, List.length_range]

theorem mem_cellsOf {c : BlockId × ℕ} :
    c ∈ cellsOf ms ↔ c.1 = ms.mb ∧ ms.slice ≤ c.2 ∧ c.2 < ms.slice + ms.untilLen := by
  rw [cellsOf, List.mem_map]
  constructor
  · rintro ⟨i, hi, rfl⟩
    have hlt := List.mem_range.mp hi
    exact ⟨rfl, Nat.le_add_right _ _, by dsimp only; omega⟩
  · rintro ⟨hmb, hle, hlt⟩
    refine ⟨c.2 - ms.slice, List.mem_range.mpr (by omega), ?_⟩
    rw [Nat.add_sub_cancel' hle, ← hmb]

theorem nodup_cellsOf (ms : MemSlice) : (cellsOf ms).Nodup := by
  refine List.Nodup.map (fun i j h => ?_) List.nodup_range
  have hadd := congrArg Prod.snd h
  dsimp only at hadd
  omega

theorem cellsOf_append (mb off len len' : ℕ) :
    cellsOf ⟨mb, off, len + len'⟩ = cellsOf ⟨mb, off, len⟩ ++ cellsOf ⟨mb, off + len, len'⟩ := by
  simp only [cellsOf, List.range_add, List.map_append, List.map_map, Function.comp_def,
    Nat.add_assoc]

theorem cellsOf_window {off len : ℕ} (h : off + len ≤ ms.untilLen) :
    ((cellsOf ms).drop off).take len = cellsOf ⟨ms.mb, ms.slice + off, len⟩ := by
  obtain ⟨rest, hrest⟩ := Nat.exists_eq_add_of_le h
  have hsplit : cellsOf ms = cellsOf ⟨ms.mb, ms.slice, off⟩ ++
      (cellsOf ⟨ms.mb, ms.slice + off, len⟩ ++ cellsOf ⟨ms.mb, ms.slice + off + len, rest⟩) := by
    rw [← cellsOf_append, ← cellsOf_append, ← Nat.add_assoc, ← hrest]
  have hoff : (cellsOf ⟨ms.mb, ms.slice, off⟩).length = off := length_cellsOf _
  have hlen : (cellsOf ⟨ms.mb, ms.slice + off, len⟩).length = len := length_cellsOf _
  rw [hsplit, List.drop_left' hoff, List.take_left' hlen]

@[simp] theorem store_cells? (s : State) (o : ObjId) :
    (store s).cells? o = (s.slice? o).map cellsOf := by
  rw [Store.cells?, store, State.slice?, List.getElem?_map]
  cases s.objs[o]? with
  | none => rfl
  | some x => rfl

theorem map_read (s : State) (ms : MemSlice) :
    (cellsOf ms).map (store s).read = ms.contents s.heap := by
  rw [cellsOf, List.map_map]
  rfl

theorem store_value (s : State) (o : ObjId) :
    (store s).value o = (s.slice? o).map fun ms => ms.contents s.heap := by
  rw [Store.value, store_cells?, Option.map_map]
  exact Option.map_congr fun ms _ => map_read s ms

theorem shown_store (s : State) (v : Operand) : shown (store s) v = operandBytes s v := by
  cases v with
  | buffer o => exact store_value s o
  | str t => rfl

theorem mem_store_objs {cells : List (BlockId × ℕ)} (h : some cells ∈ (store s).objs) :
    ∃ ms, some ms ∈ s.objs ∧ cellsOf ms = cells := by
  obtain ⟨x, hx, hcells⟩ := List.mem_map.mp h
  obtain ⟨ms, rfl, hms⟩ := Option.map_eq_some_iff.mp hcells
  exact ⟨ms, hx, hms⟩

theorem keeps_of_behind {mb off : ℕ} (h : Behind s s' mb off) : Keeps (store s) (store s') := by
  intro cells hcells c hc
  obtain ⟨ms, hms, rfl⟩ := mem_store_objs hcells
  obtain ⟨hmb, hle, hlt⟩ := mem_cellsOf.mp hc
  refine h.bytes c.1 c.2 fun hin => ?_
  have hlive := h.live ms hms (hmb.symm.trans hin)
  omega

theorem fresh_of_behind {off : ℕ} (h : Behind s s' ms.mb off) (hoff : off ≤ ms.slice) :
    Fresh (store s) (cellsOf ms) := by
  refine ⟨nodup_cellsOf _, fun cells hcells c hc hin => ?_⟩
  obtain ⟨ms', hms', rfl⟩ := mem_store_objs hcells
  obtain ⟨hmb, -, hlt⟩ := mem_cellsOf.mp hc
  obtain ⟨hmb', hle, -⟩ := mem_cellsOf.mp hin
  have hlive := h.live ms' hms' (hmb.symm.trans hmb')
  omega

theorem store_objs_push (hobjs : s'.objs = s.objs ++ [some ms]) :
    (store s').objs = (store s).objs ++ [some (cellsOf ms)] := by
  rw [store, store, hobjs, List.map_append]
  rfl

theorem adds_window {h : Heap} (hbytes : h.bytes = s.heap.bytes) (ms : MemSlice) :
    Adds (store s) (store { s.push ms with heap := h }) (cellsOf ms) [] [] where
  objs := by
    rw [List.append_nil]
    exact store_objs_push rfl
  fresh := ⟨List.nodup_nil, fun _ _ _ _ => List.not_mem_nil⟩
  shows := rfl
  keeps _ _ c _ := congrFun (congrFun hbytes c.1) c.2

/-- A Buffer that `lev_buffer_new` made, when it has been filled. -/
theorem adds_made {size : ℕ} {h : Heap} (hm : Made s s' ms size)
    (hb : Behind s { s' with heap := h } ms.mb ms.slice) {bs : List UInt8}
    (hc : ms.contents h = bs) :
    Adds (store s) (store { s' with heap := h }) [] (cellsOf ms) bs where
  objs := store_objs_push hm.objs
  fresh := fresh_of_behind hb le_rfl
  shows := (map_read { s' with heap := h } ms).trans hc
  keeps := keeps_of_behind hb

/-- An argument whose default is `d`, as an integer and as the `size_t` it is cast to: the two are
the same, or both are out of all bounds. -/
theorem toSizeT_default {z : ℤ} (h : IsInteger z) (d : ℕ) :
    (if z = 0 then (d : ℤ) else z) = ((if toSizeT z = 0 then d else toSizeT z : ℕ) : ℤ) ∨
      (if z = 0 then (d : ℤ) else z) < 0 ∧ 2 ^ 63 ≤ if toSizeT z = 0 then d else toSizeT z := by
  have hlow := h.1
  by_cases hz : z = 0
  · subst hz
    have hzero : toSizeT 0 = 0 := toSizeT_natCast (n := 0) (by omega)
    rw [if_pos rfl, if_pos hzero]
    exact .inl rfl
  · rcases toSizeT_cases h with ⟨hpos, heq⟩ | ⟨hneg, heq⟩
    · rw [if_neg hz, if_neg (by omega)]
      exact .inl heq.symm
    · rw [if_neg hz, if_neg (by omega)]
      exact .inr ⟨hneg, by omega⟩

theorem window_toSizeT {len offset length : ℕ} {i j : ℤ} (hlen : len ≤ 2 ^ 20) (hi : IsInteger i)
    (hj : IsInteger j) (hoffset : (if toSizeT i = 0 then 1 else toSizeT i) = offset)
    (hlength : (if toSizeT j = 0 then len - (offset - 1) else toSizeT j) = length) :
    window len i j = if offset > len ∨ length > len - (offset - 1) then none
      else some (offset - 1, length) := by
  have hdef := toSizeT_default hi 1
  rw [hoffset, Nat.cast_one] at hdef
  have hpos : 0 < offset := by
    rw [← hoffset]
    split_ifs with hz
    · exact Nat.one_pos
    · exact Nat.pos_of_ne_zero hz
  rw [window]
  dsimp only
  rcases hdef with heq | ⟨hlow, hbig⟩
  · rw [heq]
    by_cases hout : offset > len
    · rw [if_pos (by omega), if_pos (.inl hout)]
    · rw [if_neg (by omega)]
      have hrest : (len : ℤ) - (offset - 1) = (len - (offset - 1) : ℕ) := by omega
      have hdef' := toSizeT_default hj (len - (offset - 1))
      rw [hlength] at hdef'
      rw [hrest]
      rcases hdef' with heq' | ⟨hlow', hbig'⟩
      · rw [heq']
        by_cases hlong : length > len - (offset - 1)
        · rw [if_pos (by omega), if_pos (.inr hlong)]
        · rw [if_neg (by omega), if_neg (by omega)]
          have hoff : ((offset : ℤ) - 1).toNat = offset - 1 := by omega
          rw [hoff, Int.toNat_natCast]
      · rw [if_pos (.inl hlow'), if_pos (by omega)]
  · rw [if_pos (.inl (by omega)), if_pos (by omega)]

theorem effect_new (hi : Inv s) {a : NewArg} (hp : 1 ≤ a.size ∧ a.size ≤ 2 ^ 20) :
    Effect (store s) (.new a) (store (next s (.new a))) := by
  obtain ⟨ms, t, hnew⟩ := levBufferNew_isSome s a.temp 0 hp.2
  have hm := levBufferNew_made hi.wf hp.1 hnew
  have hs : bufferNew s a = .ok { t with created := s.objs.length :: s.created } := by
    rw [bufferNew, hnew]
  have hnext : next s (.new a) = _ := next_of_ok hs
  obtain ⟨ms', hlast, -, hc⟩ := (bufferNew_holds hi.sized hs).mpr (by omega)
  change t.objs.getLast? = _ at hlast
  rw [hm.objs, List.getLast?_concat] at hlast
  cases hlast
  rw [hnext]
  exact .new (adds_made (h := t.heap) hm hm.behind hc)

theorem effect_slice {i j : ℤ} (hi : Inv s) (hp : IsInteger i ∧ IsInteger j) :
    Effect (store s) (.slice o i j) (store (next s (.slice o i j))) := by
  cases ho : s.slice? o with
  | none =>
    have hs : bufferSlice s o i j = .error (.argerror 1 "lev.buffer expected") := by
      simp only [bufferSlice, ho]
    have hnext : next s (.slice o i j) = s := next_of_error hs
    rw [hnext]
    exact .refused (.noBuffer (by rw [store_cells?, ho]; rfl))
  | some ms =>
    have hcells : (store s).cells? o = some (cellsOf ms) := by rw [store_cells?, ho]; rfl
    have hlt := hi.wf.slice_lt (slice?_mem ho)
    generalize hoffset : (if toSizeT i = 0 then 1 else toSizeT i) = offset
    generalize hlength : (if toSizeT j = 0 then ms.untilLen - (offset - 1) else toSizeT j) = length
    have hs : bufferSlice s o i j =
        if offset > ms.untilLen then .error (.argerror 2 "Offset out of bounds")
        else if length > ms.untilLen - (offset - 1) then
          .error (.argerror 3 "length out of bounds")
        else .ok { s.push ⟨ms.mb, ms.slice + (offset - 1), length⟩ with
          heap := levSlabIncRef s.heap ms.mb } := by
      simp only [bufferSlice, ho, hoffset, hlength]
    have hwindow : window (cellsOf ms).length i j =
        if offset > ms.untilLen ∨ length > ms.untilLen - (offset - 1) then none
        else some (offset - 1, length) := by
      rw [length_cellsOf]
      exact window_toSizeT (by omega) hp.1 hp.2 hoffset hlength
    by_cases hout : offset > ms.untilLen ∨ length > ms.untilLen - (offset - 1)
    · have herr : ∃ f, bufferSlice s o i j = .error f := by
        rw [hs]
        split_ifs with h₁ h₂
        · exact ⟨_, rfl⟩
        · exact ⟨_, rfl⟩
        · exact absurd hout (by omega)
      obtain ⟨f, herr⟩ := herr
      have hnext : next s (.slice o i j) = s := next_of_error herr
      rw [hnext]
      exact .refused (.window hcells (by rw [hwindow, if_pos hout]))
    · rw [if_neg (by omega), if_neg (by omega)] at hs
      have hnext : next s (.slice o i j) = _ := next_of_ok hs
      rw [if_neg hout] at hwindow
      have hadds := adds_window (s := s) (h := levSlabIncRef s.heap ms.mb) rfl
        ⟨ms.mb, ms.slice + (offset - 1), length⟩
      rw [← cellsOf_window (by omega)] at hadds
      rw [hnext]
      exact .slice hcells hwindow hadds

/-- A read of the second operand through the heap: its bytes as long as live Buffers keep
theirs. -/
def Reads (s : State) (second : Heap → List UInt8) (b : List UInt8) : Prop :=
  ∀ h, (∀ ms, some ms ∈ s.objs → ms.contents h = ms.contents s.heap) → second h = b

theorem effect_copy (hi : Inv s) {x y : Operand} {temp : Option (List UInt8)} {firstLen : ℕ}
    {second : Heap → List UInt8} {b : List UInt8} (hx : operandBytes s x = some (temp.getD []))
    (hy : operandBytes s y = some b) (hlen : (temp.getD []).length = firstLen)
    (hread : Reads s second b) (hpos : 0 < firstLen + b.length)
    (hsize : firstLen + b.length ≤ 2 ^ 20)
    (hcopy : bufferConcat s x y = concatFresh s temp firstLen second b.length) :
    Effect (store s) (.concat x y) (store (next s (.concat x y))) := by
  obtain ⟨mb, g, t, -, hnew, hobjs, hbytes, -, -⟩ :=
    levBufferNew_stores s temp firstLen hpos hsize
  generalize (g.blocks mb).nbytes = off at *
  have hm := levBufferNew_made hi.wf hpos hnew
  have hsecond : second t.heap = b := hread t.heap fun ms hms => hm.behind.contents hms
  have hs := concatFresh_eq second hsize hnew
  rw [hsecond] at hs
  have hnext : next s (.concat x y) = _ := next_of_ok (hcopy.trans hs)
  have hbeh := hm.behind.store (Nat.le_add_right off firstLen) b
  have hfirst : t.heap.load mb off firstLen = temp.getD [] := by
    cases temp with
    | none =>
      obtain rfl : 0 = firstLen := hlen
      rfl
    | some a =>
      rw [Option.getD_some] at hlen ⊢
      have hdata : newData (firstLen + b.length) (some a) firstLen = a := by
        apply List.take_of_length_le
        split <;> omega
      rw [hdata] at hbytes
      have hload : t.heap.load mb off firstLen = (s.heap.store mb off a).load mb off firstLen :=
        Heap.load_congr fun _ _ => congrFun (congrFun hbytes mb) _
      rw [hload, ← hlen]
      exact Heap.load_store_self _ _ _ _
  have hc : MemSlice.contents ⟨mb, off, firstLen + b.length⟩
      (t.heap.store mb (off + firstLen) b) = temp.getD [] ++ b := by
    have hkeep : (t.heap.store mb (off + firstLen) b).load mb off firstLen =
        t.heap.load mb off firstLen :=
      Heap.load_store_of_disjoint _ _ _ _ _ fun _ => .inl (Nat.le_refl _)
    have hput : (t.heap.store mb (off + firstLen) b).load mb (off + firstLen) b.length = b :=
      Heap.load_store_self _ _ _ _
    rw [MemSlice.contents, Heap.load_append, hkeep, hfirst, hput]
  rw [hnext]
  exact .copy ((shown_store s x).trans hx) ((shown_store s y).trans hy) (adds_made hm hbeh hc)

theorem effect_behind (hi : Inv s) {y : Operand} {first : MemSlice}
    {second : Heap → List UInt8} {b : List UInt8} (ho : s.slice? o = some first)
    (hy : operandBytes s y = some b) (hread : Reads s second b)
    (hsize : first.untilLen + b.length ≤ 2 ^ 20)
    (hjoin : bufferConcat s (.buffer o) y = concatBehind s first second b.length) :
    Effect (store s) (.concat (.buffer o) y) (store (next s (.concat (.buffer o) y))) := by
  have hfirst := slice?_mem ho
  have hpos := hi.wf.pos first hfirst
  have hx : operandBytes s (.buffer o) = some ((some (first.contents s.heap)).getD []) := by
    rw [operandBytes, ho, Option.map_some, Option.getD_some]
  by_cases hroom : joinsBehind s first b.length
  · have hsum : szAdd first.untilLen b.length = first.untilLen + b.length :=
      szAdd_of_lt (by omega)
    generalize hh : (levSlabIncRef s.heap first.mb).addNbytes first.mb b.length = h
    have hbytes : h.bytes = s.heap.bytes := by
      rw [← hh]
      rfl
    have hsecond : second h = b := hread h fun ms _ =>
      Heap.load_congr fun i _ => congrFun (congrFun hbytes ms.mb) _
    have hs : concatBehind s first second b.length =
        .ok { s.push ⟨first.mb, first.slice, first.untilLen + b.length⟩ with
          heap := copySecond h first first.untilLen b } := by
      rw [concatBehind, levPushbufferFromMb_eq _ _ _ (by rw [hsum]; omega), hsum]
      simp only [hh, hsecond]
      exact if_pos hroom
    have hnext : next s (.concat (.buffer o) y) = _ := next_of_ok (hjoin.trans hs)
    have hbeh : Behind s { s.push ⟨first.mb, first.slice, first.untilLen + b.length⟩ with
        heap := copySecond h first first.untilLen b } first.mb (s.heap.blocks first.mb).nbytes := by
      refine ⟨fun ms hms hmb => hmb ▸ hi.wf.range ms hms, ?_, fun c i hin => ?_⟩
      · refine ⟨[⟨first.mb, first.slice + first.untilLen, b.length⟩], ?_, fun st hst => ?_⟩
        · rw [← hh]
          rfl
        · rw [List.mem_singleton.mp hst]
          exact ⟨rfl, hroom.1.le⟩
      · have hout : ¬ (c = first.mb ∧ first.slice + first.untilLen ≤ i ∧
            i < first.slice + first.untilLen + b.length) := by
          rintro ⟨hc, hle, -⟩
          have hlt := hin hc
          have hend := hroom.1
          omega
        have hold : (copySecond h first first.untilLen b).bytes c i = h.bytes c i := by
          simp only [copySecond, Heap.store]
          rw [if_neg hout]
        rw [hold, hbytes]
    rw [hnext]
    have ho' : (store s).cells? o = some (cellsOf first) := by
      rw [store_cells?, ho, Option.map_some]
    refine .behind ho' ((shown_store s y).trans hy) (?_ : Adds (store s) _ (cellsOf first)
      (cellsOf ⟨first.mb, first.slice + first.untilLen, b.length⟩) b)
    refine ⟨?_, ?_, ?_, ?_⟩
    · rw [← cellsOf_append]
      exact store_objs_push rfl
    · exact fresh_of_behind hbeh hroom.1.le
    · exact (map_read _ _).trans (Heap.load_store_self _ _ _ _)
    · exact keeps_of_behind hbeh
  · have hlen : ((some (first.contents s.heap)).getD []).length = first.untilLen :=
      contents_length' first s.heap
    exact effect_copy hi hx hy hlen hread (by omega) hsize (hjoin.trans (concatBehind_fresh hroom))

theorem effect_concat (hi : Inv s) {x y : Operand}
    (hp : operandLen s x + operandLen s y ≤ 2 ^ 20 ∧ InOrder s x y) :
    Effect (store s) (.concat x y) (store (next s (.concat x y))) := by
  obtain ⟨hsize, horder⟩ := hp
  cases x with
  | str t =>
    cases y with
    | str t' =>
      have hs : bufferConcat s (.str t) (.str t') = .error _ := rfl
      have hnext : next s (.concat (.str t) (.str t')) = s := next_of_error hs
      rw [hnext]
      exact .refused .strings
    | buffer o' =>
      cases ho' : s.slice? o' with
      | none =>
        have hs :
            bufferConcat s (.str t) (.buffer o') = .error (.argerror 2 "lev.buffer expected") := by
          simp only [bufferConcat, ho']
        have hnext : next s (.concat (.str t) (.buffer o')) = s := next_of_error hs
        rw [hnext]
        exact .refused (.right (by rw [shown_store, operandBytes, ho', Option.map_none]))
      | some second =>
        have hnil : t = [] := horder
        subst hnil
        have hlen := contents_length' second s.heap
        have hpos := hi.wf.pos second (slice?_mem ho')
        have hread : Reads s second.contents (second.contents s.heap) := fun h hlive =>
          hlive second (slice?_mem ho')
        have hy : operandBytes s (.buffer o') = some (second.contents s.heap) := by
          rw [operandBytes, ho', Option.map_some]
        have hle : second.untilLen ≤ 2 ^ 20 := by
          simp only [operandLen, ho', Option.map_some, Option.getD_some] at hsize
          omega
        have hx : operandBytes s (.str []) = some ((none : Option (List UInt8)).getD []) := rfl
        have hzero : ((none : Option (List UInt8)).getD []).length = 0 := rfl
        refine effect_copy hi hx hy hzero hread (by omega) (by omega) ?_
        simp only [bufferConcat, ho', hlen]
  | buffer o =>
    cases ho : s.slice? o with
    | none =>
      have hs : bufferConcat s (.buffer o) y = .error (.argerror 1 "lev.buffer expected") := by
        cases y with
        | str t => simp only [bufferConcat, ho]
        | buffer o' => simp only [bufferConcat, ho]
      have hnext : next s (.concat (.buffer o) y) = s := next_of_error hs
      rw [hnext]
      exact .refused (.left (by rw [shown_store, operandBytes, ho, Option.map_none]))
    | some first =>
      simp only [operandLen, ho, Option.map_some, Option.getD_some] at hsize
      cases y with
      | str t =>
        refine effect_behind hi ho rfl (fun _ _ => rfl) hsize ?_
        simp only [bufferConcat, ho]
      | buffer o' =>
        cases ho' : s.slice? o' with
        | none =>
          have hs : bufferConcat s (.buffer o) (.buffer o') =
              .error (.argerror 2 "lev.buffer expected") := by simp only [bufferConcat, ho, ho']
          have hnext : next s (.concat (.buffer o) (.buffer o')) = s := next_of_error hs
          rw [hnext]
          exact .refused (.right (by rw [shown_store, operandBytes, ho', Option.map_none]))
        | some second =>
          have hlen := contents_length' second s.heap
          simp only [ho', Option.map_some, Option.getD_some] at hsize
          have hforwards : ¬ Backwards first second := horder first ho second ho'
          by_cases hadj : adjacent first second = true
          · have hs := bufferConcat_adjacent ho ho' (hi.wf.pos first (slice?_mem ho)) hsize hadj
            obtain ⟨hmb, hend⟩ := (adjacent_cases hadj).resolve_left hforwards
            have hnext : next s (.concat (.buffer o) (.buffer o')) = _ := next_of_ok hs
            have hadds := adds_window (s := s) (h := levSlabIncRef s.heap first.mb) rfl
              ⟨first.mb, min first.slice second.slice, first.untilLen + second.untilLen⟩
            have hcells : cellsOf ⟨first.mb, min first.slice second.slice,
                first.untilLen + second.untilLen⟩ = cellsOf first ++ cellsOf second := by
              rw [min_eq_left (by omega), cellsOf_append, hend, hmb]
              congr 1
              rw [← hmb]
            rw [hcells] at hadds
            have hfirst : (store s).cells? o = some (cellsOf first) := by
              rw [store_cells?, ho, Option.map_some]
            have hsecond : (store s).cells? o' = some (cellsOf second) := by
              rw [store_cells?, ho', Option.map_some]
            rw [hnext]
            exact .joined hfirst hsecond hadds
          · have hread : Reads s second.contents (second.contents s.heap) := fun h hlive =>
              hlive second (slice?_mem ho')
            have hy : operandBytes s (.buffer o') = some (second.contents s.heap) := by
              rw [operandBytes, ho', Option.map_some]
            refine effect_behind hi ho hy hread (by omega) ?_
            simp only [bufferConcat, ho, ho', if_neg hadj, hlen]

theorem assigns_store {k : ℕ} {b : List UInt8} (hfit : k + b.length ≤ ms.untilLen) :
    Assigns (store s) (store { s with heap := s.heap.store ms.mb (ms.slice + k) b }) (cellsOf ms) k
      b where
  objs := rfl
  shows := by
    rw [cellsOf_window hfit]
    exact (map_read _ _).trans (Heap.load_store_self _ _ _ _)
  others c hc := by
    rw [cellsOf_window hfit, mem_cellsOf] at hc
    exact if_neg hc

theorem newindex_outside {i : ℤ} {v : Value} (ho : s.slice? o = some ms)
    (hlt : ms.untilLen ≤ 2 ^ 20) (hi : IsInteger i) (hne : i ≠ ms.untilLen + 1)
    (hout : i < 1 ∨ ms.untilLen < i) : next s (.newindex o i v) = s := by
  have hcond : toSizeT i < 1 ∨ toSizeT i - 1 > ms.untilLen := by
    rcases toSizeT_cases hi with ⟨hpos, heq⟩ | ⟨hneg, heq⟩
    · omega
    · have hlow := hi.1
      omega
  have hs : bufferNewindex s o i v = .error (.argerror 2 "Index out of bounds") := by
    simp only [bufferNewindex, ho]
    exact if_pos hcond
  exact next_of_error hs

/-- An assignment inside of a Buffer stores its bytes, or there are none and nothing happens. -/
theorem newindex_inside {i : ℤ} {v : Value} (ho : s.slice? o = some ms)
    (hlt : ms.untilLen ≤ 2 ^ 20) (hi : 1 ≤ i) (hle : i ≤ ms.untilLen) (hin : Inside s ms i v) :
    (∃ b, assigned (store s) v = some b ∧ i.toNat - 1 + b.length ≤ ms.untilLen ∧
      next s (.newindex o i v) =
        { s with heap := s.heap.store ms.mb (ms.slice + (i.toNat - 1)) b }) ∨
    (assigned (store s) v = none ∧ next s (.newindex o i v) = s) := by
  have hidx : toSizeT i = i.toNat := by
    have h := toSizeT_natCast (show i.toNat < 2 ^ 64 by omega)
    rwa [Int.toNat_of_nonneg (by omega)] at h
  have hcond : ¬ (i.toNat < 1 ∨ i.toNat - 1 > ms.untilLen) := by omega
  cases v with
  | operand v =>
    cases hv : operandBytes s v with
    | none =>
      have hs : bufferNewindex s o i (.operand v) = .error (.argerror 3 "lev.buffer expected") := by
        simp only [bufferNewindex, ho, hidx, hv]
        exact if_neg hcond
      exact .inr ⟨(shown_store s v).trans hv, next_of_error hs⟩
    | some b =>
      obtain ⟨hfit, -⟩ := hin b hv
      have hs := bufferNewindex_operand ho hv (by omega) hi hle
      rw [levMemsliceAppendMem_eq (by omega) (by omega) (by omega), if_pos hfit] at hs
      have hnext : next s (.newindex o i (.operand v)) = _ := next_of_ok hs
      refine .inl ⟨b, (shown_store s v).trans hv, hfit.le, ?_⟩
      have hobjs : (s.put o ms s.heap).objs = s.objs := congrArg State.objs (put_self ho)
      change s.objs.set o (some ms) = s.objs at hobjs
      rw [hnext, State.put, hobjs]
  | number n =>
    have hn : IsInteger n := hin
    have hs : bufferNewindex s o i (.number n) =
        if toSizeT n > 255 then .error (.argerror 3 "0 < Value < 255")
        else .ok { s with
          heap := s.heap.store ms.mb (ms.slice + (i.toNat - 1)) [UInt8.ofNat (toSizeT n)] } := by
      simp only [bufferNewindex, ho, hidx]
      exact if_neg hcond
    have hcases := toSizeT_cases hn
    by_cases hbyte : 0 ≤ n ∧ n ≤ 255
    · have hsize : toSizeT n = n.toNat := by omega
      rw [if_neg (by omega), hsize] at hs
      refine .inl ⟨[UInt8.ofNat n.toNat], if_pos hbyte, ?_, next_of_ok hs⟩
      rw [List.length_singleton]
      omega
    · have hlow := hn.1
      rw [if_pos (by omega)] at hs
      exact .inr ⟨if_neg hbyte, next_of_error hs⟩

theorem newindex_cases (hi : Inv s) {i : ℤ} {v : Value} (hp : Orderly s (.newindex o i v)) :
    (Refused (store s) (.newindex o i v) ∧ next s (.newindex o i v) = s) ∨
    ∃ ms b, s.slice? o = some ms ∧ assigned (store s) v = some b ∧ 1 ≤ i ∧
      i.toNat - 1 + b.length ≤ ms.untilLen ∧ next s (.newindex o i v) =
        { s with heap := s.heap.store ms.mb (ms.slice + (i.toNat - 1)) b } := by
  obtain ⟨hint, hin⟩ := hp
  cases ho : s.slice? o with
  | none =>
    have hs : bufferNewindex s o i v = .error (.argerror 1 "lev.buffer expected") := by
      simp only [bufferNewindex, ho]
    have hgone : (store s).cells? o = none := by rw [store_cells?, ho, Option.map_none]
    exact .inl ⟨.noTarget hgone, next_of_error hs⟩
  | some ms =>
    have hcells : (store s).cells? o = some (cellsOf ms) := by
      rw [store_cells?, ho, Option.map_some]
    have hmem := slice?_mem ho
    have hrange := hi.wf.range ms hmem
    have hsize := hi.wf.size_le ms.mb
    have hnbytes := hi.wf.nbytes_le ms.mb
    obtain ⟨hne, hinside⟩ := hin ms ho
    by_cases hout : i < 1 ∨ ms.untilLen < i
    · have hnone : i < 1 ∨ (cellsOf ms).length < i := by
        rw [length_cellsOf]
        exact hout
      exact .inl ⟨.index hcells hnone, newindex_outside ho (by omega) hint hne hout⟩
    · rcases newindex_inside ho (by omega) (by omega) (by omega)
        (hinside (by omega) (by omega)) with ⟨b, hb, hfit, hnext⟩ | ⟨hb, hnext⟩
      · exact .inr ⟨ms, b, rfl, hb, by omega, hfit, hnext⟩
      · exact .inl ⟨.value hb, hnext⟩

theorem effect_newindex (hi : Inv s) {i : ℤ} {v : Value} (hp : Orderly s (.newindex o i v)) :
    Effect (store s) (.newindex o i v) (store (next s (.newindex o i v))) := by
  rcases newindex_cases hi hp with ⟨hrefused, hnext⟩ | ⟨ms, b, ho, hb, hone, hfit, hnext⟩
  · rw [hnext]
    exact .refused hrefused
  · have hcells : (store s).cells? o = some (cellsOf ms) := by
      rw [store_cells?, ho, Option.map_some]
    have hfit' : i.toNat - 1 + b.length ≤ (cellsOf ms).length := by
      rw [length_cellsOf]
      exact hfit
    rw [hnext]
    exact .assign hcells hb hone hfit' (assigns_store hfit)

theorem effect_gc : Effect (store s) (.gc o) (store (next s (.gc o))) := by
  cases ho : s.slice? o with
  | none =>
    have hs : bufferGc s o = .error (.argerror 1 "lev.buffer expected") := by
      simp only [bufferGc, ho]
    have hnext : next s (.gc o) = s := next_of_error hs
    rw [hnext]
    exact .refused (.gone (by rw [store_cells?, ho, Option.map_none]))
  | some ms =>
    have hs : bufferGc s o =
        .ok { s with heap := levSlabDecRef s.heap ms.mb, objs := s.objs.set o none } := by
      simp only [bufferGc, ho]
    have hnext : next s (.gc o) = _ := next_of_ok hs
    have hread : (levSlabDecRef s.heap ms.mb).bytes = s.heap.bytes := levSlabDecRef_bytes _ _
    have hcells : (store s).cells? o = some (cellsOf ms) := by
      rw [store_cells?, ho, Option.map_some]
    have hstore : store (next s (.gc o)) =
        { store s with objs := (store s).objs.set o none } := by
      rw [hnext, store, store, hread, List.map_set, Option.map_none]
    rw [hstore]
    exact .gc hcells

theorem inv_next (hi : Inv s) (hp : Orderly s op) : Inv (next s op) := by
  refine ⟨?_, sized_step hi.sized⟩
  cases hs : step s op with
  | error f =>
    rw [next_of_error hs]
    exact hi.wf
  | ok s' =>
    cases op with
    | new a =>
      rw [next_of_ok hs]
      obtain ⟨ms, t, hnew⟩ := levBufferNew_isSome s a.temp 0 hp.2
      have hm := levBufferNew_made hi.wf hp.1 hnew
      have hst : bufferNew s a = .ok { t with created := s.objs.length :: s.created } := by
        rw [bufferNew, hnew]
      cases hst.symm.trans hs
      exact ⟨hm.wf.owned, hm.wf.nbytes_le, hm.wf.size_le, hm.wf.static_used, hm.wf.range, hm.wf.pos⟩
    | slice o i j =>
      rw [next_of_ok hs]
      obtain ⟨ms, hc⟩ := bufferSlice_creates hi.wf hs
      exact hc.wf
    | concat x y =>
      rw [next_of_ok hs]
      have hsize : operandLen s x + operandLen s y ≤ 2 ^ 20 := hp.1
      obtain ⟨ms, hc⟩ := bufferConcat_creates hi.wf (by omega) hs
      exact hc.wf
    | newindex o i v =>
      rcases newindex_cases hi hp with ⟨-, hnext⟩ | ⟨ms, b, -, -, -, -, hnext⟩
      · rw [hnext]
        exact hi.wf
      · rw [hnext]
        exact hi.wf.store _ _ _
    | gc o =>
      rw [next_of_ok hs]
      exact bufferGc_wf hi.wf hs

theorem effect_next (hi : Inv s) (hp : Orderly s op) :
    Effect (store s) op (store (next s op)) := by
  cases op with
  | new a => exact effect_new hi hp
  | slice o i j => exact effect_slice hi hp
  | concat x y => exact effect_concat hi hp
  | newindex o i v => exact effect_newindex hi hp
  | gc o => exact effect_gc

theorem noTakeover_of_wf (hw : Wf s) (op : Op) : NoTakeover s op := by
  rintro size - ⟨mb, hst, hsize, hkeep⟩
  have hused := hw.static_used mb hst
  have hfill := hw.nbytes_le mb
  have hle := hw.size_le mb
  rw [szSub_of_le hfill (by omega)] at hkeep
  omega

theorem contained_next (hi : Inv s) (hx : Exact s.heap (refs s) NoBlock)
    (hc : Contained s.heap s.objs) (hp : Orderly s op) :
    Contained (next s op).heap (next s op).objs := by
  cases hs : step s op with
  | error f =>
    rw [next_of_error hs]
    exact hc
  | ok s' =>
    have hserved : crashes s op = false := by rw [crashes, hs]
    have hfill : ∀ mb ∈ filledBlock s op, (s.heap.blocks mb).nbytes ≤ (s.heap.blocks mb).size :=
      fun mb _ => hi.wf.nbytes_le mb
    cases op with
    | new a => exact contained_step hx hc ⟨hp.2, hserved⟩ ⟨hfill, trivial⟩
    | slice o i j => exact contained_step hx hc ⟨trivial, hserved⟩ ⟨hfill, trivial⟩
    | concat x y =>
      have hsize : operandLen s x + operandLen s y ≤ 2 ^ 20 := hp.1
      have hshort : ∀ v, operandLen s v ≤ 2 ^ 20 → v.Short := by
        intro v hv
        cases v with
        | buffer o => trivial
        | str t => exact Nat.lt_of_le_of_lt hv (by decide)
      exact contained_step hx hc ⟨⟨hshort x (by omega), hshort y (by omega)⟩, hserved⟩
        ⟨hfill, trivial⟩
    | newindex o i v =>
      rcases newindex_cases hi hp with ⟨-, hnext⟩ | ⟨ms, b, ho, -, -, hfit, hnext⟩
      · rw [hnext]
        exact hc
      · have hmine := hi.wf.handedOut (slice?_mem ho)
        have hrange := hi.wf.range ms (slice?_mem ho)
        have hle := hi.wf.nbytes_le ms.mb
        rw [hnext]
        exact hc.store hmine.lt (by rw [hmine.capacity]; omega)
    | gc o => exact contained_step hx hc ⟨trivial, hserved⟩ ⟨hfill, trivial⟩

/-- Every orderly run of the Buffer module is a run of the specification, and what it stores lies
in its blocks. -/
theorem buffers_refine (junk : BlockId → ℕ → UInt8) {ops : List Op}
    (h : Along next Orderly (start junk) ops) :
    Path Effect (store (start junk)) ops (store (exec next (start junk) ops)) ∧
      StoresInside (exec next (start junk) ops).heap := by
  have hstep : ∀ s op, Inv s → Orderly s op →
      Inv (next s op) ∧ Effect (store s) op (store (next s op)) :=
    fun _ _ hi hp => ⟨inv_next hi hp, effect_next hi hp⟩
  have hkeep : ∀ s op,
      (Inv s ∧ Exact s.heap (refs s) NoBlock ∧ Contained s.heap s.objs) → Orderly s op →
      Inv (next s op) ∧ Exact (next s op).heap (refs (next s op)) NoBlock ∧
        Contained (next s op).heap (next s op).objs := by
    rintro s op ⟨hi, hx, hc⟩ hp
    exact ⟨inv_next hi hp, exact_step hx (noTakeover_of_wf hi.wf op), contained_next hi hx hc hp⟩
  have hend := inv_exec hkeep ⟨inv_start junk, exact_start junk, contained_start junk⟩ h
  exact ⟨path_of_along hstep (inv_start junk) h, hend.2.2.inside⟩

/-- A Buffer, its last two bytes, these and two more in one, and an assignment that the first two
share. -/
def sharedRun : List Op :=
  [.new (.str [1, 2, 3]), .slice 0 2 2, .concat (.buffer 1) (.str [4, 5]),
    .newindex 0 3 (.number 9),
    .gc 0]

theorem orderly_sharedRun : Along next Orderly (start fun _ _ => 0) sharedRun := by
  have hsize : operandLen (exec next (start fun _ _ => 0) (sharedRun.take 2)) (.buffer 1) +
      operandLen (exec next (start fun _ _ => 0) (sharedRun.take 2)) (.str [4, 5]) = 4 := by
    decide +kernel
  have hslice : (exec next (start fun _ _ => 0) (sharedRun.take 3)).slice? 0 =
      some ⟨1023, 0, 3⟩ := by decide +kernel
  simp only [sharedRun, List.take, exec, List.foldl] at hsize hslice
  refine ⟨⟨by decide, by decide⟩, ⟨⟨by decide, by decide⟩, by decide, by decide⟩,
    ⟨by rw [hsize]; decide, trivial⟩, ⟨⟨by decide, by decide⟩, ?_⟩, trivial, trivial⟩
  intro ms hms
  cases hslice.symm.trans hms
  exact ⟨by decide, fun _ _ => ⟨by decide, by decide⟩⟩

theorem buffers_refine_sharedRun :
    Path Effect (store (start fun _ _ => 0)) sharedRun
      (store (exec next (start fun _ _ => 0) sharedRun)) ∧
      StoresInside (exec next (start fun _ _ => 0) sharedRun).heap :=
  buffers_refine _ orderly_sharedRun

end Lev.Buffer
