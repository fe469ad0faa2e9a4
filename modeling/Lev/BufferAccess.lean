import Lev.Buffer
import Lev.Double

/-! The indexed accessors of lev.buffer and the range `parser:execute` passes on, and exactly
which indices get past their checks. The checks are `size_t` subtractions and additions,
and they wrap. -/
namespace Lev.Buffer
open CInt Endian Slab Memory

/-- `_BUFFER_GETOFFSET`; the offset from the start of the Buffer. -/
def bufferGetoffset (ms : MemSlice) (arg : ℕ) (index : ℤ) (extbound : ℕ) : Except Fault ℕ :=
  if toSizeT index < 1 ∨ toSizeT index - 1 > szSub ms.untilLen extbound then
    .error (.argerror arg "Index out of bounds")
  else .ok (toSizeT index - 1)

/-- The memory, and what an accessor has loaded and stored of it, in order. -/
structure Traced where
  heap : Heap
  touched : List Store

/-- What an accessor computes; also where it raises an error the memory is known. -/
abbrev Accessor := EStateM Fault Traced

namespace Accessor

def load (b : BlockId) (off len : ℕ) : Accessor (List UInt8) := fun m =>
  .ok (m.heap.load b off len) { m with touched := m.touched ++ [⟨b, off, len⟩] }

def store (b : BlockId) (off : ℕ) (data : List UInt8) : Accessor Unit := fun m =>
  .ok () ⟨m.heap.store b off data, m.touched ++ [⟨b, off, data.length⟩]⟩

def ends {α : Type} (c : Accessor α) (h : Heap) : Except Fault (α × Heap) :=
  match c ⟨h, []⟩ with
  | .ok a m => .ok (a, m.heap)
  | .error e _ => .error e

end Accessor

/-- The body the readers share: `size` bytes at `buffer + index - 1`. -/
def bufferReadAt (extbound size : ℕ) (value : List UInt8 → ℤ) (ms : MemSlice) (index : ℤ) :
    Accessor ℤ := do
  let offset ← MonadExcept.ofExcept (bufferGetoffset ms 2 index extbound)
  return value (← Accessor.load ms.mb (szAdd ms.slice offset) size)

/-- A number of `k` bytes in two's complement. -/
def toSigned (k n : ℕ) : ℤ := if n < 2 ^ (8 * k - 1) then n else (n : ℤ) - 2 ^ (8 * k)

/-- `buffer__index` with a number for its key, which is `readUInt8` too. -/
def bufferIndex := bufferReadAt 0 1 fun bs => leNat bs

def bufferReadInt8 := bufferReadAt 0 1 fun bs => toSigned 1 (leNat bs)

def bufferReadUInt16BE := bufferReadAt 2 2 fun bs => bswap 2 (leNat bs)

def bufferReadUInt16LE := bufferReadAt 2 2 fun bs => leNat bs

def bufferReadUInt32BE := bufferReadAt 4 4 fun bs => bswap 4 (leNat bs)

def bufferReadUInt32LE := bufferReadAt 4 4 fun bs => leNat bs

def bufferReadInt32BE := bufferReadAt 4 4 fun bs => toSigned 4 (bswap 4 (leNat bs))

def bufferReadInt32LE := bufferReadAt 4 4 fun bs => toSigned 4 (leNat bs)

/-- The body the writers share. The value is what `luaL_checknumber` makes of it, `none`
where it raises. A number that does not fit its type is cut to the low bytes. -/
def bufferWriteAt (extbound size : ℕ) (swap : ℕ → ℕ) (ms : MemSlice) (value : Option Double)
    (index : ℤ) : Accessor Unit := do
  let offset ← MonadExcept.ofExcept (bufferGetoffset ms 3 index extbound)
  match value with
  | none => throw (.argerror 2 "number expected")
  | some d =>
    Accessor.store ms.mb (szAdd ms.slice offset) (leBytes size (swap (toSizeT d.truncate)))

def bufferWriteUInt8 := bufferWriteAt 0 1 id

def bufferWriteInt8 := bufferWriteAt 0 1 id

def bufferWriteUInt16BE := bufferWriteAt 2 2 (bswap 2)

def bufferWriteUInt16LE := bufferWriteAt 2 2 id

def bufferWriteUInt32BE := bufferWriteAt 4 4 (bswap 4)

def bufferWriteUInt32LE := bufferWriteAt 4 4 id

def bufferWriteInt32BE := bufferWriteAt 4 4 (bswap 4)

def bufferWriteInt32LE := bufferWriteAt 4 4 id

/-- The digits of `n` to the base 16, at most `k` of them, the first one first. -/
def hexDigits : ℕ → ℕ → List ℕ
  | 0, _ => []
  | k + 1, n => if n < 16 then [n] else hexDigits k (n / 16) ++ [n % 16]

def hexDigit (upper : Bool) (d : ℕ) : UInt8 :=
  UInt8.ofNat (if d < 10 then 0x30 + d else (if upper then 0x41 else 0x61) + (d - 10))

/-- What `snprintf` prints of a `size_t` for `%zx` or `%zX`. -/
def hexText (upper : Bool) (n : ℕ) : List UInt8 := (hexDigits 16 n).map (hexDigit upper)

/-- `buffer_write_hex_lower` and its twin. The value is what `luaL_checkinteger` makes of
it; it passes through an `int`. -/
def bufferWriteHex (upper : Bool) (ms : MemSlice) (value : Option ℤ) (index : ℤ) : Accessor ℕ :=
  match value with
  | none => throw (.argerror 2 "number expected")
  | some z => do
    let tmp := hexText upper (toSizeT (toInt (toSizeT z)))
    let offset ← MonadExcept.ofExcept (bufferGetoffset ms 3 index tmp.length)
    Accessor.store ms.mb (szAdd ms.slice offset) tmp
    return tmp.length

def bufferWriteHexLower := bufferWriteHex false

def bufferWriteHexUpper := bufferWriteHex true

/-- `buffer__newindex` with a number (see `bufferNewindex_number`). -/
def bufferNewindexNumber (ms : MemSlice) (i n : ℤ) : Accessor Unit :=
  let index := toSizeT i
  if index < 1 ∨ index - 1 > ms.untilLen then throw (.argerror 2 "Index out of bounds")
  else if toSizeT n > 255 then throw (.argerror 3 "0 < Value < 255")
  else Accessor.store ms.mb (ms.slice + (index - 1)) [UInt8.ofNat (toSizeT n)]

inductive IntReader
  | uint8 | int8 | uint16BE | uint16LE | uint32BE | uint32LE | int32BE | int32LE
  deriving DecidableEq, Repr

def IntReader.call : IntReader → MemSlice → ℤ → Accessor ℤ
  | .uint8 => bufferIndex
  | .int8 => bufferReadInt8
  | .uint16BE => bufferReadUInt16BE
  | .uint16LE => bufferReadUInt16LE
  | .uint32BE => bufferReadUInt32BE
  | .uint32LE => bufferReadUInt32LE
  | .int32BE => bufferReadInt32BE
  | .int32LE => bufferReadInt32LE

def IntReader.read (r : IntReader) (h : Heap) (ms : MemSlice) (index : ℤ) : Except Fault ℤ :=
  ((r.call ms index).ends h).map Prod.fst

inductive IntWriter
  | uint8 | int8 | uint16BE | uint16LE | uint32BE | uint32LE | int32BE | int32LE
  deriving DecidableEq, Repr

def IntWriter.call : IntWriter → MemSlice → Option Double → ℤ → Accessor Unit
  | .uint8 => bufferWriteUInt8
  | .int8 => bufferWriteInt8
  | .uint16BE => bufferWriteUInt16BE
  | .uint16LE => bufferWriteUInt16LE
  | .uint32BE => bufferWriteUInt32BE
  | .uint32LE => bufferWriteUInt32LE
  | .int32BE => bufferWriteInt32BE
  | .int32LE => bufferWriteInt32LE

def IntWriter.write (w : IntWriter) (h : Heap) (ms : MemSlice) (value : Option Double)
    (index : ℤ) : Except Fault Heap :=
  ((w.call ms value index).ends h).map Prod.snd

def IntReader.width : IntReader → ℕ
  | .uint8 | .int8 => 1
  | .uint16BE | .uint16LE => 2
  | .uint32BE | .uint32LE | .int32BE | .int32LE => 4

def IntWriter.width : IntWriter → ℕ
  | .uint8 | .int8 => 1
  | .uint16BE | .uint16LE => 2
  | .uint32BE | .uint32LE | .int32BE | .int32LE => 4

/-- What an accessor hands to the check for its extent. -/
def IntReader.extbound (r : IntReader) : ℕ := if r.width = 1 then 0 else r.width

def IntWriter.extbound (w : IntWriter) : ℕ := if w.width = 1 then 0 else w.width

/-- The calls of the accessors; `assign` is `buf[index] = n`. -/
inductive Access
  | read (r : IntReader) (index : ℤ)
  | write (w : IntWriter) (value : Option Double) (index : ℤ)
  | writeHex (upper : Bool) (value : Option ℤ) (index : ℤ)
  | assign (index n : ℤ)
  deriving DecidableEq

namespace Access

def call (ms : MemSlice) : Access → Accessor Unit
  | .read r index => do let _ ← r.call ms index
  | .write w value index => w.call ms value index
  | .writeHex upper value index => do let _ ← bufferWriteHex upper ms value index
  | .assign index n => bufferNewindexNumber ms index n

def index : Access → ℤ
  | .read _ index | .write _ _ index | .writeHex _ _ index | .assign index _ => index

def width : Access → ℕ
  | .read r _ => r.width
  | .write w _ _ => w.width
  | .writeHex upper value _ =>
    value.elim 0 fun z => (hexText upper (toSizeT (toInt (toSizeT z)))).length
  | .assign _ _ => 1

def extbound : Access → ℕ
  | .read r _ => r.extbound
  | .write w _ _ => w.extbound
  | .assign _ _ => 0
  | a => a.width

/-- The call is refused for its value, whatever the index. -/
def BadValue : Access → Prop
  | .read _ _ => False
  | .write _ value _ => value = none
  | .writeHex _ value _ => value = none
  | .assign _ n => 255 < toSizeT n

end Access

/-- `lhttp_parser_execute`: the range it passes on to `http_parser_execute`. -/
def lhttpParserExecute (ms : MemSlice) (offset length : ℤ) : Except Fault (ℕ × ℕ) :=
  let offset := toSizeT (toInt (toSizeT offset))
  let length := toSizeT (toInt (toSizeT length))
  if ¬ offset < ms.untilLen then .error (.argerror 3 "Offset is out of bounds")
  else if ¬ szAdd offset length ≤ ms.untilLen then
    .error (.argerror 4 "Length extends beyond end of chunk")
  else .ok (offset, length)

def InSlice (ms : MemSlice) (t : Store) : Prop :=
  t.mb = ms.mb ∧ ms.slice ≤ t.off ∧ t.off + t.len ≤ ms.slice + ms.untilLen

/-- Every load and every store of the call is inside the Buffer, and its index and width are; or
it is an argument error, and no memory was touched. -/
def Bounded (h : Heap) (ms : MemSlice) (a : Access) : Prop :=
  match a.call ms ⟨h, []⟩ with
  | .ok _ m => 1 ≤ a.index ∧ a.index - 1 + a.width ≤ ms.untilLen ∧ ∀ t ∈ m.touched, InSlice ms t
  | .error e m => (∃ arg msg, e = .argerror arg msg) ∧ m.touched = [] ∧ m.heap = h

/-- The range passed on lies in the Buffer, if one is. -/
def ExecuteBounded (ms : MemSlice) (offset length : ℤ) : Prop :=
  (∃ arg msg, lhttpParserExecute ms offset length = .error (.argerror arg msg)) ∨
    ∃ off n, lhttpParserExecute ms offset length = .ok (off, n) ∧ off + n ≤ ms.untilLen

/-- Indices for which the check of an access of `width` bytes is right. The check of the
accesses of one byte lets one byte behind the Buffer through; the others let any index
but 0 and some small negative ones through if the Buffer is shorter than the access. -/
def GoodIndex (extbound width len : ℕ) (index : ℤ) : Prop :=
  if extbound = 0 then index ≠ len + 1
  else width ≤ len ∨ index = 0 ∨ (index < 0 ∧ (len : ℤ) + 1 < width + index)

/-- The range of `lua_Integer`. -/
def IsInteger (z : ℤ) : Prop := -2 ^ 63 ≤ z ∧ z < 2 ^ 63

theorem toSizeT_cases {z : ℤ} (hz : IsInteger z) :
    (0 ≤ z ∧ (toSizeT z : ℤ) = z) ∨ (z < 0 ∧ (toSizeT z : ℤ) = z + 2 ^ 64) := by
  obtain ⟨hlow, hhigh⟩ := hz
  unfold toSizeT
  omega

theorem szSub_of_lt {a b : ℕ} (h : a < b) (hb : b < 2 ^ 64) : szSub a b = 2 ^ 64 - (b - a) := by
  unfold szSub
  omega

/-- The extents the accessors are instantiated with. -/
def IsExtent (extbound width : ℕ) : Prop :=
  (extbound = 0 ∧ width = 1) ∨ (extbound = width ∧ 0 < width ∧ width ≤ 16)

instance (extbound width : ℕ) : Decidable (IsExtent extbound width) :=
  inferInstanceAs (Decidable (_ ∨ _))

theorem goodIndex_iff {extbound width len : ℕ} {index : ℤ} (hext : IsExtent extbound width)
    (hlen : len < 2 ^ 63 - 1) (hidx : IsInteger index) :
    GoodIndex extbound width len index ↔
      (1 ≤ toSizeT index → toSizeT index - 1 ≤ szSub len extbound →
        1 ≤ index ∧ index - 1 + width ≤ len) := by
  have hcast := toSizeT_cases hidx
  obtain ⟨hlow, hhigh⟩ := hidx
  unfold GoodIndex
  rcases hext with ⟨rfl, rfl⟩ | ⟨rfl, hpos, hle⟩
  · rw [if_pos rfl, szSub_of_le (Nat.zero_le _) (by omega), Nat.sub_zero]
    omega
  · rw [if_neg (by omega)]
    rcases Nat.lt_or_ge len extbound with hshort | hlong
    · rw [szSub_of_lt hshort (by omega)]
      omega
    · rw [szSub_of_le hlong (by omega)]
      omega

theorem bufferGetoffset_cases (ms : MemSlice) (arg : ℕ) (index : ℤ) (extbound : ℕ) :
    (∃ msg, bufferGetoffset ms arg index extbound = .error (.argerror arg msg) ∧
      ¬ (1 ≤ toSizeT index ∧ toSizeT index - 1 ≤ szSub ms.untilLen extbound)) ∨
    (bufferGetoffset ms arg index extbound = .ok (toSizeT index - 1) ∧
      1 ≤ toSizeT index ∧ toSizeT index - 1 ≤ szSub ms.untilLen extbound) := by
  unfold bufferGetoffset
  split
  · exact .inl ⟨_, rfl, by omega⟩
  · exact .inr ⟨rfl, by omega, by omega⟩

section Calls

variable {h : Heap} {ms : MemSlice} {a : Access} {m : Traced}

theorem bufferReadAt_eq (extbound size : ℕ) (value : List UInt8 → ℤ) (ms : MemSlice) (index : ℤ)
    (m : Traced) : bufferReadAt extbound size value ms index m =
      match bufferGetoffset ms 2 index extbound with
      | .error e => .error e m
      | .ok offset => .ok (value (m.heap.load ms.mb (szAdd ms.slice offset) size))
          ⟨m.heap, m.touched ++ [⟨ms.mb, szAdd ms.slice offset, size⟩]⟩ := by
  unfold bufferReadAt
  cases bufferGetoffset ms 2 index extbound with
  | error e => rfl
  | ok offset => rfl

theorem bufferWriteAt_eq (extbound size : ℕ) (swap : ℕ → ℕ) (ms : MemSlice) (d : Double)
    (index : ℤ) (m : Traced) : bufferWriteAt extbound size swap ms (some d) index m =
      match bufferGetoffset ms 3 index extbound with
      | .error e => .error e m
      | .ok offset => .ok ()
          ⟨m.heap.store ms.mb (szAdd ms.slice offset) (leBytes size (swap (toSizeT d.truncate))),
            m.touched ++ [⟨ms.mb, szAdd ms.slice offset, size⟩]⟩ := by
  unfold bufferWriteAt
  cases bufferGetoffset ms 3 index extbound with
  | error e => rfl
  | ok offset =>
    change EStateM.Result.ok () _ = EStateM.Result.ok () _
    rw [leBytes_length]

theorem bufferWriteHex_eq (upper : Bool) (ms : MemSlice) (z index : ℤ) (m : Traced) :
    bufferWriteHex upper ms (some z) index m =
      match bufferGetoffset ms 3 index (hexText upper (toSizeT (toInt (toSizeT z)))).length with
      | .error e => .error e m
      | .ok offset => .ok (hexText upper (toSizeT (toInt (toSizeT z)))).length
          ⟨m.heap.store ms.mb (szAdd ms.slice offset) (hexText upper (toSizeT (toInt (toSizeT z)))),
            m.touched ++ [⟨ms.mb, szAdd ms.slice offset,
              (hexText upper (toSizeT (toInt (toSizeT z)))).length⟩]⟩ := by
  simp only [bufferWriteHex]
  cases bufferGetoffset ms 3 index (hexText upper (toSizeT (toInt (toSizeT z)))).length with
  | error e => rfl
  | ok offset => rfl

theorem IntReader.call_eq (r : IntReader) :
    ∃ value, r.call = bufferReadAt r.extbound r.width value := by
  cases r
  all_goals exact ⟨_, rfl⟩

theorem IntReader.isExtent (r : IntReader) : IsExtent r.extbound r.width := by
  cases r
  all_goals decide

theorem IntWriter.call_eq (w : IntWriter) :
    ∃ swap, w.call = bufferWriteAt w.extbound w.width swap := by
  cases w
  all_goals exact ⟨_, rfl⟩

theorem IntWriter.isExtent (w : IntWriter) : IsExtent w.extbound w.width := by
  cases w
  all_goals decide

theorem hexDigits_length (k n : ℕ) :
    0 < (hexDigits (k + 1) n).length ∧ (hexDigits (k + 1) n).length ≤ k + 1 := by
  induction k generalizing n with
  | zero =>
    rw [hexDigits]
    split
    · exact ⟨Nat.one_pos, Nat.le_refl 1⟩
    · exact ⟨by simp, by simp [hexDigits]⟩
  | succ k ih =>
    rw [hexDigits]
    split
    · exact ⟨Nat.one_pos, by simp⟩
    · have hrest := ih (n / 16)
      rw [List.length_append, List.length_singleton]
      omega

theorem hexText_isExtent (upper : Bool) (n : ℕ) :
    IsExtent (hexText upper n).length (hexText upper n).length := by
  have hlen := hexDigits_length 15 n
  rw [hexText, List.length_map]
  exact .inr ⟨rfl, hlen.1, hlen.2⟩

theorem Access.isExtent (hgood : ¬ a.BadValue) : IsExtent a.extbound a.width := by
  cases a with
  | read r index => exact r.isExtent
  | write w value index => exact w.isExtent
  | writeHex upper value index =>
    cases value with
    | none => exact absurd rfl hgood
    | some z => exact hexText_isExtent _ _
  | assign index n => exact .inl ⟨rfl, rfl⟩

/-- A call with a value that will do is decided by its index check, and then touches the bytes it
is about. -/
theorem Access.call_eq (h : Heap) (hlen : ms.slice + ms.untilLen < 2 ^ 63) (hgood : ¬ a.BadValue) :
    ∃ (arg : ℕ) (k : ℕ → Heap), a.call ms ⟨h, []⟩ =
      match bufferGetoffset ms arg a.index a.extbound with
      | .error e => .error e ⟨h, []⟩
      | .ok offset => .ok () ⟨k offset, [⟨ms.mb, szAdd ms.slice offset, a.width⟩]⟩ := by
  have hbind : ∀ {α : Type} (c : Accessor α) (m : Traced),
      (do let _ ← c : Accessor Unit) m = match c m with
        | .ok _ m => .ok () m
        | .error e m => .error e m := by
    intro α c m
    change EStateM.bind c (fun _ => pure ()) m = _
    rw [EStateM.bind]
    cases c m with
    | ok a m => rfl
    | error e m => rfl
  cases a with
  | read r index =>
    obtain ⟨value, hcall⟩ := r.call_eq
    refine ⟨2, fun _ => h, ?_⟩
    rw [Access.call, hbind, hcall, bufferReadAt_eq, Access.index, Access.extbound, Access.width]
    cases bufferGetoffset ms 2 index r.extbound with
    | error e => rfl
    | ok offset => rfl
  | write w value index =>
    cases value with
    | none => exact absurd rfl hgood
    | some d =>
      obtain ⟨swap, hcall⟩ := w.call_eq
      refine ⟨3, fun offset => h.store ms.mb (szAdd ms.slice offset)
        (leBytes w.width (swap (toSizeT d.truncate))), ?_⟩
      rw [Access.call, hcall, bufferWriteAt_eq]
      rfl
  | writeHex upper value index =>
    cases value with
    | none => exact absurd rfl hgood
    | some z =>
      refine ⟨3, fun offset => h.store ms.mb (szAdd ms.slice offset)
        (hexText upper (toSizeT (toInt (toSizeT z)))), ?_⟩
      have hwidth : (Access.writeHex upper (some z) index).width =
        (hexText upper (toSizeT (toInt (toSizeT z)))).length := rfl
      have hext : (Access.writeHex upper (some z) index).extbound =
        (hexText upper (toSizeT (toInt (toSizeT z)))).length := rfl
      rw [Access.call, hbind, bufferWriteHex_eq, Access.index, hext, hwidth]
      cases bufferGetoffset ms 3 index (hexText upper (toSizeT (toInt (toSizeT z)))).length with
      | error e => rfl
      | ok offset => rfl
  | assign index n =>
    refine ⟨2, fun offset => h.store ms.mb (ms.slice + offset) [UInt8.ofNat (toSizeT n)], ?_⟩
    have hroom : szSub ms.untilLen 0 = ms.untilLen := by
      rw [szSub_of_le (Nat.zero_le _) (by omega), Nat.sub_zero]
    simp only [Access.call, bufferNewindexNumber, Access.index, Access.extbound, bufferGetoffset,
      hroom]
    by_cases hidx : toSizeT index < 1 ∨ toSizeT index - 1 > ms.untilLen
    · rw [if_pos hidx, if_pos hidx]
      rfl
    · have hsmall : ¬ toSizeT n > 255 := hgood
      rw [if_neg hidx, if_neg hidx, if_neg hsmall]
      dsimp only
      rw [szAdd_of_lt (by omega)]
      rfl

/-- A value that will not do raises an error before any memory is touched. -/
theorem Access.call_badValue (h : Heap) (ms : MemSlice) (hbad : a.BadValue) :
    ∃ arg msg, a.call ms ⟨h, []⟩ = .error (.argerror arg msg) ⟨h, []⟩ := by
  cases a with
  | read r index => exact absurd hbad id
  | write w value index =>
    have hnone : value = none := hbad
    obtain ⟨swap, hcall⟩ := w.call_eq
    subst hnone
    rw [Access.call, hcall, bufferWriteAt]
    rcases bufferGetoffset_cases ms 3 index w.extbound with ⟨msg, he, -⟩ | ⟨he, -⟩
    · rw [he]
      exact ⟨3, msg, rfl⟩
    · rw [he]
      exact ⟨2, "number expected", rfl⟩
  | writeHex upper value index =>
    have hnone : value = none := hbad
    subst hnone
    exact ⟨2, "number expected", rfl⟩
  | assign index n =>
    have hbig : toSizeT n > 255 := hbad
    rw [Access.call, bufferNewindexNumber]
    split
    · exact ⟨_, _, rfl⟩
    · exact ⟨_, _, rfl⟩

/-- What passes the check is inside with all it touches, or not even its index is. -/
theorem inSlice_of_index (hlen : ms.slice + ms.untilLen < 2 ^ 63) {index : ℤ} {width : ℕ}
    (hidx : 1 ≤ index) (hin : index - 1 + width ≤ ms.untilLen) :
    InSlice ms ⟨ms.mb, szAdd ms.slice (toSizeT index - 1), width⟩ := by
  have hcast : (toSizeT index : ℤ) = index := by
    unfold toSizeT
    omega
  have hoff : szAdd ms.slice (toSizeT index - 1) = ms.slice + (toSizeT index - 1) :=
    szAdd_of_lt (by omega)
  refine ⟨rfl, ?_, ?_⟩
  · rw [hoff]
    exact Nat.le_add_right _ _
  · change szAdd ms.slice (toSizeT index - 1) + width ≤ _
    rw [hoff]
    omega

/-- An accessor keeps to the Buffer exactly where its value is refused or its index good. -/
theorem bounded_iff (h : Heap) (hlen : ms.slice + ms.untilLen < 2 ^ 63 - 1)
    (hidx : IsInteger a.index) :
    Bounded h ms a ↔ a.BadValue ∨ GoodIndex a.extbound a.width ms.untilLen a.index := by
  by_cases hbad : a.BadValue
  · refine iff_of_true ?_ (.inl hbad)
    obtain ⟨arg, msg, hcall⟩ := Access.call_badValue h ms hbad
    rw [Bounded, hcall]
    exact ⟨⟨arg, msg, rfl⟩, rfl, rfl⟩
  · have hroom : ms.slice + ms.untilLen < 2 ^ 63 := by omega
    obtain ⟨arg, k, hcall⟩ := Access.call_eq h hroom hbad
    rw [or_iff_right hbad, goodIndex_iff (Access.isExtent hbad) (by omega) hidx, Bounded, hcall]
    rcases bufferGetoffset_cases ms arg a.index a.extbound with ⟨msg, he, hout⟩ | ⟨he, hlow, hhigh⟩
    · rw [he]
      exact iff_of_true ⟨⟨arg, msg, rfl⟩, rfl, rfl⟩ fun h₁ h₂ => absurd ⟨h₁, h₂⟩ hout
    · rw [he]
      constructor
      · rintro ⟨hfirst, hin, -⟩ _ _
        exact ⟨hfirst, hin⟩
      · intro hgood
        obtain ⟨hfirst, hin⟩ := hgood hlow hhigh
        refine ⟨hfirst, hin, ?_⟩
        intro t ht
        rw [List.mem_singleton.mp ht]
        exact inSlice_of_index (by omega) hfirst hin

/-- The number branch of the assignment is the one of `buffer__newindex`. -/
theorem bufferNewindex_number {s : State} {o : ObjId} (ho : s.slice? o = some ms) (i n : ℤ) :
    bufferNewindex s o i (.number n) =
      ((bufferNewindexNumber ms i n).ends s.heap).map fun r => { s with heap := r.2 } := by
  simp only [bufferNewindex, ho, bufferNewindexNumber, Accessor.ends]
  split
  · rfl
  · split
    · rfl
    · rfl

end Calls

/-- The range of `int`. -/
def IsInt (z : ℤ) : Prop := -2 ^ 31 ≤ z ∧ z < 2 ^ 31

theorem toInt_toSizeT {z : ℤ} (hz : IsInt z) : toInt (toSizeT z) = z := by
  obtain ⟨hlow, hhigh⟩ := hz
  unfold toInt toSizeT
  split <;> omega

/-- The length is not negative, or the range is rejected for other reasons: the sum of an
offset and a negative length wraps to something small when the offset is the larger. -/
def GoodRange (len : ℕ) (offset length : ℤ) : Prop :=
  0 ≤ length ∨ offset < 0 ∨ (len : ℤ) ≤ offset ∨ offset + length < 0

theorem executeBounded_iff {ms : MemSlice} (hlen : ms.untilLen < 2 ^ 63 - 1) {offset length : ℤ}
    (ho : IsInt offset) (hl : IsInt length) :
    ExecuteBounded ms offset length ↔ GoodRange ms.untilLen offset length := by
  have hoff :=
    toSizeT_cases (show IsInteger offset from ⟨by have := ho.1; omega, by have := ho.2; omega⟩)
  have hn :=
    toSizeT_cases (show IsInteger length from ⟨by have := hl.1; omega, by have := hl.2; omega⟩)
  have hsum : szAdd (toSizeT offset) (toSizeT length) =
      (toSizeT offset + toSizeT length) % 2 ^ 64 := by
    unfold szAdd
    rfl
  obtain ⟨ho1, ho2⟩ := ho
  obtain ⟨hl1, hl2⟩ := hl
  unfold ExecuteBounded lhttpParserExecute GoodRange
  rw [toInt_toSizeT ⟨ho1, ho2⟩, toInt_toSizeT ⟨hl1, hl2⟩]
  simp only [hsum]
  split
  · refine iff_of_true (.inl ⟨_, _, rfl⟩) ?_
    omega
  · split
    · refine iff_of_true (.inl ⟨_, _, rfl⟩) ?_
      omega
    · constructor
      · rintro (⟨_, _, h⟩ | ⟨off, n, h, hle⟩)
        · cases h
        · simp only [Except.ok.injEq, Prod.mk.injEq] at h
          omega
      · intro h
        refine .inr ⟨_, _, rfl, ?_⟩
        omega

/-- Exactly which calls of the accessors and of `parser:execute` keep to the Buffer. -/
theorem accesses_bounded_iff (h : Heap) (ms : MemSlice)
    (hlen : ms.slice + ms.untilLen < 2 ^ 63 - 1) :
    (∀ a : Access, IsInteger a.index → (Bounded h ms a ↔
      a.BadValue ∨ GoodIndex a.extbound a.width ms.untilLen a.index)) ∧
    ∀ offset length, IsInt offset → IsInt length →
      (ExecuteBounded ms offset length ↔ GoodRange ms.untilLen offset length) :=
  ⟨fun _ hidx => bounded_iff h hlen hidx,
    fun _ _ hoff hn => executeBounded_iff (by omega) hoff hn⟩

/-- The byte behind a Buffer of four bytes is read, and the parser is given a range of
nearly 2^64 bytes. -/
theorem behindEnd_touched :
    ¬ Bounded (Heap.boot fun _ _ => 0) ⟨0, 0, 4⟩ (.read .uint8 5) ∧
      ¬ ExecuteBounded ⟨0, 0, 4⟩ 3 (-2) := by
  constructor
  · rw [bounded_iff _ (by decide) ⟨by decide, by decide⟩]
    simp [Access.BadValue, GoodIndex, Access.extbound, IntReader.extbound, IntReader.width,
      Access.index]
  · have hbad := @executeBounded_iff ⟨0, 0, 4⟩ (by decide) 3 (-2) ⟨by decide, by decide⟩
      ⟨by decide, by decide⟩
    rw [hbad]
    simp [GoodRange]

theorem accesses_bounded_iff_four :
    Bounded (Heap.boot fun _ _ => 0) ⟨0, 2, 4⟩ (.write .uint16LE (some (.ofInt 7)) 3) ∧
      ExecuteBounded ⟨0, 2, 4⟩ 1 3 := by
  obtain ⟨haccess, hexecute⟩ := accesses_bounded_iff (Heap.boot fun _ _ => 0) ⟨0, 2, 4⟩
    (by decide)
  refine ⟨(haccess _ ⟨by decide, by decide⟩).mpr (.inr ?_),
    (hexecute 1 3 ⟨by decide, by decide⟩ ⟨by decide, by decide⟩).mpr (.inl (by decide))⟩
  exact .inl (by decide)

end Lev.Buffer
