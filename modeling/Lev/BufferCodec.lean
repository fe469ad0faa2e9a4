import Lev.BufferAccess

/-! The integers in a Buffer: what a writer stores a reader gets back, the two byte orders
mirror each other, and the bytes around stay. -/
namespace Lev.Buffer
open CInt Endian Slab Memory

/-- The reader of the same type and byte order. -/
def IntWriter.reader : IntWriter → IntReader
  | .uint8 => .uint8
  | .int8 => .int8
  | .uint16BE => .uint16BE
  | .uint16LE => .uint16LE
  | .uint32BE => .uint32BE
  | .uint32LE => .uint32LE
  | .int32BE => .int32BE
  | .int32LE => .int32LE

def IntWriter.swapped : IntWriter → IntWriter
  | .uint8 => .uint8
  | .int8 => .int8
  | .uint16BE => .uint16LE
  | .uint16LE => .uint16BE
  | .uint32BE => .uint32LE
  | .uint32LE => .uint32BE
  | .int32BE => .int32LE
  | .int32LE => .int32BE

/-- The unsigned type of the same width and byte order. -/
def IntReader.unsigned : IntReader → IntReader
  | .uint8 | .int8 => .uint8
  | .uint16BE => .uint16BE
  | .uint16LE => .uint16LE
  | .uint32BE | .int32BE => .uint32BE
  | .uint32LE | .int32LE => .uint32LE

def IntReader.signed : IntReader → Bool
  | .int8 | .int32BE | .int32LE => true
  | _ => false

def IntReader.bigEndian : IntReader → Bool
  | .uint16BE | .uint32BE | .int32BE => true
  | _ => false

def IntReader.InRange (r : IntReader) (z : ℤ) : Prop :=
  if r.signed then -2 ^ (8 * r.width - 1) ≤ z ∧ z < 2 ^ (8 * r.width - 1)
  else 0 ≤ z ∧ z < 2 ^ (8 * r.width)

/-- The number its type makes of the bits of `n`. -/
def IntReader.ofBits (r : IntReader) (n : ℕ) : ℤ := if r.signed then toSigned r.width n else n

/-- The value with its bytes in the opposite order. -/
def IntReader.byteSwapped (r : IntReader) (z : ℤ) : ℤ := r.ofBits (bswap r.width (toSizeT z))

/-- Where the bytes of an index begin in the Buffer's block. -/
def address (ms : MemSlice) (index : ℤ) : ℕ := szAdd ms.slice (toSizeT index - 1)

/-- Nothing but the `width` bytes from `off` on in block `b` differs. -/
structure OnlyAt (b : BlockId) (off width : ℕ) (h h' : Heap) : Prop where
  bytes : ∀ x i, (x = b → i < off ∨ off + width ≤ i) → h'.bytes x i = h.bytes x i
  alloc : SameAlloc h h'

theorem bswap_bswap (k n : ℕ) : bswap k (bswap k n) = n % 256 ^ k := by
  rw [bswap, leBytes_bswap, beBytes, List.reverse_reverse, leNat_leBytes]

theorem bswap_leBytes (k n : ℕ) : bswap k (leNat (leBytes k n)) = bswap k n := by
  rw [bswap, leNat_leBytes, leBytes_mod, bswap]

theorem leNat_bswap (k n : ℕ) : leNat (leBytes k (bswap k n)) = bswap k n := by
  rw [leNat_leBytes, Nat.mod_eq_of_lt (bswap_lt k n)]

theorem leBytes_reverse_bswap (k n : ℕ) : leBytes k n = (leBytes k (bswap k n)).reverse := by
  rw [leBytes_bswap, beBytes, List.reverse_reverse]

theorem IntReader.width_unsigned (r : IntReader) : r.unsigned.width = r.width := by
  cases r
  all_goals rfl

theorem IntWriter.width_reader (w : IntWriter) : w.reader.width = w.width := by
  cases w
  all_goals rfl

theorem IntWriter.width_swapped (w : IntWriter) : w.swapped.width = w.width := by
  cases w
  all_goals rfl

def IntReader.value (r : IntReader) (bs : List UInt8) : ℤ :=
  r.ofBits (if r.bigEndian then bswap r.width (leNat bs) else leNat bs)

def IntWriter.bytes (w : IntWriter) (z : ℤ) : List UInt8 :=
  leBytes w.width (if w.reader.bigEndian then bswap w.width (toSizeT z) else toSizeT z)

@[simp] theorem IntWriter.bytes_length (w : IntWriter) (z : ℤ) : (w.bytes z).length = w.width :=
  leBytes_length _ _

theorem IntReader.call_value (r : IntReader) :
    r.call = bufferReadAt r.extbound r.width r.value := by
  cases r
  all_goals rfl

theorem IntReader.read_value (r : IntReader) (h : Heap) (ms : MemSlice) (index : ℤ) :
    r.read h ms index = (bufferGetoffset ms 2 index r.extbound).map fun offset =>
      r.value (h.load ms.mb (szAdd ms.slice offset) r.width) := by
  rw [IntReader.read, Accessor.ends, r.call_value, bufferReadAt_eq]
  cases bufferGetoffset ms 2 index r.extbound with
  | error e => rfl
  | ok offset => rfl

theorem IntWriter.call_bytes (w : IntWriter) : w.call = bufferWriteAt w.extbound w.width
    fun n => if w.reader.bigEndian then bswap w.width n else n := by
  cases w
  all_goals rfl

theorem IntWriter.write_bytes (w : IntWriter) (h : Heap) (ms : MemSlice) (d : Double) (index : ℤ) :
    w.write h ms (some d) index = (bufferGetoffset ms 3 index w.extbound).bind fun offset =>
      .ok (h.store ms.mb (szAdd ms.slice offset) (w.bytes d.truncate)) := by
  rw [IntWriter.write, Accessor.ends, w.call_bytes, bufferWriteAt_eq]
  cases bufferGetoffset ms 3 index w.extbound with
  | error e => rfl
  | ok offset => rfl

section inside
variable {ms : MemSlice} {index : ℤ} (hlen : ms.untilLen < 2 ^ 64) (hidx : 1 ≤ index)
include hlen hidx

theorem bufferGetoffset_inside {extbound width : ℕ} (arg : ℕ) (hext : IsExtent extbound width)
    (hin : index - 1 + width ≤ ms.untilLen) :
    bufferGetoffset ms arg index extbound = .ok (toSizeT index - 1) := by
  have hcast : (toSizeT index : ℤ) = index := by
    unfold toSizeT
    rcases hext with ⟨-, rfl⟩ | ⟨-, hpos, -⟩
    all_goals omega
  have hle : extbound ≤ ms.untilLen := by
    rcases hext with ⟨rfl, -⟩ | ⟨rfl, -, -⟩
    · exact Nat.zero_le _
    · omega
  have hbound : toSizeT index - 1 ≤ ms.untilLen - extbound := by
    rcases hext with ⟨rfl, rfl⟩ | ⟨rfl, -, -⟩
    all_goals omega
  rw [bufferGetoffset, szSub_of_le hle hlen, if_neg]
  omega

theorem IntReader.read_inside (r : IntReader) (h : Heap)
    (hin : index - 1 + r.width ≤ ms.untilLen) :
    r.read h ms index = .ok (r.value (h.load ms.mb (address ms index) r.width)) := by
  rw [r.read_value, bufferGetoffset_inside hlen hidx 2 r.isExtent hin]
  rfl

theorem IntWriter.write_inside (w : IntWriter) (h : Heap) {d : Double} {z : ℤ}
    (hd : d.toInt? = some z) (hin : index - 1 + w.width ≤ ms.untilLen) :
    w.write h ms (some d) index = .ok (h.store ms.mb (address ms index) (w.bytes z)) := by
  rw [w.write_bytes, bufferGetoffset_inside hlen hidx 3 w.isExtent hin,
    Double.truncate_of_toInt? hd]
  rfl

end inside

theorem IntReader.ofBits_toSizeT (r : IntReader) {z : ℤ} (hz : r.InRange z) :
    r.ofBits (toSizeT z % 256 ^ r.width) = z := by
  rw [InRange] at hz
  unfold ofBits toSigned toSizeT
  cases r
  all_goals
    simp only [signed, width, if_true, if_false, Bool.false_eq_true] at hz ⊢
    omega

theorem IntReader.ofBits_unsigned (r : IntReader) {n : ℕ} (hn : n < 256 ^ r.width) :
    r.unsigned.ofBits n = r.ofBits n % 2 ^ (8 * r.width) := by
  unfold ofBits toSigned
  cases r
  all_goals
    simp only [unsigned, signed, width, if_true, if_false, Bool.false_eq_true] at hn ⊢
    omega

theorem IntWriter.value_bytes (w : IntWriter) {z : ℤ} (hz : w.reader.InRange z) :
    w.reader.value (w.bytes z) = z := by
  have hbits : (if w.reader.bigEndian then bswap w.reader.width (leNat (w.bytes z))
      else leNat (w.bytes z)) = toSizeT z % 256 ^ w.reader.width := by
    rw [w.width_reader, bytes]
    split
    · rw [leNat_bswap, bswap_bswap]
    · rw [leNat_leBytes]
  rw [IntReader.value, hbits, w.reader.ofBits_toSizeT hz]

theorem IntWriter.value_bytes_swapped (w : IntWriter) (z : ℤ) :
    w.swapped.reader.value (w.bytes z) = w.reader.byteSwapped z := by
  cases w with
  | uint8 | int8 => rfl
  | uint16BE | uint32BE | int32BE =>
    exact congrArg (IntReader.ofBits _) (leNat_bswap _ (toSizeT z))
  | uint16LE | uint32LE | int32LE =>
    exact congrArg (IntReader.ofBits _) (bswap_leBytes _ (toSizeT z))

/-- The writers of the two byte orders store each other's bytes in reverse. -/
theorem IntWriter.bytes_swapped (w : IntWriter) (z : ℤ) :
    w.swapped.bytes z = (w.bytes z).reverse := by
  cases w with
  | uint8 | int8 => rfl
  | uint16BE | uint32BE | int32BE =>
    exact leBytes_reverse_bswap _ (toSizeT z)
  | uint16LE | uint32LE | int32LE => exact leBytes_bswap _ (toSizeT z)

theorem IntReader.read_unsigned (r : IntReader) (h : Heap) (ms : MemSlice) (index : ℤ) :
    r.unsigned.read h ms index = (r.read h ms index).map (· % 2 ^ (8 * r.width)) := by
  have hvalue : ∀ bs : List UInt8, bs.length = r.width →
      r.unsigned.value bs = r.value bs % 2 ^ (8 * r.width) := by
    intro bs hbs
    have horder : r.unsigned.bigEndian = r.bigEndian := by
      cases r
      all_goals rfl
    rw [value, value, horder, r.width_unsigned]
    refine r.ofBits_unsigned ?_
    split
    · exact bswap_lt _ _
    · exact hbs ▸ leNat_lt bs
  have hext : r.unsigned.extbound = r.extbound := by rw [extbound, extbound, r.width_unsigned]
  rw [r.unsigned.read_value, r.read_value, hext]
  cases bufferGetoffset ms 2 index r.extbound with
  | error e => rfl
  | ok offset =>
    refine congrArg Except.ok ?_
    rw [r.width_unsigned]
    exact hvalue _ (Heap.load_length ..)

theorem onlyAt_store (h : Heap) (b : BlockId) (off : ℕ) (data : List UInt8) :
    OnlyAt b off data.length h (h.store b off data) where
  bytes x i hout := by
    refine if_neg ?_
    rintro ⟨rfl, hlow, hhigh⟩
    have := hout rfl
    omega
  alloc := sameAlloc_store _ _ _ _

/-- What an integer's writer stores, its reader gets back, and nothing else changes; the two
byte orders mirror each other. Signed and unsigned readers differ by a multiple of 2^w. -/
theorem accessors_inverse :
    (∀ (w : IntWriter) (h : Heap) (ms : MemSlice) (d : Double) (z index : ℤ),
      ms.untilLen < 2 ^ 64 → d.toInt? = some z → w.reader.InRange z → 1 ≤ index →
      index - 1 + w.width ≤ ms.untilLen →
      ∃ h' hswapped, w.write h ms (some d) index = .ok h' ∧
        w.swapped.write h ms (some d) index = .ok hswapped ∧
        w.reader.read h' ms index = .ok z ∧
        w.swapped.reader.read h' ms index = .ok (w.reader.byteSwapped z) ∧
        hswapped.load ms.mb (address ms index) w.width =
          (h'.load ms.mb (address ms index) w.width).reverse ∧
        OnlyAt ms.mb (address ms index) w.width h h') ∧
    ∀ (r : IntReader) (h : Heap) (ms : MemSlice) (index : ℤ),
      r.unsigned.read h ms index = (r.read h ms index).map (· % 2 ^ (8 * r.width)) := by
  refine ⟨?_, IntReader.read_unsigned⟩
  intro w h ms d z index hlen hd hz hidx hin
  have hin' : index - 1 + w.swapped.width ≤ ms.untilLen := by rwa [w.width_swapped]
  have hload : ∀ w' : IntWriter, w'.width = w.width →
      (h.store ms.mb (address ms index) (w'.bytes z)).load ms.mb (address ms index) w.width =
        w'.bytes z := by
    intro w' hw
    have hself := Heap.load_store_self h ms.mb (address ms index) (w'.bytes z)
    rwa [w'.bytes_length, hw] at hself
  refine ⟨_, _, w.write_inside hlen hidx h hd hin, w.swapped.write_inside hlen hidx h hd hin',
    ?_, ?_, ?_, ?_⟩
  · rw [w.reader.read_inside hlen hidx _ (by rwa [w.width_reader]), w.width_reader, hload w rfl,
      w.value_bytes hz]
  · have hwidth : w.swapped.reader.width = w.width := by
      rw [w.swapped.width_reader, w.width_swapped]
    rw [w.swapped.reader.read_inside hlen hidx _ (by rwa [hwidth]), hwidth, hload w rfl,
      w.value_bytes_swapped]
  · rw [hload w rfl, hload w.swapped w.width_swapped, w.bytes_swapped]
  · have honly := onlyAt_store h ms.mb (address ms index) (w.bytes z)
    rwa [w.bytes_length] at honly

theorem accessors_inverse_negative :
    ∃ h' hswapped,
      IntWriter.int32BE.write (Heap.boot fun _ _ => 0) ⟨0, 0, 8⟩ (some (.ofInt (-2))) 3 = .ok h' ∧
      IntWriter.int32LE.write (Heap.boot fun _ _ => 0) ⟨0, 0, 8⟩ (some (.ofInt (-2))) 3 =
        .ok hswapped ∧
      IntReader.int32BE.read h' ⟨0, 0, 8⟩ 3 = .ok (-2) ∧
      IntReader.int32LE.read h' ⟨0, 0, 8⟩ 3 = .ok (IntReader.int32BE.byteSwapped (-2)) ∧
      hswapped.load 0 (address ⟨0, 0, 8⟩ 3) 4 = (h'.load 0 (address ⟨0, 0, 8⟩ 3) 4).reverse ∧
      OnlyAt 0 (address ⟨0, 0, 8⟩ 3) 4 (Heap.boot fun _ _ => 0) h' :=
  accessors_inverse.1 .int32BE _ ⟨0, 0, 8⟩ (.ofInt (-2)) (-2) 3 (by decide) (by decide +kernel)
    ⟨by decide, by decide⟩ (by decide) (by decide)

end Lev.Buffer
