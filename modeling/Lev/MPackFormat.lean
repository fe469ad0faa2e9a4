import Lev.Double

/-! The MessagePack format of lev_mpack.c as trees: what a byte sequence that the
decoder accepts says. A count may stand in the tag byte or in 2 or 4 bytes behind
it, and need not take the shortest form. -/
namespace Lev.MPack
open Endian

inductive Scalar
  | float | double | uint8 | uint16 | uint32 | uint64 | int8 | int16 | int32 | int64
  deriving DecidableEq, Repr

namespace Scalar

def size : Scalar → ℕ
  | .float => 4
  | .double => 8
  | .uint8 => 1
  | .uint16 => 2
  | .uint32 => 4
  | .uint64 => 8
  | .int8 => 1
  | .int16 => 2
  | .int32 => 4
  | .int64 => 8

def tag : Scalar → UInt8
  | .float => 0xca
  | .double => 0xcb
  | .uint8 => 0xcc
  | .uint16 => 0xcd
  | .uint32 => 0xce
  | .uint64 => 0xcf
  | .int8 => 0xd0
  | .int16 => 0xd1
  | .int32 => 0xd2
  | .int64 => 0xd3

theorem size_pos (s : Scalar) : 0 < s.size := by
  cases s <;> decide

end Scalar

/-- Where a count stands: in the tag byte, or in 2 or 4 bytes of its own. -/
inductive Width
  | fix | two | four
  deriving DecidableEq, Repr

namespace Width

def size : Width → ℕ
  | .fix => 0
  | .two => 2
  | .four => 4

/-- The tag byte and the count, for the tags `base`, `tag16` and `tag32` of a type. -/
def header (base tag16 tag32 : UInt8) (n : ℕ) : Width → List UInt8
  | .fix => [base + UInt8.ofNat n]
  | .two => tag16 :: beBytes 2 n
  | .four => tag32 :: beBytes 4 n

def fits (inTag n : ℕ) : Width → Prop
  | .fix => n < inTag
  | .two => n < 2 ^ 16
  | .four => n < 2 ^ 32

instance (inTag n : ℕ) : (w : Width) → Decidable (w.fits inTag n)
  | .fix => inferInstanceAs (Decidable (n < inTag))
  | .two => inferInstanceAs (Decidable (n < 2 ^ 16))
  | .four => inferInstanceAs (Decidable (n < 2 ^ 32))

theorem header_length (base tag16 tag32 : UInt8) (n : ℕ) (w : Width) :
    (w.header base tag16 tag32 n).length = w.size + 1 := by
  cases w <;> simp [header, size]

theorem fits_lt {inTag n : ℕ} {w : Width} (hin : inTag ≤ 2 ^ 32) (h : w.fits inTag n) :
    n < 2 ^ 32 := by
  cases w <;> simp only [fits] at h <;> omega

end Width

/-- `single` holds a tag byte that is a value by itself, `n` is the count written in a
header, and a map lists keys and values in turn. -/
inductive Wire
  | single (t : UInt8)
  | scalar (s : Scalar) (payload : List UInt8)
  | raw (w : Width) (s : List UInt8)
  | array (w : Width) (n : ℕ) (items : List Wire)
  | map (w : Width) (n : ℕ) (items : List Wire)

namespace Wire

theorem induct {P : Wire → Prop} (single : ∀ t, P (.single t))
    (scalar : ∀ s payload, P (.scalar s payload)) (raw : ∀ w s, P (.raw w s))
    (array : ∀ w n items, (∀ x ∈ items, P x) → P (.array w n items))
    (map : ∀ w n items, (∀ x ∈ items, P x) → P (.map w n items)) (x : Wire) : P x := by
  refine @Wire.rec P (fun items => ∀ x ∈ items, P x) single scalar raw
    (fun w n items ih => array w n items ih) (fun w n items ih => map w n items ih) ?_ ?_ x
  · simp
  · intro y items hy hitems x hx
    rcases List.mem_cons.mp hx with rfl | hx
    · exact hy
    · exact hitems x hx

def arrayHeader (w : Width) (n : ℕ) : List UInt8 := w.header 0x90 0xdc 0xdd n

def mapHeader (w : Width) (n : ℕ) : List UInt8 := w.header 0x80 0xde 0xdf n

def rawHeader (w : Width) (n : ℕ) : List UInt8 := w.header 0xa0 0xda 0xdb n

mutual

def bytes : Wire → List UInt8
  | .single t => [t]
  | .scalar s payload => s.tag :: payload
  | .raw w s => rawHeader w s.length ++ s
  | .array w n items => arrayHeader w n ++ bytesList items
  | .map w n items => mapHeader w n ++ bytesList items

def bytesList : List Wire → List UInt8
  | [] => []
  | x :: items => x.bytes ++ bytesList items

end

mutual

def depth : Wire → ℕ
  | .array _ _ items => depthList items + 1
  | .map _ _ items => depthList items + 1
  | .single _ => 0
  | .scalar _ _ => 0
  | .raw _ _ => 0

def depthList : List Wire → ℕ
  | [] => 0
  | x :: items => max x.depth (depthList items)

end

def len (x : Wire) : ℕ := x.bytes.length

theorem bytesList_eq (items : List Wire) : bytesList items = items.flatMap bytes := by
  induction items with
  | nil => rfl
  | cons x items ih => rw [bytesList, ih, List.flatMap_cons]

theorem bytesList_append (xs ys : List Wire) :
    bytesList (xs ++ ys) = bytesList xs ++ bytesList ys := by
  simp [bytesList_eq]

theorem len_pos (x : Wire) : 0 < x.len := by
  cases x <;> simp [len, bytes, arrayHeader, mapHeader, rawHeader, Width.header_length]

theorem length_le_bytesList (items : List Wire) : items.length ≤ (bytesList items).length := by
  induction items with
  | nil => exact le_rfl
  | cons x items ih =>
    have hx := x.len_pos
    rw [bytesList, List.length_append, List.length_cons]
    simp only [Wire.len] at hx
    omega

theorem depth_le_depthList {x : Wire} {items : List Wire} (h : x ∈ items) :
    x.depth ≤ depthList items := by
  induction items with
  | nil => cases h
  | cons y items ih =>
    rw [depthList]
    rcases List.mem_cons.mp h with rfl | h
    · exact Nat.le_max_left _ _
    · exact (ih h).trans (Nat.le_max_right _ _)

theorem depth_le_len (x : Wire) : x.depth ≤ x.len := by
  have hlist : ∀ items : List Wire, (∀ y ∈ items, y.depth ≤ y.len) →
      depthList items ≤ (bytesList items).length := by
    intro items ih
    induction items with
    | nil => simp [depthList]
    | cons y items hitems =>
      have hy := ih y List.mem_cons_self
      have hrest := hitems fun z hz => ih z (List.mem_cons_of_mem _ hz)
      simp only [depthList, bytesList, List.length_append]
      simp only [len] at hy
      omega
  induction x using Wire.induct with
  | single t => exact Nat.zero_le _
  | scalar s payload => exact Nat.zero_le _
  | raw w s => exact Nat.zero_le _
  | array w n items ih =>
    have h := hlist items ih
    simp only [depth, len, bytes, arrayHeader, List.length_append, Width.header_length]
    omega
  | map w n items ih =>
    have h := hlist items ih
    simp only [depth, len, bytes, mapHeader, List.length_append, Width.header_length]
    omega

end Wire

end Lev.MPack
