import Lev.MPackEncoding
import Lev.MPackReads

/-! Numbers in MessagePack: which integer an encoding stands for, that the encoder takes the
shortest one, and that the decoder makes the number of it again. -/
namespace Lev.MPack
open CInt Endian Slab Memory Lua

def Scalar.integer? (p : List UInt8) : Scalar → Option ℤ
  | .uint8 | .uint16 | .uint32 | .uint64 => some (beNat p)
  | .int8 => some (signed 1 (beNat p))
  | .int16 => some (signed 2 (beNat p))
  | .int32 => some (signed 4 (beNat p))
  | .int64 => some (signed 8 (beNat p))
  | .float | .double => none

/-- The integer that an integer encoding of the format stands for. -/
def Wire.integer? : Wire → Option ℤ
  | .single t =>
    if t < 0x80 then some t.toNat else if 0xdf < t then some (t.toNat - 256) else none
  | .scalar s p => if p.length = s.size then s.integer? p else none
  | .raw _ _ => none
  | .array _ _ _ => none
  | .map _ _ _ => none

theorem signed_twos {k : ℕ} {z : ℤ} (hk : 0 < k) (hlow : -2 ^ (8 * k - 1) ≤ z) (hz : z < 0) :
    signed k (twos k z) = z := by
  have hpow : (2 : ℤ) ^ (8 * k) = 2 * 2 ^ (8 * k - 1) := by
    rw [← pow_succ']
    congr 1
    omega
  have hpos : (0 : ℤ) < 2 ^ (8 * k - 1) := by positivity
  have hmod : z % 2 ^ (8 * k) = z + 2 ^ (8 * k) := by
    rw [← Int.add_emod_right, Int.emod_eq_of_lt] <;> omega
  have htwos : (twos k z : ℤ) = z + 2 ^ (8 * k) := by
    rw [twos, hmod]
    omega
  have hlarge : ¬ twos k z < 2 ^ (8 * k - 1) := by
    intro hlt
    have hlt' : (twos k z : ℤ) < 2 ^ (8 * k - 1) := by exact_mod_cast hlt
    omega
  rw [signed, if_neg hlarge, htwos]
  omega

theorem twos_lt (k : ℕ) (z : ℤ) : twos k z < 256 ^ k := by
  have hpow : (256 : ℤ) ^ k = 2 ^ (8 * k) := by rw [pow_mul]; rfl
  have hp : (0 : ℤ) < 2 ^ (8 * k) := by positivity
  have hmod := Int.emod_lt_of_pos z hp
  have hnn := Int.emod_nonneg z (ne_of_gt hp)
  unfold twos
  zify
  rw [Int.toNat_of_nonneg hnn, hpow]
  exact hmod

theorem integer?_unsigned {s : Scalar} {z : ℤ} (hz : 0 ≤ z) (hlt : z < 256 ^ s.size)
    (hs : s = .uint8 ∨ s = .uint16 ∨ s = .uint32 ∨ s = .uint64) :
    (Wire.scalar s (beBytes s.size z.toNat)).integer? = some z := by
  have hvalue : beNat (beBytes s.size z.toNat) = z.toNat := by
    rw [beNat_beBytes]
    refine Nat.mod_eq_of_lt ?_
    zify
    rw [Int.toNat_of_nonneg hz]
    exact hlt
  have hnat : ((z.toNat : ℕ) : ℤ) = z := Int.toNat_of_nonneg hz
  rw [Wire.integer?, if_pos (beBytes_length _ _)]
  rcases hs with rfl | rfl | rfl | rfl
  all_goals rw [Scalar.integer?, hvalue, hnat]

theorem integer?_negative {s : Scalar} {z : ℤ} (hz : z < 0) (hlow : -2 ^ (8 * s.size - 1) ≤ z)
    (hs : s = .int8 ∨ s = .int16 ∨ s = .int32 ∨ s = .int64) :
    (Wire.scalar s (beBytes s.size (twos s.size z))).integer? = some z := by
  have hvalue : signed s.size (beNat (beBytes s.size (twos s.size z))) = z := by
    rw [beNat_beBytes, Nat.mod_eq_of_lt (twos_lt _ _), signed_twos s.size_pos hlow hz]
  rw [Wire.integer?, if_pos (beBytes_length _ _)]
  rcases hs with rfl | rfl | rfl | rfl
  all_goals exact congrArg some hvalue

theorem integerWire_integer? {z : ℤ} (hlow : -2 ^ 63 ≤ z) (hhigh : z < 2 ^ 64) :
    (integerWire z).integer? = some z := by
  unfold integerWire
  split
  · next hpos =>
    split
    · have hbyte : (UInt8.ofNat z.toNat).toNat = z.toNat := by
        simp
        omega
      have hlt : UInt8.ofNat z.toNat < 0x80 := by
        rw [UInt8.lt_iff_toNat_lt, hbyte]
        simp
        omega
      rw [Wire.integer?, if_pos hlt, hbyte, Int.toNat_of_nonneg hpos]
    · split
      · exact integer?_unsigned (s := .uint8) hpos (by simpa [Scalar.size]) (by decide)
      · split
        · exact integer?_unsigned (s := .uint16) hpos (by simpa [Scalar.size]) (by decide)
        · split
          · exact integer?_unsigned (s := .uint32) hpos (by simpa [Scalar.size]) (by decide)
          · exact integer?_unsigned (s := .uint64) hpos (by simpa [Scalar.size]) (by decide)
  · next hneg =>
    replace hneg : z < 0 := by omega
    split
    · have htwos : (twos 1 z : ℤ) = z + 256 := by
        unfold twos
        omega
      have hbyte : (UInt8.ofNat (twos 1 z)).toNat = twos 1 z := by
        simp
        omega
      have hlarge : ¬ UInt8.ofNat (twos 1 z) < 0x80 := by
        rw [UInt8.lt_iff_toNat_lt, hbyte]
        simp
        omega
      have htag : 0xdf < UInt8.ofNat (twos 1 z) := by
        rw [UInt8.lt_iff_toNat_lt, hbyte]
        simp
        omega
      rw [Wire.integer?, if_neg hlarge, if_pos htag, hbyte, htwos, add_sub_cancel_right]
    · split
      · exact integer?_negative (s := .int8) hneg (by simpa [Scalar.size]) (by decide)
      · split
        · exact integer?_negative (s := .int16) hneg (by simpa [Scalar.size]) (by decide)
        · split
          · exact integer?_negative (s := .int32) hneg (by simpa [Scalar.size]) (by decide)
          · exact integer?_negative (s := .int64) hneg (by simpa [Scalar.size]) (by decide)

theorem reads_of_integer? {c : Source} {k : Bool} {ofs : ℕ} {x : Wire} {z : ℤ} {w : LuaValue}
    (hx : x.integer? = some z) (hr : x.Reads c k ofs w) : w = .number (.ofInt z) := by
  cases x with
  | single t =>
    rw [Wire.Reads] at hr
    rw [Wire.integer?] at hx
    rw [hr, singleValue]
    split at hx
    · next hlow =>
      cases hx
      rw [if_pos hlow]
    · next hlow =>
      split at hx
      · next hhigh =>
        cases hx
        rw [if_neg hlow, if_pos hhigh]
        congr 2
        omega
      · cases hx
  | scalar s p =>
    rw [Wire.Reads] at hr
    rw [Wire.integer?] at hx
    split at hx
    · next hlen =>
      have hbe := bswap_leNat p
      rw [hlen] at hbe
      have hone : p.length = 1 → leNat p = beNat p := by
        intro h
        obtain ⟨b, rfl⟩ := List.length_eq_one_iff.mp h
        rfl
      cases s with
      | float | double => cases hx
      | uint8 | int8 =>
        cases hx
        rw [← hone hlen]
        exact hr
      | uint16 | int16 | uint32 | int32 =>
        cases hx
        rw [← hbe]
        exact hr
      | uint64 | int64 =>
        cases hx
        have hswap : ntohll (leNat p) = beNat p := (ntohll_eq_bswap _).trans hbe
        rw [← hswap]
        exact hr
    · cases hx
  | raw w s => cases hx
  | array w n items => cases hx
  | map w n items => cases hx

theorem integerWire_reads {c : Source} {k : Bool} {ofs : ℕ} {z : ℤ} {w : LuaValue}
    (hlow : -2 ^ 63 ≤ z) (hhigh : z < 2 ^ 63) (hr : (integerWire z).Reads c k ofs w) :
    w = .number (.ofInt z) :=
  reads_of_integer? (integerWire_integer? hlow (by omega)) hr

theorem numberWire_reads {c : Source} {k : Bool} {ofs : ℕ} {n : Double} {w : LuaValue}
    (hn : n.isnan = false) (hin : InInt64 (.number n)) (hr : (numberWire n).Reads c k ofs w) :
    ∃ n', w = .number n' ∧ n'.eq n = true := by
  rw [numberWire, hn] at hr
  simp only [Bool.false_eq_true, if_false] at hr
  cases hz : n.toInt? with
  | none =>
    simp only [hz, Wire.Reads, Scalar.value, beBytes, List.reverse_reverse, leNat_leBytes] at hr
    have hlt : n.bits < 256 ^ 8 := by
      have := n.lt
      omega
    refine ⟨_, hr, ?_⟩
    rw [Nat.mod_eq_of_lt hlt, Double.ofBits_of_bits]
    exact Double.eq_refl hn
  | some z =>
    rw [hz] at hr
    obtain ⟨hlow, hhigh⟩ := hin z hz
    exact ⟨_, integerWire_reads hlow hhigh hr, Double.ofInt_toInt? hz⟩

theorem integerWire_legal (z : ℤ) : (integerWire z).Legal := by
  have hpos : ∀ k < 128, tagOf (UInt8.ofNat k) = .single := by decide +kernel
  have hneg : ∀ k < 256, 224 ≤ k → tagOf (UInt8.ofNat k) = .single := by decide +kernel
  unfold integerWire
  split
  · split
    · exact hpos _ (by omega)
    · split
      · exact beBytes_length 1 _
      · split
        · exact beBytes_length 2 _
        · split
          · exact beBytes_length 4 _
          · exact beBytes_length 8 _
  · split
    · have hrange : 224 ≤ twos 1 z ∧ twos 1 z < 256 := by
        unfold twos
        omega
      exact hneg _ hrange.2 hrange.1
    · split
      · exact beBytes_length 1 _
      · split
        · exact beBytes_length 2 _
        · split
          · exact beBytes_length 4 _
          · exact beBytes_length 8 _

theorem numberWire_legal (n : Double) : (numberWire n).Legal := by
  unfold numberWire
  split
  · exact rfl
  · split
    · exact integerWire_legal _
    · exact beBytes_length 8 _

theorem integerWire_len (z : ℤ) : (integerWire z).len =
    if -32 ≤ z ∧ z < 128 then 1
    else if -128 ≤ z ∧ z < 256 then 2
    else if -32768 ≤ z ∧ z < 65536 then 3
    else if -2147483648 ≤ z ∧ z < 4294967296 then 5 else 9 := by
  unfold integerWire
  simp only [Wire.len]
  split_ifs
  all_goals first
    | omega
    | simp [Wire.bytes]

theorem integerWire_shortest {x : Wire} {z : ℤ} (hx : x.integer? = some z) :
    (integerWire z).len ≤ x.len := by
  have hlen := integerWire_len z
  cases x with
  | single t =>
    have ht := t.toNat_lt
    rw [Wire.integer?] at hx
    have hone : (Wire.single t).len = 1 := rfl
    split at hx
    · next hlow =>
      rw [UInt8.lt_iff_toNat_lt] at hlow
      simp at hlow
      cases hx
      rw [hone, hlen, if_pos (by omega)]
    · split at hx
      · next hhigh =>
        rw [UInt8.lt_iff_toNat_lt] at hhigh
        simp at hhigh
        cases hx
        rw [hone, hlen, if_pos (by omega)]
      · cases hx
  | scalar s p =>
    rw [Wire.integer?] at hx
    split at hx
    · next hp =>
      have hlt := beNat_lt p
      have hxlen : (Wire.scalar s p).len = s.size + 1 := by rw [← hp]; rfl
      rw [hp] at hlt
      rw [hxlen, hlen]
      cases s
      all_goals
        simp only [Scalar.integer?, Option.some.injEq, reduceCtorEq, signed] at hx
      all_goals
        simp only [Scalar.size] at hlt ⊢
        split_ifs at hx ⊢
        all_goals omega
    · cases hx
  | raw w s => cases hx
  | array w n items => cases hx
  | map w n items => cases hx

/-- Wherever the bytes stand, the decoder reads them whole, as a number equal to `n`. -/
def ReadsBack (bs : List UInt8) (n : Double) : Prop :=
  ∀ (grants : Grants) (fuel : ℕ) (m : Machine) (r : List UInt8), m.err = false →
    m.data.drop m.ofs = bs ++ r → ∃ m' n',
      mprbufUnpackAnytype grants (fuel + 1) m = .ok m' ∧ m'.err = false ∧
      m'.ofs = m.ofs + bs.length ∧ m'.stack = .number n' :: m.stack ∧ n'.eq n = true

/-- What the encoder writes for the double `n` of value `z`: the shortest integer encoding, or
the double where there is none, and the decoder gets the number back. -/
structure ExactInteger (n : Double) (z : ℤ) : Prop where
  emits : ∀ b : Mpwbuf, b.err = 0 → (numberBytes n).length ≤ b.left →
    mpwbufPackNumber n b = ((numberBytes n).length, { b with data := b.data ++ numberBytes n })
  shortest : (∃ x : Wire, x.integer? = some z) → ∃ x : Wire, x.bytes = numberBytes n ∧
    x.integer? = some z ∧ ∀ y : Wire, y.integer? = some z → x.len ≤ y.len
  double : (¬ ∃ x : Wire, x.integer? = some z) →
    numberBytes n = (Wire.scalar .double (beBytes 8 n.bits)).bytes
  reads : ReadsBack (numberBytes n) n

theorem packNumber_emits (n : Double) (b : Mpwbuf) (herr : b.err = 0)
    (hroom : (numberBytes n).length ≤ b.left) :
    mpwbufPackNumber n b =
      ((numberBytes n).length, { b with data := b.data ++ numberBytes n }) := by
  rw [mpwbufPackNumber, mpwbufAppend, if_neg (not_not.mpr herr), if_neg (Nat.not_lt.mpr hroom)]

theorem unpack_integerWire {z : ℤ} (hlow : -2 ^ 63 ≤ z) (hhigh : z < 2 ^ 63) (grants : Grants)
    (fuel : ℕ) {m : Machine} {r : List UInt8} (herr : m.err = false)
    (hm : m.data.drop m.ofs = (integerWire z).bytes ++ r) :
    ∃ m', mprbufUnpackAnytype grants (fuel + 1) m = .ok m' ∧ m'.err = false ∧
      m'.ofs = m.ofs + (integerWire z).len ∧ m'.stack = .number (.ofInt z) :: m.stack := by
  have hdepth : (integerWire z).depth = 0 := by
    unfold integerWire
    split_ifs
    all_goals rfl
  have htables : (integerWire z).tables = [] := by
    unfold integerWire
    split_ifs
    all_goals rfl
  obtain ⟨m', v, hrun, htook⟩ := unpackAnytype_takes (integerWire_legal z)
    (show (integerWire z).depth < fuel + 1 by omega) m r herr hm
    (by rw [htables]; trivial)
  have hv := integerWire_reads hlow hhigh htook.reads
  exact ⟨m', hrun, htook.err, htook.ofs, hv ▸ htook.stack⟩

theorem numberBytes_integer {n : Double} {z : ℤ} (hn : n.toInt? = some z) :
    numberBytes n = (integerWire (castLongLong z)).bytes := by
  have hexp : n.exponent ≠ 2047 := by
    intro h
    rw [Double.toInt?, Double.natAbs?, if_pos h] at hn
    cases hn
  have hinf : n.isinf = false := by simp [Double.isinf, hexp]
  have hnan : n.isnan = false := by simp [Double.isnan, hexp]
  have hlt : castLongLong z < 2 ^ 63 := by
    rw [castLongLong]
    split
    · next h => exact h.2
    · decide
  rw [numberBytes, hinf, hnan, hn]
  exact integerBytes_eq _ hlt

/-- An integer that does not fit is read as the least `long long`. -/
theorem ExactInteger.inRange {n : Double} {z : ℤ} (h : ExactInteger n z)
    (hn : n.toInt? = some z) : -2 ^ 63 ≤ z ∧ z < 2 ^ 63 := by
  by_contra hout
  have hbytes := numberBytes_integer hn
  rw [castLongLong, if_neg hout] at hbytes
  let m : Machine :=
    ⟨⟨none, 0, numberBytes n, 0, false, false⟩, Heap.boot fun _ _ => 0, [], [], [], []⟩
  have hm : m.data.drop m.ofs = numberBytes n ++ [] := (List.append_nil _).symm
  obtain ⟨m', n', hrun, -, -, hstack, heq⟩ := h.reads luajitGrants 0 m [] rfl hm
  rw [hbytes] at hm
  obtain ⟨m'', hrun', -, -, hstack'⟩ :=
    unpack_integerWire (by decide) (by decide) luajitGrants 0 rfl hm
  rw [hrun, Except.ok.injEq] at hrun'
  subst hrun'
  rw [hstack, List.cons.injEq, LuaValue.number.injEq] at hstack'
  have hleast : (Double.ofInt (-2 ^ 63)).toInt? = some (-2 ^ 63) := by decide +kernel
  have hint := Double.toInt?_congr heq
  rw [hstack'.1, hn, hleast, Option.some.injEq] at hint
  omega

theorem exactInteger_of_inRange {n : Double} {z : ℤ} (hn : n.toInt? = some z) (hlow : -2 ^ 63 ≤ z)
    (hhigh : z < 2 ^ 63) : ExactInteger n z := by
  have hbytes := numberBytes_integer hn
  rw [castLongLong, if_pos ⟨hlow, hhigh⟩] at hbytes
  have hself := integerWire_integer? hlow (show z < 2 ^ 64 by omega)
  refine ⟨packNumber_emits n, ?_, fun hnone => absurd ⟨_, hself⟩ hnone, ?_⟩
  · exact fun _ => ⟨_, hbytes.symm, hself, fun y => integerWire_shortest⟩
  · intro grants fuel m r herr hm
    rw [hbytes] at hm ⊢
    obtain ⟨m', hrun, herr', hofs, hstack⟩ := unpack_integerWire hlow hhigh grants fuel herr hm
    exact ⟨m', _, hrun, herr', hofs, hstack, Double.ofInt_toInt? hn⟩

/-- The integers for which the encoder and the decoder are exact. -/
theorem integer_exact_iff {n : Double} {z : ℤ} (hn : n.toInt? = some z) :
    ExactInteger n z ↔ -2 ^ 63 ≤ z ∧ z < 2 ^ 63 :=
  ⟨fun h => h.inRange hn, fun h => exactInteger_of_inRange hn h.1 h.2⟩

/-- 2^63 is read as -2^63. -/
theorem beyondInt64_inexact : ¬ ExactInteger (.ofBits 0x43E0000000000000) (2 ^ 63) :=
  fun h => absurd (h.inRange (by decide +kernel)).2 (by decide)

theorem integer_exact_iff_least : ExactInteger (.ofInt (-2 ^ 63)) (-2 ^ 63) :=
  (integer_exact_iff (by decide +kernel)).mpr ⟨by decide, by decide⟩

end Lev.MPack
