import Lev.Endian

/-! IEEE 754 binary64 numbers as bit patterns: the tests and conversions of integers,
single precision numbers and doubles into one another that C performs. -/
namespace Lev

structure Double where
  bits : ℕ
  lt : bits < 2 ^ 64

namespace Double

instance : DecidableEq Double := fun a b =>
  decidable_of_iff (a.bits = b.bits) (by cases a; cases b; simp)

theorem ext {a b : Double} (h : a.bits = b.bits) : a = b := by
  cases a; cases b; simpa using h

def ofBits (n : ℕ) : Double := ⟨n % 2 ^ 64, Nat.mod_lt _ (by decide)⟩

@[simp] theorem ofBits_bits (n : ℕ) : (ofBits n).bits = n % 2 ^ 64 := rfl

theorem ofBits_of_bits (d : Double) : ofBits d.bits = d := ext (Nat.mod_eq_of_lt d.lt)

def negative (d : Double) : Bool := decide (2 ^ 63 ≤ d.bits)

def exponent (d : Double) : ℕ := d.bits / 2 ^ 52 % 2 ^ 11

def fraction (d : Double) : ℕ := d.bits % 2 ^ 52

def isnan (d : Double) : Bool := d.exponent == 2047 && d.fraction != 0

def isinf (d : Double) : Bool := d.exponent == 2047 && d.fraction == 0

def isZero (d : Double) : Bool := d.exponent == 0 && d.fraction == 0

/-- The comparison `==` of Lua and C. -/
def eq (a b : Double) : Bool := !a.isnan && !b.isnan && (a == b || (a.isZero && b.isZero))

/-- The absolute value, if it is an integer: the significand times a power of two. -/
def natAbs? (d : Double) : Option ℕ :=
  if d.exponent = 2047 then none
  else if d.exponent = 0 then (if d.fraction = 0 then some 0 else none)
  else if 1075 ≤ d.exponent then some ((2 ^ 52 + d.fraction) * 2 ^ (d.exponent - 1075))
  else if (2 ^ 52 + d.fraction) % 2 ^ (1075 - d.exponent) = 0 then
    some ((2 ^ 52 + d.fraction) / 2 ^ (1075 - d.exponent))
  else none

/-- The value, if it is an integer: `floor(d) == d` for finite `d`. -/
def toInt? (d : Double) : Option ℤ :=
  d.natAbs?.map fun (n : ℕ) => if d.negative then -(n : ℤ) else (n : ℤ)

/-- The integer part, as a cast to an integer type wide enough has it; 0 for NaN and the
infinities, where C leaves it open. -/
def truncate (d : Double) : ℤ :=
  let n : ℕ := if d.exponent = 2047 then 0
    else if 1075 ≤ d.exponent then (2 ^ 52 + d.fraction) * 2 ^ (d.exponent - 1075)
    else (2 ^ 52 + d.fraction) / 2 ^ (1075 - d.exponent)
  if d.negative then -(n : ℤ) else n

/-- The nearest multiple of 2^k to `n`, divided by 2^k; ties go to the even one. -/
def roundShift (n k : ℕ) : ℕ :=
  let q := n / 2 ^ k
  let r := n % 2 ^ k
  if 2 ^ k < 2 * r ∨ (2 * r = 2 ^ k ∧ q % 2 = 1) then q + 1 else q

/-- The bits of the double nearest to `n`. A significand rounded up to 2^53 carries
into the exponent. -/
def natBits (n : ℕ) : ℕ :=
  if n = 0 then 0
  else
    let l := Nat.log2 n
    let q := if l ≤ 52 then n * 2 ^ (52 - l) else roundShift n (l - 52)
    (l + 1023) * 2 ^ 52 + (q - 2 ^ 52)

/-- `(double)z` for an integer type of at most 64 bits. -/
def ofInt (z : ℤ) : Double := ofBits (natBits z.natAbs + if z < 0 then 2 ^ 63 else 0)

/-- `(double)f` for the single precision number of the given bits. -/
def ofFloatBits (f : ℕ) : Double :=
  let sign := if 2 ^ 31 ≤ f % 2 ^ 32 then 2 ^ 63 else 0
  let e := f / 2 ^ 23 % 2 ^ 8
  let m := f % 2 ^ 23
  ofBits (sign +
    if e = 255 then 2047 * 2 ^ 52 + (if m = 0 then 0 else 2 ^ 51 + m % 2 ^ 22 * 2 ^ 29)
    else if e = 0 then
      (if m = 0 then 0
      else (Nat.log2 m + 874) * 2 ^ 52 + (m * 2 ^ (52 - Nat.log2 m) - 2 ^ 52))
    else (e + 896) * 2 ^ 52 + m * 2 ^ 29)

theorem eq_iff {a b : Double} :
    a.eq b = true ↔ (a.isnan = false ∧ b.isnan = false) ∧
      (a = b ∨ (a.isZero = true ∧ b.isZero = true)) := by
  simp [eq]

theorem eq_refl {d : Double} (h : d.isnan = false) : d.eq d = true := by
  simp [eq, h]

theorem eq_symm {a b : Double} (h : a.eq b = true) : b.eq a = true := by
  rw [eq_iff] at h ⊢
  exact ⟨⟨h.1.2, h.1.1⟩, h.2.imp Eq.symm And.symm⟩

theorem eq_trans {a b c : Double} (h : a.eq b = true) (h' : b.eq c = true) : a.eq c = true := by
  rw [eq_iff] at h h' ⊢
  refine ⟨⟨h.1.1, h'.1.2⟩, ?_⟩
  rcases h.2 with rfl | hz
  · exact h'.2
  · rcases h'.2 with rfl | hz'
    · exact .inr hz
    · exact .inr ⟨hz.1, hz'.2⟩

theorem bits_eq (d : Double) :
    d.bits = (if d.negative then 2 ^ 63 else 0) + d.exponent * 2 ^ 52 + d.fraction := by
  have hlt := d.lt
  simp only [negative, exponent, fraction, decide_eq_true_eq]
  split <;> omega

theorem fraction_lt (d : Double) : d.fraction < 2 ^ 52 := Nat.mod_lt _ (by decide)

theorem log2_eq {n l : ℕ} (h : 2 ^ l ≤ n) (h' : n < 2 ^ (l + 1)) : Nat.log2 n = l := by
  have hn : n ≠ 0 := by
    have := Nat.two_pow_pos l
    omega
  exact (Nat.log2_eq_iff hn).mpr ⟨h, h'⟩

theorem natBits_shiftLeft {m k : ℕ} (hm : m < 2 ^ 52) :
    natBits ((2 ^ 52 + m) * 2 ^ k) = (k + 1075) * 2 ^ 52 + m := by
  have hk := Nat.two_pow_pos k
  have hlog : Nat.log2 ((2 ^ 52 + m) * 2 ^ k) = 52 + k := by
    apply log2_eq
    · rw [pow_add]
      exact Nat.mul_le_mul_right _ (Nat.le_add_right _ _)
    · rw [show 52 + k + 1 = 53 + k by omega, pow_add]
      exact Nat.mul_lt_mul_of_pos_right (by omega) hk
  have hne : (2 ^ 52 + m) * 2 ^ k ≠ 0 := by positivity
  rw [natBits, if_neg hne]
  simp only [hlog]
  rcases Nat.eq_zero_or_pos k with rfl | hpos
  · simp
  · rw [if_neg (by omega), show 52 + k - 52 = k by omega, roundShift, Nat.mul_div_cancel _ hk,
      Nat.mul_mod_left, if_neg (by omega)]
    omega

theorem natBits_shiftRight {m j n : ℕ} (hm : m < 2 ^ 52) (hj : j ≤ 52)
    (hn : n * 2 ^ j = 2 ^ 52 + m) : natBits n = (1075 - j) * 2 ^ 52 + m := by
  have hjp := Nat.two_pow_pos j
  have hlog : Nat.log2 n = 52 - j := by
    apply log2_eq
    · have h : 2 ^ (52 - j) * 2 ^ j ≤ n * 2 ^ j := by
        rw [← pow_add, Nat.sub_add_cancel hj, hn]
        exact Nat.le_add_right _ _
      exact Nat.le_of_mul_le_mul_right h hjp
    · have h : n * 2 ^ j < 2 ^ (52 - j + 1) * 2 ^ j := by
        rw [← pow_add, show 52 - j + 1 + j = 53 by omega, hn]
        omega
      exact Nat.lt_of_mul_lt_mul_right h
  have hne : n ≠ 0 := by
    rintro rfl
    omega
  rw [natBits, if_neg hne]
  simp only [hlog]
  rw [if_pos (by omega), show 52 - (52 - j) = j by omega, hn]
  omega

theorem natAbs?_eq_zero {d : Double} (h : d.natAbs? = some 0) : d.isZero = true := by
  unfold natAbs? at h
  split at h
  · cases h
  · split at h
    · rename_i he
      split at h
      · rename_i hf
        simp [isZero, he, hf]
      · cases h
    · exfalso
      split at h
      · simp only [Option.some.injEq, mul_eq_zero] at h
        have := Nat.two_pow_pos (d.exponent - 1075)
        omega
      · split at h
        · rename_i hdiv
          simp only [Option.some.injEq] at h
          have hmul := Nat.div_mul_cancel (Nat.dvd_of_mod_eq_zero hdiv)
          rw [h] at hmul
          omega
        · cases h

/-- The absolute value determines exponent and fraction of a nonzero integer. -/
theorem natBits_of_natAbs? {d : Double} {n : ℕ} (h : d.natAbs? = some n) :
    natBits n = d.exponent * 2 ^ 52 + d.fraction := by
  have hf := d.fraction_lt
  unfold natAbs? at h
  split at h
  · cases h
  · split at h
    · rename_i he
      split at h
      · rename_i hzero
        simp only [Option.some.injEq] at h
        rw [← h, he, hzero]
        rfl
      · cases h
    · split at h
      · rename_i hlarge
        simp only [Option.some.injEq] at h
        rw [← h, natBits_shiftLeft hf]
        omega
      · rename_i hsmall
        split at h
        · rename_i hdiv
          simp only [Option.some.injEq] at h
          have hmul := Nat.div_mul_cancel (Nat.dvd_of_mod_eq_zero hdiv)
          rw [h] at hmul
          have hj : 1075 - d.exponent ≤ 52 := by
            by_contra hj
            have hpow : 2 ^ 53 ≤ 2 ^ (1075 - d.exponent) :=
              Nat.pow_le_pow_right (by decide) (by omega)
            rcases Nat.eq_zero_or_pos n with rfl | hpos
            · omega
            · have := Nat.le_mul_of_pos_left (2 ^ (1075 - d.exponent)) hpos
              omega
          rw [natBits_shiftRight hf hj hmul]
          congr 2
          omega
        · cases h

/-- Converting an integral double to an integer and back gives an equal double. -/
theorem ofInt_toInt? {d : Double} {z : ℤ} (h : d.toInt? = some z) : (ofInt z).eq d = true := by
  unfold toInt? at h
  obtain ⟨n, hn, hz⟩ := Option.map_eq_some_iff.mp h
  have hbits := natBits_of_natAbs? hn
  have hexp : d.exponent ≠ 2047 := by
    intro he
    simp [natAbs?, he] at hn
  have hnan : d.isnan = false := by simp [isnan, hexp]
  rcases Nat.eq_zero_or_pos n with rfl | hpos
  · have hz0 : z = 0 := by
      rw [← hz]
      split <;> rfl
    have hzero : (ofInt z).isZero = true := by
      rw [hz0]
      decide
    have hnan' : (ofInt z).isnan = false := by
      rw [hz0]
      decide
    exact eq_iff.mpr ⟨⟨hnan', hnan⟩, .inr ⟨hzero, natAbs?_eq_zero hn⟩⟩
  · have habs : z.natAbs = n := by
      rw [← hz]
      split <;> simp
    have hneg : (z < 0) ↔ d.negative = true := by
      cases hsign : d.negative with
      | true =>
        simp only [hsign, if_true] at hz
        exact ⟨fun _ => rfl, fun _ => by omega⟩
      | false =>
        simp only [hsign, Bool.false_eq_true, if_false] at hz
        exact ⟨fun h => by omega, fun h => by cases h⟩
    have hd : ofInt z = d := by
      apply ext
      rw [ofInt, ofBits_bits, habs, hbits]
      conv_rhs => rw [bits_eq]
      have hlt := d.lt
      rw [bits_eq] at hlt
      simp only [hneg]
      split at hlt
      · simp_all
        omega
      · simp_all
    rw [hd]
    exact eq_refl hnan

theorem truncate_of_toInt? {d : Double} {z : ℤ} (h : d.toInt? = some z) : d.truncate = z := by
  obtain ⟨n, hn, rfl⟩ : ∃ n : ℕ, d.natAbs? = some n ∧
      (if d.negative then -(n : ℤ) else (n : ℤ)) = z := Option.map_eq_some_iff.mp h
  suffices hnat : (if d.exponent = 2047 then 0
      else if 1075 ≤ d.exponent then (2 ^ 52 + d.fraction) * 2 ^ (d.exponent - 1075)
      else (2 ^ 52 + d.fraction) / 2 ^ (1075 - d.exponent)) = n by
    unfold truncate
    rw [hnat]
  rw [natAbs?] at hn
  split at hn
  · cases hn
  · next hfinite =>
    rw [if_neg hfinite]
    split at hn
    · next hsmall =>
      split at hn
      · next hfrac =>
        cases hn
        rw [hfrac, if_neg (by omega)]
        exact Nat.div_eq_of_lt (Nat.pow_lt_pow_right (by decide) (by omega))
      · cases hn
    · split at hn
      · next hlarge =>
        rw [if_pos hlarge]
        exact Option.some.inj hn
      · next hlarge =>
        rw [if_neg hlarge]
        split at hn
        · exact Option.some.inj hn
        · cases hn

theorem toInt?_congr {a b : Double} (h : a.eq b = true) : a.toInt? = b.toInt? := by
  have hzero : ∀ d : Double, d.isZero = true → d.toInt? = some 0 := by
    intro d hd
    simp only [isZero, Bool.and_eq_true, beq_iff_eq] at hd
    simp [toInt?, natAbs?, hd.1, hd.2]
  rcases (eq_iff.mp h).2 with rfl | ⟨ha, hb⟩
  · rfl
  · rw [hzero a ha, hzero b hb]

theorem toInt?_ofNat {n : ℕ} (h : n < 2 ^ 53) : (ofInt n).toInt? = some (n : ℤ) := by
  rcases Nat.eq_zero_or_pos n with rfl | hpos
  · decide
  · have hne : n ≠ 0 := Nat.pos_iff_ne_zero.mp hpos
    obtain ⟨hlow, hhigh⟩ := (Nat.log2_eq_iff hne).mp rfl
    generalize Nat.log2 n = l at hlow hhigh
    have hl : l ≤ 52 := by
      by_contra hl
      have hpow : 2 ^ 53 ≤ 2 ^ l := Nat.pow_le_pow_right (by decide) (by omega)
      omega
    have hlog := log2_eq hlow hhigh
    have hq₁ : 2 ^ 52 ≤ n * 2 ^ (52 - l) := by
      calc 2 ^ 52 = 2 ^ l * 2 ^ (52 - l) := by rw [← pow_add, Nat.add_sub_cancel' hl]
        _ ≤ n * 2 ^ (52 - l) := Nat.mul_le_mul_right _ hlow
    have hq₂ : n * 2 ^ (52 - l) < 2 ^ 53 := by
      calc n * 2 ^ (52 - l) < 2 ^ (l + 1) * 2 ^ (52 - l) :=
            Nat.mul_lt_mul_of_pos_right hhigh (Nat.two_pow_pos _)
        _ = 2 ^ 53 := by rw [← pow_add, show l + 1 + (52 - l) = 53 by omega]
    have hbits : (ofInt n).bits = (l + 1023) * 2 ^ 52 + (n * 2 ^ (52 - l) - 2 ^ 52) := by
      have hnn : ¬ (n : ℤ) < 0 := by omega
      rw [ofInt, ofBits_bits, Int.natAbs_natCast, if_neg hnn, natBits, if_neg hne]
      simp only [hlog, if_pos hl]
      omega
    have hexp : (ofInt n).exponent = l + 1023 := by
      rw [exponent, hbits]
      omega
    have hfrac : 2 ^ 52 + (ofInt n).fraction = n * 2 ^ (52 - l) := by
      rw [fraction, hbits]
      omega
    have hneg : (ofInt n).negative = false := by
      rw [negative, hbits]
      simp only [decide_eq_false_iff_not, not_le]
      omega
    have habs : (ofInt n).natAbs? = some n := by
      rw [natAbs?, if_neg (by omega), if_neg (by omega), hfrac, hexp]
      rcases Nat.eq_or_lt_of_le hl with rfl | hlt
      · simp
      · rw [if_neg (by omega), show 1075 - (l + 1023) = 52 - l by omega, Nat.mul_mod_left,
          if_pos rfl,
          Nat.mul_div_cancel _ (Nat.two_pow_pos _)]
    rw [toInt?, habs, Option.map_some, hneg]
    rfl

end Double

end Lev
