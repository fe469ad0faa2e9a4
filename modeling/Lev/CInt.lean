import Mathlib

/-! C integers of a little-endian LP64 host: `size_t` arithmetic modulo 2^64, the
casts between `size_t`, `int` and Lua integers, and the byte orders of memory and
of the network. -/
namespace Lev.CInt

/-- Written with the constant first, so that a symbolic `a` stops its evaluation. -/
@[irreducible] def szSub (a b : ℕ) : ℕ := (2 ^ 64 - b % 2 ^ 64 + a) % 2 ^ 64

@[irreducible] def szAdd (a b : ℕ) : ℕ := (a + b) % 2 ^ 64

/-- `(size_t)z`, from `int` or `lua_Integer` -/
@[irreducible] def toSizeT (z : ℤ) : ℕ := (z % 2 ^ 64).toNat

/-- `(int)n`, from a `size_t` or a wider unsigned value -/
@[irreducible] def toInt (n : ℕ) : ℤ :=
  if n % 2 ^ 32 < 2 ^ 31 then (n % 2 ^ 32 : ℕ) else (n % 2 ^ 32 : ℕ) - 2 ^ 32

theorem szSub_of_le {a b : ℕ} (h : b ≤ a) (ha : a < 2 ^ 64) : szSub a b = a - b := by
  unfold szSub
  omega

theorem szAdd_of_lt {a b : ℕ} (h : a + b < 2 ^ 64) : szAdd a b = a + b := by
  unfold szAdd
  exact Nat.mod_eq_of_lt h

theorem toSizeT_natCast {n : ℕ} (h : n < 2 ^ 64) : toSizeT n = n := by
  unfold toSizeT
  omega

theorem toInt_of_lt {n : ℕ} (h : n < 2 ^ 31) : toInt n = n := by
  unfold toInt
  split <;> omega

/-- Above `INT_MAX` the round trip through `int` gives a huge `size_t`. -/
theorem toSizeT_toInt_ge {n : ℕ} (h : 2 ^ 31 ≤ n) (h' : n < 2 ^ 32) :
    2 ^ 64 - 2 ^ 31 ≤ toSizeT (toInt n) := by
  unfold toInt toSizeT
  split <;> omega

theorem toSizeT_toInt_lt {n : ℕ} (h : n < 2 ^ 32 - 1) : toSizeT (toInt n) < 2 ^ 64 - 1 := by
  unfold toInt toSizeT
  split <;> omega

theorem toInt_toNat_eq {n : ℕ} (hn : n < 2 ^ 32) :
    (toInt n).toNat = if n < 2 ^ 31 then n else 0 := by
  unfold toInt
  split <;> split <;> omega

end Lev.CInt
