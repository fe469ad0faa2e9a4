import Mathlib

/-! Numbers in memory. `leBytes k n` is what a little-endian host stores for the low
`k` bytes of `n`, and the conversions of arpa/inet.h turn the bytes of a number
around before it is stored or after it was loaded. -/
namespace Lev.Endian

/-- The `k` low bytes of `n`, the lowest first. -/
def leBytes : ℕ → ℕ → List UInt8
  | 0, _ => []
  | k + 1, n => UInt8.ofNat (n % 256) :: leBytes k (n / 256)

def leNat : List UInt8 → ℕ
  | [] => 0
  | b :: bs => b.toNat + 256 * leNat bs

def beBytes (k n : ℕ) : List UInt8 := (leBytes k n).reverse

def beNat (bs : List UInt8) : ℕ := leNat bs.reverse

/-- The `k` low bytes of `n` in the opposite order. -/
def bswap (k n : ℕ) : ℕ := leNat (leBytes k n).reverse

def htons (n : ℕ) : ℕ := bswap 2 n

def htonl (n : ℕ) : ℕ := bswap 4 n

def ntohs (n : ℕ) : ℕ := bswap 2 n

def ntohl (n : ℕ) : ℕ := bswap 4 n

/-- The macro `ntohll`: the swapped halves change places. -/
def ntohll (x : ℕ) : ℕ := ntohl (x % 2 ^ 32) * 2 ^ 32 + ntohl (x / 2 ^ 32)

def htonll (x : ℕ) : ℕ := ntohll x

@[simp] theorem leBytes_length (k n : ℕ) : (leBytes k n).length = k := by
  induction k generalizing n with
  | zero => rfl
  | succ k ih => simp [leBytes, ih]

@[simp] theorem beBytes_length (k n : ℕ) : (beBytes k n).length = k := by simp [beBytes]

theorem leNat_lt (bs : List UInt8) : leNat bs < 256 ^ bs.length := by
  induction bs with
  | nil => simp [leNat]
  | cons b bs ih =>
    have hb := b.toNat_lt
    simp only [leNat, List.length_cons, pow_succ]
    omega

theorem leNat_leBytes (k n : ℕ) : leNat (leBytes k n) = n % 256 ^ k := by
  induction k generalizing n with
  | zero => simp [leNat, leBytes, Nat.mod_one]
  | succ k ih =>
    have hlow : (UInt8.ofNat (n % 256)).toNat = n % 256 := by simp
    rw [leBytes, leNat, ih, hlow, pow_succ, mul_comm (256 ^ k), Nat.mod_mul]

theorem leBytes_leNat (bs : List UInt8) : leBytes bs.length (leNat bs) = bs := by
  induction bs with
  | nil => rfl
  | cons b bs ih =>
    have hb := b.toNat_lt
    have hlow : (b.toNat + 256 * leNat bs) % 256 = b.toNat := by omega
    have hhigh : (b.toNat + 256 * leNat bs) / 256 = leNat bs := by omega
    rw [List.length_cons, leNat, leBytes, hlow, hhigh, ih, UInt8.ofNat_toNat]

theorem leBytes_mod (k n : ℕ) : leBytes k (n % 256 ^ k) = leBytes k n := by
  have h := leBytes_leNat (leBytes k n)
  rwa [leBytes_length, leNat_leBytes] at h

theorem leBytes_add (j k n : ℕ) : leBytes (j + k) n = leBytes j n ++ leBytes k (n / 256 ^ j) := by
  induction j generalizing n with
  | zero => simp [leBytes]
  | succ j ih =>
    rw [Nat.add_right_comm, leBytes, leBytes, ih, List.cons_append, Nat.div_div_eq_div_mul,
      pow_succ, mul_comm]

theorem beNat_lt (bs : List UInt8) : beNat bs < 256 ^ bs.length := by
  have h := leNat_lt bs.reverse
  rwa [List.length_reverse] at h

theorem beNat_beBytes (k n : ℕ) : beNat (beBytes k n) = n % 256 ^ k := by
  rw [beNat, beBytes, List.reverse_reverse, leNat_leBytes]

theorem beBytes_beNat (bs : List UInt8) : beBytes bs.length (beNat bs) = bs := by
  have h := leBytes_leNat bs.reverse
  rw [List.length_reverse] at h
  rw [beBytes, beNat, h, List.reverse_reverse]

theorem bswap_lt (k n : ℕ) : bswap k n < 256 ^ k := by
  have h := leNat_lt (leBytes k n).reverse
  rwa [List.length_reverse, leBytes_length] at h

theorem leBytes_bswap (k n : ℕ) : leBytes k (bswap k n) = beBytes k n := by
  have h := leBytes_leNat (leBytes k n).reverse
  rwa [List.length_reverse, leBytes_length] at h

theorem bswap_leNat (bs : List UInt8) : bswap bs.length (leNat bs) = beNat bs := by
  rw [bswap, leBytes_leNat, beNat]

theorem leBytes_htons (n : ℕ) : leBytes 2 (htons n) = beBytes 2 n := leBytes_bswap 2 n

theorem leBytes_htonl (n : ℕ) : leBytes 4 (htonl n) = beBytes 4 n := leBytes_bswap 4 n

theorem ntohll_eq_bswap (x : ℕ) : ntohll x = bswap 8 x := by
  have hlow : leBytes 4 (x % 2 ^ 32) = leBytes 4 x := leBytes_mod 4 x
  have hsplit : leBytes 8 x = leBytes 4 x ++ leBytes 4 (x / 2 ^ 32) := leBytes_add 4 4 x
  have happ : ∀ bs cs : List UInt8, leNat (bs ++ cs) = leNat bs + 256 ^ bs.length * leNat cs := by
    intro bs cs
    induction bs with
    | nil => simp [leNat]
    | cons b bs ih =>
      rw [List.cons_append, leNat, ih, leNat, List.length_cons, pow_succ]
      ring
  rw [ntohll, ntohl, ntohl, bswap, bswap, bswap, hlow, hsplit, List.reverse_append, happ,
    List.length_reverse, leBytes_length]
  ring

theorem leBytes_htonll (x : ℕ) : leBytes 8 (htonll x) = beBytes 8 x := by
  rw [htonll, ntohll_eq_bswap, leBytes_bswap]

end Lev.Endian
