import Mathlib

/-! Lua strings of program texts, and `tostring` of the numbers a counter goes through,
which LuaJIT prints with `%.14g`. -/
namespace Lev.Lua

theorem forall_byte {P : UInt8 → Prop} [DecidablePred P] (h : ∀ n < 256, P (UInt8.ofNat n))
    (c : UInt8) : P c := by
  have hc := h c.toNat c.toNat_lt
  rwa [UInt8.ofNat_toNat] at hc

def ascii (s : String) : List UInt8 := s.toList.map fun c => UInt8.ofNat c.toNat

def digits (n : ℕ) : List UInt8 := (Nat.digits 10 n).reverse.map fun d => UInt8.ofNat (48 + d)

/-- `n` rounded to 14 significant digits, half to even, without its trailing zeros. -/
def exponentForm (n : ℕ) : List UInt8 :=
  let k := (digits n).length - 14
  let q := n / 10 ^ k
  let r := n % 10 ^ k
  let m := if 10 ^ k < 2 * r ∨ (10 ^ k = 2 * r ∧ q % 2 = 1) then q + 1 else q
  let ds := digits m
  let fraction := (ds.tail.reverse.dropWhile fun d => d == 48).reverse
  ds.take 1 ++ (if fraction.isEmpty then [] else 46 :: fraction) ++ ascii "e+" ++
    digits (k + ds.length - 1)

/-- `tostring` of a positive integral number. -/
def tostring (n : ℕ) : List UInt8 :=
  if (digits n).length ≤ 14 then digits n else exponentForm n

theorem digit_inj {d d' : ℕ} (hd : d < 10) (hd' : d' < 10)
    (h : UInt8.ofNat (48 + d) = UInt8.ofNat (48 + d')) : d = d' := by
  have hnat := congrArg UInt8.toNat h
  simp only [UInt8.toNat_ofNat'] at hnat
  omega

theorem digitText_inj {l l' : List ℕ} (hl : ∀ d ∈ l, d < 10) (hl' : ∀ d ∈ l', d < 10)
    (h : (l.map fun d => UInt8.ofNat (48 + d)) = l'.map fun d => UInt8.ofNat (48 + d)) :
    l = l' := by
  induction l generalizing l' with
  | nil =>
    cases l' with
    | nil => rfl
    | cons d l' => cases h
  | cons d l ih =>
    cases l' with
    | nil => cases h
    | cons d' l' =>
      simp only [List.map_cons, List.cons.injEq] at h
      have hhead := digit_inj (hl d List.mem_cons_self) (hl' d' List.mem_cons_self) h.1
      have htail := ih (fun x hx => hl x (List.mem_cons_of_mem _ hx))
        (fun x hx => hl' x (List.mem_cons_of_mem _ hx)) h.2
      rw [hhead, htail]

theorem digits_injective : Function.Injective digits := by
  intro m n h
  have hdigit : ∀ k : ℕ, ∀ d ∈ (Nat.digits 10 k).reverse, d < 10 := fun k d hd =>
    Nat.digits_lt_base (by decide) (List.mem_reverse.mp hd)
  have hrev := digitText_inj (hdigit m) (hdigit n) h
  exact Nat.digits_inj_iff.mp (List.reverse_injective hrev)

theorem tostring_eq_digits {n : ℕ} (h : n < 10 ^ 14) : tostring n = digits n := by
  have hlen : (digits n).length ≤ 14 := by
    rw [digits, List.length_map, List.length_reverse]
    exact Nat.digits_length_le_iff (by decide) n |>.mpr h
  rw [tostring, if_pos hlen]

theorem tostring_inj {m n : ℕ} (hm : m < 10 ^ 14) (hn : n < 10 ^ 14)
    (h : tostring m = tostring n) : m = n := by
  rw [tostring_eq_digits hm, tostring_eq_digits hn] at h
  exact digits_injective h

end Lev.Lua
