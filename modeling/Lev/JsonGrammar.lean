import Lev.JsonDecode

/-! The grammar of JSON texts as lists of bytes, and what the C standard says `strtod` reads.
A rule for a value lists the numbers that stand in it. -/
namespace Lev.Json
open Lua

def Blank (s : List UInt8) : Prop := ∀ c ∈ s, c = 32 ∨ c = 9 ∨ c = 10 ∨ c = 13

def simpleEscapes : List UInt8 := ascii "\"\\/bfnrt"

def hexDigit? (c : UInt8) : Option ℕ :=
  if 48 ≤ c ∧ c ≤ 57 then some (c.toNat - 48)
  else if 65 ≤ c ∧ c ≤ 70 then some (c.toNat - 55)
  else if 97 ≤ c ∧ c ≤ 102 then some (c.toNat - 87)
  else none

/-- The number of hexadecimal digits, behind those of the number `v`. -/
def hexValue (v : ℕ) : List UInt8 → Option ℕ
  | [] => some v
  | c :: s => (hexDigit? c).bind fun d => hexValue (v * 16 + d) s

/-- Four hexadecimal digits and the UTF-16 unit they stand for. -/
def HexUnit (s : List UInt8) (n : ℕ) : Prop := s.length = 4 ∧ hexValue 0 s = some n

inductive StringBody : List UInt8 → Prop
  | nil : StringBody []
  | plain {c : UInt8} {s : List UInt8} (hc : c ≠ 34 ∧ c ≠ 92 ∧ c ≠ 0) (hs : StringBody s) :
    StringBody (c :: s)
  | escape {c : UInt8} {s : List UInt8} (hc : c ∈ simpleEscapes) (hs : StringBody s) :
    StringBody (92 :: c :: s)
  | unit {t s : List UInt8} {n : ℕ} (ht : HexUnit t n) (hn : n < 0xd800 ∨ 0xe000 ≤ n)
    (hs : StringBody s) : StringBody (92 :: 117 :: (t ++ s))
  | pair {t t' s : List UInt8} {m n : ℕ} (ht : HexUnit t m) (hm : 0xd800 ≤ m ∧ m < 0xdc00)
    (ht' : HexUnit t' n) (hn : 0xdc00 ≤ n ∧ n < 0xe000) (hs : StringBody s) :
    StringBody (92 :: 117 :: (t ++ 92 :: 117 :: (t' ++ s)))

section numbers

def Digit (c : UInt8) : Prop := 48 ≤ c ∧ c ≤ 57

instance (c : UInt8) : Decidable (Digit c) := inferInstanceAs (Decidable (_ ∧ _))

def Digits (s : List UInt8) : Prop := ∀ c ∈ s, Digit c

instance (s : List UInt8) : Decidable (Digits s) := inferInstanceAs (Decidable (∀ c ∈ s, Digit c))

/-- `0|[1-9][0-9]*` -/
inductive IntPart : List UInt8 → Prop
  | zero : IntPart [48]
  | more {c : UInt8} {s : List UInt8} (hc : 49 ≤ c ∧ c ≤ 57) (hs : Digits s) : IntPart (c :: s)

/-- `([eE][-+]?[0-9]+)?` -/
inductive Exponent : List UInt8 → Prop
  | none : Exponent []
  | some {c : UInt8} {sign s : List UInt8} (hc : c = 101 ∨ c = 69)
    (hsign : sign = [] ∨ sign = [43] ∨ sign = [45]) (hs : Digits s) (hne : s ≠ []) :
    Exponent (c :: (sign ++ s))

/-- `-?(0|[1-9][0-9]*)(.[0-9]+)?([eE][-+]?[0-9]+)?` -/
inductive IsNumber : List UInt8 → Prop
  | whole {sign i e : List UInt8} (hsign : sign = [] ∨ sign = [45]) (hi : IntPart i)
    (he : Exponent e) : IsNumber (sign ++ (i ++ e))
  | point {sign i f e : List UInt8} (hsign : sign = [] ∨ sign = [45]) (hi : IntPart i)
    (hf : Digits f) (hne : f ≠ []) (he : Exponent e) : IsNumber (sign ++ (i ++ 46 :: (f ++ e)))

/-- Numbers that may lack the digits behind the point, or behind a minus sign those before it. -/
inductive IsLax : List UInt8 → Prop
  | number {t : List UInt8} (ht : IsNumber t) : IsLax t
  | noFraction {sign i e : List UInt8} (hsign : sign = [] ∨ sign = [45]) (hi : IntPart i)
    (he : Exponent e) : IsLax (sign ++ (i ++ 46 :: e))
  | noWhole {f e : List UInt8} (hf : Digits f) (hne : f ≠ []) (he : Exponent e) :
    IsLax (45 :: 46 :: (f ++ e))

end numbers

section values

/-- `true`, `false` and `null` -/
def words : List (List UInt8) := [ascii "true", ascii "false", ascii "null"]

/-- The values that are no tables. -/
inductive Atom (Num : List UInt8 → Prop) : List UInt8 → List (List UInt8) → Prop
  | word {w : List UInt8} (hw : w ∈ words) : Atom Num w []
  | number {t : List UInt8} (ht : Num t) : Atom Num t [t]
  | string {s : List UInt8} (hs : StringBody s) : Atom Num (34 :: (s ++ [34])) []

variable (V : List UInt8 → List (List UInt8) → Prop)

inductive Elements : List UInt8 → List (List UInt8) → Prop
  | last {w s w' : List UInt8} {ns : List (List UInt8)} (hw : Blank w) (hs : V s ns)
    (hw' : Blank w') : Elements (w ++ (s ++ w')) ns
  | cons {w s w' t : List UInt8} {ns ms : List (List UInt8)} (hw : Blank w) (hs : V s ns)
    (hw' : Blank w') (ht : Elements t ms) : Elements (w ++ (s ++ (w' ++ 44 :: t))) (ns ++ ms)

inductive Key : List UInt8 → Prop
  | mk {w k w' w'' : List UInt8} (hw : Blank w) (hk : StringBody k) (hw' : Blank w')
    (hw'' : Blank w'') : Key (w ++ (34 :: (k ++ [34]) ++ (w' ++ 58 :: w'')))

inductive Members : List UInt8 → List (List UInt8) → Prop
  | last {k s w : List UInt8} {ns : List (List UInt8)} (hk : Key k) (hs : V s ns) (hw : Blank w) :
    Members (k ++ (s ++ w)) ns
  | cons {k s w t : List UInt8} {ns ms : List (List UInt8)} (hk : Key k) (hs : V s ns)
    (hw : Blank w) (ht : Members t ms) : Members (k ++ (s ++ (w ++ 44 :: t))) (ns ++ ms)

/-- Arrays and objects of values `V`. The slots that are free on the Lua stack come first: a
table takes one, a key another, and there must be one for the value. -/
inductive Compound (V : ℕ → List UInt8 → List (List UInt8) → Prop) :
    ℕ → List UInt8 → List (List UInt8) → Prop
  | emptyArray {k : ℕ} {w : List UInt8} (hw : Blank w) :
    Compound V (k + 2) (0x5b :: (w ++ [0x5d])) []
  | array {k : ℕ} {s : List UInt8} {ns : List (List UInt8)} (hs : Elements (V (k + 1)) s ns) :
    Compound V (k + 2) (0x5b :: (s ++ [0x5d])) ns
  | emptyObject {k : ℕ} {w : List UInt8} (hw : Blank w) :
    Compound V (k + 3) (0x7b :: (w ++ [0x7d])) []
  | object {k : ℕ} {s : List UInt8} {ns : List (List UInt8)} (hs : Members (V (k + 1)) s ns) :
    Compound V (k + 3) (0x7b :: (s ++ [0x7d])) ns

/-- A value with tables nested at most `d` deep, for which `k` slots are enough, and its
numbers. -/
def IsValue (Num : List UInt8 → Prop) : ℕ → ℕ → List UInt8 → List (List UInt8) → Prop
  | 0 => fun _ => Atom Num
  | d + 1 => fun k s ns => Atom Num s ns ∨ Compound (IsValue Num d) k s ns

inductive IsText (Num : List UInt8 → Prop) (d k : ℕ) : List UInt8 → List (List UInt8) → Prop
  | mk {w s w' : List UInt8} {ns : List (List UInt8)} (hw : Blank w) (hs : IsValue Num d k s ns)
    (hw' : Blank w') : IsText Num d k (w ++ (s ++ w')) ns

/-- The JSON texts with tables nested at most `d` deep, however many slots that takes. -/
def IsJson (d : ℕ) (s : List UInt8) : Prop := ∃ k ns, IsText IsNumber d k s ns

end values

section strtod

/-- A nonempty sequence of decimal digits, optionally with a point, and an optional exponent. -/
inductive DecimalForm : List UInt8 → Prop
  | whole {i e : List UInt8} (hi : Digits i) (hne : i ≠ []) (he : Exponent e) : DecimalForm (i ++ e)
  | point {i f e : List UInt8} (hi : Digits i) (hf : Digits f) (hne : i ≠ [] ∨ f ≠ [])
    (he : Exponent e) : DecimalForm (i ++ 46 :: (f ++ e))

def HexDigits (s : List UInt8) : Prop := ∀ c ∈ s, (hexDigit? c).isSome

/-- `0x`, hexadecimal digits, optionally with a point, and an optional binary exponent. -/
inductive HexForm : List UInt8 → Prop
  | mk {x : UInt8} {i p f e : List UInt8} (hx : x = 120 ∨ x = 88) (hi : HexDigits i)
    (hp : p = [] ∧ f = [] ∨ p = [46]) (hf : HexDigits f) (hne : i ++ f ≠ [])
    (he : e = [] ∨ ∃ c sign s, (c = 112 ∨ c = 80) ∧ (sign = [] ∨ sign = [43] ∨ sign = [45]) ∧
      Digits s ∧ s ≠ [] ∧ e = c :: (sign ++ s)) : HexForm (48 :: x :: (i ++ (p ++ (f ++ e))))

/-- `inf`, `infinity`, `nan` or `nan(...)`, in letters of any case. -/
inductive InfNanForm : List UInt8 → Prop
  | inf {s : List UInt8} (hs : s.map tolower = ascii "inf" ∨ s.map tolower = ascii "infinity") :
    InfNanForm s
  | nan {s t : List UInt8} (hs : s.map tolower = ascii "nan")
    (ht : t = [] ∨ ∃ n, (∀ c ∈ n, Digit c ∨ 97 ≤ tolower c ∧ tolower c ≤ 122 ∨ c = 95) ∧
      t = 40 :: (n ++ [41])) : InfNanForm (s ++ t)

/-- White space, an optional sign and a number, as `strtod` expects them. -/
inductive Expected : List UInt8 → Prop
  | mk {w sign s : List UInt8} (hw : ∀ c ∈ w, c = 32 ∨ 9 ≤ c ∧ c ≤ 13)
    (hsign : sign = [] ∨ sign = [43] ∨ sign = [45])
    (hs : DecimalForm s ∨ HexForm s ∨ InfNanForm s) : Expected (w ++ (sign ++ s))

/-- `strtod` reads the longest initial part of its string that has the expected form, and
nothing if there is none. -/
def Host.ReadsLongest (host : Host) : Prop := ∀ s,
  ((host.strtod s).2 ≠ 0 → Expected (s.take (host.strtod s).2)) ∧
    ∀ k ≤ s.length, Expected (s.take k) → k ≤ (host.strtod s).2

end strtod

section values
variable {Num Num' : List UInt8 → Prop} {V V' : List UInt8 → List (List UInt8) → Prop}
  {s t : List UInt8} {ns : List (List UInt8)} {d k l : ℕ}

theorem Blank.append {w w' : List UInt8} (hw : Blank w) (hw' : Blank w') : Blank (w ++ w') :=
  List.forall_mem_append.mpr ⟨hw, hw'⟩

theorem Elements.mono (hs : Elements V s ns)
    (hV : ∀ s ms, V s ms → (∀ n ∈ ms, n ∈ ns) → V' s ms) : Elements V' s ns := by
  induction hs with
  | last hw hs hw' => exact .last hw (hV _ _ hs fun n hn => hn) hw'
  | cons hw hs hw' ht ih =>
    refine .cons hw (hV _ _ hs fun n hn => List.mem_append_left _ hn) hw' (ih fun s ms hs hms => ?_)
    exact hV s ms hs fun n hn => List.mem_append_right _ (hms n hn)

theorem Members.mono (hs : Members V s ns)
    (hV : ∀ s ms, V s ms → (∀ n ∈ ms, n ∈ ns) → V' s ms) : Members V' s ns := by
  induction hs with
  | last hk hs hw => exact .last hk (hV _ _ hs fun n hn => hn) hw
  | cons hk hs hw ht ih =>
    refine .cons hk (hV _ _ hs fun n hn => List.mem_append_left _ hn) hw (ih fun s ms hs hms => ?_)
    exact hV s ms hs fun n hn => List.mem_append_right _ (hms n hn)

theorem IsValue.mono (hs : IsValue Num d k s ns) (hNum : ∀ n ∈ ns, Num n → Num' n) :
    IsValue Num' d k s ns := by
  have hatom : ∀ {s ns}, Atom Num s ns → (∀ n ∈ ns, Num n → Num' n) → Atom Num' s ns := by
    intro s ns hs hNum
    cases hs with
    | word hw => exact .word hw
    | number ht => exact .number (hNum _ List.mem_cons_self ht)
    | string hs => exact .string hs
  induction d generalizing k s ns with
  | zero => exact hatom hs hNum
  | succ d ih =>
    refine hs.imp (fun hs => hatom hs hNum) fun hs => ?_
    have hV : ∀ {k} s ms, IsValue Num d k s ms → (∀ n ∈ ms, n ∈ ns) → IsValue Num' d k s ms :=
      fun s ms hs hms => ih hs fun n hn => hNum n (hms n hn)
    cases hs with
    | emptyArray hw => exact .emptyArray hw
    | array hs => exact .array (hs.mono hV)
    | emptyObject hw => exact .emptyObject hw
    | object hs => exact .object (hs.mono hV)

theorem IsValue.slots (hs : IsValue Num d k s ns) (hkl : k ≤ l) : IsValue Num d l s ns := by
  induction d generalizing k l s ns with
  | zero => exact hs
  | succ d ih =>
    refine hs.imp_right fun hs => ?_
    have hV : ∀ {k l} s ms, k ≤ l → IsValue Num d k s ms → (∀ n ∈ ms, n ∈ ns) →
        IsValue Num d l s ms := fun s ms hkl hs _ => ih hs hkl
    have hmore : ∀ {k n}, k + n ≤ l → ∃ l', k ≤ l' ∧ l' + n = l := fun h =>
      ⟨l - _, Nat.le_sub_of_add_le h, Nat.sub_add_cancel (le_of_add_le_right h)⟩
    cases hs with
    | emptyArray hw =>
      obtain ⟨l, -, rfl⟩ := hmore hkl
      exact .emptyArray hw
    | array hs =>
      obtain ⟨l, hle, rfl⟩ := hmore hkl
      exact .array (hs.mono fun s ms => hV s ms (Nat.succ_le_succ hle))
    | emptyObject hw =>
      obtain ⟨l, -, rfl⟩ := hmore hkl
      exact .emptyObject hw
    | object hs =>
      obtain ⟨l, hle, rfl⟩ := hmore hkl
      exact .object (hs.mono fun s ms => hV s ms (Nat.succ_le_succ hle))

/-- An object takes two slots and its values three, so that they are not more than this. -/
theorem IsValue.slots_le (hs : IsValue Num d k s ns) : IsValue Num d (2 * d + 1) s ns := by
  induction d generalizing k s ns with
  | zero => exact hs
  | succ d ih =>
    refine hs.imp_right fun hs => ?_
    have hV : ∀ {k} s ms, IsValue Num d k s ms → (∀ n ∈ ms, n ∈ ns) →
        IsValue Num d (2 * d + 1) s ms := fun s ms hs _ => ih hs
    cases hs with
    | emptyArray hw => exact .emptyArray hw
    | array hs => exact .array (hs.mono fun s ms hs hms => (hV s ms hs hms).slots (Nat.le_succ _))
    | emptyObject hw => exact .emptyObject hw
    | object hs => exact .object (hs.mono hV)

theorem IsText.slots (hs : IsText Num d k s ns) (hkl : k ≤ l) : IsText Num d l s ns := by
  obtain ⟨hw, hs, hw'⟩ := hs
  exact ⟨hw, hs.slots hkl, hw'⟩

theorem isJson_iff : IsJson d s ↔ ∃ ns, IsText IsNumber d (2 * d + 1) s ns := by
  constructor
  · rintro ⟨k, ns, hw, hs, hw'⟩
    exact ⟨ns, hw, hs.slots_le, hw'⟩
  · rintro ⟨ns, hs⟩
    exact ⟨_, ns, hs⟩

theorem IsText.mono (hs : IsText Num d k s ns) (hNum : ∀ n ∈ ns, Num n → Num' n) :
    IsText Num' d k s ns := by
  obtain ⟨hw, hs, hw'⟩ := hs
  exact ⟨hw, hs.mono hNum, hw'⟩

theorem Elements.numbers (hV : ∀ s ns, V s ns → ∀ n ∈ ns, Num n) (hs : Elements V s ns) :
    ∀ n ∈ ns, Num n := by
  induction hs with
  | last hw hs hw' => exact hV _ _ hs
  | cons hw hs hw' ht ih => exact List.forall_mem_append.mpr ⟨hV _ _ hs, ih⟩

theorem Members.numbers (hV : ∀ s ns, V s ns → ∀ n ∈ ns, Num n) (hs : Members V s ns) :
    ∀ n ∈ ns, Num n := by
  induction hs with
  | last hk hs hw => exact hV _ _ hs
  | cons hk hs hw ht ih => exact List.forall_mem_append.mpr ⟨hV _ _ hs, ih⟩

theorem IsValue.numbers (hs : IsValue Num d k s ns) : ∀ n ∈ ns, Num n := by
  have hatom : ∀ {s ns}, Atom Num s ns → ∀ n ∈ ns, Num n := by
    intro s ns hs
    cases hs with
    | word hw => exact nofun
    | number ht => exact List.forall_mem_singleton.mpr ht
    | string hs => exact nofun
  induction d generalizing k s ns with
  | zero => exact hatom hs
  | succ d ih =>
    rcases hs with hs | hs
    · exact hatom hs
    · have hV : ∀ {k} s ns, IsValue Num d k s ns → ∀ n ∈ ns, Num n := fun s ns hs => ih hs
      cases hs with
      | emptyArray hw | emptyObject hw => exact nofun
      | array hs => exact hs.numbers hV
      | object hs => exact hs.numbers hV

theorem IsValue.ne_nil (hNum : ∀ t, Num t → t ≠ []) (hs : IsValue Num d k s ns) : s ≠ [] := by
  have hatom : ∀ {s ns}, Atom Num s ns → s ≠ [] := by
    intro s ns hs
    cases hs with
    | word hw =>
      rintro rfl
      exact absurd hw (by decide)
    | number ht => exact hNum _ ht
    | string hs => exact List.cons_ne_nil _ _
  cases d with
  | zero => exact hatom hs
  | succ d =>
    rcases hs with hs | hs
    · exact hatom hs
    · cases hs with
      | emptyArray hw | array hs | emptyObject hw | object hs => exact List.cons_ne_nil _ _

theorem IsText.numbers (hs : IsText Num d k s ns) : ∀ n ∈ ns, Num n := by
  obtain ⟨hw, hs, hw'⟩ := hs
  exact hs.numbers

theorem IsText.ne_nil (hNum : ∀ t, Num t → t ≠ []) (hs : IsText Num d k s ns) : s ≠ [] := by
  obtain ⟨hw, hs, hw'⟩ := hs
  simp [hs.ne_nil hNum]

section noNul

theorem Blank.noNul (hs : Blank s) : 0 ∉ s := fun h0 => absurd (hs 0 h0) (by decide)

theorem HexUnit.noNul {n : ℕ} (hs : HexUnit s n) : 0 ∉ s := by
  have hvalue : ∀ {v} {s : List UInt8}, hexValue v s = some n → 0 ∉ s := by
    intro v s h
    induction s generalizing v with
    | nil => exact nofun
    | cons c s ih =>
      obtain ⟨digit, hd, hrest⟩ := Option.bind_eq_some_iff.mp h
      refine List.not_mem_cons_of_ne_of_not_mem ?_ (ih hrest)
      rintro rfl
      rw [show hexDigit? 0 = none by decide] at hd
      cases hd
  exact hvalue hs.2

theorem StringBody.noNul (hs : StringBody s) : 0 ∉ s := by
  induction hs with
  | nil => exact nofun
  | plain hc hs ih => exact List.not_mem_cons_of_ne_of_not_mem hc.2.2.symm ih
  | escape hc hs ih =>
    refine List.not_mem_cons_of_ne_of_not_mem (by decide) (List.not_mem_cons_of_ne_of_not_mem ?_ ih)
    rintro rfl
    exact absurd hc (by decide)
  | unit ht hn hs ih =>
    have ht := ht.noNul
    simp only [List.mem_cons, List.mem_append, not_or]
    exact ⟨by decide, by decide, ht, ih⟩
  | pair ht hm ht' hn hs ih =>
    have ht := ht.noNul
    have ht' := ht'.noNul
    simp only [List.mem_cons, List.mem_append, not_or]
    exact ⟨by decide, by decide, ht, by decide, by decide, ht', ih⟩

theorem Elements.noNul (hV : ∀ s ns, V s ns → 0 ∉ s) (hs : Elements V s ns) : 0 ∉ s := by
  induction hs with
  | last hw hs hw' =>
    have hs := hV _ _ hs
    simp only [List.mem_append, not_or]
    exact ⟨hw.noNul, hs, hw'.noNul⟩
  | cons hw hs hw' ht ih =>
    have hs := hV _ _ hs
    simp only [List.mem_append, List.mem_cons, not_or]
    exact ⟨hw.noNul, hs, hw'.noNul, by decide, ih⟩

theorem Key.noNul (hs : Key s) : 0 ∉ s := by
  obtain ⟨hw, hk, hw', hw''⟩ := hs
  simp only [List.mem_append, List.mem_cons, List.not_mem_nil, not_or]
  exact ⟨hw.noNul, ⟨by decide, hk.noNul, by decide, not_false⟩, hw'.noNul, by decide, hw''.noNul⟩

theorem Members.noNul (hV : ∀ s ns, V s ns → 0 ∉ s) (hs : Members V s ns) : 0 ∉ s := by
  induction hs with
  | last hk hs hw =>
    have hs := hV _ _ hs
    simp only [List.mem_append, not_or]
    exact ⟨hk.noNul, hs, hw.noNul⟩
  | cons hk hs hw ht ih =>
    have hs := hV _ _ hs
    simp only [List.mem_append, List.mem_cons, not_or]
    exact ⟨hk.noNul, hs, hw.noNul, by decide, ih⟩

theorem IsValue.noNul (hNum : ∀ t, Num t → 0 ∉ t) (hs : IsValue Num d k s ns) : 0 ∉ s := by
  have hatom : ∀ {s ns}, Atom Num s ns → 0 ∉ s := by
    intro s ns hs
    cases hs with
    | word hw =>
      have hwords : ∀ w ∈ words, 0 ∉ w := by decide
      exact hwords _ hw
    | number ht => exact hNum _ ht
    | string hs =>
      simp only [List.mem_append, List.mem_cons, List.not_mem_nil, not_or]
      exact ⟨by decide, hs.noNul, by decide, not_false⟩
  induction d generalizing k s ns with
  | zero => exact hatom hs
  | succ d ih =>
    rcases hs with hs | hs
    · exact hatom hs
    · have hV : ∀ {k} s ns, IsValue Num d k s ns → 0 ∉ s := fun s ns hs => ih hs
      cases hs with
      | emptyArray hw | emptyObject hw =>
        simp only [List.mem_append, List.mem_cons, List.not_mem_nil, not_or]
        exact ⟨by decide, hw.noNul, by decide, not_false⟩
      | array hs =>
        simp only [List.mem_append, List.mem_cons, List.not_mem_nil, not_or]
        exact ⟨by decide, hs.noNul hV, by decide, not_false⟩
      | object hs =>
        simp only [List.mem_append, List.mem_cons, List.not_mem_nil, not_or]
        exact ⟨by decide, hs.noNul hV, by decide, not_false⟩

theorem IsText.noNul (hNum : ∀ t, Num t → 0 ∉ t) (hs : IsText Num d k s ns) : 0 ∉ s := by
  obtain ⟨hw, hs, hw'⟩ := hs
  simp only [List.mem_append, not_or]
  exact ⟨hw.noNul, hs.noNul hNum, hw'.noNul⟩

end noNul

end values

section numbers
variable {s t : List UInt8} {c : UInt8}

def Numeric (c : UInt8) : Prop := Digit c ∨ c ∈ ascii ".eE+-"

instance (c : UInt8) : Decidable (Numeric c) := inferInstanceAs (Decidable (_ ∨ _))

theorem Digits.numeric (hs : Digits s) : ∀ c ∈ s, Numeric c := fun c hc => .inl (hs c hc)

theorem IntPart.digits (hs : IntPart s) : Digits s := by
  cases hs with
  | zero => exact List.forall_mem_singleton.mpr (by decide)
  | more hc hs =>
    exact List.forall_mem_cons.mpr
      ⟨⟨UInt8.le_trans (by decide : (48 : UInt8) ≤ 49) hc.1, hc.2⟩, hs⟩

theorem sign_numeric (hs : s = [] ∨ s = [43] ∨ s = [45]) : ∀ c ∈ s, Numeric c := by
  rcases hs with rfl | rfl | rfl
  · exact nofun
  · exact List.forall_mem_singleton.mpr (by decide)
  · exact List.forall_mem_singleton.mpr (by decide)

theorem Exponent.numeric (hs : Exponent s) : ∀ c ∈ s, Numeric c := by
  cases hs with
  | none => exact nofun
  | @some c sign s hc hsign hs hne =>
    have hletter : Numeric c := by
      rcases hc with rfl | rfl
      · decide
      · decide
    exact List.forall_mem_cons.mpr ⟨hletter,
      List.forall_mem_append.mpr ⟨sign_numeric hsign, hs.numeric⟩⟩

theorem minus_numeric (hs : s = [] ∨ s = [45]) : ∀ c ∈ s, Numeric c :=
  sign_numeric (hs.imp_right .inr)

theorem IsLax.numeric (ht : IsLax t) : ∀ c ∈ t, Numeric c := by
  have hpoint : Numeric 46 := by decide
  have hminus : Numeric 45 := by decide
  cases ht with
  | number ht =>
    cases ht with
    | whole hsign hi he =>
      simp only [List.forall_mem_append]
      exact ⟨minus_numeric hsign, hi.digits.numeric, he.numeric⟩
    | point hsign hi hf hne he =>
      simp only [List.forall_mem_append, List.forall_mem_cons]
      exact ⟨minus_numeric hsign, hi.digits.numeric, hpoint, hf.numeric, he.numeric⟩
  | noFraction hsign hi he =>
    simp only [List.forall_mem_append, List.forall_mem_cons]
    exact ⟨minus_numeric hsign, hi.digits.numeric, hpoint, he.numeric⟩
  | noWhole hf hne he =>
    simp only [List.forall_mem_append, List.forall_mem_cons]
    exact ⟨hminus, hpoint, hf.numeric, he.numeric⟩

theorem IsLax.noNul (ht : IsLax t) : 0 ∉ t := fun h0 => absurd (ht.numeric 0 h0) (by decide)

theorem IntPart.ne_nil (hs : IntPart s) : s ≠ [] := by
  cases hs with
  | zero => exact List.cons_ne_nil _ _
  | more hc hs => exact List.cons_ne_nil _ _

theorem DecimalForm.expected (hs : DecimalForm s) (ht : t = [] ∨ t = [45]) :
    Expected (t ++ s) :=
  .mk (w := []) nofun (ht.imp_right .inr) (.inl hs)

theorem IsLax.expected (ht : IsLax t) : Expected t := by
  cases ht with
  | number ht =>
    cases ht with
    | whole hsign hi he => exact DecimalForm.expected (.whole hi.digits hi.ne_nil he) hsign
    | point hsign hi hf hne he =>
      exact DecimalForm.expected (.point hi.digits hf (.inl hi.ne_nil) he) hsign
  | noFraction hsign hi he =>
    exact DecimalForm.expected (.point (f := []) hi.digits nofun (.inl hi.ne_nil) he) hsign
  | noWhole hf hne he =>
    exact DecimalForm.expected (.point (i := []) nofun hf (.inr hne) he) (.inr rfl)

end numbers

end Lev.Json
