import Lev.JsonAccepts

/-! What a JSON text means, as a relation between texts and Lua values: a grammar whose rules build
the value. Tables are named by the place of their first character. -/
namespace Lev.Json
open Lua

/-- The letters of the escapes of two characters, with the bytes they stand for. -/
def escapeBytes : List (UInt8 × UInt8) :=
  [(34, 34), (92, 92), (47, 47), (98, 8), (102, 12), (110, 10), (114, 13), (116, 9)]

def utf8 (n : ℕ) : List UInt8 := String.utf8EncodeChar (Char.ofNat n)

def pairPoint (m n : ℕ) : ℕ := 0x10000 + (m - 0xd800) * 0x400 + (n - 0xdc00)

/-- What stands between the quotes of a string, and the string. -/
inductive StringMeans : List UInt8 → List UInt8 → Prop
  | nil : StringMeans [] []
  | plain {c : UInt8} {s v : List UInt8} (hc : c ≠ 34 ∧ c ≠ 92 ∧ c ≠ 0) (hs : StringMeans s v) :
    StringMeans (c :: s) (c :: v)
  | escape {c b : UInt8} {s v : List UInt8} (hc : (c, b) ∈ escapeBytes) (hs : StringMeans s v) :
    StringMeans (92 :: c :: s) (b :: v)
  | unit {t s v : List UInt8} {n : ℕ} (ht : HexUnit t n) (hn : n < 0xd800 ∨ 0xe000 ≤ n)
    (hs : StringMeans s v) : StringMeans (92 :: 117 :: (t ++ s)) (utf8 n ++ v)
  | pair {t t' s v : List UInt8} {m n : ℕ} (ht : HexUnit t m) (hm : 0xd800 ≤ m ∧ m < 0xdc00)
    (ht' : HexUnit t' n) (hn : 0xdc00 ≤ n ∧ n < 0xe000) (hs : StringMeans s v) :
    StringMeans (92 :: 117 :: (t ++ 92 :: 117 :: (t' ++ s))) (utf8 (pairPoint m n) ++ v)

/-- A number in the decimal system is the double that `strtod` gives. -/
inductive AtomMeans (host : Host) : List UInt8 → LuaValue → Prop
  | true : AtomMeans host (ascii "true") (.boolean true)
  | false : AtomMeans host (ascii "false") (.boolean false)
  | null : AtomMeans host (ascii "null") (.foreign .lightuserdata)
  | number {t : List UInt8} (ht : IsLax t) : AtomMeans host t (.number (host.strtod t).1)
  | string {s v : List UInt8} (hs : StringMeans s v) :
    AtomMeans host (34 :: (s ++ [34])) (.string v)

section compound
variable (V : ℕ → List UInt8 → LuaValue → Prop)

/-- The elements of an array, in a text from `p` on. -/
inductive ElementsMean : ℕ → List UInt8 → List LuaValue → Prop
  | last {p : ℕ} {w s w' : List UInt8} {v : LuaValue} (hw : Blank w) (hs : V (p + w.length) s v)
    (hw' : Blank w') : ElementsMean p (w ++ (s ++ w')) [v]
  | cons {p : ℕ} {w s w' t : List UInt8} {v : LuaValue} {vs : List LuaValue} (hw : Blank w)
    (hs : V (p + w.length) s v) (hw' : Blank w')
    (ht : ElementsMean (p + (w ++ (s ++ w')).length + 1) t vs) :
    ElementsMean p (w ++ (s ++ (w' ++ 44 :: t))) (v :: vs)

inductive KeyMeans : List UInt8 → List UInt8 → Prop
  | mk {w k v w' w'' : List UInt8} (hw : Blank w) (hk : StringMeans k v) (hw' : Blank w')
    (hw'' : Blank w'') : KeyMeans (w ++ (34 :: (k ++ [34]) ++ (w' ++ 58 :: w''))) v

inductive MembersMean : ℕ → List UInt8 → List (List UInt8 × LuaValue) → Prop
  | last {p : ℕ} {k key s w : List UInt8} {v : LuaValue} (hk : KeyMeans k key)
    (hs : V (p + k.length) s v) (hw : Blank w) : MembersMean p (k ++ (s ++ w)) [(key, v)]
  | cons {p : ℕ} {k key s w t : List UInt8} {v : LuaValue} {ms : List (List UInt8 × LuaValue)}
    (hk : KeyMeans k key) (hs : V (p + k.length) s v) (hw : Blank w)
    (ht : MembersMean (p + (k ++ (s ++ w)).length + 1) t ms) :
    MembersMean p (k ++ (s ++ (w ++ 44 :: t))) ((key, v) :: ms)

end compound

/-- The pairs of the table of an object. A key that comes again gets another value. -/
def memberPairs (ms : List (List UInt8 × LuaValue)) : List (LuaValue × LuaValue) :=
  ms.foldl (fun hash m => setHash (.string m.1) m.2 hash) []

/-- Arrays and objects of values `V`, with the slots they take. -/
inductive CompoundMeans (V : ℕ → ℕ → List UInt8 → LuaValue → Prop) :
    ℕ → ℕ → List UInt8 → LuaValue → Prop
  | emptyArray {k p : ℕ} {w : List UInt8} (hw : Blank w) :
    CompoundMeans V (k + 2) p (0x5b :: (w ++ [0x5d])) (.table p [] [])
  | array {k p : ℕ} {s : List UInt8} {vs : List LuaValue}
    (hs : ElementsMean (V (k + 1)) (p + 1) s vs) :
    CompoundMeans V (k + 2) p (0x5b :: (s ++ [0x5d])) (.table p vs [])
  | emptyObject {k p : ℕ} {w : List UInt8} (hw : Blank w) :
    CompoundMeans V (k + 3) p (0x7b :: (w ++ [0x7d])) (.table p [] [])
  | object {k p : ℕ} {s : List UInt8} {ms : List (List UInt8 × LuaValue)}
    (hs : MembersMean (V (k + 1)) (p + 1) s ms) :
    CompoundMeans V (k + 3) p (0x7b :: (s ++ [0x7d])) (.table p [] (memberPairs ms))

/-- A text with tables nested at most `d` deep, in `k` slots, that starts at `p`, and its
value. -/
def ValueMeans (host : Host) : ℕ → ℕ → ℕ → List UInt8 → LuaValue → Prop
  | 0 => fun _ _ => AtomMeans host
  | d + 1 => fun k p s v => AtomMeans host s v ∨ CompoundMeans (ValueMeans host d) k p s v

inductive TextMeans (host : Host) (d k : ℕ) : List UInt8 → LuaValue → Prop
  | mk {w s w' : List UInt8} {v : LuaValue} (hw : Blank w) (hs : ValueMeans host d k w.length s v)
    (hw' : Blank w') : TextMeans host d k (w ++ (s ++ w')) v

section total
variable {host : Host} {V : List UInt8 → List (List UInt8) → Prop}
  {M : ℕ → List UInt8 → LuaValue → Prop} {s : List UInt8} {ns : List (List UInt8)} {d k : ℕ}

theorem escapeBytes_total : ∀ c ∈ simpleEscapes, ∃ b, (c, b) ∈ escapeBytes := by decide +kernel

theorem StringBody.exists_means (hs : StringBody s) : ∃ v, StringMeans s v := by
  induction hs with
  | nil => exact ⟨[], .nil⟩
  | plain hc _ ih =>
    obtain ⟨v, hv⟩ := ih
    exact ⟨_, .plain hc hv⟩
  | escape hc _ ih =>
    obtain ⟨v, hv⟩ := ih
    obtain ⟨b, hb⟩ := escapeBytes_total _ hc
    exact ⟨_, .escape hb hv⟩
  | unit ht hn _ ih =>
    obtain ⟨v, hv⟩ := ih
    exact ⟨_, .unit ht hn hv⟩
  | pair ht hm ht' hn _ ih =>
    obtain ⟨v, hv⟩ := ih
    exact ⟨_, .pair ht hm ht' hn hv⟩

theorem Atom.exists_means (hs : Atom IsLax s ns) : ∃ v, AtomMeans host s v := by
  cases hs with
  | word hw =>
    have hcases : s = ascii "true" ∨ s = ascii "false" ∨ s = ascii "null" := by
      simpa [words] using hw
    rcases hcases with rfl | rfl | rfl
    · exact ⟨_, .true⟩
    · exact ⟨_, .false⟩
    · exact ⟨_, .null⟩
  | number ht => exact ⟨_, .number ht⟩
  | string hs =>
    obtain ⟨v, hv⟩ := hs.exists_means
    exact ⟨_, .string hv⟩

theorem Elements.exists_means (hV : ∀ p s ns, V s ns → ∃ v, M p s v) (hs : Elements V s ns)
    (p : ℕ) : ∃ vs, ElementsMean M p s vs := by
  induction hs generalizing p with
  | last hw hs hw' =>
    obtain ⟨v, hv⟩ := hV _ _ _ hs
    exact ⟨[v], .last hw hv hw'⟩
  | cons hw hs hw' _ ih =>
    obtain ⟨v, hv⟩ := hV _ _ _ hs
    obtain ⟨vs, hvs⟩ := ih _
    exact ⟨v :: vs, .cons hw hv hw' hvs⟩

theorem Key.exists_means (hs : Key s) : ∃ v, KeyMeans s v := by
  cases hs with
  | mk hw hk hw' hw'' =>
    obtain ⟨v, hv⟩ := hk.exists_means
    exact ⟨v, .mk hw hv hw' hw''⟩

theorem Members.exists_means (hV : ∀ p s ns, V s ns → ∃ v, M p s v) (hs : Members V s ns)
    (p : ℕ) : ∃ ms, MembersMean M p s ms := by
  induction hs generalizing p with
  | last hk hs hw =>
    obtain ⟨key, hkey⟩ := hk.exists_means
    obtain ⟨v, hv⟩ := hV _ _ _ hs
    exact ⟨[(key, v)], .last hkey hv hw⟩
  | cons hk hs hw _ ih =>
    obtain ⟨key, hkey⟩ := hk.exists_means
    obtain ⟨v, hv⟩ := hV _ _ _ hs
    obtain ⟨ms, hms⟩ := ih _
    exact ⟨(key, v) :: ms, .cons hkey hv hw hms⟩

theorem Compound.exists_means {V : ℕ → List UInt8 → List (List UInt8) → Prop}
    {M : ℕ → ℕ → List UInt8 → LuaValue → Prop} (hV : ∀ k p s ns, V k s ns → ∃ v, M k p s v)
    (hs : Compound V k s ns) (p : ℕ) : ∃ v, CompoundMeans M k p s v := by
  cases hs with
  | emptyArray hw => exact ⟨_, .emptyArray hw⟩
  | array hs =>
    obtain ⟨vs, hvs⟩ := hs.exists_means (hV _) (p + 1)
    exact ⟨_, .array hvs⟩
  | emptyObject hw => exact ⟨_, .emptyObject hw⟩
  | object hs =>
    obtain ⟨ms, hms⟩ := hs.exists_means (hV _) (p + 1)
    exact ⟨_, .object hms⟩

theorem IsValue.exists_means (hs : IsValue IsLax d k s ns) (p : ℕ) :
    ∃ v, ValueMeans host d k p s v := by
  induction d generalizing k p s ns with
  | zero => exact Atom.exists_means hs
  | succ d ih =>
    rcases hs with hs | hs
    · obtain ⟨v, hv⟩ := hs.exists_means
      exact ⟨v, .inl hv⟩
    · have ih' : ∀ k p s ns, IsValue IsLax d k s ns → ∃ v, ValueMeans host d k p s v :=
        fun _ p _ _ h => ih h p
      obtain ⟨v, hv⟩ := Compound.exists_means ih' hs p
      exact ⟨v, .inr hv⟩

theorem IsText.exists_means (hs : IsText IsLax d k s ns) : ∃ v, TextMeans host d k s v := by
  cases hs with
  | mk hw hs hw' =>
    obtain ⟨v, hv⟩ := hs.exists_means _
    exact ⟨v, .mk hw hv hw'⟩

end total

section domain
variable {host : Host} {V : List UInt8 → List (List UInt8) → Prop}
  {M : ℕ → List UInt8 → LuaValue → Prop} {s b : List UInt8} {v : LuaValue} {d k p : ℕ}

theorem escapeBytes_simple : ∀ x ∈ escapeBytes, x.1 ∈ simpleEscapes := by
  intro x hx
  simp only [escapeBytes, List.mem_cons, List.not_mem_nil, or_false] at hx
  rcases hx with rfl | rfl | rfl | rfl | rfl | rfl | rfl | rfl
  all_goals decide

theorem StringMeans.body (hs : StringMeans s b) : StringBody s := by
  induction hs with
  | nil => exact .nil
  | plain hc _ ih => exact .plain hc ih
  | escape hc _ ih => exact .escape (escapeBytes_simple _ hc) ih
  | unit ht hn _ ih => exact .unit ht hn ih
  | pair ht hm ht' hn _ ih => exact .pair ht hm ht' hn ih

theorem AtomMeans.atom (hs : AtomMeans host s v) : ∃ ns, Atom IsLax s ns := by
  cases hs with
  | true | false | null => exact ⟨_, .word (by decide)⟩
  | number ht => exact ⟨_, .number ht⟩
  | string hs => exact ⟨_, .string hs.body⟩

theorem ElementsMean.elements (hM : ∀ p s v, M p s v → ∃ ns, V s ns) {vs : List LuaValue}
    (hs : ElementsMean M p s vs) : ∃ ns, Elements V s ns := by
  induction hs with
  | last hw hs hw' =>
    obtain ⟨ns, hns⟩ := hM _ _ _ hs
    exact ⟨ns, .last hw hns hw'⟩
  | cons hw hs hw' _ ih =>
    obtain ⟨ns, hns⟩ := hM _ _ _ hs
    obtain ⟨ms, hms⟩ := ih
    exact ⟨ns ++ ms, .cons hw hns hw' hms⟩

theorem KeyMeans.key (hs : KeyMeans s b) : Key s := by
  cases hs with
  | mk hw hk hw' hw'' => exact .mk hw hk.body hw' hw''

theorem MembersMean.members (hM : ∀ p s v, M p s v → ∃ ns, V s ns)
    {ms : List (List UInt8 × LuaValue)} (hs : MembersMean M p s ms) : ∃ ns, Members V s ns := by
  induction hs with
  | last hk hs hw =>
    obtain ⟨ns, hns⟩ := hM _ _ _ hs
    exact ⟨ns, .last hk.key hns hw⟩
  | cons hk hs hw _ ih =>
    obtain ⟨ns, hns⟩ := hM _ _ _ hs
    obtain ⟨ms, hms⟩ := ih
    exact ⟨ns ++ ms, .cons hk.key hns hw hms⟩

theorem CompoundMeans.compound {V : ℕ → List UInt8 → List (List UInt8) → Prop}
    {M : ℕ → ℕ → List UInt8 → LuaValue → Prop} (hM : ∀ k p s v, M k p s v → ∃ ns, V k s ns)
    (hs : CompoundMeans M k p s v) : ∃ ns, Compound V k s ns := by
  cases hs with
  | emptyArray hw => exact ⟨[], .emptyArray hw⟩
  | array hs => exact (hs.elements (hM _)).imp fun _ => .array
  | emptyObject hw => exact ⟨[], .emptyObject hw⟩
  | object hs => exact (hs.members (hM _)).imp fun _ => .object

theorem ValueMeans.value (hs : ValueMeans host d k p s v) : ∃ ns, IsValue IsLax d k s ns := by
  induction d generalizing k p s v with
  | zero => exact AtomMeans.atom hs
  | succ d ih =>
    rcases hs with hs | hs
    · exact hs.atom.imp fun _ => .inl
    · have ih' : ∀ k p s v, ValueMeans host d k p s v → ∃ ns, IsValue IsLax d k s ns :=
        fun _ _ _ _ => ih
      obtain ⟨ns, hns⟩ := hs.compound ih'
      exact ⟨ns, .inr hns⟩

theorem TextMeans.text (hs : TextMeans host d k s v) : ∃ ns, IsText IsLax d k s ns := by
  cases hs with
  | mk hw hs hw' => exact hs.value.imp fun _ hns => .mk hw hns hw'

end domain

section bytes

theorem tail_byte : ∀ k < 64, UInt8.ofNat k ||| 0x80 = UInt8.ofNat (k + 0x80) := by decide +kernel

theorem lead_byte₂ : ∀ k < 32, UInt8.ofNat k ||| 0xc0 = UInt8.ofNat (k + 0xc0) := by decide +kernel

theorem lead_byte₃ : ∀ k < 16, UInt8.ofNat k ||| 0xe0 = UInt8.ofNat (k + 0xe0) := by decide +kernel

theorem lead_byte₄ : ∀ k < 8, UInt8.ofNat k ||| 0xf0 = UInt8.ofNat (k + 0xf0) := by decide +kernel

theorem codepointToUtf8_eq {n : ℕ} (h : n.isValidChar) : codepointToUtf8 n = utf8 n := by
  have hlt : n < 0x110000 := by
    rcases h with h | h
    · omega
    · exact h.2
  have hn : (Char.ofNat n).val.toNat = n := by
    rw [Char.ofNat, dif_pos h]
    rfl
  have hmod : ∀ k, k % 64 < 64 := fun k => Nat.mod_lt _ (by decide)
  rw [utf8, String.utf8EncodeChar, codepointToUtf8]
  simp only [hn, Nat.reducePow]
  have hle : n ≤ 0x1fffff := by omega
  by_cases h₁ : n ≤ 0x7f
  · rw [if_pos h₁, if_pos h₁]
  · rw [if_neg h₁, if_neg h₁]
    by_cases h₂ : n ≤ 0x7ff
    · rw [if_pos h₂, if_pos h₂, tail_byte _ (hmod _), lead_byte₂ _ (by omega),
        Nat.mod_eq_of_lt (a := n / 64) (by omega)]
    · rw [if_neg h₂, if_neg h₂]
      by_cases h₃ : n ≤ 0xffff
      · rw [if_pos h₃, if_pos h₃, tail_byte _ (hmod _), tail_byte _ (hmod _),
          lead_byte₃ _ (by omega),
          Nat.mod_eq_of_lt (a := n / 4096) (by omega)]
      · rw [if_neg h₃, if_neg h₃, if_pos hle, tail_byte _ (hmod _), tail_byte _ (hmod _),
          tail_byte _ (hmod _), lead_byte₄ _ (by omega),
          Nat.mod_eq_of_lt (a := n / 262144) (by omega)]

end bytes

end Lev.Json
