import Lev.JsonDecodes
import Lev.JsonEncoded

/-! What `json_encode` writes and `json_decode` reads again: strings without escapes, booleans,
`json.null`, integers of up to 14 digits, arrays without holes and tables with strings for keys. -/
namespace Lev

namespace Double

theorem natBits_lt {n : ℕ} (hn : n < 2 ^ 53) : natBits n < 1076 * 2 ^ 52 := by
  rw [natBits]
  split
  · exact Nat.mul_pos (by decide) (Nat.two_pow_pos _)
  · next hne =>
    obtain ⟨hlow, hhigh⟩ := (Nat.log2_eq_iff hne).mp rfl
    have hl : Nat.log2 n ≤ 52 := by
      by_contra hl
      have hpow : 2 ^ 53 ≤ 2 ^ Nat.log2 n := Nat.pow_le_pow_right (by decide) (by omega)
      omega
    have hq : n * 2 ^ (52 - Nat.log2 n) < 2 ^ 53 := by
      calc n * 2 ^ (52 - Nat.log2 n) < 2 ^ (Nat.log2 n + 1) * 2 ^ (52 - Nat.log2 n) :=
            Nat.mul_lt_mul_of_pos_right hhigh (Nat.two_pow_pos _)
        _ = 2 ^ 53 := by rw [← pow_add, show Nat.log2 n + 1 + (52 - Nat.log2 n) = 53 by omega]
    dsimp only
    rw [if_pos hl]
    omega

theorem exponent_ofInt {z : ℤ} (hz : z.natAbs < 2 ^ 53) : (ofInt z).exponent ≠ 2047 := by
  have hbits := natBits_lt hz
  rw [exponent, ofInt, ofBits_bits]
  split
  · omega
  · omega

theorem isnan_ofInt {z : ℤ} (hz : z.natAbs < 2 ^ 53) : (ofInt z).isnan = false := by
  rw [isnan, beq_eq_false_iff_ne.mpr (exponent_ofInt hz), Bool.false_and]

theorem isinf_ofInt {z : ℤ} (hz : z.natAbs < 2 ^ 53) : (ofInt z).isinf = false := by
  rw [isinf, beq_eq_false_iff_ne.mpr (exponent_ofInt hz), Bool.false_and]

theorem toInt?_ofInt {z : ℤ} (hz : z.natAbs < 2 ^ 53) : (ofInt z).toInt? = some z := by
  rcases Int.natAbs_eq z with hpos | hneg
  · have hnat := toInt?_ofNat hz
    rwa [← hpos] at hnat
  · have hbits := natBits_lt hz
    rcases Nat.eq_zero_or_pos z.natAbs with hzero | hpos
    · rw [Int.natAbs_eq_zero.mp hzero]
      decide
    · have hlt : z < 0 := by omega
      have hnat : ¬ (z.natAbs : ℤ) < 0 := by omega
      have hwhole : (ofInt z).bits = natBits z.natAbs + 2 ^ 63 := by
        rw [ofInt, ofBits_bits, if_pos hlt]
        omega
      have hwhole' : (ofInt z.natAbs).bits = natBits z.natAbs := by
        rw [ofInt, ofBits_bits, if_neg hnat, Int.natAbs_natCast]
        omega
      have hexp : (ofInt z).exponent = (ofInt z.natAbs).exponent := by
        rw [exponent, exponent, hwhole, hwhole']
        omega
      have hfrac : (ofInt z).fraction = (ofInt z.natAbs).fraction := by
        rw [fraction, fraction, hwhole, hwhole']
        omega
      have hsign : (ofInt z).negative = true := by
        rw [negative, hwhole, decide_eq_true_eq]
        omega
      have hsign' : (ofInt z.natAbs).negative = false := by
        rw [negative, hwhole', decide_eq_false_iff_not]
        omega
      have habs := toInt?_ofNat hz
      rw [toInt?, hsign'] at habs
      obtain ⟨n, hn, hcast⟩ := Option.map_eq_some_iff.mp habs
      have habs' : (ofInt z).natAbs? = some n := by
        rw [← hn, natAbs?, natAbs?, hexp, hfrac]
      rw [toInt?, habs', hsign, Option.map_some]
      simp only [Bool.false_eq_true, if_false, if_true] at hcast ⊢
      exact congrArg some (by omega)

theorem ofInt_eq_iff {m n : ℕ} (hm : m < 2 ^ 53) (hn : n < 2 ^ 53) :
    (ofInt m).eq (ofInt n) = true ↔ m = n := by
  constructor
  · intro heq
    have hsame := toInt?_congr heq
    rw [toInt?_ofNat hm, toInt?_ofNat hn] at hsame
    exact Int.ofNat.inj (Option.some.inj hsame)
  · rintro rfl
    rw [eq, isnan_ofInt (z := m) hm, beq_self_eq_true]
    rfl

end Double

namespace Json
open CInt Slab Memory Run Lua

section values
variable {τ : Type}

def Unescaped (s : List UInt8) : Prop := ∀ c ∈ s, char2escape c = none

inductive SimpleAtom : Value τ → Prop
  | boolean (b : Bool) : SimpleAtom (.boolean b)
  | null : SimpleAtom .null
  | string {s : List UInt8} (hs : Unescaped s) : SimpleAtom (.string s)
  | integer {z : ℤ} (hz : z.natAbs < 10 ^ 14) : SimpleAtom (.number (.ofInt z))

def arrayPairs (elem : ℕ → Value τ) (is : List ℕ) : Pairs τ :=
  is.map fun i : ℕ => (.number (.ofInt (i : ℤ)), elem i)

def objectPairs (ms : List (List UInt8 × Value τ)) : Pairs τ := ms.map fun m => (.string m.1, m.2)

/-- Arrays without holes, their pairs in whatever order, and tables with strings for keys. An
array of 2^20 elements or more has no text below 1 MiB. -/
inductive SimpleTable (V : Value τ → Prop) : Pairs τ → Prop
  | array {n : ℕ} {is : List ℕ} {elem : ℕ → Value τ} (hn : 0 < n ∧ n < 2 ^ 20)
    (his : is.Perm (List.range' 1 n)) (hV : ∀ i ∈ is, V (elem i)) :
    SimpleTable V (arrayPairs elem is)
  | object {ms : List (List UInt8 × Value τ)} (hkeys : (ms.map Prod.fst).Nodup)
    (hms : ∀ m ∈ ms, Unescaped m.1 ∧ V m.2) :
    SimpleTable V (objectPairs ms)

/-- The values that come back, with tables nested at most so deep. -/
def Simple (tables : τ → Pairs τ) : ℕ → Value τ → Prop
  | 0 => SimpleAtom
  | d + 1 => fun v =>
    SimpleAtom v ∨ ∃ t, v = .table t ∧ SimpleTable (Simple tables d) (tables t)

inductive SameAtom : Value τ → LuaValue → Prop
  | boolean (b : Bool) : SameAtom (.boolean b) (.boolean b)
  | null : SameAtom .null (.foreign .lightuserdata)
  | string (s : List UInt8) : SameAtom (.string s) (.string s)
  | number (n : Double) : SameAtom (.number n) (.number n)

/-- The pairs of an array part, from an index on. -/
def indexed : ℕ → List LuaValue → List (LuaValue × LuaValue)
  | _, [] => []
  | i, v :: vs => (.number (.ofInt i), v) :: indexed (i + 1) vs

def SamePair (S : Value τ → LuaValue → Prop) (x : Value τ × Value τ) (y : LuaValue × LuaValue) :
    Prop :=
  SameAtom x.1 y.1 ∧ S x.2 y.2

def SameTable (S : Value τ → LuaValue → Prop) (pairs : Pairs τ) (arr : List LuaValue)
    (hash : List (LuaValue × LuaValue)) : Prop :=
  ∃ ps, pairs.Perm ps ∧ List.Forall₂ (SamePair S) ps (indexed 1 arr ++ hash)

/-- Two values are equal, tables by their pairs. -/
def Same (tables : τ → Pairs τ) : ℕ → Value τ → LuaValue → Prop
  | 0 => SameAtom
  | d + 1 => fun v x => SameAtom v x ∨ ∃ t p arr hash, v = .table t ∧ x = .table p arr hash ∧
      SameTable (Same tables d) (tables t) arr hash

theorem Same.isNil {tables : τ → Pairs τ} {d : ℕ} {v : Value τ} {x : LuaValue}
    (h : Same tables d v x) : x.isNil = false := by
  have hatom : ∀ {v : Value τ}, SameAtom v x → x.isNil = false := by
    intro v hv
    cases hv with
    | boolean | null | string | number => rfl
  cases d with
  | zero => exact hatom h
  | succ d =>
    rcases h with h | ⟨t, p, arr, hash, -, rfl, -⟩
    · exact hatom h
    · rfl

/-- A call appends the text, of pieces without escapes, and raises no error. -/
structure Emits {α : Type} (w : Written α) (a : α) (t : List UInt8) : Prop where
  result : w.result = .ok a
  plain : w.All Piece.Plain
  text : w.pieces.flatMap Piece.text = t

theorem Emits.bind {α β : Type} {x : Written α} {f : α → Written β} {a : α} {b : β}
    {s t : List UInt8} (hx : Emits x a s) (hf : Emits (f a) b t) : Emits (x >>= f) b (s ++ t) := by
  have hbind : x >>= f = ⟨x.pieces ++ (f a).pieces, (f a).result⟩ := by
    simp only [Bind.bind, hx.result]
  rw [hbind]
  refine ⟨hf.result, ?_, ?_⟩
  · intro p hp
    exact (List.mem_append.mp hp).elim (hx.plain p) (hf.plain p)
  · rw [List.flatMap_append, hx.text, hf.text]

theorem emits_pure {α : Type} (a : α) : Emits (pure a) a [] :=
  ⟨rfl, Written.all_pure a, rfl⟩

theorem emits_append {p : Piece} (hp : p.Plain) : Emits (append p) () p.text :=
  ⟨rfl, Written.all_append hp, by rw [append, List.flatMap_singleton]⟩

/-- What is appended for `v` means, wherever it stands, the same as `v`. -/
def Encodes (S : Value τ → LuaValue → Prop) (M : ℕ → List UInt8 → LuaValue → Prop)
    (w : Written Unit) (v : Value τ) : Prop :=
  ∃ t, Emits w () t ∧ ∀ p, ∃ x, M p t x ∧ S v x

end values

section loops
variable {τ : Type} {S : Value τ → LuaValue → Prop} {M : ℕ → List UInt8 → LuaValue → Prop}
  {f : Value τ → Written Unit} {host : Host} {o : Options}

theorem blank_nil : Blank [] := fun c hc => by cases hc

/-- The comma before an element that is not the first one. -/
def commaText (comma : Bool) : List UInt8 := if comma then [44] else []

theorem appendComma_emits (comma : Bool) : Emits (appendComma comma) () (commaText comma) := by
  cases comma with
  | true => exact emits_append trivial
  | false => exact emits_pure ()

theorem rawgeti_map {is : List ℕ} {elem : ℕ → Value τ} (his : ∀ i ∈ is, i < 2 ^ 53) {i : ℕ}
    (hi : i ∈ is) : rawgeti (arrayPairs elem is) i = elem i := by
  induction is with
  | nil => cases hi
  | cons j is ih =>
    have hj := his j List.mem_cons_self
    have hlt := his i hi
    rw [rawgeti, arrayPairs, List.map_cons, List.find?_cons]
    dsimp only
    by_cases heq : j = i
    · rw [(Double.ofInt_eq_iff hj hlt).mpr heq, heq]
      rfl
    · have hne : (Double.ofInt j).eq (Double.ofInt i) = false :=
        Bool.eq_false_iff.mpr fun h => heq ((Double.ofInt_eq_iff hj hlt).mp h)
      rw [hne]
      exact ih (fun k hk => his k (List.mem_cons_of_mem _ hk))
        ((List.mem_cons.mp hi).resolve_left fun h => heq h.symm)

/-- The elements of an array, by induction on their number. -/
theorem arrayLoop_encodes {pairs : Pairs τ} {elem : ℕ → Value τ} {n i : ℕ} (hn : 0 < n)
    (hf : ∀ j, i ≤ j → j < i + n → rawgeti pairs j = elem j ∧ Encodes S M (f (elem j)) (elem j))
    (comma : Bool) :
    ∃ t, Emits (arrayLoop f pairs n i comma) () (commaText comma ++ t) ∧
      ∀ p, ∃ xs, ElementsMean M p t xs ∧
        List.Forall₂ (SamePair S) (arrayPairs elem (List.range' i n)) (indexed i xs) := by
  induction n generalizing i comma with
  | zero => exact absurd hn (Nat.lt_irrefl 0)
  | succ n ih =>
    obtain ⟨hget, s, hs, hmeans⟩ := hf i le_rfl (by omega)
    have helem : Emits (f (rawgeti pairs i)) () s := hget.symm ▸ hs
    rcases Nat.eq_zero_or_pos n with rfl | hpos
    · refine ⟨s ++ [], (appendComma_emits comma).bind (helem.bind (emits_pure ())), fun p => ?_⟩
      obtain ⟨x, hx, hsame⟩ := hmeans p
      exact ⟨[x], .last blank_nil hx blank_nil, .cons ⟨.number _, hsame⟩ .nil⟩
    · obtain ⟨t, ht, helements⟩ := ih hpos (i := i + 1)
        (fun j hj hlt => hf j (by omega) (by omega)) true
      refine ⟨s ++ 44 :: t, (appendComma_emits comma).bind (helem.bind ht), fun p => ?_⟩
      obtain ⟨x, hx, hsame⟩ := hmeans p
      obtain ⟨xs, hxs, hrest⟩ := helements (p + ([] ++ (s ++ [])).length + 1)
      exact ⟨x :: xs, .cons blank_nil hx blank_nil hxs, .cons ⟨.number _, hsame⟩ hrest⟩

theorem unescaped_means {s : List UInt8} (hs : Unescaped s) : StringMeans s s := by
  have hchar : ∀ c : UInt8, char2escape c = none → c ≠ 34 ∧ c ≠ 92 ∧ c ≠ 0 :=
    forall_byte (by decide +kernel)
  induction s with
  | nil => exact .nil
  | cons c s ih =>
    exact .plain (hchar c (hs c List.mem_cons_self))
      (ih fun d hd => hs d (List.mem_cons_of_mem _ hd))

theorem string_text {s : List UInt8} (hs : Unescaped s) :
    (Piece.string s).text = 34 :: (s ++ [34]) := by
  rw [Piece.text, escaped_plain hs]

theorem objectLoop_encodes {ms : List (List UInt8 × Value τ)} (hne : ms ≠ [])
    (hms : ∀ m ∈ ms, Unescaped m.1 ∧ Encodes S M (f m.2) m.2) (comma : Bool) :
    ∃ t, Emits (objectLoop host o f (objectPairs ms) comma) ()
        (commaText comma ++ t) ∧
      ∀ p, ∃ xs, MembersMean M p t xs ∧
        List.Forall₂ (fun m x => m.1 = x.1 ∧ S m.2 x.2) ms xs := by
  induction ms generalizing comma with
  | nil => exact absurd rfl hne
  | cons m ms ih =>
    obtain ⟨hkey, s, hs, hmeans⟩ := hms m List.mem_cons_self
    obtain ⟨k, hk⟩ : ∃ k, k = (Piece.string m.1).text ++ [58] := ⟨_, rfl⟩
    have hk' : Emits (appendKey host o (.string m.1 : Value τ)) () k := by
      rw [hk]
      exact Emits.bind (emits_append hkey) (emits_append (p := .char 58) trivial)
    have hkmeans : KeyMeans k m.1 := by
      rw [hk, string_text hkey]
      exact .mk blank_nil (unescaped_means hkey) blank_nil blank_nil
    cases ms with
    | nil =>
      refine ⟨k ++ (s ++ []), (appendComma_emits comma).bind
        (hk'.bind (hs.bind (emits_pure ()))), fun p => ?_⟩
      obtain ⟨x, hx, hsame⟩ := hmeans (p + k.length)
      exact ⟨[(m.1, x)], .last hkmeans hx blank_nil, .cons ⟨rfl, hsame⟩ .nil⟩
    | cons m' ms =>
      obtain ⟨t, ht, hmembers⟩ := ih (List.cons_ne_nil _ _)
        (fun q hq => hms q (List.mem_cons_of_mem _ hq)) true
      refine ⟨k ++ (s ++ 44 :: t), (appendComma_emits comma).bind (hk'.bind (hs.bind ht)),
        fun p => ?_⟩
      obtain ⟨x, hx, hsame⟩ := hmeans (p + k.length)
      obtain ⟨xs, hxs, hrest⟩ := hmembers (p + (k ++ (s ++ [])).length + 1)
      exact ⟨(m.1, x) :: xs, .cons hkmeans hx blank_nil hxs, .cons ⟨rfl, hsame⟩ hrest⟩

end loops

section numbers

def decimal (z : ℤ) : List UInt8 :=
  (if z < 0 then [45] else []) ++ if z = 0 then [48] else digits z.natAbs

theorem intPart_digits {n : ℕ} (hn : 0 < n) : IntPart (digits n) := by
  have hne : Nat.digits 10 n ≠ [] := Nat.digits_ne_nil_iff_ne_zero.mpr (Nat.ne_of_gt hn)
  have hlt : ∀ d ∈ Nat.digits 10 n, d < 10 := fun d hd => Nat.digits_lt_base (by decide) hd
  have hbyte : ∀ d < 10, Digit (UInt8.ofNat (48 + d)) := by decide +kernel
  have hlead : ∀ d < 10, d ≠ 0 → 49 ≤ UInt8.ofNat (48 + d) ∧ UInt8.ofNat (48 + d) ≤ 57 := by
    decide +kernel
  have hlast := List.getLast_mem hne
  have hsplit : (Nat.digits 10 n).reverse =
      (Nat.digits 10 n).getLast hne :: (Nat.digits 10 n).dropLast.reverse := by
    nth_rewrite 1 [← List.dropLast_append_getLast hne]
    rw [List.reverse_append]
    rfl
  rw [digits, hsplit, List.map_cons]
  refine .more (hlead _ (hlt _ hlast) (Nat.getLast_digit_ne_zero 10 (Nat.ne_of_gt hn))) ?_
  intro c hc
  obtain ⟨d, hd, rfl⟩ := List.mem_map.mp hc
  exact hbyte d (hlt d (List.mem_of_mem_dropLast (List.mem_reverse.mp hd)))

theorem decimal_isLax (z : ℤ) : IsLax (decimal z) := by
  have hsign : (if z < 0 then [45] else []) = ([] : List UInt8) ∨
      (if z < 0 then [45] else []) = ([45] : List UInt8) := by
    split
    · exact .inr rfl
    · exact .inl rfl
  have hint : IntPart (if z = 0 then [48] else digits z.natAbs) := by
    split
    · exact .zero
    · next hne => exact intPart_digits (Int.natAbs_pos.mpr hne)
  have hnumber := IsNumber.whole hsign hint .none
  rw [List.append_nil] at hnumber
  exact .number hnumber

/-- `snprintf` with `%.14g` and `strtod` keep integers of up to 14 digits. -/
structure Host.KeepsIntegers (host : Host) : Prop where
  prints : ∀ z : ℤ, z.natAbs < 10 ^ 14 → host.format 14 (.ofInt z) = decimal z
  reads : ∀ z : ℤ, z.natAbs < 10 ^ 14 → (host.strtod (decimal z)).1 = .ofInt z

theorem appendNumber_emits {host : Host} {o : Options} (hhost : host.KeepsIntegers)
    (ho : o.encodeNumberPrecision = 14) {z : ℤ} (hz : z.natAbs < 10 ^ 14) :
    Emits (appendNumber host o (.ofInt z)) () (decimal z) := by
  have hlt : z.natAbs < 2 ^ 53 := hz.trans (by decide)
  have hnumber : Emits (append (.number (host.format o.encodeNumberPrecision (.ofInt z)))) ()
      (decimal z) := by
    rw [ho, hhost.prints z hz]
    exact emits_append trivial
  have hneither : ¬ ((Double.ofInt z).isinf = true ∨ (Double.ofInt z).isnan = true) := by
    rw [Double.isinf_ofInt hlt, Double.isnan_ofInt hlt]
    decide
  rw [appendNumber]
  split
  · rwa [if_neg hneither]
  · rwa [if_neg fun h => hneither (.inr h), if_neg fun h => hneither (.inl h)]
  · rwa [if_neg hneither]

end numbers

section lengths
variable {τ : Type} {o : Options}

theorem maxIndex_ofInt {m i : ℕ} (hi : 1 ≤ i) (hlt : i < 2 ^ 31) :
    maxIndex m (.ofInt i) = some ((max m i : ℕ) : ℤ) := by
  have hinf : (Double.ofInt i).isinf = false :=
    Double.isinf_ofInt (by rw [Int.natAbs_natCast]; omega)
  rw [maxIndex, hinf, if_neg Bool.false_ne_true, Double.toInt?_ofNat (by omega)]
  dsimp only
  rw [if_neg (by omega)]
  by_cases hle : m < i
  · rw [if_pos (by omega), if_pos (by omega), Nat.max_eq_right hle.le]
  · rw [if_neg (by omega), Nat.max_eq_left (Nat.not_lt.mp hle)]

theorem countIndices_array {is : List ℕ} {elem : ℕ → Value τ}
    (his : ∀ i ∈ is, 1 ≤ i ∧ i < 2 ^ 31) (m items : ℕ) :
    countIndices (arrayPairs elem is) m items =
      some (((is.foldl max m : ℕ) : ℤ), items + is.length) := by
  induction is generalizing m items with
  | nil => rfl
  | cons i is ih =>
    obtain ⟨hone, hlt⟩ := his i List.mem_cons_self
    rw [arrayPairs, List.map_cons, countIndices, maxIndex_ofInt hone hlt]
    have hrest := ih (fun j hj => his j (List.mem_cons_of_mem _ hj)) (max m i) (items + 1)
    rw [List.foldl_cons, List.length_cons, ← Nat.add_assoc, Nat.add_right_comm]
    exact hrest

theorem foldl_max_range' (n i m : ℕ) (hm : m ≤ i) (hn : 0 < n) :
    (List.range' i n).foldl max m = i + n - 1 := by
  induction n generalizing i m with
  | zero => exact absurd hn (Nat.lt_irrefl 0)
  | succ n ih =>
    rw [List.range'_succ, List.foldl_cons, Nat.max_eq_right hm]
    rcases Nat.eq_zero_or_pos n with rfl | hpos
    · rfl
    · rw [ih (i + 1) i (Nat.le_succ i) hpos]
      omega

theorem arrayLength_emits {n : ℕ} {is : List ℕ} {elem : ℕ → Value τ} (hn : 0 < n ∧ n < 2 ^ 20)
    (his : is.Perm (List.range' 1 n)) (ho : o.encodeSparseRatio < 2 ^ 11) :
    Emits (luaArrayLength o (arrayPairs elem is)) (n : ℤ) [] := by
  have hmem : ∀ i ∈ is, 1 ≤ i ∧ i < 2 ^ 31 := by
    intro i hi
    have hrange := List.mem_range'_1.mp (his.mem_iff.mp hi)
    omega
  have hmax : is.foldl max 0 = n := by
    rw [his.foldl_eq 0, foldl_max_range' n 1 0 (Nat.zero_le 1) hn.1]
    omega
  have hlength : is.length = n := his.length_eq.trans (List.length_range' ..)
  have hcount : countIndices (arrayPairs elem is) 0 0 = some ((n : ℤ), n) := by
    have hall : countIndices (arrayPairs elem is) (0 : ℕ) 0 = _ := countIndices_array hmem 0 0
    rw [hmax, Nat.zero_add, hlength] at hall
    exact hall
  have hsmall : n * o.encodeSparseRatio < 2 ^ 31 :=
    calc n * o.encodeSparseRatio ≤ n * 2 ^ 11 := Nat.mul_le_mul_left n ho.le
      _ < 2 ^ 20 * 2 ^ 11 := Nat.mul_lt_mul_of_pos_right hn.2 (Nat.two_pow_pos 11)
  have hdense : ¬ (0 < o.encodeSparseRatio ∧ toInt (n * o.encodeSparseRatio) < (n : ℤ) ∧
      (o.encodeSparseSafe : ℤ) < n) := by
    rintro ⟨hpos, hlt, -⟩
    rw [toInt_of_lt hsmall] at hlt
    have hle := Nat.le_mul_of_pos_right n hpos
    omega
  rw [luaArrayLength, hcount]
  dsimp only
  rw [if_neg hdense]
  exact emits_pure _

theorem objectLength_emits (ms : List (List UInt8 × Value τ)) :
    ∃ n : ℤ, Emits (luaArrayLength o (objectPairs ms)) n [] ∧ ¬ 0 < n := by
  cases ms with
  | nil =>
    have hzero : ¬ (0 < o.encodeSparseRatio ∧ toInt (0 * o.encodeSparseRatio) < 0 ∧
        (o.encodeSparseSafe : ℤ) < 0) := by
      rintro ⟨-, -, hlt⟩
      omega
    have hlength : luaArrayLength o (objectPairs ([] : List (List UInt8 × Value τ))) = pure 0 :=
      if_neg hzero
    exact ⟨0, hlength ▸ emits_pure 0, Int.lt_irrefl 0⟩
  | cons m ms =>
    have hlength : luaArrayLength o (objectPairs (m :: ms)) = pure (-1) := rfl
    exact ⟨-1, hlength ▸ emits_pure (-1), by decide⟩

end lengths

section data
variable {τ : Type} {tables : τ → Pairs τ} {host : Host} {o : Options}

theorem ValueMeans.atom {d k p : ℕ} {s : List UInt8} {x : LuaValue} (hs : AtomMeans host s x) :
    ValueMeans host d k p s x := by
  cases d with
  | zero => exact hs
  | succ d => exact .inl hs

theorem Same.atom {d : ℕ} {v : Value τ} {x : LuaValue} (h : SameAtom v x) : Same tables d v x := by
  cases d with
  | zero => exact h
  | succ d => exact .inl h

theorem atom_encodes (hhost : host.KeepsIntegers) (ho : o.encodeNumberPrecision = 14)
    {v : Value τ} (hv : SimpleAtom v) (d levels top e k : ℕ) :
    Encodes (Same tables d) (ValueMeans host e k) (appendData host o tables levels top v) v := by
  rw [appendData.eq_def]
  cases hv with
  | boolean b =>
    refine ⟨_, emits_append trivial,
      fun p => ⟨.boolean b, ValueMeans.atom ?_, Same.atom (.boolean b)⟩⟩
    cases b with
    | true => exact .true
    | false => exact .false
  | null =>
    exact ⟨_, emits_append trivial, fun p => ⟨_, ValueMeans.atom .null, Same.atom .null⟩⟩
  | string hs =>
    refine ⟨_, emits_append hs, fun p => ⟨_, ValueMeans.atom ?_, Same.atom (.string _)⟩⟩
    rw [string_text hs]
    exact .string (unescaped_means hs)
  | @integer z hz =>
    refine ⟨_, appendNumber_emits hhost ho hz, fun p =>
      ⟨.number (.ofInt z), ValueMeans.atom ?_, Same.atom (.number _)⟩⟩
    have hnumber : AtomMeans host _ _ := .number (decimal_isLax z)
    rwa [hhost.reads z hz] at hnumber

theorem memberPairs_eq {xs : List (List UInt8 × LuaValue)} (hkeys : (xs.map Prod.fst).Nodup)
    (hnil : ∀ x ∈ xs, x.2.isNil = false) :
    memberPairs xs = xs.map fun x => (.string x.1, x.2) := by
  have hall : ∀ (xs : List (List UInt8 × LuaValue)) (hash : List (LuaValue × LuaValue)),
      (xs.map Prod.fst).Nodup → (∀ x ∈ xs, x.2.isNil = false) →
      (∀ x ∈ xs, ∀ p ∈ hash, p.1.rawequal (.string x.1) = false) →
      xs.foldl (fun hash x => setHash (.string x.1) x.2 hash) hash =
        hash ++ xs.map fun x => (.string x.1, x.2) := by
    intro xs
    induction xs with
    | nil => exact fun hash _ _ _ => (List.append_nil hash).symm
    | cons x xs ih =>
      intro hash hkeys hnil hnew
      rw [List.map_cons, List.nodup_cons] at hkeys
      rw [List.foldl_cons, setHash_of_new (hnil x List.mem_cons_self) (hnew x List.mem_cons_self),
        ih _ hkeys.2 (fun y hy => hnil y (List.mem_cons_of_mem _ hy)), List.map_cons,
        List.append_assoc]
      · rfl
      · intro y hy p hp
        rcases List.mem_append.mp hp with hp | hp
        · exact hnew y (List.mem_cons_of_mem _ hy) p hp
        · obtain rfl := List.mem_singleton.mp hp
          refine beq_eq_false_iff_ne.mpr fun heq => hkeys.1 ?_
          exact heq ▸ List.mem_map_of_mem hy
  exact hall xs [] hkeys hnil fun x _ p hp => by cases hp

theorem members_same {S : Value τ → LuaValue → Prop} {ms : List (List UInt8 × Value τ)}
    {xs : List (List UInt8 × LuaValue)}
    (h : List.Forall₂ (fun m x => m.1 = x.1 ∧ S m.2 x.2) ms xs) :
    xs.map Prod.fst = ms.map Prod.fst ∧ (∀ x ∈ xs, ∃ v, S v x.2) ∧
      List.Forall₂ (SamePair S) (objectPairs ms) (xs.map fun x => (.string x.1, x.2)) := by
  induction h with
  | nil => exact ⟨rfl, List.forall_mem_nil _, .nil⟩
  | @cons m x ms xs hhead _ ih =>
    obtain ⟨hfst, hvalues, hpairs⟩ := ih
    refine ⟨?_, List.forall_mem_cons.mpr ⟨⟨m.2, hhead.2⟩, hvalues⟩, .cons ⟨?_, hhead.2⟩ hpairs⟩
    · rw [List.map_cons, List.map_cons, hfst, hhead.1]
    · have hkey : SameAtom (.string m.1 : Value τ) (.string x.1) := hhead.1 ▸ .string m.1
      exact hkey

theorem table_encodes {S : Value τ → LuaValue → Prop} {V : Value τ → Prop}
    {M : ℕ → ℕ → List UInt8 → LuaValue → Prop} {f g : Value τ → Written Unit} {pairs : Pairs τ}
    {k : ℕ} (ho : o.encodeSparseRatio < 2 ^ 11) (hS : ∀ v x, S v x → x.isNil = false)
    (hf : ∀ v, V v → Encodes S (M (k + 2)) (f v) v)
    (hg : ∀ v, V v → Encodes S (M (k + 1)) (g v) v) (ht : SimpleTable V pairs) :
    ∃ t, Emits (do
        let len ← luaArrayLength o pairs
        if 0 < len then appendArray f pairs len.toNat else appendObject host o g pairs) () t ∧
      ∀ p, ∃ arr hash, CompoundMeans M (k + 3) p t (.table p arr hash) ∧
        SameTable S pairs arr hash := by
  cases ht with
  | @array n is elem hn his hV =>
    have hmem : ∀ i ∈ is, i < 2 ^ 53 := by
      intro i hi
      have hrange := List.mem_range'_1.mp (his.mem_iff.mp hi)
      omega
    have helem : ∀ j, 1 ≤ j → j < 1 + n →
        rawgeti (arrayPairs elem is) j = elem j ∧ Encodes S (M (k + 2)) (f (elem j)) (elem j) := by
      intro j hj hlt
      have hin : j ∈ is := his.mem_iff.mpr (List.mem_range'_1.mpr ⟨hj, hlt⟩)
      exact ⟨rawgeti_map hmem hin, hf _ (hV j hin)⟩
    obtain ⟨t, hloop, hmeans⟩ := arrayLoop_encodes hn.1 helem false
    have harray : Emits (appendArray f (arrayPairs elem is) n) () (0x5b :: (t ++ [0x5d])) :=
      (emits_append (p := .char 0x5b) trivial).bind
        (hloop.bind (emits_append (p := .char 0x5d) trivial))
    refine ⟨0x5b :: (t ++ [0x5d]), (arrayLength_emits hn his ho).bind (s := []) ?_, fun p => ?_⟩
    · have hpos : 0 < (n : ℤ) := by omega
      rw [if_pos hpos, Int.toNat_natCast]
      exact harray
    · obtain ⟨xs, hxs, hsame⟩ := hmeans (p + 1)
      refine ⟨xs, [], .array hxs, arrayPairs elem (List.range' 1 n), his.map _, ?_⟩
      rwa [List.append_nil]
  | @object ms hkeys hms =>
    obtain ⟨len, hlength, hnot⟩ := objectLength_emits (o := o) ms
    have hobject : ∀ t, Emits (objectLoop host o g (objectPairs ms) false) () t →
        Emits (do
          let len ← luaArrayLength o (objectPairs ms)
          if 0 < len then appendArray f (objectPairs ms) len.toNat
          else appendObject host o g (objectPairs ms)) () (0x7b :: (t ++ [0x7d])) := by
      intro t hloop
      refine hlength.bind (s := []) ?_
      rw [if_neg hnot]
      exact (emits_append (p := .char 0x7b) trivial).bind
        (hloop.bind (emits_append (p := .char 0x7d) trivial))
    by_cases hne : ms = []
    · subst hne
      refine ⟨_, hobject [] (emits_pure ()),
        fun p => ⟨[], [], .emptyObject blank_nil, [], ?_, .nil⟩⟩
      exact List.Perm.refl []
    · obtain ⟨t, hloop, hmeans⟩ := objectLoop_encodes (o := o) hne
        (fun m hm => ⟨(hms m hm).1, hg m.2 (hms m hm).2⟩) false
      refine ⟨_, hobject t hloop, fun p => ?_⟩
      obtain ⟨xs, hxs, hsame⟩ := hmeans (p + 1)
      obtain ⟨hfst, hvalues, hpairs⟩ := members_same hsame
      refine ⟨[], memberPairs xs, .object hxs, objectPairs ms, List.Perm.refl _, ?_⟩
      rw [memberPairs_eq (hfst ▸ hkeys) fun x hx => ?_]
      · exact hpairs
      · obtain ⟨v, hv⟩ := hvalues x hx
        exact hS v _ hv

/-- The induction is on the depth; the levels left on both sides are enough for it, and so are
the slots of the Lua stack: two for each table that is open, and three. -/
theorem data_encodes (hhost : host.KeepsIntegers) (ho : o.encodeNumberPrecision = 14)
    (hratio : o.encodeSparseRatio < 2 ^ 11) {d levels top e k : ℕ} (hlevels : d ≤ levels)
    (hmax : levels ≤ o.encodeMaxDepth) (htop : top + (2 * d + 1) ≤ host.maxCStack) (he : d ≤ e)
    (hk : 2 * d + 1 ≤ k) {v : Value τ} (hv : Simple tables d v) :
    Encodes (Same tables d) (ValueMeans host e k) (appendData host o tables levels top v) v := by
  induction d generalizing levels top e k v with
  | zero => exact atom_encodes hhost ho hv _ _ _ _ _
  | succ d ih =>
    rcases hv with hv | ⟨t, rfl, ht⟩
    · exact atom_encodes hhost ho hv _ _ _ _ _
    · obtain ⟨levels, rfl⟩ :=
        Nat.exists_eq_succ_of_ne_zero (Nat.ne_of_gt (Nat.zero_lt_of_lt hlevels))
      obtain ⟨e, rfl⟩ := Nat.exists_eq_succ_of_ne_zero (Nat.ne_of_gt (Nat.zero_lt_of_lt he))
      obtain ⟨k, rfl⟩ : ∃ j, k = j + 3 := ⟨k - 3, by omega⟩
      have hdepth :
          checkEncodeDepth host o (o.encodeMaxDepth - (levels + 1) + 1) top = pure () := by
        refine if_pos ⟨by omega, ?_⟩
        rw [Host.checkstack, decide_eq_true_iff]
        omega
      have helement : ∀ v, Simple tables d v → Encodes (Same tables d)
          (ValueMeans host e (k + 2)) (appendData host o tables levels (top + 1) v) v :=
        fun v hv => ih (by omega) (by omega) (by omega) (by omega) (by omega) hv
      have hmember : ∀ v, Simple tables d v → Encodes (Same tables d)
          (ValueMeans host e (k + 1)) (appendData host o tables levels (top + 2) v) v :=
        fun v hv => ih (by omega) (by omega) (by omega) (by omega) (by omega) hv
      obtain ⟨text, hemits, hmeans⟩ :=
        table_encodes hratio (fun _ _ => Same.isNil) helement hmember ht
      refine ⟨text, ?_, fun p => ?_⟩
      · rw [appendData, hdepth]
        exact hemits
      · obtain ⟨arr, hash, hcompound, hsame⟩ := hmeans p
        exact ⟨_, .inr hcompound, .inr ⟨t, p, arr, hash, rfl, rfl, hsame⟩⟩

end data

section roundTrip
variable {τ : Type} {tables : τ → Pairs τ} {host : Host}

theorem Piece.text_length {p : Piece} (hplain : p.Plain) : p.text.length = p.advance := by
  cases p with
  | char c => rfl
  | mem c => rfl
  | number t => rfl
  | string s =>
    rw [string_text hplain, Piece.advance, stringWidth, charWidth_sum hplain, List.length_cons,
      List.length_append, List.length_singleton]

theorem Granted.text_lt {ps : List Piece} {n : ℕ} (hg : Granted n ps) (hn : n < 2 ^ 20)
    (hplain : ∀ p ∈ ps, p.Plain) (hwhole : ∀ p ∈ ps, p.Whole) :
    n + (ps.flatMap Piece.text).length < 2 ^ 20 := by
  induction ps generalizing n with
  | nil => exact hn
  | cons p ps ih =>
    obtain ⟨hneed, hrest⟩ := hg
    have hp := hplain p List.mem_cons_self
    have hle := Piece.advance_le_need hp (hwhole p List.mem_cons_self)
    have hlength := Piece.text_length hp
    have htail := ih hrest (by omega) (fun q hq => hplain q (List.mem_cons_of_mem _ hq))
      fun q hq => hwhole q (List.mem_cons_of_mem _ hq)
    rw [List.flatMap_cons, List.length_append]
    omega

theorem jsonDecode_text {o : Options} {t : List UInt8} {x : LuaValue} (hhost : host.ReadsLongest)
    (halone : host.ReadsAlone) (ht : ValueMeans host o.decodeMaxDepth host.freeSlots 0 t x)
    (hlt : t.length < 2 ^ 20) (h : Heap) : ∃ h', jsonDecode t host o h = .ok (.value x, h') := by
  have htext : TextMeans host o.decodeMaxDepth host.freeSlots ([] ++ (t ++ [])) x :=
    .mk blank_nil ht blank_nil
  rw [List.nil_append, List.append_nil] at htext
  obtain ⟨ns, hns⟩ := htext.text
  have h0 : 0 ∉ t := hns.noNul fun _ h => h.noNul
  have hutf := not_utf (r := []) h0 fun h => by rwa [List.append_nil] at h
  have hc := cString_text h0 (r := []) (.inl rfl)
  rw [List.append_nil] at hutf hc
  exact jsonDecode_means hhost halone hlt hutf (hc.symm ▸ htext)

/-- The round trip. After any run of calls that fit, `json.decode` makes of the text that
`json.encode` returns a value equal to the one encoded, if no string in it has a character with
an escape, the Lua stack has slots for its depth, and the slab has the room for the text. -/
theorem decode_encode (host : Host) (own : BlockId → ℕ) (h : Heap) (s : State) (calls : List Call)
    (hx : Accounts h own Buffer.NoBlock) (hs : jsonCreateConfig h = some s)
    (hrun : Along (State.next host) (State.Fitting host) s calls)
    (hlongest : host.ReadsLongest) (halone : host.ReadsAlone) (hkeeps : host.KeepsIntegers)
    (hprecision : (exec (State.next host) s calls).cfg.options.encodeNumberPrecision = 14)
    (hratio : (exec (State.next host) s calls).cfg.options.encodeSparseRatio < 2 ^ 11)
    (tables : τ → Pairs τ) (v : Value τ) (d : ℕ) (hv : Simple tables d v)
    (hencode : d ≤ (exec (State.next host) s calls).cfg.options.encodeMaxDepth)
    (hdecode : d ≤ (exec (State.next host) s calls).cfg.options.decodeMaxDepth)
    (hstack : 2 * d + 2 ≤ host.maxCStack)
    (hg : Granted 0 ((exec (State.next host) s calls).data host tables v).pieces) :
    ∃ text h₁ cfg x h₂,
      jsonEncode host tables (exec (State.next host) s calls).heap
        (exec (State.next host) s calls).cfg v = some (.value text, h₁, cfg) ∧
      jsonDecode text host (exec (State.next host) s calls).cfg.options h₁ = .ok (.value x, h₂) ∧
      Same tables d v x := by
  generalize hstate : exec (State.next host) s calls = s' at *
  have hslots : 2 * d + 1 ≤ host.freeSlots := Nat.le_sub_of_add_le hstack
  have hdata : Encodes (Same tables d) _ (s'.data host tables v) v :=
    data_encodes hkeeps hprecision hratio hencode le_rfl (by omega) hdecode hslots hv
  obtain ⟨text, hemits, hmeans⟩ := hdata
  obtain ⟨x, hx', hsame⟩ := hmeans 0
  have hready : s'.Ready own := hstate ▸ ready_exec hx hs hrun
  have hplain : ∀ p ∈ (s'.data host tables v).pieces, p.Plain := hemits.plain
  obtain ⟨h₁, cfg, htext⟩ := encode_text hready hplain hg
  have hending : (s'.data host tables v).ending = .value text := by
    have hresult : (s'.data host tables v).result = .ok () := hemits.result
    rw [Written.ending, hresult, ← hemits.text]
  have hwhole := appendData_whole host s'.cfg.options tables s'.cfg.options.encodeMaxDepth 1 v
  have hlt := hg.text_lt (Nat.two_pow_pos 20) hplain hwhole
  have hlength : text.length < 2 ^ 20 := by
    rw [← hemits.text]
    rw [Nat.zero_add] at hlt
    exact hlt
  obtain ⟨h₂, hdecoded⟩ := jsonDecode_text hlongest halone hx' hlength h₁
  exact ⟨text, h₁, cfg, x, h₂, hending ▸ htext, hdecoded, hsame⟩

end roundTrip

section integers
variable {z : ℤ}

def readDigits (s : List UInt8) : ℕ := s.foldl (fun n c => n * 10 + (c.toNat - 48)) 0

def readDecimal (s : List UInt8) : ℤ :=
  if s.head? = some 45 then -(readDigits s.tail : ℤ) else readDigits s

theorem readDigits_digits (n : ℕ) : readDigits (digits n) = n := by
  have hfold : ∀ ds : List ℕ, (∀ d ∈ ds, d < 10) →
      ds.foldr (fun d n => n * 10 + ((UInt8.ofNat (48 + d)).toNat - 48)) 0 =
        Nat.ofDigits 10 ds := by
    intro ds hds
    induction ds with
    | nil => rfl
    | cons d ds ih =>
      have hd := hds d List.mem_cons_self
      have hbyte : (UInt8.ofNat (48 + d)).toNat = 48 + d := by
        rw [UInt8.toNat_ofNat']
        omega
      rw [List.foldr_cons, ih fun e he => hds e (List.mem_cons_of_mem _ he), hbyte,
        Nat.ofDigits_cons]
      omega
  rw [readDigits, digits, List.foldl_map, List.foldl_reverse,
    hfold _ fun d hd => Nat.digits_lt_base (by decide) hd, Nat.ofDigits_digits]

theorem readDecimal_decimal (z : ℤ) : readDecimal (decimal z) = z := by
  have hhead : ∀ {s : List UInt8}, IntPart s → s.head? ≠ some 45 := by
    intro s hs
    cases hs with
    | zero => decide
    | more hc hs =>
      intro h
      cases h
      exact absurd hc.1 (by decide)
  rcases lt_trichotomy z 0 with hneg | rfl | hpos
  · have htext : decimal z = 45 :: digits z.natAbs := by
      rw [decimal, if_pos hneg, if_neg hneg.ne]
      rfl
    rw [htext, readDecimal, if_pos List.head?_cons, List.tail_cons, readDigits_digits]
    omega
  · decide +kernel
  · have htext : decimal z = digits z.natAbs := by
      rw [decimal, if_neg (by omega), if_neg hpos.ne']
      rfl
    rw [htext, readDecimal, if_neg (hhead (intPart_digits (by omega))), readDigits_digits]
    omega

theorem decimal_length (hz : z.natAbs < 10 ^ 14) : (decimal z).length ≤ 15 := by
  have hlen : (digits z.natAbs).length ≤ 14 := by
    rw [digits, List.length_map, List.length_reverse]
    exact (Nat.digits_length_le_iff (by decide) _).mpr hz
  rw [decimal, List.length_append]
  split
  · split
    · decide
    · exact Nat.add_le_add (le_refl 1) hlen
  · split
    · decide
    · exact (Nat.zero_add _).trans_le (hlen.trans (by decide))

/-- A libc that keeps the integers, and makes 0 of other numbers. -/
noncomputable def integerHost : Host where
  format _ d := decimal (((d.toInt?).filter fun z => z.natAbs < 10 ^ 14).getD 0)
  format_length _ d _ := by
    have hsmall : (((d.toInt?).filter fun z => z.natAbs < 10 ^ 14).getD 0).natAbs < 10 ^ 14 := by
      cases hx : (d.toInt?).filter fun z => z.natAbs < 10 ^ 14 with
      | none => exact Nat.pow_pos (by decide)
      | some z => exact of_decide_eq_true (Option.filter_eq_some_iff.mp hx).2
    exact (decimal_length hsmall).trans (by decide)
  strtod s := (.ofInt (readDecimal (s.take (longestHost.strtod s).2)), (longestHost.strtod s).2)
  strtod_le s := longestHost.strtod_le s
  maxCStack := longestHost.maxCStack

@[simp] theorem integerHost_format (k : ℕ) (d : Double) : integerHost.format k d =
    decimal (((d.toInt?).filter fun z => z.natAbs < 10 ^ 14).getD 0) := rfl

@[simp] theorem integerHost_strtod (s : List UInt8) : integerHost.strtod s =
    (.ofInt (readDecimal (s.take (longestHost.strtod s).2)), (longestHost.strtod s).2) := rfl

theorem integerHost_reads : integerHost.ReadsLongest := longestHost_reads

theorem longest_expected {s : List UInt8} (hs : Expected s) :
    (longestHost.strtod s).2 = s.length := by
  refine le_antisymm (longestHost.strtod_le s) ((longestHost_reads s).2 s.length le_rfl ?_)
  rwa [List.take_length]

theorem integerHost_alone : integerHost.ReadsAlone := by
  intro s
  simp only [integerHost_strtod]
  have hsame : (s.take (longestHost.strtod s).2).take
      (longestHost.strtod (s.take (longestHost.strtod s).2)).2 =
        s.take (longestHost.strtod s).2 := by
    rcases Nat.eq_zero_or_pos (longestHost.strtod s).2 with hzero | hpos
    · rw [hzero, List.take_zero, List.take_nil]
    · rw [longest_expected ((longestHost_reads s).1 (Nat.ne_of_gt hpos)), List.take_length]
  exact congrArg (fun t => Double.ofInt (readDecimal t)) hsame

theorem integerHost_keeps : integerHost.KeepsIntegers where
  prints z hz := by
    rw [integerHost_format, Double.toInt?_ofInt (hz.trans (by decide)), Option.filter_some,
      if_pos (decide_eq_true hz)]
    rfl
  reads z _ := by
    simp only [integerHost_strtod]
    rw [longest_expected (decimal_isLax z).expected, List.take_length, readDecimal_decimal]

/-- An array of -2 and of a string, which `lua_next` visits backwards. -/
def backwards (_ : ℕ) : Pairs ℕ :=
  arrayPairs (fun i => if i = 1 then .number (.ofInt (-2)) else .string [97]) [2, 1]

/-- The module when a line feed and a stale byte are in the kept buffer. -/
noncomputable def afterNewline : State :=
  exec (State.next integerHost) (loaded.get loaded_isSome) [.encode (fun _ => []) (.string [10])]

/-- The array comes back. -/
theorem decode_encode_backwards : ∃ text h₁ cfg x h₂,
    jsonEncode integerHost backwards afterNewline.heap afterNewline.cfg (.table 0) =
      some (.value text, h₁, cfg) ∧
    jsonDecode text integerHost afterNewline.cfg.options h₁ = .ok (.value x, h₂) ∧
    Same backwards 1 (.table 0) x := by
  have hserved : Along (State.next integerHost) (State.Fitting integerHost)
      (loaded.get loaded_isSome) [.encode (fun _ => []) (.string [10])] := by decide +kernel
  have hs : loaded = some (loaded.get loaded_isSome) := (Option.some_get loaded_isSome).symm
  have hplain : ∀ c ∈ [97], char2escape c = none := by decide +kernel
  have hsimple : ∀ i ∈ [2, 1], Simple backwards 0
      (if i = 1 then .number (.ofInt (-2)) else .string [97]) := by
    intro i hi
    split
    · exact .integer (by decide)
    · exact .string hplain
  have hperm : [2, 1].Perm (List.range' 1 2) := by decide
  have hpieces : (afterNewline.data integerHost backwards (.table 0)).pieces =
      [.char 0x5b, .number (ascii "-2"), .char 44, .string [97], .char 0x5d] := by
    decide +kernel
  have hg : Granted 0 [.char 0x5b, .number (ascii "-2"), .char 44, .string [97], .char 0x5d] := by
    simp only [Granted]
    decide
  exact decode_encode integerHost (fun _ => 0) (levSlabFill (Heap.boot fun _ _ => 0))
    (loaded.get loaded_isSome) [.encode (fun _ => []) (.string [10])] (accounts_start _) hs hserved
    integerHost_reads integerHost_alone integerHost_keeps (by decide +kernel) (by decide +kernel)
    backwards (.table 0) 1 (.inr ⟨0, rfl, .array (by decide) hperm hsimple⟩) (by decide +kernel)
    (by decide +kernel) (by decide +kernel) (hpieces ▸ hg)

end integers

end Json

end Lev
