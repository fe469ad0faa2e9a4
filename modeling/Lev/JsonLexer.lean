import Lev.JsonGrammar

/-! A tokenizer on lists of bytes that takes what the tokens of the grammar are, with numbers
that `strtod` reads the longest of. -/
namespace Lev.Json
open Lua

/-- A token without its value, but the text of a number. -/
inductive Lexeme
  | objBegin | objEnd | arrBegin | arrEnd | colon | comma
  | string | word | end
  | number (t : List UInt8)
  deriving DecidableEq

section strings

def hex4 (r : List UInt8) : Option (ℕ × List UInt8) :=
  if r.length < 4 then none else (hexValue 0 (r.take 4)).map fun n => (n, r.drop 4)

/-- What follows the second unit of a pair. -/
def pairRest (r : List UInt8) : Option (List UInt8) :=
  if r.take 2 = [92, 117] then
    (hex4 (r.drop 2)).bind fun x => if 0xdc00 ≤ x.1 ∧ x.1 < 0xe000 then some x.2 else none
  else none

/-- What follows the unit `m` and the second of its pair. -/
def unitRest (m : ℕ) (r : List UInt8) : Option (List UInt8) :=
  if m < 0xd800 ∨ 0xe000 ≤ m then some r else if m < 0xdc00 then pairRest r else none

/-- What follows an escape whose `\u` was read. -/
def unicodeRest (r : List UInt8) : Option (List UInt8) :=
  (hex4 r).bind fun x => unitRest x.1 x.2

/-- What follows an escape whose backslash was read. -/
def escapeRest : List UInt8 → Option (List UInt8)
  | [] => none
  | c :: r => if c = 117 then unicodeRest r else if c ∈ simpleEscapes then some r else none

/-- What follows a string whose first quote was read; the fuel bounds its characters. -/
def stringRest : ℕ → List UInt8 → Option (List UInt8)
  | 0, _ => none
  | _ + 1, [] => none
  | n + 1, c :: r =>
    if c = 34 then some r
    else if c = 0 then none
    else if c = 92 then (escapeRest r).bind (stringRest n)
    else stringRest n r

variable {r r' s t : List UInt8} {n : ℕ}

theorem hex4_some (h : hex4 r = some (n, r')) : ∃ t, HexUnit t n ∧ r = t ++ r' := by
  rw [hex4] at h
  split at h
  · cases h
  · next hlen =>
    obtain ⟨m, hm, heq⟩ := Option.map_eq_some_iff.mp h
    cases heq
    exact ⟨r.take 4, ⟨List.length_take_of_le (Nat.not_lt.mp hlen), hm⟩,
      (List.take_append_drop 4 r).symm⟩

theorem HexUnit.hex4 (ht : HexUnit t n) (r : List UInt8) : hex4 (t ++ r) = some (n, r) := by
  have hlen : ¬ (t ++ r).length < 4 := by
    rw [List.length_append, ht.1]
    omega
  rw [Json.hex4, if_neg hlen, List.take_left' ht.1, List.drop_left' ht.1, ht.2]
  rfl

theorem stringRest_sound (h : stringRest n s = some r) : ∃ b, StringBody b ∧ s = b ++ 34 :: r := by
  induction n generalizing s with
  | zero => cases h
  | succ n ih =>
    cases s with
    | nil => cases h
    | cons c s =>
      rw [stringRest] at h
      split_ifs at h with hquote hnul hback
      · cases h
        exact ⟨[], .nil, by rw [hquote]; rfl⟩
      · obtain ⟨r₁, hescape, hrest⟩ := Option.bind_eq_some_iff.mp h
        obtain ⟨b, hb, rfl⟩ := ih hrest
        subst hback
        cases s with
        | nil => cases hescape
        | cons d s =>
          rw [escapeRest] at hescape
          split_ifs at hescape with hu hsimple
          · subst hu
            obtain ⟨⟨m, r₂⟩, hhex, hunit⟩ := Option.bind_eq_some_iff.mp hescape
            obtain ⟨t, ht, rfl⟩ := hex4_some hhex
            rw [unitRest] at hunit
            split_ifs at hunit with hplain hhigh
            · cases hunit
              exact ⟨_, .unit ht hplain hb, by simp⟩
            · rw [pairRest] at hunit
              split_ifs at hunit with htwo
              obtain ⟨⟨k, r₃⟩, hhex', hlast⟩ := Option.bind_eq_some_iff.mp hunit
              obtain ⟨t', ht', hdrop⟩ := hex4_some hhex'
              obtain ⟨hlow, hsome⟩ := Option.ite_none_right_eq_some.mp hlast
              cases hsome
              have hr : r₂ = 92 :: 117 :: (t' ++ (b ++ 34 :: r)) := by
                rw [← List.take_append_drop 2 r₂, htwo, hdrop]
                rfl
              exact ⟨_, .pair ht ⟨by omega, hhigh⟩ ht' hlow hb, by simp [hr]⟩
          · cases hescape
            exact ⟨_, .escape hsimple hb, rfl⟩
      · obtain ⟨b, hb, rfl⟩ := ih h
        exact ⟨_, .plain ⟨hquote, hback, hnul⟩ hb, rfl⟩

theorem stringRest_complete {b : List UInt8} (hb : StringBody b) (hn : b.length < n)
    (r : List UInt8) : stringRest n (b ++ 34 :: r) = some r := by
  induction hb generalizing n with
  | nil =>
    obtain ⟨n, rfl⟩ := Nat.exists_eq_succ_of_ne_zero (Nat.ne_of_gt hn)
    exact if_pos rfl
  | plain hc hs ih =>
    obtain ⟨n, rfl⟩ := Nat.exists_eq_succ_of_ne_zero (Nat.ne_of_gt (Nat.zero_lt_of_lt hn))
    rw [List.length_cons] at hn
    rw [List.cons_append, stringRest, if_neg hc.1, if_neg hc.2.2, if_neg hc.2.1]
    exact ih (by omega)
  | @escape c s hc hs ih =>
    obtain ⟨n, rfl⟩ := Nat.exists_eq_succ_of_ne_zero (Nat.ne_of_gt (Nat.zero_lt_of_lt hn))
    have hu : c ≠ 117 := by
      rintro rfl
      exact absurd hc (by decide)
    rw [List.length_cons, List.length_cons] at hn
    rw [List.cons_append, List.cons_append, stringRest, if_neg (by decide), if_neg (by decide),
      if_pos rfl, escapeRest, if_neg hu, if_pos hc]
    exact ih (by omega)
  | @unit t s m ht hm hs ih =>
    obtain ⟨n, rfl⟩ := Nat.exists_eq_succ_of_ne_zero (Nat.ne_of_gt (Nat.zero_lt_of_lt hn))
    simp only [List.length_cons, List.length_append] at hn
    rw [List.cons_append, List.cons_append, List.append_assoc, stringRest, if_neg (by decide),
      if_neg (by decide), if_pos rfl, escapeRest, if_pos rfl, unicodeRest, ht.hex4,
      Option.bind_some, unitRest, if_pos hm]
    exact ih (by omega)
  | @pair t t' s m k ht hm ht' hk hs ih =>
    obtain ⟨n, rfl⟩ := Nat.exists_eq_succ_of_ne_zero (Nat.ne_of_gt (Nat.zero_lt_of_lt hn))
    simp only [List.length_cons, List.length_append] at hn
    have hpair : pairRest (92 :: 117 :: (t' ++ (s ++ 34 :: r))) = some (s ++ 34 :: r) := by
      have htwo : (92 :: 117 :: (t' ++ (s ++ 34 :: r))).take 2 = [92, 117] := rfl
      have hdrop : (92 :: 117 :: (t' ++ (s ++ 34 :: r))).drop 2 = t' ++ (s ++ 34 :: r) := rfl
      rw [pairRest, if_pos htwo, hdrop, ht'.hex4, Option.bind_some]
      exact if_pos hk
    have hshape : 92 :: 117 :: (t ++ 92 :: 117 :: (t' ++ s)) ++ 34 :: r =
        92 :: 117 :: (t ++ 92 :: 117 :: (t' ++ (s ++ 34 :: r))) := by simp
    rw [hshape, stringRest, if_neg (by decide), if_neg (by decide), if_pos rfl, escapeRest,
      if_pos rfl, unicodeRest, ht.hex4, Option.bind_some, unitRest, if_neg (by omega),
      if_pos hm.2, hpair, Option.bind_some]
    exact ih (by omega)

end strings

section numbers

/-- Behind a sign, what `json_is_invalid_number` refuses. -/
def InvalidUnsigned (s : List UInt8) : Prop :=
  if s.head? = some 48 then ∃ d ∈ (s.drop 1).head?, d ||| 0x20 = 120 ∨ Digit d
  else if ∀ c ∈ s.head?, c ≤ 57 ∨ 128 ≤ c then False
  else ascii "inf" <+: s.map tolower ∨ ascii "nan" <+: s.map tolower

instance (s : List UInt8) : Decidable (InvalidUnsigned s) :=
  inferInstanceAs (Decidable (ite _ _ _))

def InvalidNumber (s : List UInt8) : Prop :=
  s.head? = some 43 ∨ InvalidUnsigned (if s.head? = some 45 then s.drop 1 else s)

instance (s : List UInt8) : Decidable (InvalidNumber s) := inferInstanceAs (Decidable (_ ∨ _))

variable {s t r : List UInt8} {c : UInt8} {k : ℕ} {host : Host}

def StartsNumber (s : List UInt8) : Prop := ∃ c ∈ s.head?, c = 45 ∨ Digit c

theorem Digits.intPart_or (hs : Digits s) : s = [] ∨ IntPart s ∨
    ∃ c ∈ (s.drop 1).head?, s.head? = some 48 ∧ Digit c := by
  cases s with
  | nil => exact .inl rfl
  | cons c s =>
    obtain ⟨hc, hs⟩ := List.forall_mem_cons.mp hs
    by_cases hzero : c = 48
    · cases s with
      | nil => exact .inr (.inl (hzero ▸ .zero))
      | cons d s => exact .inr (.inr ⟨d, rfl, congrArg some hzero, hs d List.mem_cons_self⟩)
    · refine .inr (.inl (.more ⟨?_, hc.2⟩ hs))
      have hlt := UInt8.lt_of_le_of_ne hc.1 (Ne.symm hzero)
      rw [UInt8.lt_iff_toNat_lt] at hlt
      rw [UInt8.le_iff_toNat_le]
      exact hlt

/-- What is left of the forms of numbers, behind the sign. -/
inductive LaxUnsigned : List UInt8 → Prop
  | whole {i e : List UInt8} (hi : IntPart i) (he : Exponent e) : LaxUnsigned (i ++ e)
  | point {i f e : List UInt8} (hi : IntPart i) (hf : Digits f) (he : Exponent e) :
    LaxUnsigned (i ++ 46 :: (f ++ e))
  | noWhole {f e : List UInt8} (hf : Digits f) (hne : f ≠ []) (he : Exponent e) :
    LaxUnsigned (46 :: (f ++ e))

theorem InvalidUnsigned.of_zero {d : UInt8} (hd : d ||| 0x20 = 120 ∨ Digit d) :
    InvalidUnsigned (48 :: d :: s) := by
  rw [InvalidUnsigned, if_pos List.head?_cons]
  exact ⟨d, rfl, hd⟩

theorem not_invalidUnsigned_cons (hne : c ≠ 48) (hle : c ≤ 57) : ¬ InvalidUnsigned (c :: s) := by
  rw [InvalidUnsigned, if_neg, if_pos]
  · exact id
  · intro d hd
    cases Option.some.inj hd
    exact .inl hle
  · exact fun h => hne (Option.some.inj h)

theorem InvalidUnsigned.of_infNan (hs : InfNanForm s) : InvalidUnsigned (s ++ r) := by
  have hletter : ∀ c, tolower c = 105 ∨ tolower c = 110 → c ≠ 48 ∧ ¬ (c ≤ 57 ∨ 128 ≤ c) :=
    forall_byte (by decide +kernel)
  -- the first letter tells the text from digits
  have hword : ∀ {c word s} (r : List UInt8), (s : List UInt8).map tolower = c :: word →
      (c = 105 ∨ c = 110) →
      ¬ (s ++ r).head? = some 48 ∧ ¬ ∀ c ∈ (s ++ r).head?, c ≤ 57 ∨ 128 ≤ c := by
    intro c word s r hs hc
    obtain ⟨d, s', rfl, rfl, -⟩ := List.map_eq_cons_iff.mp hs
    obtain ⟨hne, hrange⟩ := hletter d hc
    exact ⟨fun hhead => hne (Option.some.inj hhead), fun hall => hrange (hall d rfl)⟩
  cases hs with
  | inf hs =>
    have hinf : ascii "inf" <+: (s ++ r).map tolower := by
      rw [List.map_append]
      rcases hs with hs | hs
      · rw [hs]
        exact List.prefix_append _ _
      · rw [hs]
        exact (show ascii "inf" <+: ascii "infinity" by decide).trans (List.prefix_append _ _)
    have hhead : ¬ (s ++ r).head? = some 48 ∧ ¬ ∀ c ∈ (s ++ r).head?, c ≤ 57 ∨ 128 ≤ c := by
      rcases hs with hs | hs
      · exact hword r hs (.inl rfl)
      · exact hword r hs (.inl rfl)
    rw [InvalidUnsigned, if_neg hhead.1, if_neg hhead.2]
    exact .inl hinf
  | @nan s t hs ht =>
    have hnan : ascii "nan" <+: (s ++ t ++ r).map tolower := by
      rw [List.append_assoc, List.map_append, hs]
      exact List.prefix_append _ _
    have hhead := hword (t ++ r) hs (.inr rfl)
    rw [← List.append_assoc] at hhead
    rw [InvalidUnsigned, if_neg hhead.1, if_neg hhead.2]
    exact .inr hnan

/-- A text that is not refused has only decimal forms in it, without leading zeros. -/
theorem laxUnsigned_of_form (hvalid : ¬ InvalidUnsigned (s ++ r))
    (hs : DecimalForm s ∨ HexForm s ∨ InfNanForm s) : LaxUnsigned s := by
  have hzeros : ∀ {i u : List UInt8}, Digits i → i ≠ [] → i ++ u = s → IntPart i := by
    rintro i u hi hne rfl
    rcases hi.intPart_or with hnil | hpart | ⟨d, hd, hzero, hdigit⟩
    · exact absurd hnil hne
    · exact hpart
    · obtain ⟨i', rfl⟩ : ∃ i', i = 48 :: d :: i' := by
        obtain ⟨i₁, rfl⟩ := List.head?_eq_some_iff.mp hzero
        obtain ⟨i₂, rfl⟩ := List.head?_eq_some_iff.mp hd
        exact ⟨i₂, rfl⟩
      exact absurd (InvalidUnsigned.of_zero (.inr hdigit)) hvalid
  rcases hs with hs | hs | hs
  · cases hs with
    | whole hi hne he => exact .whole (hzeros hi hne rfl) he
    | @point i f e hi hf hne he =>
      by_cases hnil : i = []
      · subst hnil
        exact .noWhole hf (hne.resolve_left fun h => h rfl) he
      · exact .point (hzeros hi hnil rfl) hf he
  · cases hs with
    | mk hx hi hp hf hne he =>
      refine absurd (InvalidUnsigned.of_zero (.inl ?_)) hvalid
      rcases hx with rfl | rfl
      · rfl
      · rfl
  · exact absurd (InvalidUnsigned.of_infNan hs) hvalid

theorem LaxUnsigned.isLax (hs : LaxUnsigned s) (ht : t = [45] ∨ t = [] ∧ s.head? ≠ some 46) :
    IsLax (t ++ s) := by
  have hsign : t = [] ∨ t = [45] := ht.symm.imp_left And.left
  cases hs with
  | whole hi he => exact .number (.whole hsign hi he)
  | @point i f e hi hf he =>
    by_cases hnil : f = []
    · subst hnil
      exact .noFraction hsign hi he
    · exact .number (.point hsign hi hf hnil he)
  | noWhole hf hne he =>
    rcases ht with rfl | ⟨rfl, hhead⟩
    · exact .noWhole hf hne he
    · exact absurd rfl hhead

theorem form_head (hs : DecimalForm s ∨ HexForm s ∨ InfNanForm s) : s.head? ≠ some 45 := by
  have hletter : tolower 45 = 45 := by decide
  have hdigits : ∀ {i u : List UInt8}, Digits i → i ≠ [] ∨ u.head? ≠ some 45 →
      (i ++ u).head? ≠ some 45 := by
    intro i u hi hu
    cases i with
    | nil => exact hu.resolve_left fun hne => hne rfl
    | cons c i =>
      intro hhead
      cases Option.some.inj hhead
      exact absurd (hi 45 List.mem_cons_self) (by decide)
  have hword : ∀ {s u word : List UInt8}, s.map tolower = word → word ≠ [] →
      word.head? ≠ some 45 → (s ++ u).head? ≠ some 45 := by
    rintro s u word rfl hne hhead h
    cases s with
    | nil => exact hne rfl
    | cons c s =>
      cases Option.some.inj h
      exact hhead (congrArg some hletter)
  rcases hs with hs | hs | hs
  · cases hs with
    | whole hi hne he => exact hdigits hi (.inl hne)
    | point hi hf hne he => exact hdigits hi (.inr (by simp))
  · cases hs with
    | mk hx hi hp hf hne he => simp
  · cases hs with
    | inf hs =>
      rw [← List.append_nil s]
      rcases hs with hs | hs
      · exact hword hs (by decide) (by decide)
      · exact hword hs (by decide) (by decide)
    | nan hs ht => exact hword hs (by decide) (by decide)

/-- What `strtod` expects in a text that starts as a number and is not refused is a lax number. -/
theorem isLax_of_expected (hstart : StartsNumber (t ++ r)) (hvalid : ¬ InvalidNumber (t ++ r))
    (ht : Expected t) (hne : t ≠ []) : IsLax t := by
  obtain ⟨c, hc, hchar⟩ := hstart
  obtain ⟨hplus, hvalid⟩ := not_or.mp hvalid
  cases ht with
  | @mk w sign s hw hsign hs =>
    cases w with
    | cons b w =>
      cases Option.some.inj hc
      have hspace : ∀ c : UInt8, (c = 32 ∨ 9 ≤ c ∧ c ≤ 13) → ¬ (c = 45 ∨ Digit c) :=
        forall_byte (by decide +kernel)
      exact absurd hchar (hspace _ (hw _ List.mem_cons_self))
    | nil =>
      rcases hsign with rfl | rfl | rfl
      · have hhead : s.head? = some c := by
          rwa [List.nil_append, List.nil_append, Option.mem_def,
            List.head?_append_of_ne_nil s hne] at hc
        have hdigit := hchar.resolve_left fun h => form_head hs (h ▸ hhead)
        rw [if_neg] at hvalid
        · refine (laxUnsigned_of_form hvalid hs).isLax (.inr ⟨rfl, fun hpoint => ?_⟩)
          cases Option.some.inj (hhead.symm.trans hpoint)
          exact absurd hdigit (by decide)
        · intro hminus
          cases Option.some.inj (hc.symm.trans hminus)
          exact absurd hdigit (by decide)
      · exact absurd rfl hplus
      · have hminus : ([] ++ ([45] ++ s) ++ r).head? = some 45 := rfl
        rw [if_pos hminus] at hvalid
        exact (laxUnsigned_of_form hvalid hs).isLax (.inl rfl)

/-- No number goes on with the byte. -/
def Follows (r : List UInt8) : Prop := ∀ c ∈ r.head?, ¬ Numeric c ∧ c ||| 0x20 ≠ 120

theorem IsLax.unsigned (ht : IsLax t) : ∃ sign s, t = sign ++ s ∧ LaxUnsigned s ∧
    (sign = [45] ∨ sign = [] ∧ ∃ c ∈ s.head?, Digit c) := by
  have hhead : ∀ {i e : List UInt8}, IntPart i → ∃ c ∈ (i ++ e).head?, Digit c := by
    intro i e hi
    have hdigits := hi.digits
    obtain ⟨c, i, rfl⟩ := List.exists_cons_of_ne_nil hi.ne_nil
    exact ⟨c, rfl, hdigits c List.mem_cons_self⟩
  have hunsigned : ∀ {sign i e : List UInt8}, (sign = [] ∨ sign = [45]) → IntPart i →
      sign = [45] ∨ sign = [] ∧ ∃ c ∈ (i ++ e).head?, Digit c :=
    fun hsign hi => hsign.symm.imp_right fun hnil => ⟨hnil, hhead hi⟩
  cases ht with
  | number ht =>
    cases ht with
    | whole hsign hi he => exact ⟨_, _, rfl, .whole hi he, hunsigned hsign hi⟩
    | point hsign hi hf hne he => exact ⟨_, _, rfl, .point hi hf he, hunsigned hsign hi⟩
  | noFraction hsign hi he =>
    exact ⟨_, _, rfl, .point (f := []) hi nofun he, hunsigned hsign hi⟩
  | noWhole hf hne he => exact ⟨[45], _, rfl, .noWhole hf hne he, .inl rfl⟩

theorem IsLax.startsNumber (ht : IsLax t) (r : List UInt8) : StartsNumber (t ++ r) := by
  obtain ⟨sign, s, rfl, -, rfl | ⟨rfl, c, hc, hdigit⟩⟩ := ht.unsigned
  · exact ⟨45, rfl, .inl rfl⟩
  · obtain ⟨s, rfl⟩ := List.head?_eq_some_iff.mp hc
    exact ⟨c, rfl, .inr hdigit⟩

theorem IsLax.ne_nil (ht : IsLax t) : t ≠ [] := by
  rintro rfl
  obtain ⟨c, hc, -⟩ := ht.startsNumber []
  cases hc

theorem Exponent.follows {e : List UInt8} (he : Exponent e) (hr : Follows r) :
    ∀ d ∈ (e ++ r).head?, ¬ (d ||| 0x20 = 120 ∨ Digit d) := by
  intro d hd
  cases he with
  | none =>
    obtain ⟨hnumeric, hx⟩ := hr d hd
    exact not_or.mpr ⟨hx, fun hdigit => hnumeric (.inl hdigit)⟩
  | some hc hsign hs hne =>
    cases Option.some.inj hd
    rcases hc with rfl | rfl
    · decide
    · decide

theorem LaxUnsigned.valid (hs : LaxUnsigned s) (hr : Follows r) : ¬ InvalidUnsigned (s ++ r) := by
  -- only what follows a zero is looked at
  have hpart : ∀ {i u : List UInt8}, IntPart i →
      (∀ d ∈ u.head?, ¬ (d ||| 0x20 = 120 ∨ Digit d)) → ¬ InvalidUnsigned (i ++ u) := by
    intro i u hi hu
    cases hi with
    | zero =>
      have hhead : ([48] ++ u).head? = some 48 := rfl
      rw [InvalidUnsigned, if_pos hhead]
      rintro ⟨d, hd, hbad⟩
      exact hu d hd hbad
    | more hc hs =>
      refine not_invalidUnsigned_cons ?_ hc.2
      rintro rfl
      exact absurd hc.1 (by decide)
  cases hs with
  | whole hi he =>
    rw [List.append_assoc]
    exact hpart hi (he.follows hr)
  | point hi hf he =>
    rw [List.append_assoc]
    refine hpart hi fun d hd => ?_
    cases Option.some.inj hd
    decide
  | noWhole hf hne he => exact not_invalidUnsigned_cons (by decide) (by decide)

theorem IsLax.valid (ht : IsLax t) (hr : Follows r) : ¬ InvalidNumber (t ++ r) := by
  obtain ⟨sign, s, rfl, hs, rfl | ⟨rfl, c, hc, hdigit⟩⟩ := ht.unsigned
  · refine not_or.mpr ⟨fun h => absurd (Option.some.inj h) (by decide), ?_⟩
    rw [if_pos (by rfl)]
    exact hs.valid hr
  · have hhead : ([] ++ s ++ r).head? = some c := by
      obtain ⟨s, rfl⟩ := List.head?_eq_some_iff.mp hc
      rfl
    have hne : ∀ d : UInt8, ¬ Digit d → ¬ ([] ++ s ++ r).head? = some d := by
      rintro d hd h
      cases Option.some.inj (hhead.symm.trans h)
      exact hd hdigit
    refine not_or.mpr ⟨hne 43 (by decide), ?_⟩
    rw [if_neg (hne 45 (by decide))]
    exact hs.valid hr

theorem IsLax.strtod (ht : IsLax t) (hhost : host.ReadsLongest) (hr : Follows r) :
    (host.strtod (t ++ r)).2 = t.length := by
  have hne := ht.ne_nil
  obtain ⟨hform, hlongest⟩ := hhost (t ++ r)
  have hle := host.strtod_le (t ++ r)
  rw [List.length_append] at hle
  have hread := hlongest t.length (by simp) (by rw [List.take_left]; exact ht.expected)
  have hpos := List.length_pos_of_ne_nil hne
  by_contra hmore
  -- the byte behind the number would belong to it
  obtain ⟨n, hn⟩ := Nat.exists_eq_add_of_lt (Nat.lt_of_le_of_ne hread (Ne.symm hmore))
  have htake : (t ++ r).take (host.strtod (t ++ r)).2 = t ++ r.take (n + 1) := by
    rw [hn, Nat.add_assoc, List.take_length_add_append]
  cases r with
  | nil =>
    rw [List.length_nil] at hle
    omega
  | cons c r =>
    have hform := hform (by omega)
    rw [htake] at hform
    have hsplit : t ++ (c :: r).take (n + 1) ++ (c :: r).drop (n + 1) = t ++ c :: r := by
      rw [List.append_assoc, List.take_append_drop]
    have hlax : IsLax (t ++ (c :: r).take (n + 1)) := by
      refine isLax_of_expected (r := (c :: r).drop (n + 1)) ?_ ?_ hform (by simp [hne])
      · exact hsplit ▸ ht.startsNumber _
      · exact hsplit ▸ ht.valid hr
    have hnumeric := hlax.numeric c (List.mem_append_right _ List.mem_cons_self)
    exact (hr c rfl).1 hnumeric

end numbers

section lexing

def Token.lexeme : Token → Option Lexeme
  | .objBegin => some .objBegin
  | .objEnd => some .objEnd
  | .arrBegin => some .arrBegin
  | .arrEnd => some .arrEnd
  | .colon => some .colon
  | .comma => some .comma
  | _ => none

variable (host : Host) (n : ℕ)

def lexNumber (s : List UInt8) : Option (Lexeme × List UInt8) :=
  if InvalidNumber s ∨ (host.strtod s).2 = 0 then none
  else some (.number (s.take (host.strtod s).2), s.drop (host.strtod s).2)

def lexWord (s : List UInt8) : Option (Lexeme × List UInt8) :=
  if ascii "true" <+: s then some (.word, s.drop 4)
  else if ascii "false" <+: s then some (.word, s.drop 5)
  else if ascii "null" <+: s then some (.word, s.drop 4)
  else none

/-- The token that the text starts with, and the rest of the text. -/
def lexAt : List UInt8 → Option (Lexeme × List UInt8)
  | [] => some (.end, [])
  | c :: s =>
    match ch2token c with
    | .single t => t.lexeme.map fun x => (x, s)
    | .unknown =>
      if c = 34 then (stringRest n s).map fun r => (.string, r)
      else if c = 45 ∨ Digit c then lexNumber host (c :: s)
      else lexWord (c :: s)
    | _ => none

def isSpace (c : UInt8) : Bool := ch2token c = .whitespace

/-- The next token behind whitespace; the fuel `n` is more than the length of the text. -/
def lex (s : List UInt8) : Option (Lexeme × List UInt8) :=
  lexAt host n (s.dropWhile isSpace)

inductive Spells : Lexeme → List UInt8 → Prop
  | objBegin : Spells .objBegin [0x7b]
  | objEnd : Spells .objEnd [0x7d]
  | arrBegin : Spells .arrBegin [0x5b]
  | arrEnd : Spells .arrEnd [0x5d]
  | colon : Spells .colon [58]
  | comma : Spells .comma [44]
  | string {b : List UInt8} (hb : StringBody b) : Spells .string (34 :: (b ++ [34]))
  | word {t : List UInt8} (ht : t ∈ words) : Spells .word t
  | number {t : List UInt8} (ht : IsLax t) : Spells (.number t) t
  | end : Spells .end []

variable {host n} {s t w r : List UInt8} {x : Lexeme} {c : UInt8}

theorem isSpace_iff (c : UInt8) : isSpace c = true ↔ c = 32 ∨ c = 9 ∨ c = 10 ∨ c = 13 := by
  revert c
  exact forall_byte (by decide +kernel)

theorem single_spells {t : Token} (hc : ch2token c = .single t) :
    ∃ x, t.lexeme = some x ∧ Spells x [c] := by
  rw [ch2token] at hc
  split_ifs at hc with h₁ h₂ h₃ h₄ h₅ h₆
  · cases hc; subst h₁; exact ⟨_, rfl, .objBegin⟩
  · cases hc; subst h₂; exact ⟨_, rfl, .objEnd⟩
  · cases hc; subst h₃; exact ⟨_, rfl, .arrBegin⟩
  · cases hc; subst h₄; exact ⟨_, rfl, .arrEnd⟩
  · cases hc; subst h₅; exact ⟨_, rfl, .comma⟩
  · cases hc; subst h₆; exact ⟨_, rfl, .colon⟩

theorem lexNumber_sound (hhost : host.ReadsLongest) (hstart : StartsNumber s)
    (h : lexNumber host s = some (x, r)) : ∃ t, Spells x t ∧ s = t ++ r ∧ x ≠ .end := by
  obtain ⟨hgood, heq⟩ := Option.ite_none_left_eq_some.mp h
  obtain ⟨hvalid, hlen⟩ := not_or.mp hgood
  cases heq
  have hsplit := List.take_append_drop (host.strtod s).2 s
  refine ⟨_, .number ?_, hsplit.symm, nofun⟩
  rw [← hsplit] at hstart hvalid
  refine isLax_of_expected hstart hvalid ((hhost s).1 hlen) fun hnil => ?_
  rcases List.take_eq_nil_iff.mp hnil with h | rfl
  · exact hlen h
  · obtain ⟨c, hc, -⟩ := hstart
    simp at hc

theorem lexWord_sound (h : lexWord s = some (x, r)) :
    ∃ t, Spells x t ∧ s = t ++ r ∧ x ≠ .end := by
  rw [lexWord] at h
  split_ifs at h with ht hf hn
  · obtain ⟨u, rfl⟩ := ht
    cases h
    exact ⟨_, .word (by decide : ascii "true" ∈ words), rfl, nofun⟩
  · obtain ⟨u, rfl⟩ := hf
    cases h
    exact ⟨_, .word (by decide : ascii "false" ∈ words), rfl, nofun⟩
  · obtain ⟨u, rfl⟩ := hn
    cases h
    exact ⟨_, .word (by decide : ascii "null" ∈ words), rfl, nofun⟩

theorem lexAt_sound (hhost : host.ReadsLongest) (h : lexAt host n s = some (x, r)) :
    ∃ t, Spells x t ∧ s = t ++ r ∧ (x = .end → r = []) := by
  cases s with
  | nil =>
    cases h
    exact ⟨[], .end, rfl, fun _ => rfl⟩
  | cons c s =>
    rw [lexAt] at h
    split at h
    · next t hc =>
      obtain ⟨y, hy, ht⟩ := single_spells hc
      rw [hy] at h
      cases h
      refine ⟨[c], ht, rfl, ?_⟩
      rintro rfl
      cases ht
    · split_ifs at h with hquote hstart
      · obtain ⟨r', hr, heq⟩ := Option.map_eq_some_iff.mp h
        cases heq
        obtain ⟨b, hb, rfl⟩ := stringRest_sound hr
        exact ⟨_, .string hb, by simp [hquote], nofun⟩
      · obtain ⟨t, ht, hs, hend⟩ := lexNumber_sound hhost ⟨c, rfl, hstart⟩ h
        exact ⟨t, ht, hs, fun h => absurd h hend⟩
      · obtain ⟨t, ht, hs, hend⟩ := lexWord_sound h
        exact ⟨t, ht, hs, fun h => absurd h hend⟩
    · cases h

theorem lex_sound (hhost : host.ReadsLongest) (h : lex host n s = some (x, r)) :
    ∃ w t, Blank w ∧ Spells x t ∧ s = w ++ (t ++ r) ∧ (x = .end → r = []) := by
  obtain ⟨t, ht, hs, hend⟩ := lexAt_sound hhost h
  refine ⟨s.takeWhile isSpace, t, fun c hc => ?_, ht, ?_, hend⟩
  · exact (isSpace_iff c).mp (List.mem_takeWhile_imp hc)
  · rw [← hs, List.takeWhile_append_dropWhile]

theorem lexNumber_complete (hhost : host.ReadsLongest) (ht : IsLax t) (hr : Follows r) :
    lexNumber host (t ++ r) = some (.number t, r) := by
  have hlen := ht.strtod hhost hr
  have hne : t.length ≠ 0 := fun h => ht.ne_nil (List.length_eq_zero_iff.mp h)
  rw [lexNumber, hlen, if_neg (not_or.mpr ⟨ht.valid hr, hne⟩), List.take_left, List.drop_left]

theorem lexWord_complete (ht : t ∈ words) (r : List UInt8) :
    lexWord (t ++ r) = some (.word, r) := by
  rcases List.mem_cons.mp ht with rfl | ht
  · rfl
  · rcases List.mem_cons.mp ht with rfl | ht
    · rfl
    · rw [List.mem_singleton.mp ht]
      rfl

theorem lexAt_complete (hhost : host.ReadsLongest) (ht : Spells x t)
    (hnumber : ∀ u, x = .number u → Follows r) (hend : x = .end → r = [])
    (hn : (t ++ r).length < n) : lexAt host n (t ++ r) = some (x, r) := by
  cases ht with
  | objBegin | objEnd | arrBegin | arrEnd | colon | comma => rfl
  | @string b hb =>
    have hquote : ch2token 34 = .unknown := by decide
    have hlen : b.length < n := by
      simp only [List.length_append, List.length_cons] at hn
      omega
    have hshape : 34 :: (b ++ [34]) ++ r = 34 :: (b ++ 34 :: r) := by simp
    rw [hshape, lexAt, hquote]
    dsimp only
    rw [if_pos rfl, stringRest_complete hb hlen]
    rfl
  | word ht =>
    have hwords : ∀ t ∈ words, ∃ c ∈ t.head?, ch2token c = .unknown ∧ c ≠ 34 ∧
        ¬ (c = 45 ∨ Digit c) := by decide
    obtain ⟨c, hc, hunknown, hquote, hnumber⟩ := hwords _ ht
    obtain ⟨t, rfl⟩ := List.head?_eq_some_iff.mp hc
    rw [List.cons_append, lexAt, hunknown]
    dsimp only
    rw [if_neg hquote, if_neg hnumber]
    exact lexWord_complete ht r
  | number ht =>
    have hstarts : ∀ c, (c = 45 ∨ Digit c) → ch2token c = .unknown ∧ c ≠ 34 :=
      forall_byte (by decide +kernel)
    obtain ⟨c, hc, hchar⟩ := ht.startsNumber r
    obtain ⟨hunknown, hquote⟩ := hstarts c hchar
    have hlex := lexNumber_complete hhost ht (hnumber _ rfl)
    obtain ⟨s, hs⟩ := List.head?_eq_some_iff.mp hc
    rw [hs] at hlex ⊢
    rw [lexAt, hunknown]
    dsimp only
    rw [if_neg hquote, if_pos hchar, hlex]
  | «end» =>
    rw [hend rfl]
    rfl

theorem lex_complete (hhost : host.ReadsLongest) (hw : Blank w) (ht : Spells x t)
    (hnumber : ∀ u, x = .number u → Follows r) (hend : x = .end → r = [])
    (hn : (t ++ r).length < n) : lex host n (w ++ (t ++ r)) = some (x, r) := by
  have hblank : ∀ c ∈ w, isSpace c = true := fun c hc => (isSpace_iff c).mpr (hw c hc)
  rw [lex, List.dropWhile_append_of_pos hblank]
  have hat := lexAt_complete hhost ht hnumber hend hn
  cases hs : t ++ r with
  | nil =>
    rw [hs] at hat
    exact hat
  | cons c s =>
    rw [hs] at hat
    rw [List.dropWhile_cons_of_neg, hat]
    intro hspace
    rw [lexAt, of_decide_eq_true hspace] at hat
    cases hat

end lexing

end Lev.Json
