import Lev.JsonLexer

/-! A parser on lists of bytes that builds no values, and that it accepts the texts of the
grammar and no others. -/
namespace Lev.Json
open Lua

/-- The numbers that were read and the rest of the text. -/
abbrev Reading := Option (List (List UInt8) × List UInt8)

section
variable (host : Host) (n : ℕ) (value : Lexeme → List UInt8 → Reading)

def readMember (s : List UInt8) : Reading :=
  (lex host n s).bind fun x =>
    if x.1 = .colon then (lex host n x.2).bind fun y => value y.1 y.2 else none

/-- The members up to the brace, from the token of a key on. -/
def readMembers : ℕ → Lexeme → List UInt8 → Reading
  | 0, _, _ => none
  | m + 1, x, s =>
    if x = .string then
      (readMember host n value s).bind fun v => (lex host n v.2).bind fun y =>
        if y.1 = .objEnd then some (v.1, y.2)
        else if y.1 = .comma then
          (lex host n y.2).bind fun z =>
            (readMembers m z.1 z.2).map fun u => (v.1 ++ u.1, u.2)
        else none
    else none

/-- The elements up to the bracket, from the first token of one on. -/
def readElements : ℕ → Lexeme → List UInt8 → Reading
  | 0, _, _ => none
  | m + 1, x, s =>
    (value x s).bind fun v => (lex host n v.2).bind fun y =>
      if y.1 = .arrEnd then some (v.1, y.2)
      else if y.1 = .comma then
        (lex host n y.2).bind fun z =>
          (readElements m z.1 z.2).map fun u => (v.1 ++ u.1, u.2)
      else none

def readObject (s : List UInt8) : Reading :=
  (lex host n s).bind fun y =>
    if y.1 = .objEnd then some ([], y.2) else readMembers host n value n y.1 y.2

def readArray (s : List UInt8) : Reading :=
  (lex host n s).bind fun y =>
    if y.1 = .arrEnd then some ([], y.2) else readElements host n value n y.1 y.2

/-- The value whose first token was read, of tables nested at most `d` deep, in `k` slots. -/
def readValue : ℕ → ℕ → Lexeme → List UInt8 → Reading
  | _, _, .string, s => some ([], s)
  | _, _, .word, s => some ([], s)
  | _, _, .number t, s => some ([t], s)
  | d + 1, k, .objBegin, s => if 3 ≤ k then readObject host n (readValue d (k - 2)) s else none
  | d + 1, k, .arrBegin, s => if 2 ≤ k then readArray host n (readValue d (k - 1)) s else none
  | _, _, _, _ => none

def readText (d k : ℕ) (s : List UInt8) : Option (List (List UInt8)) :=
  (lex host n s).bind fun x => (readValue host n d k x.1 x.2).bind fun v =>
    (lex host n v.2).bind fun y => if y.1 = .end then some v.1 else none

end

section sound
variable {host : Host} {n d k m : ℕ} {value : Lexeme → List UInt8 → Reading}
  {V : List UInt8 → List (List UInt8) → Prop} {x : Lexeme} {s t r : List UInt8}
  {ns : List (List UInt8)}

/-- What is read of a value is a value. -/
def Sound (value : Lexeme → List UInt8 → Reading) (V : List UInt8 → List (List UInt8) → Prop) :
    Prop :=
  ∀ {x s ns r t}, value x s = some (ns, r) → Spells x t → ∃ u, s = u ++ r ∧ V (t ++ u) ns

theorem readMember_sound (hhost : host.ReadsLongest) (hV : Sound value V)
    (h : readMember host n value s = some (ns, r)) :
    ∃ w w' t, Blank w ∧ Blank w' ∧ V t ns ∧ s = w ++ 58 :: (w' ++ (t ++ r)) := by
  obtain ⟨⟨x, s₁⟩, hx, hcolon⟩ := Option.bind_eq_some_iff.mp h
  obtain ⟨hcolon, hnext⟩ := Option.ite_none_right_eq_some.mp hcolon
  obtain ⟨⟨y, s₂⟩, hy, hvalue⟩ := Option.bind_eq_some_iff.mp hnext
  obtain ⟨w, t₁, hw, ht₁, rfl, -⟩ := lex_sound hhost hx
  obtain ⟨w', t₂, hw', ht₂, hs₁, -⟩ := lex_sound hhost hy
  change s₁ = _ at hs₁
  obtain ⟨u, rfl, hu⟩ := hV hvalue ht₂
  cases hcolon
  cases ht₁
  exact ⟨w, w', t₂ ++ u, hw, hw', hu, by simp [hs₁]⟩

theorem readMembers_sound (hhost : host.ReadsLongest) (hV : Sound value V)
    (h : readMembers host n value m x s = some (ns, r)) (ht : Spells x t) :
    ∃ u, s = u ++ 0x7d :: r ∧ ∀ w, Blank w → Members V (w ++ (t ++ u)) ns := by
  induction m generalizing x s t ns with
  | zero => cases h
  | succ m ih =>
    obtain ⟨rfl, h₁⟩ := Option.ite_none_right_eq_some.mp h
    obtain ⟨⟨ns₁, s₁⟩, hmember, h₂⟩ := Option.bind_eq_some_iff.mp h₁
    obtain ⟨⟨y, s₂⟩, hy, h₃⟩ := Option.bind_eq_some_iff.mp h₂
    obtain ⟨w₁, w₂, t₁, hw₁, hw₂, ht₁, rfl⟩ := readMember_sound hhost hV hmember
    obtain ⟨w₃, t₃, hw₃, ht₃, rfl, -⟩ := lex_sound hhost hy
    cases ht with
    | string hb =>
      split_ifs at h₃ with hend hcomma
      · subst hend
        cases h₃
        cases ht₃
        refine ⟨w₁ ++ 58 :: (w₂ ++ (t₁ ++ w₃)), by simp, fun w hw => ?_⟩
        have := Members.last (V := V) (.mk hw hb hw₁ hw₂) ht₁ hw₃
        simpa using this
      · subst hcomma
        obtain ⟨⟨z, s₃⟩, hz, h₄⟩ := Option.bind_eq_some_iff.mp h₃
        obtain ⟨⟨ms, s₄⟩, hrest, heq⟩ := Option.map_eq_some_iff.mp h₄
        cases heq
        cases ht₃
        obtain ⟨w₄, t₄, hw₄, ht₄, rfl, -⟩ := lex_sound hhost hz
        obtain ⟨u, rfl, hu⟩ := ih hrest ht₄
        refine ⟨w₁ ++ 58 :: (w₂ ++ (t₁ ++ (w₃ ++ 44 :: (w₄ ++ (t₄ ++ u))))), by simp,
          fun w hw => ?_⟩
        have := Members.cons (.mk hw hb hw₁ hw₂) ht₁ hw₃ (hu w₄ hw₄)
        simpa using this

theorem readElements_sound (hhost : host.ReadsLongest) (hV : Sound value V)
    (h : readElements host n value m x s = some (ns, r)) (ht : Spells x t) :
    ∃ u, s = u ++ 0x5d :: r ∧ ∀ w, Blank w → Elements V (w ++ (t ++ u)) ns := by
  induction m generalizing x s t ns with
  | zero => cases h
  | succ m ih =>
    obtain ⟨⟨ns₁, s₁⟩, hvalue, h₁⟩ := Option.bind_eq_some_iff.mp h
    obtain ⟨⟨y, s₂⟩, hy, h₂⟩ := Option.bind_eq_some_iff.mp h₁
    obtain ⟨u₁, rfl, hu₁⟩ := hV hvalue ht
    obtain ⟨w₂, t₂, hw₂, ht₂, rfl, -⟩ := lex_sound hhost hy
    split_ifs at h₂ with hend hcomma
    · subst hend
      cases h₂
      cases ht₂
      refine ⟨u₁ ++ w₂, by simp, fun w hw => ?_⟩
      have := Elements.last hw hu₁ hw₂
      simpa using this
    · subst hcomma
      obtain ⟨⟨z, s₃⟩, hz, h₃⟩ := Option.bind_eq_some_iff.mp h₂
      obtain ⟨⟨ms, s₄⟩, hrest, heq⟩ := Option.map_eq_some_iff.mp h₃
      cases heq
      cases ht₂
      obtain ⟨w₃, t₃, hw₃, ht₃, rfl, -⟩ := lex_sound hhost hz
      obtain ⟨u, rfl, hu⟩ := ih hrest ht₃
      refine ⟨u₁ ++ (w₂ ++ 44 :: (w₃ ++ (t₃ ++ u))), by simp, fun w hw => ?_⟩
      have := Elements.cons hw hu₁ hw₂ (hu w₃ hw₃)
      simpa using this

theorem readObject_sound (hhost : host.ReadsLongest) {V : ℕ → List UInt8 → List (List UInt8) → Prop}
    (hV : Sound value (V (k + 1))) (h : readObject host n value s = some (ns, r)) :
    ∃ u, s = u ++ r ∧ Compound V (k + 3) (0x7b :: u) ns := by
  obtain ⟨⟨y, s₁⟩, hy, hrest⟩ := Option.bind_eq_some_iff.mp h
  obtain ⟨w, t, hw, ht, rfl, -⟩ := lex_sound hhost hy
  split_ifs at hrest with hend
  · subst hend
    cases hrest
    cases ht
    exact ⟨w ++ [0x7d], by simp, .emptyObject hw⟩
  · obtain ⟨u, rfl, hu⟩ := readMembers_sound hhost hV hrest ht
    refine ⟨(w ++ (t ++ u)) ++ [0x7d], by simp, .object (hu w hw)⟩

theorem readArray_sound (hhost : host.ReadsLongest) {V : ℕ → List UInt8 → List (List UInt8) → Prop}
    (hV : Sound value (V (k + 1))) (h : readArray host n value s = some (ns, r)) :
    ∃ u, s = u ++ r ∧ Compound V (k + 2) (0x5b :: u) ns := by
  obtain ⟨⟨y, s₁⟩, hy, hrest⟩ := Option.bind_eq_some_iff.mp h
  obtain ⟨w, t, hw, ht, rfl, -⟩ := lex_sound hhost hy
  split_ifs at hrest with hend
  · subst hend
    cases hrest
    cases ht
    exact ⟨w ++ [0x5d], by simp, .emptyArray hw⟩
  · obtain ⟨u, rfl, hu⟩ := readElements_sound hhost hV hrest ht
    refine ⟨(w ++ (t ++ u)) ++ [0x5d], by simp, .array (hu w hw)⟩

theorem IsValue.atom {Num : List UInt8 → Prop} (hs : Atom Num t ns) :
    IsValue Num d k t ns := by
  cases d with
  | zero => exact hs
  | succ d => exact .inl hs

theorem readValue_sound (hhost : host.ReadsLongest) :
    Sound (readValue host n d k) (IsValue IsLax d k) := by
  induction d generalizing k with
  | zero =>
    intro x s ns r t h ht
    cases ht with
    | string hb => cases h; exact ⟨[], rfl, by simpa using IsValue.atom (.string hb)⟩
    | word ht => cases h; exact ⟨[], rfl, by simpa using IsValue.atom (.word ht)⟩
    | number ht => cases h; exact ⟨[], rfl, by simpa using IsValue.atom (.number ht)⟩
    | objBegin | objEnd | arrBegin | arrEnd | colon | comma | «end» => cases h
  | succ d ih =>
    intro x s ns r t h ht
    cases ht with
    | string hb => cases h; exact ⟨[], rfl, by simpa using IsValue.atom (.string hb)⟩
    | word ht => cases h; exact ⟨[], rfl, by simpa using IsValue.atom (.word ht)⟩
    | number ht => cases h; exact ⟨[], rfl, by simpa using IsValue.atom (.number ht)⟩
    | objBegin =>
      obtain ⟨hk, hread⟩ := Option.ite_none_right_eq_some.mp h
      obtain ⟨k, rfl⟩ := Nat.exists_eq_add_of_le' hk
      obtain ⟨u, hs, hu⟩ := readObject_sound hhost ih hread
      exact ⟨u, hs, .inr hu⟩
    | arrBegin =>
      obtain ⟨hk, hread⟩ := Option.ite_none_right_eq_some.mp h
      obtain ⟨k, rfl⟩ := Nat.exists_eq_add_of_le' hk
      obtain ⟨u, hs, hu⟩ := readArray_sound hhost ih hread
      exact ⟨u, hs, .inr hu⟩
    | objEnd | arrEnd | colon | comma | «end» => cases h

theorem readText_sound (hhost : host.ReadsLongest) (h : readText host n d k s = some ns) :
    IsText IsLax d k s ns := by
  obtain ⟨⟨x, s₁⟩, hx, h₁⟩ := Option.bind_eq_some_iff.mp h
  obtain ⟨⟨ns', s₂⟩, hvalue, h₂⟩ := Option.bind_eq_some_iff.mp h₁
  obtain ⟨⟨y, s₃⟩, hy, h₃⟩ := Option.bind_eq_some_iff.mp h₂
  obtain ⟨hend, heq⟩ := Option.ite_none_right_eq_some.mp h₃
  cases heq
  obtain ⟨w, t, hw, ht, rfl, -⟩ := lex_sound hhost hx
  obtain ⟨u, rfl, hu⟩ := readValue_sound hhost hvalue ht
  obtain ⟨w', t', hw', ht', rfl, hnil⟩ := lex_sound hhost hy
  cases hend
  cases ht'
  obtain rfl := hnil rfl
  have hmk := IsText.mk hw hu hw'
  simpa using hmk

end sound

section complete
variable {host : Host} {n d k m : ℕ} {value : Lexeme → List UInt8 → Reading}
  {V : List UInt8 → List (List UInt8) → Prop} {x : Lexeme} {s t u r w : List UInt8}
  {ns : List (List UInt8)}

theorem Blank.follows (hw : Blank w) (hr : Follows r) : Follows (w ++ r) := by
  have hspace : ∀ c : UInt8, (c = 32 ∨ c = 9 ∨ c = 10 ∨ c = 13) →
      ¬ Numeric c ∧ c ||| 0x20 ≠ 120 := forall_byte (by decide +kernel)
  cases w with
  | nil => exact hr
  | cons c w =>
    intro c' hc
    cases Option.some.inj hc
    exact hspace c (hw c List.mem_cons_self)

theorem follows_cons {c : UInt8} (hc : c ∈ [44, 0x5d, 0x7d]) : Follows (c :: r) := by
  have hall : ∀ c ∈ ([44, 0x5d, 0x7d] : List UInt8), ¬ Numeric c ∧ c ||| 0x20 ≠ 120 := by
    decide +kernel
  intro c' hc'
  cases Option.some.inj hc'
  exact hall c hc

/-- A value is read to its end, from the first token of it on. -/
def Complete (host : Host) (n : ℕ) (value : Lexeme → List UInt8 → Reading)
    (V : List UInt8 → List (List UInt8) → Prop) : Prop :=
  ∀ {t ns r}, V t ns → Follows r → (t ++ r).length < n → ∃ x s, x ≠ .arrEnd ∧
    (∀ w, Blank w → lex host n (w ++ (t ++ r)) = some (x, s)) ∧ value x s = some (ns, r)

theorem lex_single (hhost : host.ReadsLongest) (hw : Blank w) (ht : Spells x t)
    (hx : (∀ u, x ≠ .number u) ∧ x ≠ .end) (hn : (t ++ r).length < n) :
    lex host n (w ++ (t ++ r)) = some (x, r) :=
  lex_complete hhost hw ht (fun u hu => absurd hu (hx.1 u)) (fun hend => absurd hend hx.2) hn

theorem readElements_complete (hhost : host.ReadsLongest) (hV : Complete host n value V)
    (hu : Elements V u ns) (hm : u.length < m) (hn : (u ++ 0x5d :: r).length < n) :
    ∃ x s, x ≠ .arrEnd ∧ (∀ w, Blank w → lex host n (w ++ (u ++ 0x5d :: r)) = some (x, s)) ∧
      readElements host n value m x s = some (ns, r) := by
  induction hu generalizing m with
  | @last w₁ t w₂ ns hw₁ ht hw₂ =>
    obtain ⟨m, rfl⟩ := Nat.exists_eq_succ_of_ne_zero (Nat.ne_of_gt (Nat.zero_lt_of_lt hm))
    simp only [List.length_append, List.length_cons] at hn
    have hfollows : Follows (w₂ ++ 0x5d :: r) := hw₂.follows (follows_cons (by decide))
    obtain ⟨x, s, hx, hlex, hvalue⟩ := hV ht hfollows
      (by simp only [List.length_append, List.length_cons]; omega)
    refine ⟨x, s, hx, fun w hw => ?_, ?_⟩
    · have hnext := hlex (w ++ w₁) (hw.append hw₁)
      simpa only [List.append_assoc] using hnext
    · have hend := lex_single (n := n) (r := r) hhost hw₂ .arrEnd ⟨nofun, nofun⟩
        (by simp only [List.length_append, List.length_cons, List.length_nil]; omega)
      rw [readElements, hvalue, Option.bind_some]
      change (lex host n (w₂ ++ ([0x5d] ++ r))).bind _ = _
      rw [hend, Option.bind_some, if_pos rfl]
  | @cons w₁ t w₂ u ns ms hw₁ ht hw₂ hu ih =>
    obtain ⟨m, rfl⟩ := Nat.exists_eq_succ_of_ne_zero (Nat.ne_of_gt (Nat.zero_lt_of_lt hm))
    simp only [List.length_append, List.length_cons] at hn hm
    have hfollows : Follows (w₂ ++ 44 :: (u ++ 0x5d :: r)) := hw₂.follows (follows_cons (by decide))
    obtain ⟨x, s, hx, hlex, hvalue⟩ := hV ht hfollows
      (by simp only [List.length_append, List.length_cons]; omega)
    obtain ⟨z, s', -, hnext, hrest⟩ := ih (m := m) (by omega)
      (by simp only [List.length_append, List.length_cons]; omega)
    refine ⟨x, s, hx, fun w hw => ?_, ?_⟩
    · have hfirst := hlex (w ++ w₁) (hw.append hw₁)
      simpa only [List.append_assoc, List.cons_append] using hfirst
    · have hcomma := lex_single (n := n) (r := u ++ 0x5d :: r) hhost hw₂ .comma ⟨nofun, nofun⟩
        (by simp only [List.length_append, List.length_cons, List.length_nil]; omega)
      rw [readElements, hvalue, Option.bind_some]
      change (lex host n (w₂ ++ ([44] ++ (u ++ 0x5d :: r)))).bind _ = _
      rw [hcomma, Option.bind_some, if_neg (show ¬ Lexeme.comma = .arrEnd by decide), if_pos rfl]
      change (lex host n ([] ++ (u ++ 0x5d :: r))).bind _ = _
      rw [hnext [] nofun, Option.bind_some, hrest]
      rfl

theorem readMember_complete (hhost : host.ReadsLongest) (hV : Complete host n value V)
    {k : List UInt8} (hk : Key k) (ht : V t ns) (hr : Follows r)
    (hn : (k ++ (t ++ r)).length < n) :
    ∃ s, (∀ w, Blank w → lex host n (w ++ (k ++ (t ++ r))) = some (.string, s)) ∧
      readMember host n value s = some (ns, r) := by
  obtain ⟨hw, hb, hw', hw''⟩ := hk
  rename_i w b w' w''
  simp only [List.length_append, List.length_cons] at hn
  refine ⟨w' ++ ([58] ++ (w'' ++ (t ++ r))), fun w₀ hw₀ => ?_, ?_⟩
  · have hkey := lex_single (n := n) (r := w' ++ ([58] ++ (w'' ++ (t ++ r)))) hhost
      (hw₀.append hw) (.string hb) ⟨nofun, nofun⟩
      (by simp only [List.length_append, List.length_cons, List.length_nil]; omega)
    simpa only [List.append_assoc, List.cons_append, List.nil_append] using hkey
  · obtain ⟨x, s, -, hlex, hvalue⟩ := hV ht hr (by rw [List.length_append]; omega)
    have hcolon := lex_single (n := n) (r := w'' ++ (t ++ r)) hhost hw' .colon ⟨nofun, nofun⟩
      (by simp only [List.length_append, List.length_cons, List.length_nil]; omega)
    rw [readMember, hcolon, Option.bind_some, if_pos rfl]
    change (lex host n (w'' ++ (t ++ r))).bind _ = _
    rw [hlex w'' hw'', Option.bind_some, hvalue]

theorem readMembers_complete (hhost : host.ReadsLongest) (hV : Complete host n value V)
    (hu : Members V u ns) (hm : u.length < m) (hn : (u ++ 0x7d :: r).length < n) :
    ∃ s, (∀ w, Blank w → lex host n (w ++ (u ++ 0x7d :: r)) = some (.string, s)) ∧
      readMembers host n value m .string s = some (ns, r) := by
  induction hu generalizing m with
  | @last k t w₁ ns hk ht hw₁ =>
    obtain ⟨m, rfl⟩ := Nat.exists_eq_succ_of_ne_zero (Nat.ne_of_gt (Nat.zero_lt_of_lt hm))
    simp only [List.length_append, List.length_cons] at hn
    have hfollows : Follows (w₁ ++ 0x7d :: r) := hw₁.follows (follows_cons (by decide))
    obtain ⟨s, hlex, hmember⟩ := readMember_complete (n := n) hhost hV hk ht hfollows
      (by simp only [List.length_append, List.length_cons]; omega)
    refine ⟨s, fun w hw => ?_, ?_⟩
    · simpa only [List.append_assoc] using hlex w hw
    · have hend := lex_single (n := n) (r := r) hhost hw₁ .objEnd ⟨nofun, nofun⟩
        (by simp only [List.length_append, List.length_cons, List.length_nil]; omega)
      rw [readMembers, if_pos rfl, hmember, Option.bind_some]
      change (lex host n (w₁ ++ ([0x7d] ++ r))).bind _ = _
      rw [hend, Option.bind_some, if_pos rfl]
  | @cons k t w₁ u ns ms hk ht hw₁ hu ih =>
    obtain ⟨m, rfl⟩ := Nat.exists_eq_succ_of_ne_zero (Nat.ne_of_gt (Nat.zero_lt_of_lt hm))
    simp only [List.length_append, List.length_cons] at hn hm
    have hfollows : Follows (w₁ ++ 44 :: (u ++ 0x7d :: r)) := hw₁.follows (follows_cons (by decide))
    obtain ⟨s, hlex, hmember⟩ := readMember_complete (n := n) hhost hV hk ht hfollows
      (by simp only [List.length_append, List.length_cons]; omega)
    obtain ⟨s', hnext, hrest⟩ := ih (m := m) (by omega)
      (by simp only [List.length_append, List.length_cons]; omega)
    refine ⟨s, fun w hw => ?_, ?_⟩
    · simpa only [List.append_assoc, List.cons_append] using hlex w hw
    · have hcomma := lex_single (n := n) (r := u ++ 0x7d :: r) hhost hw₁ .comma ⟨nofun, nofun⟩
        (by simp only [List.length_append, List.length_cons, List.length_nil]; omega)
      rw [readMembers, if_pos rfl, hmember, Option.bind_some]
      change (lex host n (w₁ ++ ([44] ++ (u ++ 0x7d :: r)))).bind _ = _
      rw [hcomma, Option.bind_some, if_neg (show ¬ Lexeme.comma = .objEnd by decide), if_pos rfl]
      change (lex host n ([] ++ (u ++ 0x7d :: r))).bind _ = _
      rw [hnext [] nofun, Option.bind_some, hrest]
      rfl

theorem readArray_empty (hhost : host.ReadsLongest) (hw : Blank w)
    (hn : (w ++ 0x5d :: r).length < n) :
    readArray host n value (w ++ 0x5d :: r) = some ([], r) := by
  simp only [List.length_append, List.length_cons] at hn
  have hend := lex_single (n := n) (r := r) hhost hw .arrEnd ⟨nofun, nofun⟩
    (by simp only [List.length_append, List.length_cons, List.length_nil]; omega)
  change (lex host n (w ++ ([0x5d] ++ r))).bind _ = _
  rw [hend, Option.bind_some, if_pos rfl]

theorem readArray_complete (hhost : host.ReadsLongest) (hV : Complete host n value V)
    (hu : Elements V u ns) (hn : (u ++ 0x5d :: r).length < n) :
    readArray host n value (u ++ 0x5d :: r) = some (ns, r) := by
  have hlen : u.length < n := by
    rw [List.length_append] at hn
    omega
  obtain ⟨x, s, hx, hlex, hrest⟩ := readElements_complete hhost hV hu hlen hn
  have hfirst := hlex [] nofun
  rw [List.nil_append] at hfirst
  rw [readArray, hfirst, Option.bind_some, if_neg hx, hrest]

theorem readObject_empty (hhost : host.ReadsLongest) (hw : Blank w)
    (hn : (w ++ 0x7d :: r).length < n) :
    readObject host n value (w ++ 0x7d :: r) = some ([], r) := by
  simp only [List.length_append, List.length_cons] at hn
  have hend := lex_single (n := n) (r := r) hhost hw .objEnd ⟨nofun, nofun⟩
    (by simp only [List.length_append, List.length_cons, List.length_nil]; omega)
  change (lex host n (w ++ ([0x7d] ++ r))).bind _ = _
  rw [hend, Option.bind_some, if_pos rfl]

theorem readObject_complete (hhost : host.ReadsLongest) (hV : Complete host n value V)
    (hu : Members V u ns) (hn : (u ++ 0x7d :: r).length < n) :
    readObject host n value (u ++ 0x7d :: r) = some (ns, r) := by
  have hlen : u.length < n := by
    rw [List.length_append] at hn
    omega
  obtain ⟨s, hlex, hrest⟩ := readMembers_complete hhost hV hu hlen hn
  have hfirst := hlex [] nofun
  rw [List.nil_append] at hfirst
  rw [readObject, hfirst, Option.bind_some, if_neg (show ¬ Lexeme.string = .objEnd by decide),
    hrest]

theorem readValue_complete (hhost : host.ReadsLongest) :
    Complete host n (readValue host n d k) (IsValue IsLax d k) := by
  have hatom : ∀ {d k t ns r}, Atom IsLax t ns → Follows r → (t ++ r).length < n →
      ∃ x s, x ≠ .arrEnd ∧ (∀ w, Blank w → lex host n (w ++ (t ++ r)) = some (x, s)) ∧
        readValue host n d k x s = some (ns, r) := by
    intro d k t ns r ht hr hn
    cases ht with
    | word hw =>
      refine ⟨.word, r, nofun, fun w hw₀ => ?_, by rw [readValue]⟩
      exact lex_single hhost hw₀ (.word hw) ⟨nofun, nofun⟩ hn
    | number ht =>
      refine ⟨.number t, r, nofun, fun w hw₀ => ?_, by rw [readValue]⟩
      exact lex_complete hhost hw₀ (.number ht) (fun _ _ => hr) nofun hn
    | string hs =>
      refine ⟨.string, r, nofun, fun w hw₀ => ?_, by rw [readValue]⟩
      exact lex_single hhost hw₀ (.string hs) ⟨nofun, nofun⟩ hn
  induction d generalizing k with
  | zero =>
    intro t ns r ht hr hn
    exact hatom ht hr hn
  | succ d ih =>
    intro t ns r ht hr hn
    rcases ht with ht | ht
    · exact hatom ht hr hn
    · -- the first byte opens the table, whose last one ends it
      have hshape : ∀ (b c : UInt8) (u : List UInt8), b :: (u ++ [c]) ++ r = b :: (u ++ c :: r) :=
        fun b c u => by simp
      have hopen : ∀ {x : Lexeme} {c : UInt8} {u : List UInt8}, Spells x [c] →
          (∀ u, x ≠ .number u) ∧ x ≠ .end → (c :: u).length < n →
          ∀ w, Blank w → lex host n (w ++ c :: u) = some (x, u) :=
        fun hx hsingle hn w hw => lex_single hhost hw hx hsingle hn
      cases ht with
      | emptyArray hw =>
        rw [hshape] at hn
        simp only [hshape]
        exact ⟨.arrBegin, _, nofun, hopen .arrBegin ⟨nofun, nofun⟩ hn,
          readArray_empty hhost hw (Nat.lt_of_succ_lt hn)⟩
      | array hs =>
        rw [hshape] at hn
        simp only [hshape]
        exact ⟨.arrBegin, _, nofun, hopen .arrBegin ⟨nofun, nofun⟩ hn,
          readArray_complete hhost ih hs (Nat.lt_of_succ_lt hn)⟩
      | emptyObject hw =>
        rw [hshape] at hn
        simp only [hshape]
        exact ⟨.objBegin, _, nofun, hopen .objBegin ⟨nofun, nofun⟩ hn,
          readObject_empty hhost hw (Nat.lt_of_succ_lt hn)⟩
      | object hs =>
        rw [hshape] at hn
        simp only [hshape]
        exact ⟨.objBegin, _, nofun, hopen .objBegin ⟨nofun, nofun⟩ hn,
          readObject_complete hhost ih hs (Nat.lt_of_succ_lt hn)⟩

theorem readText_complete (hhost : host.ReadsLongest) (hs : IsText IsLax d k s ns)
    (hn : s.length < n) : readText host n d k s = some ns := by
  obtain ⟨hw, hs, hw'⟩ := hs
  rename_i w t w'
  have hfollows : Follows w' := List.append_nil w' ▸ hw'.follows (r := []) nofun
  simp only [List.length_append] at hn
  obtain ⟨x, s, -, hlex, hvalue⟩ := readValue_complete (n := n) hhost hs hfollows
    (by rw [List.length_append]; omega)
  have hend := lex_complete (n := n) (r := []) hhost hw' .end nofun (fun _ => rfl)
    (by simp only [List.length_nil, List.append_nil]; omega)
  rw [List.append_nil, List.append_nil] at hend
  rw [readText, hlex w hw, Option.bind_some, hvalue, Option.bind_some, hend]
  rfl

theorem readText_iff (hhost : host.ReadsLongest) (hn : s.length < n) :
    readText host n d k s = some ns ↔ IsText IsLax d k s ns :=
  ⟨readText_sound hhost, fun hs => readText_complete hhost hs hn⟩

end complete

end Lev.Json
