import Lev.LuaPattern

/-! Long strings of the Lua lexer: a line break right behind the opening bracket is dropped, every
other one is read as a newline, and the first closing bracket of the same level ends the
string. -/
namespace Lev.Lua

def closingBracket (level : ℕ) : Bytes := 93 :: (List.replicate level 61 ++ [93])

def isNewline (c : UInt8) : Bool := c == 10 || c == 13

/-- A carriage return and a newline, in either order, are one line break. -/
def isBreak (c d : UInt8) : Bool := isNewline c && isNewline d && c != d

/-- The line break behind the opening bracket. -/
def skipNewline : Bytes → Bytes
  | [] => []
  | [c] => if isNewline c then [] else [c]
  | c :: d :: s => if isBreak c d then s else if isNewline c then d :: s else c :: d :: s

/-- The loop of `read_long_string`: the value, and what is behind the closing bracket. -/
def longBody (close : Bytes) : Bytes → Option (Bytes × Bytes)
  | [] => none
  | [_] => none
  | c :: d :: s =>
    if close <+: c :: d :: s then some ([], (c :: d :: s).drop close.length)
    else if isBreak c d then (longBody close s).map fun (v, r) => (10 :: v, r)
    else (longBody close (d :: s)).map fun (v, r) => ((if isNewline c then 10 else c) :: v, r)

/-- `read_long_string` behind the opening bracket. -/
def readLongString (level : ℕ) (s : Bytes) : Option (Bytes × Bytes) :=
  longBody (closingBracket level) (skipNewline s)

/-- A text that stands for itself between long brackets. -/
structure Verbatim (level : ℕ) (text : Bytes) : Prop where
  noReturn : 13 ∉ text
  noBreak : text.head? ≠ some 10
  closed : ∀ a b, text ++ closingBracket level = a ++ closingBracket level ++ b → b = []

section longBody
variable {level : ℕ} {s v r : Bytes}

theorem closingBracket_ne_nil (level : ℕ) : closingBracket level ≠ [] := List.cons_ne_nil _ _

theorem longBody_length (h : longBody (closingBracket level) s = some (v, r)) :
    v.length + (closingBracket level).length + r.length ≤ s.length := by
  fun_induction longBody (closingBracket level) s generalizing v r with
  | case1 => cases h
  | case2 => cases h
  | case3 c d s hclose =>
    cases h
    have hle := hclose.length_le
    rw [List.length_drop, List.length_nil]
    omega
  | case4 c d s hclose hbreak ih =>
    obtain ⟨⟨v', r'⟩, hv, heq⟩ := Option.map_eq_some_iff.mp h
    cases heq
    have hle := ih hv
    simp only [List.length_cons] at hle ⊢
    omega
  | case5 c d s hclose hbreak ih =>
    obtain ⟨⟨v', r'⟩, hv, heq⟩ := Option.map_eq_some_iff.mp h
    cases heq
    have hle := ih hv
    simp only [List.length_cons] at hle ⊢
    omega

theorem longBody_noReturn (h : longBody (closingBracket level) s = some (v, r)) : 13 ∉ v := by
  fun_induction longBody (closingBracket level) s generalizing v r with
  | case1 => cases h
  | case2 => cases h
  | case3 c d s hclose =>
    cases h
    exact List.not_mem_nil
  | case4 c d s hclose hbreak ih =>
    obtain ⟨⟨v', r'⟩, hv, heq⟩ := Option.map_eq_some_iff.mp h
    cases heq
    exact List.not_mem_cons_of_ne_of_not_mem (by decide) (ih hv)
  | case5 c d s hclose hbreak ih =>
    obtain ⟨⟨v', r'⟩, hv, heq⟩ := Option.map_eq_some_iff.mp h
    cases heq
    refine List.not_mem_cons_of_ne_of_not_mem ?_ (ih hv)
    split
    · decide
    · next hc =>
      rintro rfl
      exact hc (by decide)

theorem longBody_first (h : longBody (closingBracket level) s = some (v, r)) {a b : Bytes}
    (hs : s = a ++ closingBracket level ++ b) : b.length ≤ r.length := by
  fun_induction longBody (closingBracket level) s generalizing v r a with
  | case1 => cases h
  | case2 => cases h
  | case3 c d s hclose =>
    cases h
    have hlength := congrArg List.length hs
    rw [List.length_append, List.length_append] at hlength
    rw [List.length_drop]
    omega
  | case4 c d s hclose hbreak ih =>
    obtain ⟨⟨v', r'⟩, hv, heq⟩ := Option.map_eq_some_iff.mp h
    cases heq
    obtain _ | ⟨c', _ | ⟨d', a⟩⟩ := a
    · exact absurd ⟨b, hs.symm⟩ hclose
    · -- the second character of the break is no bracket
      simp only [closingBracket, List.cons_append, List.nil_append, List.cons.injEq] at hs
      obtain ⟨-, rfl, -⟩ := hs
      exact absurd hbreak (by simp [isBreak, isNewline])
    · simp only [List.cons_append, List.cons.injEq] at hs
      exact ih hv hs.2.2
  | case5 c d s hclose hbreak ih =>
    obtain ⟨⟨v', r'⟩, hv, heq⟩ := Option.map_eq_some_iff.mp h
    cases heq
    obtain _ | ⟨c', a⟩ := a
    · exact absurd ⟨b, hs.symm⟩ hclose
    · simp only [List.cons_append, List.cons.injEq] at hs
      exact ih hv hs.2

theorem longBody_append (h : longBody (closingBracket level) s = some (v, r)) (e : Bytes) :
    longBody (closingBracket level) (s ++ e) = some (v, r ++ e) := by
  have hopen : ∀ {a t : Bytes}, ¬ closingBracket level <+: a →
      (closingBracket level).length ≤ t.length → t.length ≤ a.length →
      ¬ closingBracket level <+: a ++ e := fun hnot hclose hle hprefix =>
    hnot (List.prefix_of_prefix_length_le hprefix (List.prefix_append _ _) (hclose.trans hle))
  fun_induction longBody (closingBracket level) s generalizing v r with
  | case1 => cases h
  | case2 => cases h
  | case3 c d s hclose =>
    cases h
    have hwhole := hclose.trans (List.prefix_append _ e)
    rw [List.cons_append, List.cons_append] at hwhole ⊢
    rw [longBody, if_pos hwhole, ← List.cons_append, ← List.cons_append,
      List.drop_append_of_le_length hclose.length_le]
  | case4 c d s hclose hbreak ih =>
    obtain ⟨⟨v', r'⟩, hv, heq⟩ := Option.map_eq_some_iff.mp h
    cases heq
    have hle := longBody_length hv
    have hnot := hopen (t := s) hclose (by omega) (by simp only [List.length_cons]; omega)
    rw [List.cons_append, List.cons_append] at hnot ⊢
    rw [longBody, if_neg hnot, if_pos hbreak, ih hv]
    rfl
  | case5 c d s hclose hbreak ih =>
    obtain ⟨⟨v', r'⟩, hv, heq⟩ := Option.map_eq_some_iff.mp h
    cases heq
    have hle := longBody_length hv
    have hnot := hopen (t := d :: s) hclose (by omega) (Nat.le_succ _)
    have hrest := ih hv
    rw [List.cons_append, List.cons_append] at hnot ⊢
    rw [List.cons_append] at hrest
    rw [longBody, if_neg hnot, if_neg hbreak, hrest]
    rfl

theorem longBody_self {text : Bytes} (hreturn : 13 ∉ text)
    (hclosed : ∀ a b, text ++ closingBracket level = a ++ closingBracket level ++ b → b = []) :
    longBody (closingBracket level) (text ++ closingBracket level) = some (text, []) := by
  induction text with
  | nil =>
    obtain ⟨d, s, hs⟩ : ∃ (d : UInt8) (s : Bytes), List.replicate level 61 ++ [93] = d :: s := by
      cases level with
      | zero => exact ⟨_, _, rfl⟩
      | succ n => exact ⟨_, _, rfl⟩
    have hcons : closingBracket level = (93 : UInt8) :: d :: s := congrArg (93 :: ·) hs
    rw [List.nil_append]
    nth_rewrite 2 [hcons]
    rw [longBody, ← hcons, if_pos (List.prefix_refl _), List.drop_length]
  | cons c text ih =>
    have hrest := ih (fun h => hreturn (List.mem_cons_of_mem c h)) fun a b heq =>
      hclosed (c :: a) b (congrArg (c :: ·) heq)
    have hopen : ¬ closingBracket level <+: c :: (text ++ closingBracket level) := by
      rintro ⟨b, hb⟩
      have hlength := congrArg List.length hb
      have hnil := hclosed [] b hb.symm
      rw [hnil, List.length_append, List.length_cons, List.length_append] at hlength
      rw [List.length_nil] at hlength
      omega
    have hc : (if isNewline c then 10 else c) = c := by
      split
      · next hnewline =>
        have hcases : c = 10 ∨ c = 13 := by simpa [isNewline] using hnewline
        obtain rfl | rfl := hcases
        · rfl
        · exact absurd List.mem_cons_self hreturn
      · rfl
    rw [List.cons_append]
    obtain ⟨d, s, hs⟩ := List.exists_cons_of_ne_nil
      (List.append_ne_nil_of_right_ne_nil text (closingBracket_ne_nil level))
    have hd : d ≠ 13 := by
      cases text with
      | nil =>
        have hhead : (93 : UInt8) = d := congrArg (fun l => List.headD l 0) hs
        rw [← hhead]
        decide
      | cons e text =>
        have hhead : e = d := congrArg (fun l => List.headD l 0) hs
        rintro rfl
        exact hreturn (hhead ▸ List.mem_cons_of_mem c List.mem_cons_self)
    have hbreak : isBreak c d = false := by
      have hne : c ≠ 13 := fun h => hreturn (h ▸ List.mem_cons_self)
      rw [isBreak, isNewline, isNewline]
      grind
    rw [hs] at hopen hrest ⊢
    rw [longBody, if_neg hopen, hbreak, hrest, hc]
    rfl

end longBody

/-- What the text between the brackets stands for; `none` if the string does not end where the
text does. -/
def longStringValue (level : ℕ) (text : Bytes) : Option Bytes :=
  match readLongString level (text ++ closingBracket level) with
  | some (v, []) => some v
  | _ => none

section value
variable {level : ℕ} {text v : Bytes}

theorem longStringValue_some (h : longStringValue level text = some v) :
    readLongString level (text ++ closingBracket level) = some (v, []) := by
  rw [longStringValue] at h
  split at h
  · next v' heq =>
    cases h
    exact heq
  · cases h

theorem skipNewline_cases (s : Bytes) :
    (skipNewline s = s ∧ ∀ c, s.head? = some c → isNewline c = false) ∨
      (skipNewline s).length < s.length := by
  fun_cases skipNewline s with
  | case1 => exact .inl ⟨rfl, fun c h => nomatch h⟩
  | case2 c hc => exact .inr (Nat.lt_succ_self 0)
  | case3 c hc =>
    refine .inl ⟨rfl, fun d h => ?_⟩
    cases h
    exact eq_false_of_ne_true hc
  | case4 c d s hbreak => exact .inr (by simp only [List.length_cons]; omega)
  | case5 c d s hbreak hc => exact .inr (Nat.lt_succ_self _)
  | case6 c d s hbreak hc =>
    refine .inl ⟨rfl, fun e h => ?_⟩
    cases h
    exact eq_false_of_ne_true hc

theorem skipNewline_of_not {c : UInt8} (hc : isNewline c = false) (s : Bytes) :
    skipNewline (c :: s) = c :: s := by
  cases s with
  | nil => rw [skipNewline, hc, if_neg (by decide)]
  | cons d s =>
    have hbreak : isBreak c d = false := by rw [isBreak, hc, Bool.false_and, Bool.false_and]
    rw [skipNewline, hbreak, hc, if_neg (by decide), if_neg (by decide)]

theorem skipNewline_append {s : Bytes} (hs : 2 ≤ s.length) (e : Bytes) :
    skipNewline (s ++ e) = skipNewline s ++ e := by
  obtain _ | ⟨c, _ | ⟨d, s⟩⟩ := s
  · cases hs
  · exact absurd hs (Nat.not_succ_le_self 1)
  · rw [List.cons_append, List.cons_append, skipNewline, skipNewline]
    split
    · rfl
    · split
      · rfl
      · rfl

theorem readLongString_of_value (h : longStringValue level text = some v) (e : Bytes) :
    readLongString level (text ++ closingBracket level ++ e) = some (v, e) := by
  have hbody := longBody_append (longStringValue_some h) e
  rw [readLongString, skipNewline_append, hbody, List.nil_append]
  rw [List.length_append, closingBracket, List.length_cons, List.length_append,
    List.length_singleton]
  omega

theorem longStringValue_length (h : longStringValue level text = some v) :
    v.length ≤ text.length := by
  have hle := longBody_length (longStringValue_some h)
  rw [List.length_nil] at hle
  have hskip : (skipNewline (text ++ closingBracket level)).length ≤
      (text ++ closingBracket level).length := by
    obtain ⟨heq, -⟩ | hlt := skipNewline_cases (text ++ closingBracket level)
    · rw [heq]
    · exact hlt.le
  rw [List.length_append] at hskip
  omega

/-- A text stands for itself only if nothing in it is dropped, changed or a closing bracket. -/
theorem longStringValue_self_iff :
    longStringValue level text = some text ↔ Verbatim level text := by
  have hhead : ∀ c, text.head? = some c → (text ++ closingBracket level).head? = some c := by
    intro c h
    rw [List.head?_append, h, Option.some_or]
  constructor
  · intro h
    have hread : longBody (closingBracket level) (skipNewline (text ++ closingBracket level)) =
        some (text, []) := longStringValue_some h
    obtain ⟨heq, hfirst⟩ | hlt := skipNewline_cases (text ++ closingBracket level)
    · rw [heq] at hread
      refine ⟨longBody_noReturn hread, fun hbreak => ?_, fun a b hab => ?_⟩
      · exact absurd (hfirst 10 (hhead 10 hbreak)) (by decide)
      · exact List.eq_nil_of_length_eq_zero (Nat.le_zero.mp (longBody_first hread hab))
    · have hle := longBody_length hread
      rw [List.length_nil] at hle
      rw [List.length_append] at hlt
      omega
  · rintro ⟨hreturn, hbreak, hclosed⟩
    have hskip : skipNewline (text ++ closingBracket level) = text ++ closingBracket level := by
      cases text with
      | nil => exact skipNewline_of_not (by decide) _
      | cons c text =>
        have hc : c ≠ 10 ∧ c ≠ 13 :=
          ⟨fun h => hbreak (congrArg some h), fun h => hreturn (h ▸ List.mem_cons_self)⟩
        exact skipNewline_of_not (by simp [isNewline, hc.1, hc.2]) _
    rw [longStringValue, readLongString, hskip, longBody_self hreturn hclosed]

end value

end Lev.Lua
