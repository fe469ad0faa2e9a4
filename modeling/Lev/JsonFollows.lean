import Lev.Ends
import Lev.JsonReader

/-! The decoder takes the tokens that the tokenizer on lists of bytes takes, whatever happens to
its scratch buffer. A program that stops early is none of this module's business. -/
namespace Lev.Json
open CInt Memory Lua Slab Effect

/-- Up to the next NUL the text goes on with `s`; the tables are nested `d` deep. -/
structure Facing (data : List UInt8) (d : ℕ) (s : List UInt8) (json : Parse) : Prop where
  text : ∃ u, (data ++ [0]).drop json.ptr = s ++ 0 :: u
  noNul : 0 ∉ s
  depth : json.currentDepth = d

/-- The program gives up only where the list of bytes is refused too. -/
def Refuses {β : Type} (p : Option β) : Abort → Parse → Prop
  | .error _, _ => p = none
  | .stop _, _ => True

variable {data s r : List UInt8} {d k n : ℕ} {json : Parse} {c : UInt8} {host : Host}
  {E : Abort → Parse → Prop} {β : Type} {p : Option β}

theorem Facing.ofPtr (hf : Facing data d s json) {json' : Parse} (hptr : json'.ptr = json.ptr)
    (hdepth : json'.currentDepth = json.currentDepth) : Facing data d s json' :=
  ⟨hptr ▸ hf.text, hf.noNul, hdepth.trans hf.depth⟩

theorem peek_faces (hf : Facing data d s json) (hk : k ≤ s.length) :
    Ends (peek data k) json (fun ch json' => json = json' ∧ ch = (s.drop k).headD 0) E := by
  obtain ⟨u, hu⟩ := hf.text
  have hget : (data ++ [0])[json.ptr + k]? = some ((s.drop k).headD 0) := by
    rw [← List.getElem?_drop, hu]
    rcases Nat.lt_or_ge k s.length with hlt | hge
    · rw [List.getElem?_append_left hlt, List.drop_eq_getElem_cons hlt,
        List.getElem?_eq_getElem hlt]
      rfl
    · rw [List.getElem?_append_right hge, le_antisymm hk hge, Nat.sub_self, List.drop_length]
      rfl
  rw [Ends, peek, hget]
  exact ⟨rfl, rfl⟩

theorem advance_faces (hf : Facing data d s json) (hk : k ≤ s.length) :
    Ends (advance k) json (fun _ json' => Facing data d (s.drop k) json') E := by
  obtain ⟨u, hu⟩ := hf.text
  refine ends_modify ⟨⟨u, ?_⟩, fun h => hf.noNul (List.mem_of_mem_drop h), hf.depth⟩
  change (data ++ [0]).drop (json.ptr + k) = _
  rw [← List.drop_drop, hu, List.drop_append_of_le_length hk]

theorem onTmp_faces {f : Mem → Option Mem} (hf : Facing data d s json) :
    Ends (onTmp f) json (fun _ json' => Facing data d s json') (Refuses p) := by
  rw [Ends, onTmp]
  cases f json.mem with
  | none => trivial
  | some mem => exact hf.ofPtr rfl rfl

section strings

theorem hexdigit2int_eq : ∀ c, hexdigit2int c = hexDigit? c := forall_byte (by decide +kernel)

theorem decodeHexLoop_faces {m v : ℕ} (hf : Facing data d s json) (hk : k ≤ s.length) :
    Ends (decodeHexLoop data m k v) json (fun a json' => json = json' ∧
      a = if (s.drop k).length < m then none else hexValue v ((s.drop k).take m)) E := by
  induction m generalizing k v with
  | zero => exact ends_pure ⟨rfl, rfl⟩
  | succ m ih =>
    rw [decodeHexLoop]
    refine (peek_faces hf hk).bind fun ch json' ⟨hsame, hch⟩ => ?_
    subst hsame
    rw [hexdigit2int_eq]
    cases hs : s.drop k with
    | nil =>
      rw [hs, List.headD_nil] at hch
      have hzero : hexDigit? ch = none := by
        rw [hch]
        decide
      rw [hzero]
      exact ends_pure ⟨rfl, rfl⟩
    | cons c s' =>
      rw [hs, List.headD_cons] at hch
      subst hch
      have hlt : k < s.length := by
        have hlen := congrArg List.length hs
        rw [List.length_drop, List.length_cons] at hlen
        omega
      have hrest : s.drop (k + 1) = s' := by
        rw [← List.drop_drop, hs]
        rfl
      have hlen : (ch :: s').length < m + 1 ↔ s'.length < m := Nat.succ_lt_succ_iff
      simp only [hlen]
      cases hd : hexDigit? ch with
      | none =>
        refine ends_pure ⟨rfl, ?_⟩
        rw [List.take_succ_cons, hexValue, hd]
        split <;> rfl
      | some digit =>
        refine (ih (k := k + 1) hlt).mono fun a json' ⟨hsame, ha⟩ => ⟨hsame, ?_⟩
        rw [ha, hrest, List.take_succ_cons, hexValue, hd]
        rfl

theorem hexValue_lt {v : ℕ} {s : List UInt8} (h : hexValue v s = some n) :
    n < (v + 1) * 16 ^ s.length := by
  have hdigit : ∀ c, ∀ d ∈ hexDigit? c, d < 16 := forall_byte (by decide +kernel)
  induction s generalizing v with
  | nil =>
    cases h
    rw [List.length_nil, pow_zero, mul_one]
    exact Nat.lt_succ_self _
  | cons c s ih =>
    obtain ⟨d, hd, hrest⟩ := Option.bind_eq_some_iff.mp h
    have hd := hdigit c d hd
    calc n < (v * 16 + d + 1) * 16 ^ s.length := ih hrest
      _ ≤ (v + 1) * 16 * 16 ^ s.length := Nat.mul_le_mul_right _ (by omega)
      _ = (v + 1) * 16 ^ (c :: s).length := by
          rw [List.length_cons, pow_succ, mul_assoc, mul_comm 16]

theorem decodeHex4_faces (hf : Facing data d s json) (hk : k ≤ s.length) :
    Ends (decodeHex4 data k) json (fun a json' => json = json' ∧
      hex4 (s.drop k) = (a.map fun m => (m, s.drop (k + 4))) ∧
      ∀ m ∈ a, m < 0x10000 ∧ k + 4 ≤ s.length) E := by
  refine (decodeHexLoop_faces (m := 4) (v := 0) hf hk).mono ?_
  rintro a json' ⟨hsame, ha⟩
  refine ⟨hsame, ?_⟩
  rw [hex4]
  split
  · next hlen =>
    rw [ha, if_pos hlen]
    refine ⟨rfl, fun m hm => ?_⟩
    cases hm
  · next hlen =>
    rw [ha, if_neg hlen, List.drop_drop]
    refine ⟨rfl, fun m hm => ⟨?_, ?_⟩⟩
    · have hlt := hexValue_lt hm
      rw [List.length_take_of_le (Nat.not_lt.mp hlen)] at hlt
      exact hlt
    · rw [List.length_drop] at hlen
      omega

theorem take_two : s.take 2 = [92, 117] ↔ s.headD 0 = 92 ∧ (s.drop 1).headD 0 = 117 := by
  rcases s with _ | ⟨b, _ | ⟨c, s⟩⟩
  · simp
  · simp
  · simp

theorem length_of_headD (h : (s.drop k).headD 0 = c) (hc : c ≠ 0) : k < s.length := by
  by_contra hge
  rw [List.drop_eq_nil_of_le (Nat.not_lt.mp hge)] at h
  exact hc h.symm

theorem surrogatePair_faces {m : ℕ} (hf : Facing data d s json) (hk : 6 ≤ s.length)
    (hm : m < 0x10000) :
    Ends (surrogatePair data m) json (fun a json' => json = json' ∧
      unitRest m (s.drop 6) = (a.map fun x => s.drop x.2) ∧
      ∀ x ∈ a, x.1 < 0x110000 ∧ x.2 ≤ s.length) E := by
  have hnone : unitRest m (s.drop 6) = none → Ends (pure none : Dec (Option (ℕ × ℕ))) json
      (fun a json' => json = json' ∧ unitRest m (s.drop 6) = (a.map fun x => s.drop x.2) ∧
        ∀ x ∈ a, x.1 < 0x110000 ∧ x.2 ≤ s.length) E :=
    fun h => ends_pure ⟨rfl, h, fun x hx => by cases hx⟩
  rw [surrogatePair]
  split
  · next hplain =>
    refine ends_pure ⟨rfl, if_pos (by omega), fun x hx => ?_⟩
    cases hx
    exact ⟨by dsimp only; omega, hk⟩
  · next hsurrogate =>
    have hunit : unitRest m (s.drop 6) = if m < 0xdc00 then pairRest (s.drop 6) else none :=
      if_neg (by omega)
    split
    · next hlow => exact hnone (hunit.trans (if_neg (by omega)))
    · next hhigh =>
      rw [if_pos (by omega)] at hunit
      -- the second unit has an escape of its own
      refine (peek_faces hf hk).bind ?_
      rintro backslash json' ⟨hsame, hback⟩
      subst hsame
      split
      · next hne =>
        refine hnone (hunit.trans (if_neg fun htwo => hne ?_))
        exact hback.trans (take_two.mp htwo).1
      · next hback' =>
        have hsix : (s.drop 6).headD 0 = 92 := hback.symm.trans (not_not.mp hback')
        have hlt := length_of_headD hsix (by decide)
        refine (peek_faces hf (k := 7) hlt).bind ?_
        rintro u json' ⟨hsame, hu⟩
        subst hsame
        split
        · next hne =>
          refine hnone (hunit.trans (if_neg fun htwo => hne ?_))
          rw [hu, ← List.drop_drop (i := 1) (j := 6)]
          exact (take_two.mp htwo).2
        · next hu' =>
          have hseven : (s.drop 7).headD 0 = 117 := hu.symm.trans (not_not.mp hu')
          have hlt' := length_of_headD hseven (by decide)
          have htwo : (s.drop 6).take 2 = [92, 117] :=
            take_two.mpr ⟨hsix, by rw [List.drop_drop]; exact hseven⟩
          rw [pairRest, if_pos htwo, List.drop_drop] at hunit
          refine (decodeHex4_faces hf (k := 8) hlt').bind ?_
          rintro a json' ⟨hsame, hhex, hle⟩
          subst hsame
          rw [hhex] at hunit
          cases a with
          | none => exact hnone hunit
          | some low =>
            obtain ⟨hlow, hlen⟩ := hle low rfl
            dsimp only
            split
            · next hne => exact hnone (hunit.trans (if_neg (by dsimp only; omega)))
            · next heq =>
              refine ends_pure ⟨rfl, hunit.trans (if_pos (by dsimp only; omega)), fun x hx => ?_⟩
              cases hx
              exact ⟨by dsimp only; omega, hlen⟩

theorem codepointToUtf8_ne_nil {codepoint : ℕ} (h : codepoint < 0x110000) :
    codepointToUtf8 codepoint ≠ [] := by
  rw [codepointToUtf8]
  dsimp only
  split_ifs
  · exact List.cons_ne_nil _ _
  · exact List.cons_ne_nil _ _
  · exact List.cons_ne_nil _ _
  · exact List.cons_ne_nil _ _
  · omega

theorem jsonAppendUnicodeEscape_faces (hf : Facing data d (92 :: 117 :: r) json) :
    Ends (jsonAppendUnicodeEscape data) json (fun ok json' =>
      if ok then ∃ r', unicodeRest r = some r' ∧ Facing data d r' json' else unicodeRest r = none)
      (Refuses p) := by
  rw [jsonAppendUnicodeEscape]
  refine (decodeHex4_faces hf (k := 2) (Nat.le_add_left 2 _)).bind ?_
  rintro a json' ⟨hsame, hhex, hle⟩
  subst hsame
  change hex4 r = _ at hhex
  rw [unicodeRest, hhex]
  cases a with
  | none => exact ends_pure rfl
  | some m =>
    obtain ⟨hm, hlen⟩ := hle m rfl
    refine (surrogatePair_faces hf hlen hm).bind ?_
    rintro a json' ⟨hsame, hunit, hlast⟩
    subst hsame
    change _ = Option.map _ _ at hunit
    cases a with
    | none => exact ends_pure hunit
    | some x =>
      obtain ⟨hpoint, hlen⟩ := hlast x rfl
      have hutf8 := codepointToUtf8_ne_nil hpoint
      dsimp only
      rw [if_neg (by rwa [List.isEmpty_iff])]
      refine (onTmp_faces hf).bind fun _ json₁ hf₁ => ?_
      refine (advance_faces hf₁ hlen).bind fun _ json₂ hf₂ => ends_pure ?_
      exact ⟨_, hunit, hf₂⟩

theorem escape2char_facts : ∀ ch, (escape2char ch = 117 ↔ ch = 117) ∧
    (escape2char ch = 0 ↔ ch ≠ 117 ∧ ch ∉ simpleEscapes) := forall_byte (by decide +kernel)

theorem stringEscape_faces (hf : Facing data d (92 :: r) json) :
    Ends (stringEscape data) json (fun err json' =>
      if err = none then ∃ r', escapeRest r = some r' ∧ Facing data d r' json'
      else escapeRest r = none) (Refuses p) := by
  rw [stringEscape]
  refine (peek_faces hf (k := 1) (Nat.le_add_left 1 _)).bind fun ch json' ⟨hsame, hch⟩ => ?_
  subst hsame
  change ch = r.headD 0 at hch
  obtain ⟨hu, hzero⟩ := escape2char_facts ch
  dsimp only
  split
  · next h117 =>
    have h117 := hch.symm.trans (hu.mp h117)
    obtain ⟨r, rfl⟩ : ∃ r', r = 117 :: r' := by
      cases r with
      | nil => cases h117
      | cons c r => exact ⟨r, congrArg (· :: r) h117⟩
    rw [escapeRest, if_pos rfl]
    refine (jsonAppendUnicodeEscape_faces hf).bind fun ok json₁ hok => ends_pure ?_
    cases ok with
    | true => exact hok
    | false => exact hok
  · next h117 =>
    have h117 : ch ≠ 117 := fun h => h117 (hu.mpr h)
    split
    · next hnone =>
      refine ends_pure ?_
      rw [if_neg (Option.some_ne_none _)]
      cases r with
      | nil => rfl
      | cons c r =>
        rw [List.headD_cons] at hch
        subst hch
        rw [escapeRest, if_neg h117, if_neg (hzero.mp hnone).2]
    · next hsome =>
      have hsimple : ch ∈ simpleEscapes := by
        by_contra h
        exact hsome (hzero.mpr ⟨h117, h⟩)
      cases r with
      | nil =>
        rw [List.headD_nil] at hch
        subst hch
        exact absurd hsimple (by decide)
      | cons c r =>
        rw [List.headD_cons] at hch
        subst hch
        rw [escapeRest, if_neg h117, if_pos hsimple]
        refine (advance_faces hf (k := 1) (Nat.le_add_left 1 _)).bind fun _ json₁ hf₁ => ?_
        refine (onTmp_faces hf₁).bind fun _ json₂ hf₂ => ?_
        refine (advance_faces hf₂ (k := 1) (Nat.le_add_left 1 _)).bind fun _ json₃ hf₃ =>
          ends_pure ?_
        exact ⟨r, rfl, hf₃⟩

theorem stringLoop_faces (hf : Facing data d s json) :
    Ends (stringLoop data n) json (fun err json' =>
      if err = none then ∃ r, stringRest n s = some r ∧ Facing data d (34 :: r) json'
      else stringRest n s = none) (Refuses p) := by
  induction n generalizing s json with
  | zero => exact ends_throw trivial
  | succ n ih =>
    rw [stringLoop]
    refine (peek_faces hf (k := 0) (Nat.zero_le _)).bind fun ch json' ⟨hsame, hch⟩ => ?_
    subst hsame
    cases s with
    | nil =>
      cases hch
      exact ends_pure rfl
    | cons c s =>
      change ch = c at hch
      subst hch
      have hne : ch ≠ 0 := fun h0 => hf.noNul (h0 ▸ List.mem_cons_self)
      rw [stringRest]
      split
      · next hquote => exact ends_pure ⟨s, rfl, hquote ▸ hf⟩
      · split
        · next hback =>
          subst hback
          refine (stringEscape_faces hf).bind fun err json₁ herr => ?_
          cases err with
          | none =>
            obtain ⟨r, hr, hf₁⟩ := herr
            rw [hr, Option.bind_some]
            exact ih hf₁
          | some errtype =>
            change escapeRest s = none at herr
            rw [herr]
            exact ends_pure rfl
        · refine (onTmp_faces hf).bind fun _ json₁ hf₁ => ?_
          exact (advance_faces hf₁ (k := 1) (Nat.le_add_left 1 _)).bind fun _ json₂ hf₂ => ih hf₂

end strings

section tokens

/-- The token is the one that was found in the list of bytes. -/
inductive Token.Is : Token → Lexeme → Prop
  | single {t : Token} {x : Lexeme} (h : t.lexeme = some x) : Is t x
  | string {len : ℕ} : Is (.string len) .string
  | number {n : Double} {t : List UInt8} : Is (.number n) (.number t)
  | boolean {b : Bool} : Is (.boolean b) .word
  | null : Is .null .word
  | end : Is .end .end

/-- What the tokenizers found; an error stands for nothing. -/
def Lexed (data : List UInt8) (d : ℕ) (a : Option (Lexeme × List UInt8)) (token : Token × ℕ)
    (json : Parse) : Prop :=
  match a with
  | some x => token.1.Is x.1 ∧ Facing data d x.2 json
  | none => ∃ errtype, token.1 = .error errtype

variable {o : Options} {index : ℕ}

theorem jsonNextStringToken_faces (hf : Facing data d (34 :: s) json) :
    Ends (jsonNextStringToken data index) json
      (Lexed data d ((stringRest (data.length + 1) s).map fun r => (.string, r))) (Refuses p) := by
  rw [jsonNextStringToken]
  refine (advance_faces hf (k := 1) (Nat.le_add_left 1 _)).bind fun _ json₁ hf₁ => ?_
  refine (onTmp_faces hf₁).bind fun _ json₂ hf₂ => ?_
  refine (stringLoop_faces hf₂).bind fun err json₃ herr => ?_
  cases err with
  | some errtype =>
    change stringRest _ s = none at herr
    rw [herr]
    exact ends_get_bind (ends_pure ⟨errtype, rfl⟩)
  | none =>
    obtain ⟨r, hr, hf₃⟩ := herr
    change stringRest _ s = some r at hr
    rw [hr]
    refine (advance_faces hf₃ (k := 1) (Nat.le_add_left 1 _)).bind fun _ json₄ hf₄ => ?_
    refine (onTmp_faces hf₄).bind fun _ json₅ hf₅ => ?_
    exact ends_get_bind (ends_pure ⟨.string, hf₅⟩)

theorem isNext_faces {fold : UInt8 → UInt8} (hfold : fold 0 = 0) {word : List UInt8}
    (hword : 0 ∉ word) (hf : Facing data d s json) (hk : k ≤ s.length) :
    Ends (isNext data fold word k) json (fun ok json' => json = json' ∧
      (ok = true ↔ word <+: (s.drop k).map fold)) E := by
  induction word generalizing k with
  | nil => exact ends_pure ⟨rfl, iff_of_true rfl (List.nil_prefix)⟩
  | cons c word ih =>
    rw [isNext]
    refine (peek_faces hf hk).bind fun ch json' ⟨hsame, hch⟩ => ?_
    subst hsame
    cases hs : s.drop k with
    | nil =>
      rw [hs, List.headD_nil] at hch
      subst hch
      have hc : ¬ fold 0 = c :=
        fun heq => hword (List.mem_cons.mpr (.inl (hfold.symm.trans heq)))
      rw [if_neg hc]
      exact ends_pure ⟨rfl, iff_of_false Bool.false_ne_true (by simp)⟩
    | cons c' s' =>
      rw [hs, List.headD_cons] at hch
      subst hch
      have hrest : s.drop (k + 1) = s' := by
        rw [← List.drop_drop, hs]
        rfl
      have hlt : k < s.length := by
        have hlen := congrArg List.length hs
        rw [List.length_drop, List.length_cons] at hlen
        omega
      rw [List.map_cons, List.cons_prefix_cons]
      split
      · next hc =>
        refine (ih (fun h0 => hword (List.mem_cons_of_mem c h0)) hlt).mono
          fun ok json' ⟨hsame, hok⟩ => ⟨hsame, ?_⟩
        rw [hok, hrest]
        exact ⟨fun h => ⟨hc.symm, h⟩, And.right⟩
      · next hc =>
        exact ends_pure ⟨rfl, iff_of_false Bool.false_ne_true fun h => hc h.1.symm⟩

theorem headD_cases (h : c = s.headD 0) : s = [] ∧ c = 0 ∨ ∃ s', s = c :: s' := by
  cases s with
  | nil => exact .inl ⟨rfl, h⟩
  | cons b s => exact .inr ⟨s, congrArg (· :: s) h.symm⟩

theorem not_invalidUnsigned_nil : ¬ InvalidUnsigned [] := by
  have hhead : ¬ ([] : List UInt8).head? = some 48 := Option.some_ne_none 48 ∘ Eq.symm
  have hlow : ∀ c ∈ ([] : List UInt8).head?, c ≤ 57 ∨ 128 ≤ c := fun c hc => by cases hc
  rw [InvalidUnsigned, if_neg hhead, if_pos hlow]
  exact id

theorem isInvalidUnsigned_faces (hf : Facing data d s json) (hk : k ≤ s.length) :
    Ends (isInvalidUnsigned data k) json (fun ok json' => json = json' ∧
      (ok = true ↔ InvalidUnsigned (s.drop k))) E := by
  rw [isInvalidUnsigned]
  refine (peek_faces hf hk).bind ?_
  rintro ch json' ⟨hsame, hch⟩
  subst hsame
  rcases headD_cases hch with ⟨hnil, rfl⟩ | ⟨s', hs⟩
  · have hlow : (0 : UInt8) ≤ 57 ∨ 128 ≤ (0 : UInt8) := .inl (by decide +kernel)
    rw [if_neg (by decide), if_pos hlow, hnil]
    exact ends_pure ⟨rfl, iff_of_false Bool.false_ne_true not_invalidUnsigned_nil⟩
  · rw [hs, InvalidUnsigned]
    split
    · next hzero =>
      have hlt := length_of_headD (hch.symm.trans hzero) (by decide)
      have hrest : s.drop (k + 1) = s' := by
        rw [← List.drop_drop, hs]
        rfl
      refine (peek_faces hf (k := k + 1) hlt).bind ?_
      rintro ch2 json' ⟨hsame, hch2⟩
      refine ends_pure ?_
      rw [hrest] at hch2
      have hhead : (ch :: s').head? = some 48 := congrArg some hzero
      rw [if_pos hhead]
      refine ⟨hsame, decide_eq_true_iff.trans ?_⟩
      rcases headD_cases hch2 with ⟨rfl, rfl⟩ | ⟨s'', rfl⟩
      · exact iff_of_false (by decide) (by simp)
      · refine ⟨fun h => ⟨_, rfl, h⟩, ?_⟩
        rintro ⟨d, hd, h⟩
        exact Option.some.inj hd ▸ h
    · next hzero =>
      have hhead : ¬ (ch :: s').head? = some 48 := fun h => hzero (Option.some.inj h)
      rw [if_neg hhead]
      split
      · next hrange =>
        have hall : ∀ c ∈ (ch :: s').head?, c ≤ 57 ∨ 128 ≤ c :=
          fun c hc => Option.some.inj hc ▸ hrange
        rw [if_pos hall]
        exact ends_pure ⟨rfl, iff_of_false Bool.false_ne_true id⟩
      · next hrange =>
        have hall : ¬ ∀ c ∈ (ch :: s').head?, c ≤ 57 ∨ 128 ≤ c := fun h => hrange (h ch rfl)
        rw [if_neg hall, ← hs]
        refine (isNext_faces (by decide) (by decide) hf hk).bind ?_
        rintro inf json' ⟨hsame, hinf⟩
        subst hsame
        split
        · next htrue => exact ends_pure ⟨rfl, iff_of_true rfl (.inl (hinf.mp htrue))⟩
        · next hfalse =>
          refine (isNext_faces (by decide) (by decide) hf hk).mono ?_
          rintro nan json' ⟨hsame, hnan⟩
          refine ⟨hsame, hnan.trans ?_⟩
          exact ⟨.inr, fun h => h.resolve_left fun h => hfalse (hinf.mpr h)⟩

theorem jsonIsInvalidNumber_faces (hf : Facing data d s json) :
    Ends (jsonIsInvalidNumber data) json (fun ok json' => json = json' ∧
      (ok = true ↔ InvalidNumber s)) E := by
  rw [jsonIsInvalidNumber]
  refine (peek_faces hf (k := 0) (Nat.zero_le _)).bind fun ch json' ⟨hsame, hch⟩ => ?_
  subst hsame
  have hhead : ∀ c : UInt8, c ≠ 0 → (s.head? = some c ↔ ch = c) := by
    intro c hc
    rcases headD_cases hch with ⟨hnil, rfl⟩ | ⟨s', hs⟩
    · change s = [] at hnil
      subst hnil
      exact iff_of_false nofun hc.symm
    · change s = _ at hs
      subst hs
      exact Option.some_inj
  simp only [InvalidNumber, hhead 43 (by decide), hhead 45 (by decide)]
  split
  · next hplus => exact ends_pure ⟨rfl, iff_of_true rfl (.inl hplus)⟩
  · next hplus =>
    simp only [hplus, false_or]
    split
    · next hminus =>
      have hlt := length_of_headD (k := 0) (hch.symm.trans hminus) (by decide)
      exact isInvalidUnsigned_faces hf hlt
    · exact isInvalidUnsigned_faces (k := 0) hf (Nat.zero_le _)

theorem takeWhile_concat_nul (s : List UInt8) :
    (s ++ [0]).takeWhile (· ≠ 0) = s.takeWhile (· ≠ 0) := by
  induction s with
  | nil => rfl
  | cons c s ih => rw [List.cons_append, List.takeWhile_cons, List.takeWhile_cons, ih]

theorem Facing.cString (hf : Facing data d s json) : cString data json.ptr = s := by
  obtain ⟨u, hu⟩ := hf.text
  have hle : json.ptr ≤ data.length := by
    by_contra hgt
    rw [List.drop_eq_nil_of_le (by rw [List.length_append, List.length_singleton]; omega)] at hu
    exact absurd hu.symm (by simp)
  have hall : ∀ c ∈ s, decide (c ≠ 0) = true :=
    fun c hc => decide_eq_true fun h0 => hf.noNul (h0 ▸ hc)
  rw [List.drop_append_of_le_length hle] at hu
  rw [Json.cString, ← takeWhile_concat_nul, hu, List.takeWhile_append_of_pos hall]
  exact List.append_nil s

theorem jsonNextNumberToken_faces (hf : Facing data d s json) (hvalid : ¬ InvalidNumber s) :
    Ends (jsonNextNumberToken data host index) json (Lexed data d (lexNumber host s)) E := by
  have hread := host.strtod_le s
  rw [jsonNextNumberToken]
  refine ends_get_bind ?_
  rw [hf.cString, lexNumber]
  obtain ⟨⟨number, len⟩, hstrtod⟩ : ∃ x, host.strtod s = x := ⟨_, rfl⟩
  rw [hstrtod] at hread ⊢
  dsimp only
  split
  · next hlen =>
    rw [if_pos (.inr hlen)]
    exact ends_pure ⟨_, rfl⟩
  · next hlen =>
    rw [if_neg (not_or.mpr ⟨hvalid, hlen⟩)]
    exact (advance_faces hf hread).bind fun _ json₁ hf₁ => ends_pure ⟨.number, hf₁⟩

theorem skipWhitespace_faces (hf : Facing data d s json) :
    Ends (skipWhitespace data n) json (fun ch json' =>
      Facing data d (s.dropWhile isSpace) json' ∧ ch = (s.dropWhile isSpace).headD 0)
      (Refuses p) := by
  induction n generalizing s json with
  | zero => exact ends_throw trivial
  | succ n ih =>
    rw [skipWhitespace]
    refine (peek_faces hf (k := 0) (Nat.zero_le _)).bind fun ch json' ⟨hsame, hch⟩ => ?_
    subst hsame
    cases s with
    | nil =>
      cases hch
      exact ends_pure ⟨hf, rfl⟩
    | cons c s =>
      change ch = c at hch
      subst hch
      split
      · next hspace =>
        rw [List.dropWhile_cons_of_pos (p := isSpace) (decide_eq_true hspace)]
        exact (advance_faces hf (k := 1) (Nat.le_add_left 1 _)).bind fun _ json₁ hf₁ => ih hf₁
      · next hspace =>
        rw [List.dropWhile_cons_of_neg (p := isSpace) fun h => hspace (of_decide_eq_true h)]
        exact ends_pure ⟨hf, rfl⟩

theorem wordToken_faces (hf : Facing data d s json) :
    Ends (wordToken data) json (fun a json' => json = json' ∧
      lexWord s = (a.map fun x => (.word, s.drop x.2)) ∧
        ∀ x ∈ a, x.1.Is .word ∧ x.2 ≤ s.length) E := by
  have hword : ∀ {word : List UInt8}, 0 ∉ word → Ends (isNext data id word 0) json
      (fun ok json' => json = json' ∧ (ok = true ↔ word <+: s)) E := by
    intro word h0
    have hid : id (0 : UInt8) = 0 := rfl
    have hnext := isNext_faces (E := E) hid h0 hf (k := 0) (Nat.zero_le _)
    rwa [List.map_id] at hnext
  rw [wordToken, lexWord]
  refine (hword (by decide)).bind ?_
  rintro isTrue json' ⟨hsame, hok⟩
  subst hsame
  split
  · next ok =>
    rw [if_pos (hok.mp ok)]
    refine ends_pure ⟨rfl, rfl, fun x hx => ?_⟩
    cases hx
    exact ⟨.boolean, (hok.mp ok).length_le⟩
  · next ok =>
    rw [if_neg fun h => ok (hok.mpr h)]
    refine (hword (by decide)).bind ?_
    rintro isFalse json' ⟨hsame, hok⟩
    subst hsame
    split
    · next ok =>
      rw [if_pos (hok.mp ok)]
      refine ends_pure ⟨rfl, rfl, fun x hx => ?_⟩
      cases hx
      exact ⟨.boolean, (hok.mp ok).length_le⟩
    · next ok =>
      rw [if_neg fun h => ok (hok.mpr h)]
      refine (hword (by decide)).bind ?_
      rintro isNull json' ⟨hsame, hok⟩
      subst hsame
      cases isNull with
      | true =>
        rw [if_pos (hok.mp rfl)]
        refine ends_pure ⟨rfl, rfl, fun x hx => ?_⟩
        cases hx
        exact ⟨.null, (hok.mp rfl).length_le⟩
      | false =>
        rw [if_neg fun h => Bool.false_ne_true (hok.mpr h)]
        exact ends_pure ⟨rfl, rfl, fun x hx => by cases hx⟩

theorem unknownToken_faces {ch : UInt8} (hopt : o.decodeInvalidNumbers = false)
    (hf : Facing data d (ch :: s) json) (hch : ch2token ch = .unknown) :
    Ends (unknownToken data host o ch index) json
      (Lexed data d (lexAt host (data.length + 1) (ch :: s))) (Refuses p) := by
  rw [unknownToken, lexAt, hch]
  dsimp only
  rw [hopt]
  split
  · next hquote =>
    subst hquote
    exact jsonNextStringToken_faces hf
  · split
    · next hstart =>
      have hstart : ch = 45 ∨ Digit ch := hstart
      rw [if_pos hstart, if_neg Bool.false_ne_true]
      refine (jsonIsInvalidNumber_faces hf).bind ?_
      rintro invalid json' ⟨hsame, hinvalid⟩
      subst hsame
      split
      · next htrue =>
        rw [lexNumber, if_pos (.inl (hinvalid.mp htrue))]
        exact ends_pure ⟨_, rfl⟩
      · next hfalse => exact jsonNextNumberToken_faces hf fun h => hfalse (hinvalid.mpr h)
    · next hstart =>
      have hstart : ¬ (ch = 45 ∨ Digit ch) := hstart
      rw [if_neg hstart]
      refine (wordToken_faces hf).bind ?_
      rintro a json' ⟨hsame, hlex, hword⟩
      subst hsame
      rw [hlex]
      cases a with
      | none => exact ends_pure ⟨_, rfl⟩
      | some x =>
        obtain ⟨his, hle⟩ := hword x rfl
        exact (advance_faces hf hle).bind fun _ json₁ hf₁ => ends_pure ⟨his, hf₁⟩

theorem jsonNextToken_faces (hopt : o.decodeInvalidNumbers = false) (hf : Facing data d s json) :
    Ends (jsonNextToken data host o) json (Lexed data d (lex host (data.length + 1) s))
      (Refuses p) := by
  rw [jsonNextToken]
  refine (skipWhitespace_faces hf).bind fun ch json₁ ⟨hf₁, hch⟩ => ends_get_bind ?_
  rw [lex]
  cases hs : s.dropWhile isSpace with
  | nil =>
    rw [hs] at hch hf₁
    cases hch
    exact ends_pure ⟨.end, hf₁⟩
  | cons c s' =>
    rw [hs] at hch hf₁
    change ch = c at hch
    subst hch
    cases htype : ch2token ch with
    | single t =>
      obtain ⟨x, hx, -⟩ := single_spells htype
      rw [lexAt, htype]
      dsimp only
      rw [hx]
      exact (advance_faces hf₁ (k := 1) (Nat.le_add_left 1 _)).bind fun _ json₂ hf₂ =>
        ends_pure ⟨.single hx, hf₂⟩
    | unknown => exact unknownToken_faces hopt hf₁ htype
    | error =>
      rw [lexAt, htype]
      exact ends_pure ⟨_, rfl⟩
    | «end» =>
      have hzero : ∀ ch, ch2token ch = .end → ch = 0 := forall_byte (by decide +kernel)
      exact absurd (hzero ch htype ▸ List.mem_cons_self) hf₁.noNul
    | whitespace =>
      have hspace := List.head?_dropWhile_not isSpace s
      rw [hs] at hspace
      exact absurd (decide_eq_true htype) (Bool.eq_false_iff.mp hspace)

end tokens

end Lev.Json
