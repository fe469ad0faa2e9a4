import Lev.JsonMeaning

/-! The decoder reads each text that means something, and returns what it means. -/
namespace Lev.Json
open CInt Memory Lua Slab Effect

/-- The text goes on with `s` to its end, the `N`-th byte; the scratch buffer has `u` in it. -/
structure Reads (data : List UInt8) (N d : ℕ) (s u : List UInt8) (json : Parse) : Prop where
  facing : Facing data d s json
  place : json.ptr + s.length = N
  holds : strbufString json.mem = some u

variable {data s r t u v w : List UInt8} {N d k n : ℕ} {json : Parse} {c : UInt8} {host : Host}
  {E : Abort → Parse → Prop} {o : Options}

theorem Reads.length_le (hr : Reads data N d s u json) : N ≤ data.length := by
  obtain ⟨rest, hrest⟩ := hr.facing.text
  have hlength := congrArg List.length hrest
  have hplace := hr.place
  rw [List.length_drop, List.length_append, List.length_singleton, List.length_append,
    List.length_cons] at hlength
  omega

theorem advance_reads (hr : Reads data N d s u json) (hk : k ≤ s.length) :
    Ends (advance k) json (fun _ json' => Reads data N d (s.drop k) u json') E := by
  obtain ⟨rest, hrest⟩ := hr.facing.text
  have hplace := hr.place
  refine ends_modify ⟨⟨⟨rest, ?_⟩, fun h => hr.facing.noNul (List.mem_of_mem_drop h),
    hr.facing.depth⟩, ?_, hr.holds⟩
  · change (data ++ [0]).drop (json.ptr + k) = _
    rw [← List.drop_drop, hrest, List.drop_append_of_le_length hk]
  · change json.ptr + k + (s.drop k).length = N
    rw [List.length_drop]
    omega

theorem append_reads (hr : Reads data N d s u json) (c : List UInt8) :
    Ends (onTmp fun m => strbufAppendMemUnsafe m c) json
      (fun _ json' => Reads data N d s (u ++ c) json') E := by
  obtain ⟨m', happend, hstring⟩ := strbufAppend_string hr.holds c
  rw [Ends, onTmp, happend]
  exact ⟨hr.facing.ofPtr rfl rfl, hr.place, hstring⟩

theorem peek_reads (hr : Reads data N d s u json) (hk : k ≤ s.length) :
    Ends (peek data k) json (fun ch json' => json = json' ∧ ch = (s.drop k).headD 0) E :=
  peek_faces hr.facing hk

section strings

theorem decodeHex4_reads (hr : Reads data N d s u json) (ht : HexUnit t n)
    (hs : s.drop k = t ++ r) : Ends (decodeHex4 data k) json
      (fun a json' => json = json' ∧ a = some n) E := by
  have hk : k ≤ s.length := by
    by_contra hgt
    rw [List.drop_eq_nil_of_le (Nat.le_of_not_le hgt)] at hs
    have hnil : t = [] := (List.append_eq_nil_iff.mp hs.symm).1
    have hfour := ht.1
    rw [hnil] at hfour
    cases hfour
  refine (decodeHex4_faces hr.facing hk).mono ?_
  rintro a json' ⟨hsame, hhex, -⟩
  refine ⟨hsame, ?_⟩
  rw [hs, ht.hex4] at hhex
  obtain ⟨m, hm, heq⟩ := Option.map_eq_some_iff.mp hhex.symm
  rw [hm, (Prod.mk.inj heq).1]

theorem HexUnit.lt (ht : HexUnit t n) : n < 0x10000 := by
  have hlt := hexValue_lt ht.2
  rwa [ht.1] at hlt

theorem unicode_reads {n len : ℕ} (hn : n.isValidChar) (hr : Reads data N d s u json)
    (hlen : len ≤ s.length) :
    Ends (do
      onTmp fun m => strbufAppendMemUnsafe m (codepointToUtf8 n)
      advance len
      pure true) json
      (fun ok json' => ok = true ∧ Reads data N d (s.drop len) (u ++ utf8 n) json') E := by
  rw [codepointToUtf8_eq hn]
  refine (append_reads hr (utf8 n)).bind fun _ json₁ hr₁ => ?_
  refine (advance_reads hr₁ hlen).bind fun _ json₂ hr₂ => ends_pure ⟨rfl, hr₂⟩

theorem utf8_ne_nil {n : ℕ} (hn : n.isValidChar) : (codepointToUtf8 n).isEmpty = false := by
  rw [codepointToUtf8_eq hn, List.isEmpty_eq_false_iff]
  exact String.utf8EncodeChar_ne_nil

theorem unit_reads (ht : HexUnit t n) (hn : n < 0xd800 ∨ 0xe000 ≤ n)
    (hr : Reads data N d (92 :: 117 :: (t ++ s)) u json) :
    Ends (jsonAppendUnicodeEscape data) json
      (fun ok json' => ok = true ∧ Reads data N d s (u ++ utf8 n) json') E := by
  have hlt := ht.lt
  have hvalid : n < 0xd800 ∨ 0xdfff < n ∧ n < 0x110000 := by omega
  have hrest : (92 :: 117 :: (t ++ s)).drop 6 = s := by
    change (t ++ s).drop 4 = s
    rw [List.drop_left' ht.1]
  rw [jsonAppendUnicodeEscape]
  refine (decodeHex4_reads (k := 2) hr ht rfl).bind ?_
  rintro a json' ⟨hsame, ha⟩
  subst hsame ha
  dsimp only
  have hsingle : surrogatePair data n = pure (some (n, 6)) := by
    rw [surrogatePair, if_pos (by omega)]
  rw [hsingle]
  refine Ends.bind (ends_pure (Q := fun a json' => json = json' ∧ a = some (n, 6)) ⟨rfl, rfl⟩) ?_
  rintro a json' ⟨hsame, ha⟩
  subst hsame ha
  dsimp only
  rw [if_neg (by rw [utf8_ne_nil hvalid]; exact Bool.false_ne_true)]
  have hlen : 6 ≤ (92 :: 117 :: (t ++ s)).length := by
    simp only [List.length_cons, List.length_append, ht.1]
    omega
  have hends := unicode_reads (E := E) hvalid hr hlen
  rwa [hrest] at hends

theorem pairPoint_valid {m : ℕ} (hm : 0xd800 ≤ m ∧ m < 0xdc00) (hn : 0xdc00 ≤ n ∧ n < 0xe000) :
    0xdfff < pairPoint m n ∧ pairPoint m n < 0x110000 := by
  have hdef : pairPoint m n = 0x10000 + (m - 0xd800) * 0x400 + (n - 0xdc00) := rfl
  omega

theorem pair_reads {t' : List UInt8} {m : ℕ} (ht : HexUnit t m) (hm : 0xd800 ≤ m ∧ m < 0xdc00)
    (ht' : HexUnit t' n) (hn : 0xdc00 ≤ n ∧ n < 0xe000)
    (hr : Reads data N d (92 :: 117 :: (t ++ 92 :: 117 :: (t' ++ s))) u json) :
    Ends (jsonAppendUnicodeEscape data) json
      (fun ok json' => ok = true ∧ Reads data N d s (u ++ utf8 (pairPoint m n)) json') E := by
  have hvalid : (pairPoint m n).isValidChar := .inr (pairPoint_valid hm hn)
  have hsix : (92 :: 117 :: (t ++ 92 :: 117 :: (t' ++ s))).drop 6 = 92 :: 117 :: (t' ++ s) := by
    change (t ++ 92 :: 117 :: (t' ++ s)).drop 4 = _
    rw [List.drop_left' ht.1]
  have hseven : (92 :: 117 :: (t ++ 92 :: 117 :: (t' ++ s))).drop 7 = 117 :: (t' ++ s) := by
    rw [← List.drop_drop (i := 1) (j := 6), hsix]
    rfl
  have height : (92 :: 117 :: (t ++ 92 :: 117 :: (t' ++ s))).drop 8 = t' ++ s := by
    rw [← List.drop_drop (i := 2) (j := 6), hsix]
    rfl
  have hrest : (92 :: 117 :: (t ++ 92 :: 117 :: (t' ++ s))).drop 12 = s := by
    rw [← List.drop_drop (i := 4) (j := 8), height, List.drop_left' ht'.1]
  have hlen : 12 ≤ (92 :: 117 :: (t ++ 92 :: 117 :: (t' ++ s))).length := by
    simp only [List.length_cons, List.length_append, ht.1, ht'.1]
    omega
  have hpair : Ends (surrogatePair data m) json
      (fun a json' => json = json' ∧ a = some (pairPoint m n, 12)) E := by
    rw [surrogatePair, if_neg (by omega), if_neg (by omega)]
    refine (peek_reads hr (k := 6) (by omega)).bind ?_
    rintro backslash json' ⟨hsame, hback⟩
    subst hsame
    rw [hsix, List.headD_cons] at hback
    subst hback
    rw [if_neg (by simp)]
    refine (peek_reads hr (k := 7) (by omega)).bind ?_
    rintro ch json' ⟨hsame, hch⟩
    subst hsame
    rw [hseven, List.headD_cons] at hch
    subst hch
    rw [if_neg (by simp)]
    refine (decodeHex4_reads hr ht' height).bind ?_
    rintro a json' ⟨hsame, ha⟩
    subst hsame ha
    dsimp only
    rw [if_neg (by omega)]
    have hpoint : m % 2 ^ 10 * 2 ^ 10 + n % 2 ^ 10 + 0x10000 = pairPoint m n := by
      have hdef : pairPoint m n = 0x10000 + (m - 0xd800) * 0x400 + (n - 0xdc00) := rfl
      omega
    rw [hpoint]
    exact ends_pure ⟨rfl, rfl⟩
  rw [jsonAppendUnicodeEscape]
  refine (decodeHex4_reads (k := 2) hr ht rfl).bind ?_
  rintro a json' ⟨hsame, ha⟩
  subst hsame ha
  dsimp only
  refine hpair.bind ?_
  rintro a json' ⟨hsame, ha⟩
  subst hsame ha
  dsimp only
  rw [if_neg (by rw [utf8_ne_nil hvalid]; exact Bool.false_ne_true)]
  have hends := unicode_reads (E := E) hvalid hr hlen
  rwa [hrest] at hends

theorem escapeBytes_facts : ∀ x ∈ escapeBytes, escape2char x.1 = x.2 ∧ x.2 ≠ 117 ∧ x.2 ≠ 0 := by
  intro x hx
  simp only [escapeBytes, List.mem_cons, List.not_mem_nil, or_false] at hx
  rcases hx with rfl | rfl | rfl | rfl | rfl | rfl | rfl | rfl
  all_goals decide

theorem escape_reads {b : UInt8} (hc : (c, b) ∈ escapeBytes)
    (hr : Reads data N d (92 :: c :: s) u json) :
    Ends (stringEscape data) json
      (fun err json' => err = none ∧ Reads data N d s (u ++ [b]) json') E := by
  obtain ⟨hbyte, hu, hzero⟩ := escapeBytes_facts _ hc
  rw [stringEscape]
  refine (peek_reads hr (k := 1) (Nat.le_add_left 1 _)).bind ?_
  rintro ch json' ⟨hsame, hch⟩
  subst hsame
  change ch = c at hch
  subst hch
  dsimp only at hbyte hu hzero ⊢
  rw [hbyte, if_neg hu, if_neg hzero]
  refine (advance_reads hr (k := 1) (Nat.le_add_left 1 _)).bind fun _ json₁ hr₁ => ?_
  refine Ends.bind (append_reads hr₁ [b]) fun _ json₂ hr₂ => ?_
  refine (advance_reads hr₂ (k := 1) (Nat.le_add_left 1 _)).bind fun _ json₃ hr₃ => ?_
  exact ends_pure ⟨rfl, hr₃⟩

theorem unicodeEscape_reads {rest : List UInt8} (hr : Reads data N d (92 :: 117 :: s) u json)
    (hunicode : Ends (jsonAppendUnicodeEscape data) json
      (fun ok json' => ok = true ∧ Reads data N d r (u ++ rest) json') E) :
    Ends (stringEscape data) json
      (fun err json' => err = none ∧ Reads data N d r (u ++ rest) json') E := by
  rw [stringEscape]
  refine (peek_reads hr (k := 1) (Nat.le_add_left 1 _)).bind ?_
  rintro ch json' ⟨hsame, hch⟩
  subst hsame
  change ch = 117 at hch
  subst hch
  have hu : escape2char 117 = 117 := by decide +kernel
  dsimp only
  rw [hu, if_pos rfl]
  refine hunicode.bind ?_
  rintro ok json' ⟨rfl, hr'⟩
  exact ends_pure ⟨rfl, hr'⟩

/-- The loop over the characters of a string, by induction on what they mean. -/
theorem stringLoop_reads {b : List UInt8} (hb : StringMeans b v)
    (hr : Reads data N d (b ++ 34 :: r) u json) (hn : b.length < n) :
    Ends (stringLoop data n) json
      (fun err json' => err = none ∧ Reads data N d (34 :: r) (u ++ v) json') E := by
  induction hb generalizing json u n with
  | nil =>
    obtain ⟨n, rfl⟩ := Nat.exists_eq_succ_of_ne_zero (Nat.ne_of_gt hn)
    rw [stringLoop]
    refine (peek_reads hr (k := 0) (Nat.zero_le _)).bind ?_
    rintro ch json' ⟨hsame, hch⟩
    subst hsame
    change ch = 34 at hch
    rw [if_pos hch, List.append_nil]
    exact ends_pure ⟨rfl, hr⟩
  | @plain c s v hc hs ih =>
    obtain ⟨n, rfl⟩ := Nat.exists_eq_succ_of_ne_zero (Nat.ne_of_gt (Nat.zero_lt_of_lt hn))
    rw [stringLoop]
    refine (peek_reads hr (k := 0) (Nat.zero_le _)).bind ?_
    rintro ch json' ⟨hsame, hch⟩
    subst hsame
    change ch = c at hch
    subst hch
    rw [if_neg hc.1, if_neg hc.2.2, if_neg hc.2.1]
    refine Ends.bind (append_reads hr [ch]) fun _ json₁ hr₁ => ?_
    refine (advance_reads hr₁ (k := 1) (Nat.le_add_left 1 _)).bind fun _ json₂ hr₂ => ?_
    rw [List.length_cons] at hn
    have hends := ih hr₂ (n := n) (by omega)
    rwa [List.append_assoc] at hends
  | @escape c b s v hc hs ih =>
    obtain ⟨n, rfl⟩ := Nat.exists_eq_succ_of_ne_zero (Nat.ne_of_gt (Nat.zero_lt_of_lt hn))
    rw [stringLoop]
    refine (peek_reads hr (k := 0) (Nat.zero_le _)).bind ?_
    rintro ch json' ⟨hsame, hch⟩
    subst hsame
    change ch = 92 at hch
    subst hch
    rw [if_neg (by decide), if_neg (by decide), if_pos rfl]
    refine (escape_reads hc hr).bind ?_
    rintro err json₁ ⟨rfl, hr₁⟩
    rw [List.length_cons, List.length_cons] at hn
    have hends := ih hr₁ (n := n) (by omega)
    rwa [List.append_assoc] at hends
  | @unit t s v m ht hm hs ih =>
    obtain ⟨n, rfl⟩ := Nat.exists_eq_succ_of_ne_zero (Nat.ne_of_gt (Nat.zero_lt_of_lt hn))
    have hshape : 92 :: 117 :: (t ++ s) ++ 34 :: r = 92 :: 117 :: (t ++ (s ++ 34 :: r)) := by
      simp only [List.cons_append, List.append_assoc]
    rw [hshape] at hr
    rw [stringLoop]
    refine (peek_reads hr (k := 0) (Nat.zero_le _)).bind ?_
    rintro ch json' ⟨hsame, hch⟩
    subst hsame
    change ch = 92 at hch
    subst hch
    rw [if_neg (by decide), if_neg (by decide), if_pos rfl]
    refine (unicodeEscape_reads hr (unit_reads ht hm hr)).bind ?_
    rintro err json₁ ⟨rfl, hr₁⟩
    simp only [List.length_cons, List.length_append] at hn
    have hends := ih hr₁ (n := n) (by omega)
    rwa [List.append_assoc] at hends
  | @pair t t' s v m m' ht hm ht' hm' hs ih =>
    obtain ⟨n, rfl⟩ := Nat.exists_eq_succ_of_ne_zero (Nat.ne_of_gt (Nat.zero_lt_of_lt hn))
    have hshape : 92 :: 117 :: (t ++ 92 :: 117 :: (t' ++ s)) ++ 34 :: r =
        92 :: 117 :: (t ++ 92 :: 117 :: (t' ++ (s ++ 34 :: r))) := by
      simp only [List.cons_append, List.append_assoc]
    rw [hshape] at hr
    rw [stringLoop]
    refine (peek_reads hr (k := 0) (Nat.zero_le _)).bind ?_
    rintro ch json' ⟨hsame, hch⟩
    subst hsame
    change ch = 92 at hch
    subst hch
    rw [if_neg (by decide), if_neg (by decide), if_pos rfl]
    refine (unicodeEscape_reads hr (pair_reads ht hm ht' hm' hr)).bind ?_
    rintro err json₁ ⟨rfl, hr₁⟩
    simp only [List.length_cons, List.length_append] at hn
    have hends := ih hr₁ (n := n) (by omega)
    rwa [List.append_assoc] at hends

end strings

section tokens

variable {index : ℕ} {Q : Token × ℕ → Parse → Prop}

theorem jsonNextStringToken_reads {b : List UInt8} (hb : StringMeans b v)
    (hr : Reads data N d (34 :: (b ++ 34 :: r)) u json) :
    Ends (jsonNextStringToken data index) json
      (fun token json' => token = (.string v.length, index) ∧ Reads data N d r v json') E := by
  have hlength := hr.length_le
  have hplace := hr.place
  rw [List.length_cons, List.length_append] at hplace
  rw [jsonNextStringToken]
  refine (advance_reads hr (k := 1) (Nat.le_add_left 1 _)).bind fun _ json₁ hr₁ => ?_
  have hreset : Ends (onTmp fun m => some (strbufReset m)) json₁
      (fun _ json' => Reads data N d (b ++ 34 :: r) [] json') E := by
    rw [Ends, onTmp]
    exact ⟨hr₁.facing.ofPtr rfl rfl, hr₁.place, strbufReset_string hr₁.holds⟩
  refine hreset.bind fun _ json₂ hr₂ => ?_
  refine (stringLoop_reads hb hr₂ (by omega)).bind ?_
  rintro err json₃ ⟨rfl, hr₃⟩
  refine (advance_reads hr₃ (k := 1) (Nat.le_add_left 1 _)).bind fun _ json₄ hr₄ => ?_
  have hnull : Ends (onTmp strbufEnsureNull) json₄ (fun _ json' =>
      Reads data N d r v json' ∧ json'.mem.buf.length = v.length) E := by
    obtain ⟨m', hnull, hstring, hlength⟩ := strbufEnsureNull_string hr₄.holds
    rw [Ends, onTmp, hnull]
    exact ⟨⟨hr₄.facing.ofPtr rfl rfl, hr₄.place, hstring⟩, hlength⟩
  refine hnull.bind ?_
  rintro _ json₅ ⟨hr₅, hlast⟩
  refine ends_get_bind (ends_pure ⟨?_, hr₅⟩)
  rw [hlast]

theorem skipWhitespace_reads (hw : Blank w) (hs : ch2token (s.headD 0) ≠ .whitespace)
    (hr : Reads data N d (w ++ s) u json) (hn : w.length < n) :
    Ends (skipWhitespace data n) json
      (fun ch json' => ch = s.headD 0 ∧ Reads data N d s u json') E := by
  induction w generalizing json n with
  | nil =>
    obtain ⟨n, rfl⟩ := Nat.exists_eq_succ_of_ne_zero (Nat.ne_of_gt hn)
    rw [skipWhitespace]
    refine (peek_reads hr (k := 0) (Nat.zero_le _)).bind ?_
    rintro ch json' ⟨hsame, hch⟩
    subst hsame
    change ch = s.headD 0 at hch
    rw [if_neg (by rwa [hch])]
    exact ends_pure ⟨hch, hr⟩
  | cons c w ih =>
    obtain ⟨n, rfl⟩ := Nat.exists_eq_succ_of_ne_zero (Nat.ne_of_gt (Nat.zero_lt_of_lt hn))
    have hc : isSpace c = true := (isSpace_iff c).mpr (hw c List.mem_cons_self)
    rw [skipWhitespace]
    refine (peek_reads hr (k := 0) (Nat.zero_le _)).bind ?_
    rintro ch json' ⟨hsame, hch⟩
    subst hsame
    change ch = c at hch
    subst hch
    rw [if_pos (of_decide_eq_true hc)]
    refine (advance_reads hr (k := 1) (Nat.le_add_left 1 _)).bind fun _ json₁ hr₁ => ?_
    exact ih (fun d hd => hw d (List.mem_cons_of_mem _ hd)) hr₁ (Nat.lt_of_succ_lt_succ hn)

theorem blank_lt (hr : Reads data N d (w ++ s) u json) : w.length < data.length + 1 := by
  have hlength := hr.length_le
  have hplace := hr.place
  rw [List.length_append] at hplace
  omega

theorem next_single {tok : Token} (hw : Blank w) (hc : ch2token c = .single tok)
    (hr : Reads data N d (w ++ c :: r) u json) :
    Ends (jsonNextToken data host o) json (fun token json' => token.1 = tok ∧
      token.2 = N - (c :: r).length ∧ Reads data N d r u json') E := by
  have hspace : ch2token ((c :: r).headD 0) ≠ .whitespace := by
    rw [List.headD_cons, hc]
    exact TokenType.noConfusion
  rw [jsonNextToken]
  refine (skipWhitespace_reads hw hspace hr (blank_lt hr)).bind ?_
  rintro ch json₁ ⟨hch, hr₁⟩
  rw [List.headD_cons] at hch
  subst hch
  refine ends_get_bind ?_
  rw [hc]
  dsimp only
  have hplace := hr₁.place
  refine (advance_reads hr₁ (k := 1) (Nat.le_add_left 1 _)).bind fun _ json₂ hr₂ => ?_
  exact ends_pure ⟨rfl, Nat.eq_sub_of_add_eq hplace, hr₂⟩

theorem next_end (hw : Blank w) (hr : Reads data N d w u json) :
    Ends (jsonNextToken data host o) json (fun token json' => token.1 = .end ∧
      Reads data N d [] u json') E := by
  have hspace : ch2token (([] : List UInt8).headD 0) ≠ .whitespace := by decide
  have hend : ch2token 0 = .end := by decide
  rw [← List.append_nil w] at hr
  rw [jsonNextToken]
  refine (skipWhitespace_reads hw hspace hr (blank_lt hr)).bind ?_
  rintro ch json₁ ⟨hch, hr₁⟩
  rw [List.headD_nil] at hch
  subst hch
  refine ends_get_bind ?_
  rw [hend]
  exact ends_pure ⟨rfl, hr₁⟩

theorem next_unknown (hw : Blank w) (hc : ch2token c = .unknown)
    (hr : Reads data N d (w ++ c :: r) u json)
    (hk : ∀ json₁, Reads data N d (c :: r) u json₁ →
      Ends (unknownToken data host o c json₁.ptr) json₁ Q E) :
    Ends (jsonNextToken data host o) json Q E := by
  have hspace : ch2token ((c :: r).headD 0) ≠ .whitespace := by
    rw [List.headD_cons, hc]
    exact TokenType.noConfusion
  rw [jsonNextToken]
  refine (skipWhitespace_reads hw hspace hr (blank_lt hr)).bind ?_
  rintro ch json₁ ⟨hch, hr₁⟩
  rw [List.headD_cons] at hch
  subst hch
  refine ends_get_bind ?_
  rw [hc]
  exact hk json₁ hr₁

theorem next_string {b : List UInt8} (hw : Blank w) (hb : StringMeans b v)
    (hr : Reads data N d (w ++ 34 :: (b ++ 34 :: r)) u json) :
    Ends (jsonNextToken data host o) json
      (fun token json' => token.1 = .string v.length ∧ Reads data N d r v json') E := by
  refine next_unknown hw (by decide) hr fun json₁ hr₁ => ?_
  rw [unknownToken, if_pos rfl]
  refine (jsonNextStringToken_reads hb hr₁).mono ?_
  rintro token json₂ ⟨rfl, hr₂⟩
  exact ⟨rfl, hr₂⟩

/-- The value of a number depends on what was read of the text only. -/
def Host.ReadsAlone (host : Host) : Prop :=
  ∀ s, (host.strtod (s.take (host.strtod s).2)).1 = (host.strtod s).1

theorem number_reads (hhost : host.ReadsLongest) (halone : host.ReadsAlone) (ht : IsLax t)
    (hfollows : Follows r) (hr : Reads data N d (t ++ r) u json) :
    Ends (jsonNextNumberToken data host index) json (fun token json' =>
      token.1 = .number (host.strtod t).1 ∧ Reads data N d r u json') E := by
  have hlen := ht.strtod hhost hfollows
  have hvalue := halone (t ++ r)
  rw [hlen, List.take_left] at hvalue
  have hne : t.length ≠ 0 := fun h => ht.ne_nil (List.length_eq_zero_iff.mp h)
  rw [jsonNextNumberToken]
  refine ends_get_bind ?_
  rw [hr.facing.cString]
  obtain ⟨⟨number, len⟩, hstrtod⟩ : ∃ x, host.strtod (t ++ r) = x := ⟨_, rfl⟩
  rw [hstrtod] at hlen hvalue ⊢
  dsimp only at hlen hvalue ⊢
  subst hlen
  rw [if_neg hne, hvalue]
  have hle : t.length ≤ (t ++ r).length := by
    rw [List.length_append]
    exact Nat.le_add_right _ _
  refine (advance_reads hr hle).bind fun _ json₁ hr₁ => ends_pure ⟨rfl, ?_⟩
  rwa [List.drop_left] at hr₁

theorem next_number (hhost : host.ReadsLongest) (halone : host.ReadsAlone) (hw : Blank w)
    (ht : IsLax t) (hfollows : Follows r) (hr : Reads data N d (w ++ (t ++ r)) u json) :
    Ends (jsonNextToken data host o) json (fun token json' =>
      token.1 = .number (host.strtod t).1 ∧ Reads data N d r u json') E := by
  have hstarts : ∀ c, (c = 45 ∨ Digit c) → ch2token c = .unknown ∧ c ≠ 34 :=
    forall_byte (by decide +kernel)
  obtain ⟨c, hc, hchar⟩ := ht.startsNumber r
  obtain ⟨hunknown, hquote⟩ := hstarts c hchar
  have hvalid := ht.valid hfollows
  obtain ⟨s, hs⟩ := List.head?_eq_some_iff.mp hc
  have hr' := hr
  rw [hs] at hr'
  refine next_unknown hw hunknown hr' fun json₁ hr₁ => ?_
  rw [← hs] at hr₁
  have hread : Ends (jsonNextNumberToken data host json₁.ptr) json₁ _ E :=
    number_reads hhost halone ht hfollows hr₁
  have hchar : c = 45 ∨ (48 ≤ c ∧ c ≤ 57) := hchar
  rw [unknownToken, if_neg hquote, if_pos hchar]
  split
  · exact hread
  · refine (jsonIsInvalidNumber_faces hr₁.facing).bind ?_
    rintro invalid json' ⟨hsame, hinvalid⟩
    subst hsame
    rw [if_neg fun h => hvalid (hinvalid.mp h)]
    exact hread

def wordTokens : List (List UInt8 × Token) :=
  [(ascii "true", .boolean true), (ascii "false", .boolean false), (ascii "null", .null)]

theorem wordToken_reads {tok : Token} (ht : (t, tok) ∈ wordTokens)
    (hr : Reads data N d (t ++ r) u json) :
    Ends (wordToken data) json (fun a json' => json = json' ∧ a = some (tok, t.length)) E := by
  have hword : ∀ {word : List UInt8}, 0 ∉ word → Ends (isNext data id word 0) json
      (fun ok json' => json = json' ∧ (ok = true ↔ word <+: t ++ r)) E := by
    intro word h0
    have hid : id (0 : UInt8) = 0 := rfl
    have hnext := isNext_faces (E := E) hid h0 hr.facing (k := 0) (Nat.zero_le _)
    rwa [List.map_id] at hnext
  simp only [wordTokens, List.mem_cons, List.not_mem_nil, or_false, Prod.mk.injEq] at ht
  rw [wordToken]
  refine (hword (by decide)).bind ?_
  rintro isTrue json' ⟨hsame, htrue⟩
  subst hsame
  rcases ht with ⟨rfl, rfl⟩ | ⟨rfl, rfl⟩ | ⟨rfl, rfl⟩
  · rw [if_pos (htrue.mpr (List.prefix_append _ _))]
    exact ends_pure ⟨rfl, rfl⟩
  · have hnot : ¬ isTrue = true := fun h => by simpa [ascii] using htrue.mp h
    rw [if_neg hnot]
    refine (hword (by decide)).bind ?_
    rintro isFalse json' ⟨hsame, hfalse⟩
    subst hsame
    rw [if_pos (hfalse.mpr (List.prefix_append _ _))]
    exact ends_pure ⟨rfl, rfl⟩
  · have hnot : ¬ isTrue = true := fun h => by simpa [ascii] using htrue.mp h
    rw [if_neg hnot]
    refine (hword (by decide)).bind ?_
    rintro isFalse json' ⟨hsame, hfalse⟩
    subst hsame
    have hnot' : ¬ isFalse = true := fun h => by simpa [ascii] using hfalse.mp h
    rw [if_neg hnot']
    refine (hword (by decide)).bind ?_
    rintro isNull json' ⟨hsame, hnull⟩
    subst hsame
    rw [hnull.mpr (List.prefix_append _ _)]
    exact ends_pure ⟨rfl, rfl⟩

theorem next_word {tok : Token} (hw : Blank w) (ht : (t, tok) ∈ wordTokens)
    (hr : Reads data N d (w ++ (t ++ r)) u json) :
    Ends (jsonNextToken data host o) json
      (fun token json' => token.1 = tok ∧ Reads data N d r u json') E := by
  have hstarts : ∀ x ∈ wordTokens, ∃ c ∈ x.1.head?, ch2token c = .unknown ∧ c ≠ 34 ∧
      ¬ (c = 45 ∨ (48 ≤ c ∧ c ≤ 57)) := by decide
  obtain ⟨c, hc, hunknown, hquote, hnumber⟩ := hstarts _ ht
  obtain ⟨t', ht'⟩ := List.head?_eq_some_iff.mp hc
  dsimp only at ht'
  have hr' := hr
  rw [ht', List.cons_append] at hr'
  refine next_unknown hw hunknown hr' fun json₁ hr₁ => ?_
  rw [← List.cons_append, ← ht'] at hr₁
  rw [unknownToken, if_neg hquote, if_neg hnumber]
  refine (wordToken_reads ht hr₁).bind ?_
  rintro a json' ⟨hsame, rfl⟩
  subst hsame
  have hle : t.length ≤ (t ++ r).length := by
    rw [List.length_append]
    exact Nat.le_add_right _ _
  refine (advance_reads hr₁ hle).bind fun _ json₂ hr₂ => ends_pure ⟨rfl, ?_⟩
  rwa [List.drop_left] at hr₂

end tokens

section values

variable {M : ℕ → List UInt8 → LuaValue → Prop} {process : Token × ℕ → Dec LuaValue} {p fuel : ℕ}

theorem ch_comma : ch2token 44 = .single .comma := by decide

theorem ch_colon : ch2token 58 = .single .colon := by decide

theorem ch_arrBegin : ch2token 0x5b = .single .arrBegin := by decide

theorem ch_arrEnd : ch2token 0x5d = .single .arrEnd := by decide

theorem ch_objBegin : ch2token 0x7b = .single .objBegin := by decide

theorem ch_objEnd : ch2token 0x7d = .single .objEnd := by decide

theorem pushString_reads (hr : Reads data N d s u json) :
    Ends (pushString u.length) json (fun v json' => json = json' ∧ v = u) E := by
  obtain ⟨ms, hms, hu⟩ := Option.map_eq_some_iff.mp hr.holds
  have hlength : u.length = json.mem.buf.length := by
    rw [← hu]
    exact Heap.load_length _ _ _ _
  rw [Ends, pushString, hms]
  exact ⟨rfl, by rw [hlength, hu]⟩

/-- Values `M` are read at depth `d`: their first token by the caller, the rest by `process`. -/
def Processed (data : List UInt8) (host : Host) (o : Options) (N d : ℕ)
    (process : Token × ℕ → Dec LuaValue) (M : ℕ → List UInt8 → LuaValue → Prop) : Prop :=
  ∀ {p : ℕ} {w s r u : List UInt8} {v : LuaValue} {json : Parse} {E : Abort → Parse → Prop},
    Blank w → M p s v → Follows r → p + (s ++ r).length = N →
    Reads data N d (w ++ (s ++ r)) u json →
    Ends (jsonNextToken data host o) json (fun token json₁ =>
      (token.1 ≠ .arrEnd ∧ token.1 ≠ .objEnd) ∧
      Ends (process token) json₁ (fun v' json₂ => v' = v ∧ ∃ u', Reads data N d r u' json₂) E) E

theorem elements_reads (hM : Processed data host o N d process M) {vs : List LuaValue}
    (ht : ElementsMean M p t vs) (arr : List LuaValue) (hp : p + (t ++ 0x5d :: r).length = N)
    (hr : Reads data N d (t ++ 0x5d :: r) u json) (hfuel : t.length < fuel) :
    Ends (jsonNextToken data host o) json (fun token json₁ => token.1 ≠ .arrEnd ∧
      Ends (arrayElements data host o process fuel arr token) json₁
        (fun arr' json₂ => arr' = arr ++ vs ∧ ∃ u', Reads data N d r u' json₂) E) E := by
  induction ht generalizing json u fuel arr with
  | @last p w s w' v hw hs hw' =>
    obtain ⟨fuel, rfl⟩ := Nat.exists_eq_succ_of_ne_zero (Nat.ne_of_gt (Nat.zero_lt_of_lt hfuel))
    have hshape : w ++ (s ++ w') ++ 0x5d :: r = w ++ (s ++ (w' ++ 0x5d :: r)) := by
      simp only [List.append_assoc]
    have hfollows : Follows (w' ++ 0x5d :: r) := hw'.follows (follows_cons (by decide))
    rw [hshape] at hr hp
    refine (hM hw hs hfollows (by rw [List.length_append] at hp; omega) hr).mono ?_
    rintro token json₁ ⟨hne, hprocess⟩
    refine ⟨hne.1, ?_⟩
    rw [arrayElements]
    refine hprocess.bind ?_
    rintro v' json₂ ⟨rfl, u', hr₂⟩
    refine (next_single hw' ch_arrEnd hr₂).bind ?_
    rintro token₂ json₃ ⟨htoken, -, hr₃⟩
    rw [htoken, rawseti_append]
    exact ends_pure ⟨rfl, u', hr₃⟩
  | @cons p w s w' t v vs hw hs hw' _ ih =>
    obtain ⟨fuel, rfl⟩ := Nat.exists_eq_succ_of_ne_zero (Nat.ne_of_gt (Nat.zero_lt_of_lt hfuel))
    have hshape : w ++ (s ++ (w' ++ 44 :: t)) ++ 0x5d :: r =
        w ++ (s ++ (w' ++ 44 :: (t ++ 0x5d :: r))) := by
      simp only [List.append_assoc, List.cons_append]
    have hfollows : Follows (w' ++ 44 :: (t ++ 0x5d :: r)) := hw'.follows (follows_cons (by decide))
    rw [hshape] at hr hp
    refine (hM hw hs hfollows (by rw [List.length_append] at hp; omega) hr).mono ?_
    rintro token json₁ ⟨hne, hprocess⟩
    refine ⟨hne.1, ?_⟩
    rw [arrayElements]
    refine hprocess.bind ?_
    rintro v' json₂ ⟨rfl, u', hr₂⟩
    refine (next_single hw' ch_comma hr₂).bind ?_
    rintro token₂ json₃ ⟨htoken, -, hr₃⟩
    rw [htoken, rawseti_append]
    simp only [List.length_append, List.length_cons] at hp hfuel
    have hplace : p + (w ++ (s ++ w')).length + 1 + (t ++ 0x5d :: r).length = N := by
      simp only [List.length_append, List.length_cons]
      omega
    have hlt : t.length < fuel := by omega
    refine Ends.bind (ih (arr ++ [v']) hplace hr₃ hlt) ?_
    rintro token₃ json₄ ⟨-, hrest⟩
    rw [List.append_assoc] at hrest
    exact hrest

theorem member_reads (hM : Processed data host o N d process M) {k key : List UInt8} {v : LuaValue}
    (hk : KeyMeans k key) (hs : M (p + k.length) s v) (hfollows : Follows r)
    (hp : p + (k ++ (s ++ r)).length = N) (hr : Reads data N d (k ++ (s ++ r)) u json) :
    Ends (jsonNextToken data host o) json (fun token json₁ => token.1 = .string key.length ∧
      Ends (pushString key.length) json₁ (fun key' json₂ => key' = key ∧
        Ends (objectMember data host o process) json₂ (fun v' json₃ =>
          v' = v ∧ ∃ u', Reads data N d r u' json₃) E) E) E := by
  cases hk with
  | @mk w b _ w' w'' hw hb hw' hw'' =>
    have hshape : w ++ (34 :: (b ++ [34]) ++ (w' ++ 58 :: w'')) ++ (s ++ r) =
        w ++ 34 :: (b ++ 34 :: (w' ++ 58 :: (w'' ++ (s ++ r)))) := by
      simp only [List.append_assoc, List.cons_append, List.nil_append]
    rw [hshape] at hr
    refine (next_string hw hb hr).mono ?_
    rintro token json₁ ⟨htoken, hr₁⟩
    refine ⟨htoken, (pushString_reads hr₁).mono ?_⟩
    rintro key' json₂ ⟨hsame, hkey⟩
    subst hsame
    refine ⟨hkey, ?_⟩
    rw [objectMember]
    refine (next_single hw' ch_colon hr₁).bind ?_
    rintro token₂ json₃ ⟨hcolon, -, hr₃⟩
    rw [if_pos hcolon]
    refine Ends.bind (hM hw'' hs hfollows ?_ hr₃) fun token₃ json₄ h => h.2
    rw [List.length_append] at hp
    rw [← hp, Nat.add_assoc]

theorem members_reads (hM : Processed data host o N d process M)
    {ms : List (List UInt8 × LuaValue)} (ht : MembersMean M p t ms)
    (hash : List (LuaValue × LuaValue)) (hp : p + (t ++ 0x7d :: r).length = N)
    (hr : Reads data N d (t ++ 0x7d :: r) u json) (hfuel : t.length < fuel) :
    Ends (jsonNextToken data host o) json (fun token json₁ => token.1 ≠ .objEnd ∧
      Ends (objectMembers data host o process fuel hash token) json₁ (fun hash' json₂ =>
        hash' = ms.foldl (fun hash m => setHash (.string m.1) m.2 hash) hash ∧
        ∃ u', Reads data N d r u' json₂) E) E := by
  induction ht generalizing json u fuel hash with
  | @last p k key s w v hk hs hw =>
    obtain ⟨fuel, rfl⟩ := Nat.exists_eq_succ_of_ne_zero (Nat.ne_of_gt (Nat.zero_lt_of_lt hfuel))
    have hshape : k ++ (s ++ w) ++ 0x7d :: r = k ++ (s ++ (w ++ 0x7d :: r)) := by
      simp only [List.append_assoc]
    have hfollows : Follows (w ++ 0x7d :: r) := hw.follows (follows_cons (by decide))
    rw [hshape] at hr hp
    refine (member_reads hM hk hs hfollows hp hr).mono ?_
    rintro token json₁ ⟨htoken, hkey⟩
    refine ⟨by rw [htoken]; exact Token.noConfusion, ?_⟩
    rw [objectMembers, htoken]
    refine hkey.bind ?_
    rintro key' json₂ ⟨rfl, hmember⟩
    refine hmember.bind ?_
    rintro v' json₃ ⟨rfl, u', hr₃⟩
    refine (next_single hw ch_objEnd hr₃).bind ?_
    rintro token₂ json₄ ⟨hend, -, hr₄⟩
    rw [hend, rawset_nil_array]
    exact ends_pure ⟨rfl, u', hr₄⟩
  | @cons p k key s w t v ms hk hs hw _ ih =>
    obtain ⟨fuel, rfl⟩ := Nat.exists_eq_succ_of_ne_zero (Nat.ne_of_gt (Nat.zero_lt_of_lt hfuel))
    have hshape : k ++ (s ++ (w ++ 44 :: t)) ++ 0x7d :: r =
        k ++ (s ++ (w ++ 44 :: (t ++ 0x7d :: r))) := by
      simp only [List.append_assoc, List.cons_append]
    have hfollows : Follows (w ++ 44 :: (t ++ 0x7d :: r)) := hw.follows (follows_cons (by decide))
    rw [hshape] at hr hp
    refine (member_reads hM hk hs hfollows hp hr).mono ?_
    rintro token json₁ ⟨htoken, hkey⟩
    refine ⟨by rw [htoken]; exact Token.noConfusion, ?_⟩
    rw [objectMembers, htoken]
    refine hkey.bind ?_
    rintro key' json₂ ⟨rfl, hmember⟩
    refine hmember.bind ?_
    rintro v' json₃ ⟨rfl, u', hr₃⟩
    refine (next_single hw ch_comma hr₃).bind ?_
    rintro token₂ json₄ ⟨hcomma, -, hr₄⟩
    rw [hcomma, rawset_nil_array]
    simp only [List.length_append, List.length_cons] at hp hfuel
    have hplace : p + (k ++ (s ++ w)).length + 1 + (t ++ 0x7d :: r).length = N := by
      simp only [List.length_append, List.length_cons]
      omega
    have hlt : t.length < fuel := by omega
    exact Ends.bind (ih _ hplace hr₄ hlt) fun token₃ json₅ h => h.2

theorem ascend_reads (hr : Reads data N (d + 1) s u json) :
    Ends jsonDecodeAscend json (fun _ json' => Reads data N d s u json') E := by
  refine ends_modify ⟨⟨hr.facing.text, hr.facing.noNul, ?_⟩, hr.place, hr.holds⟩
  change json.currentDepth - 1 = d
  rw [hr.facing.depth, Nat.add_sub_cancel]

theorem descend_reads {top slots : ℕ} (hr : Reads data N d s u json) (hd : d < o.decodeMaxDepth)
    (hcheck : host.checkstack top slots = true) :
    Ends (jsonDecodeDescend host o top slots) json
      (fun _ json' => Reads data N (d + 1) s u json') E := by
  have hdepth := hr.facing.depth
  rw [Ends, jsonDecodeDescend, if_pos ⟨by omega, hcheck⟩]
  exact ⟨⟨hr.facing.text, hr.facing.noNul, congrArg (· + 1) hdepth⟩, hr.place, hr.holds⟩

theorem fuel_lt (hr : Reads data N d (t ++ s) u json) : t.length < data.length + 1 := blank_lt hr

theorem CompoundMeans.bracket {M : ℕ → ℕ → List UInt8 → LuaValue → Prop} {v : LuaValue}
    (hs : CompoundMeans M k p s v) :
    ∃ t, (s = 0x5b :: t ∧ 2 ≤ k) ∨ (s = 0x7b :: t ∧ 3 ≤ k) := by
  cases hs with
  | emptyArray | array => exact ⟨_, .inl ⟨rfl, Nat.le_add_left _ _⟩⟩
  | emptyObject | object => exact ⟨_, .inr ⟨rfl, Nat.le_add_left _ _⟩⟩

theorem compound_reads {M : ℕ → ℕ → List UInt8 → LuaValue → Prop}
    {processElement processMember : Token × ℕ → Dec LuaValue}
    (harray : Processed data host o N (d + 1) processElement (M (k - 1)))
    (hobject : Processed data host o N (d + 1) processMember (M (k - 2))) {v : LuaValue}
    (hs : CompoundMeans M k p (c :: s) v) (hp : p + (c :: (s ++ r)).length = N)
    (hr : Reads data N (d + 1) (s ++ r) u json) :
    (c = 0x5b → Ends (jsonParseArrayContext data host o processElement p) json
      (fun v' json' => v' = v ∧ ∃ u', Reads data N d r u' json') E) ∧
    (c = 0x7b → Ends (jsonParseObjectContext data host o processMember p) json
      (fun v' json' => v' = v ∧ ∃ u', Reads data N d r u' json') E) := by
  cases hs with
  | @emptyArray k p w hw =>
    refine ⟨fun _ => ?_, fun h => absurd h (by decide)⟩
    rw [List.append_assoc] at hr
    rw [jsonParseArrayContext]
    refine (next_single hw ch_arrEnd hr).bind ?_
    rintro token json₁ ⟨hend, -, hr₁⟩
    rw [if_pos hend]
    exact (ascend_reads hr₁).bind fun _ json₂ hr₂ => ends_pure ⟨rfl, u, hr₂⟩
  | @array k p s vs hs =>
    refine ⟨fun _ => ?_, fun h => absurd h (by decide)⟩
    have hshape : s ++ [0x5d] ++ r = s ++ 0x5d :: r := List.append_assoc _ _ _
    rw [hshape] at hr hp
    have hfuel := fuel_lt hr
    have hplace : p + 1 + (s ++ 0x5d :: r).length = N := by
      rw [List.length_cons] at hp
      omega
    rw [jsonParseArrayContext]
    refine (elements_reads harray hs [] hplace hr hfuel).bind ?_
    rintro token json₁ ⟨hne, hrest⟩
    rw [if_neg hne]
    refine hrest.bind ?_
    rintro arr json₂ ⟨rfl, u', hr₂⟩
    exact (ascend_reads hr₂).bind fun _ json₃ hr₃ => ends_pure ⟨rfl, u', hr₃⟩
  | @emptyObject k p w hw =>
    refine ⟨fun h => absurd h (by decide), fun _ => ?_⟩
    rw [List.append_assoc] at hr
    rw [jsonParseObjectContext]
    refine (next_single hw ch_objEnd hr).bind ?_
    rintro token json₁ ⟨hend, -, hr₁⟩
    rw [if_pos hend]
    exact (ascend_reads hr₁).bind fun _ json₂ hr₂ => ends_pure ⟨rfl, u, hr₂⟩
  | @object k p s ms hs =>
    refine ⟨fun h => absurd h (by decide), fun _ => ?_⟩
    have hshape : s ++ [0x7d] ++ r = s ++ 0x7d :: r := List.append_assoc _ _ _
    rw [hshape] at hr hp
    have hfuel := fuel_lt hr
    have hplace : p + 1 + (s ++ 0x7d :: r).length = N := by
      rw [List.length_cons] at hp
      omega
    rw [jsonParseObjectContext]
    refine (members_reads hobject hs [] hplace hr hfuel).bind ?_
    rintro token json₁ ⟨hne, hrest⟩
    rw [if_neg hne]
    refine hrest.bind ?_
    rintro hash json₂ ⟨rfl, u', hr₂⟩
    exact (ascend_reads hr₂).bind fun _ json₃ hr₃ => ends_pure ⟨rfl, u', hr₃⟩

theorem token_reads {c : Dec (Token × ℕ)} {tok : Token} {v : LuaValue}
    (hc : Ends c json (fun token json' => token.1 = tok ∧ Reads data N d r u json') E)
    (hne : tok ≠ .arrEnd ∧ tok ≠ .objEnd) (hv : ∀ token, token.1 = tok → process token = pure v) :
    Ends c json (fun token json₁ =>
      (token.1 ≠ .arrEnd ∧ token.1 ≠ .objEnd) ∧
      Ends (process token) json₁
        (fun v' json₂ => v' = v ∧ ∃ u', Reads data N d r u' json₂) E) E := by
  refine hc.mono ?_
  rintro token json₁ ⟨htoken, hr₁⟩
  rw [hv token htoken, htoken]
  exact ⟨hne, ends_pure ⟨rfl, u, hr₁⟩⟩

theorem atom_reads (hhost : host.ReadsLongest) (halone : host.ReadsAlone) {levels top : ℕ}
    {v : LuaValue} (hs : AtomMeans host s v) (hw : Blank w) (hfollows : Follows r)
    (hr : Reads data N d (w ++ (s ++ r)) u json) :
    Ends (jsonNextToken data host o) json (fun token json₁ =>
      (token.1 ≠ .arrEnd ∧ token.1 ≠ .objEnd) ∧
      Ends (jsonProcessValue data host o levels top token) json₁
        (fun v' json₂ => v' = v ∧ ∃ u', Reads data N d r u' json₂) E) E := by
  have hword : ∀ tok : Token, (s, tok) ∈ wordTokens →
      Ends (jsonNextToken data host o) json
        (fun token json' => token.1 = tok ∧ Reads data N d r u json') E :=
    fun tok ht => next_word hw ht hr
  cases hs with
  | true =>
    refine token_reads (hword (.boolean true) (by decide)) ⟨Token.noConfusion, Token.noConfusion⟩ ?_
    intro token htoken
    rw [jsonProcessValue.eq_def, htoken]
  | false =>
    refine token_reads (hword (.boolean false) (by decide))
      ⟨Token.noConfusion, Token.noConfusion⟩ ?_
    intro token htoken
    rw [jsonProcessValue.eq_def, htoken]
  | null =>
    refine token_reads (hword .null (by decide)) ⟨Token.noConfusion, Token.noConfusion⟩ ?_
    intro token htoken
    rw [jsonProcessValue.eq_def, htoken]
  | number ht =>
    refine token_reads (next_number hhost halone hw ht hfollows hr)
      ⟨Token.noConfusion, Token.noConfusion⟩ ?_
    intro token htoken
    rw [jsonProcessValue.eq_def, htoken]
  | @string b v hb =>
    have hshape : 34 :: (b ++ [34]) ++ r = 34 :: (b ++ 34 :: r) :=
      congrArg (34 :: ·) (List.append_assoc _ _ _)
    rw [hshape] at hr
    refine (next_string hw hb hr).mono ?_
    rintro token json₁ ⟨htoken, hr₁⟩
    rw [htoken, jsonProcessValue.eq_def, htoken]
    refine ⟨⟨Token.noConfusion, Token.noConfusion⟩, (pushString_reads hr₁).bind ?_⟩
    rintro v' json₂ ⟨hsame, rfl⟩
    subst hsame
    exact ends_pure ⟨rfl, v', hr₁⟩

/-- The induction is on the levels left, as in the function. -/
theorem jsonProcessValue_reads (hhost : host.ReadsLongest) (halone : host.ReadsAlone)
    {levels top : ℕ} (hd : d + levels = o.decodeMaxDepth) :
    Processed data host o N d (jsonProcessValue data host o levels top)
      (ValueMeans host levels (host.maxCStack - top)) := by
  induction levels generalizing d top with
  | zero =>
    intro p w s r u v json E hw hs hfollows _ hr
    exact atom_reads hhost halone hs hw hfollows hr
  | succ levels ih =>
    have hM : ∀ slots, Processed data host o N (d + 1)
        (jsonProcessValue data host o levels (top + slots))
        (ValueMeans host levels (host.maxCStack - top - slots)) := by
      intro slots
      rw [Nat.sub_sub]
      exact ih (by omega)
    intro p w s r u v json E hw hs hfollows hp hr
    rcases hs with hs | hs
    · exact atom_reads hhost halone hs hw hfollows hr
    obtain ⟨s, ⟨rfl, hk⟩ | ⟨rfl, hk⟩⟩ := hs.bracket
    · have hplace : N - (0x5b :: (s ++ r)).length = p := (Nat.eq_sub_of_add_eq hp).symm
      have hcheck := (host.checkstack_iff (by decide)).mpr hk
      refine (next_single hw ch_arrBegin hr).mono ?_
      rintro token json₁ ⟨htoken, hindex, hr₁⟩
      rw [htoken, jsonProcessValue.eq_def, htoken, hindex]
      refine ⟨⟨Token.noConfusion, Token.noConfusion⟩, ?_⟩
      refine Ends.bind (descend_reads hr₁ (by omega) hcheck) fun _ json₂ hr₂ => ?_
      have hread := (compound_reads (E := E) (hM 1) (hM 2) hs hp hr₂).1 rfl
      rwa [← hplace] at hread
    · have hplace : N - (0x7b :: (s ++ r)).length = p := (Nat.eq_sub_of_add_eq hp).symm
      have hcheck := (host.checkstack_iff (by decide)).mpr hk
      refine (next_single hw ch_objBegin hr).mono ?_
      rintro token json₁ ⟨htoken, hindex, hr₁⟩
      rw [htoken, jsonProcessValue.eq_def, htoken, hindex]
      refine ⟨⟨Token.noConfusion, Token.noConfusion⟩, ?_⟩
      refine Ends.bind (descend_reads hr₁ (by omega) hcheck) fun _ json₂ hr₂ => ?_
      have hread := (compound_reads (E := E) (hM 1) (hM 2) hs hp hr₂).2 rfl
      rwa [← hplace] at hread

end values

section text

variable {host : Host} {v : LuaValue} {h : Heap}

theorem strbufInit_string {n : ℤ} {m : Mem} (hinit : strbufInit h n = some m) :
    strbufString m = some [] := by
  obtain ⟨x, -, rfl⟩ := Option.map_eq_some_iff.mp hinit
  rfl

theorem follows_nil : Follows [] := fun c hc => by cases hc

theorem decodeText_reads (hhost : host.ReadsLongest) (halone : host.ReadsAlone)
    (ht : TextMeans host o.decodeMaxDepth host.freeSlots t v)
    (hr : Reads data t.length 0 t [] json) :
    Ends (decodeText data host o) json (fun v' _ => v' = v) E := by
  cases ht with
  | @mk w s w' v hw hs hw' =>
    have hfollows : Follows (w' ++ []) := hw'.follows follows_nil
    rw [List.append_nil] at hfollows
    have hplace : w.length + (s ++ w').length = (w ++ (s ++ w')).length :=
      List.length_append.symm
    rw [decodeText]
    refine Ends.bind (jsonProcessValue_reads hhost halone (Nat.zero_add _) hw hs hfollows
      hplace hr) fun token json₁ h => h.2.bind ?_
    rintro v' json₂ ⟨rfl, u', hr₂⟩
    refine (next_end hw' hr₂).bind ?_
    rintro token₂ json₃ ⟨hend, -⟩
    rw [if_pos hend]
    exact Ends.bind (Q := fun _ _ => True) (ends_modify trivial) fun _ _ _ => ends_pure rfl

theorem jsonDecode_means (hhost : host.ReadsLongest) (halone : host.ReadsAlone)
    (hn : data.length < 2 ^ 20)
    (hutf : ¬ (2 ≤ data.length ∧ (data.getD 0 0 = 0 ∨ data.getD 1 0 = 0)))
    (ht : TextMeans host o.decodeMaxDepth host.freeSlots (cString data 0) v) :
    ∃ h', jsonDecode data host o h = .ok (.value v, h') := by
  obtain ⟨⟨ending, h₁, hreturns⟩, mem, -, hinit, -⟩ := jsonDecode_safe data host o h hn
  have hread : Ends (decodeText data host o) ⟨mem, 0, 0⟩ (fun v' _ => v' = v) fun _ _ => False :=
    decodeText_reads hhost halone ht
      ⟨facing_start mem, Nat.zero_add _, strbufInit_string hinit⟩
  rw [jsonDecode, if_neg hutf, hinit]
  dsimp only
  cases hrun : decodeText data host o ⟨mem, 0, 0⟩ with
  | ok value json =>
    obtain rfl : value = v := hread.ok hrun
    exact ⟨_, rfl⟩
  | error e json => exact (hread.error hrun).elim

/-- The decoder returns the value that the text before the first NUL means, and no other. -/
theorem jsonDecode_value_iff (data : List UInt8) (host : Host) (o : Options) (h : Heap)
    (v : LuaValue) (hhost : host.ReadsLongest) (halone : host.ReadsAlone)
    (hopt : o.decodeInvalidNumbers = false) (hn : data.length < 2 ^ 20) :
    (∃ h', jsonDecode data host o h = .ok (.value v, h')) ↔
      ¬ (2 ≤ data.length ∧ (data.getD 0 0 = 0 ∨ data.getD 1 0 = 0)) ∧
        TextMeans host o.decodeMaxDepth host.freeSlots (cString data 0) v := by
  constructor
  · rintro ⟨h', hv⟩
    obtain ⟨hutf, ns, hns⟩ := (jsonDecode_iff hhost hopt hn h).mp ⟨v, h', hv⟩
    obtain ⟨v', hv'⟩ : ∃ v', TextMeans host o.decodeMaxDepth host.freeSlots (cString data 0) v' :=
      hns.exists_means
    obtain ⟨h₁, hmeans⟩ := jsonDecode_means (h := h) hhost halone hn hutf hv'
    rw [hv] at hmeans
    cases hmeans
    exact ⟨hutf, hv'⟩
  · rintro ⟨hutf, hv⟩
    exact jsonDecode_means hhost halone hn hutf hv

theorem longestHost_alone : longestHost.ReadsAlone := fun _ => rfl

/-- An array of a word and of a string with an escape. -/
theorem jsonDecode_value_iff_array :
    ∃ h', jsonDecode (ascii "[true,\"\\n\"]") longestHost strictOptions
      (levSlabFill (Heap.boot fun _ _ => 0)) =
        .ok (.value (.table 0 [.boolean true, .string [10]] []), h') := by
  have hblank : Blank [] := fun c hc => by cases hc
  have hescape : StringMeans [92, 110] [10] := .escape (by decide) .nil
  have htrue : ∀ p, ValueMeans longestHost 999 7998 p (ascii "true") (.boolean true) :=
    fun _ => Or.inl .true
  have hstring :
      ∀ p, ValueMeans longestHost 999 7998 p (34 :: ([92, 110] ++ [34])) (.string [10]) :=
    fun _ => Or.inl (.string hescape)
  have helements :
      ElementsMean (ValueMeans longestHost 999 7998) 1 _ [.boolean true, .string [10]] :=
    .cons hblank (htrue _) hblank (.last hblank (hstring _) hblank)
  have hvalue : ValueMeans longestHost 1000 7999 0 _ (.table 0 [.boolean true, .string [10]] []) :=
    Or.inr (.array helements)
  exact (jsonDecode_value_iff (ascii "[true,\"\\n\"]") longestHost strictOptions _ _
    longestHost_reads longestHost_alone rfl (by decide)).mpr ⟨by decide, .mk hblank hvalue hblank⟩

end text

end Lev.Json
