import Lev.Ends
import Lev.JsonDecode
import Lev.JsonPieces

/-! The decoder never asks whether a string fits its scratch buffer, and need not: the buffer
has a byte for each of the text and one more, and no step stores more bytes than it reads.
From there each function of the decoder either returns or raises a Lua error, with the buffer
given back. -/
namespace Lev.Json
open CInt Memory Lua Slab Effect
open Buffer (Exact)

variable {u n d p : ℕ} {json : Parse} {H : Mem → Prop}

/-- A property of the memory that has a scratch buffer of `u` bytes in it, and that stores in
the first `n + 1` bytes of the buffer keep. -/
structure Scratch (u n : ℕ) (H : Mem → Prop) : Prop where
  slice : ∀ m, H m → ∃ mb, m.buf.ms = some ⟨mb, 0, u⟩
  store : ∀ m mb off c l log, H m → m.buf.ms = some ⟨mb, 0, u⟩ →
    off + List.length c ≤ n + 1 → H ⟨m.heap.store mb off c, ⟨m.buf.ms, l⟩, log⟩
  length : ∀ m l, H m → H ⟨m.heap, ⟨m.buf.ms, l⟩, m.log⟩

/-- All stores of the call are in the first `n + 1` bytes of the buffer. -/
def Stored (u n : ℕ) (log : List Access) : Prop :=
  ∀ a ∈ log, a.untilLen = u ∧ a.index + a.len ≤ n + 1

/-- The parser is in a text of `n` bytes, from `p` on, in tables nested `d` deep. -/
structure Scanning (H : Mem → Prop) (u n d p : ℕ) (json : Parse) : Prop where
  scratch : Scratch u n H
  held : H json.mem
  stored : Stored u n json.mem.log
  depth : json.currentDepth = d
  from_le : p ≤ json.ptr
  ptr_le : json.ptr ≤ n

/-- While a string is read its opening quote is behind it, which leaves a byte for the NUL. -/
structure Collecting (H : Mem → Prop) (u n d p : ℕ) (json : Parse) : Prop
    extends Scanning H u n d p json where
  length_lt : json.mem.buf.length < json.ptr

structure Closed (H : Mem → Prop) (u n : ℕ) (json : Parse) : Prop where
  freed : ∃ m, H m ∧ json.mem = strbufFree m
  stored : Stored u n json.mem.log

/-- A Lua error leaves no scratch buffer behind, and nothing else happens. -/
def Raised (H : Mem → Prop) (u n : ℕ) : Abort → Parse → Prop
  | .error _, json => Closed H u n json
  | .stop _, _ => False

theorem Scanning.mono {q : ℕ} (hs : Scanning H u n d p json) (hq : q ≤ p) :
    Scanning H u n d q json :=
  ⟨hs.scratch, hs.held, hs.stored, hs.depth, hq.trans hs.from_le, hs.ptr_le⟩

theorem Scanning.here (hs : Scanning H u n d p json) : Scanning H u n d json.ptr json :=
  ⟨hs.scratch, hs.held, hs.stored, hs.depth, le_rfl, hs.ptr_le⟩

theorem strbufFree_log (m : Mem) : (strbufFree m).log = m.log := by
  rw [strbufFree]
  cases m.buf.ms with
  | none => rfl
  | some ms => rfl

theorem Scanning.free (hs : Scanning H u n d p json) (ptr depth : ℕ) :
    Closed H u n ⟨strbufFree json.mem, ptr, depth⟩ where
  freed := ⟨json.mem, hs.held, rfl⟩
  stored := (strbufFree_log json.mem).symm ▸ hs.stored

section
variable {data : List UInt8}

theorem peek_ends {k : ℕ} {E : Abort → Parse → Prop} (hk : json.ptr + k ≤ data.length) :
    Ends (peek data k) json
      (fun ch json' => json = json' ∧ (ch ≠ 0 → json.ptr + k < data.length)) E := by
  rcases Nat.lt_or_ge (json.ptr + k) data.length with hlt | hge
  · have hget : (data ++ [0])[json.ptr + k]? = some data[json.ptr + k] := by
      rw [List.getElem?_append_left hlt, List.getElem?_eq_getElem hlt]
    rw [Ends, peek, hget]
    exact ⟨rfl, fun _ => hlt⟩
  · have hget : (data ++ [0])[json.ptr + k]? = some 0 := by
      rw [le_antisymm hk hge, List.getElem?_concat_length]
    rw [Ends, peek, hget]
    exact ⟨rfl, fun hch => absurd rfl hch⟩

theorem advance_ends {k : ℕ} {E : Abort → Parse → Prop} (hs : Scanning H u n d p json)
    (hk : json.ptr + k ≤ n) :
    Ends (advance k) json (fun _ json' => Scanning H u n d (p + k) json' ∧
      json'.ptr = json.ptr + k ∧ json'.mem = json.mem) E :=
  ends_modify ⟨⟨hs.scratch, hs.held, hs.stored, hs.depth, Nat.add_le_add_right hs.from_le k, hk⟩,
    rfl, rfl⟩

theorem storeScratch (hs : Scanning H u n d p json) {c : List UInt8}
    (hfit : json.mem.buf.length + c.length ≤ n + 1) :
    ∃ m', strbufStore json.mem c = some m' ∧ m'.buf.length = json.mem.buf.length ∧
      ∀ l, Scanning H u n d p { json with mem := ⟨m'.heap, ⟨m'.buf.ms, l⟩, m'.log⟩ } := by
  obtain ⟨mb, hms⟩ := hs.scratch.slice json.mem hs.held
  refine ⟨⟨json.mem.heap.store mb json.mem.buf.length c, json.mem.buf,
    ⟨json.mem.buf.length, c.length, u⟩ :: json.mem.log⟩, ?_, rfl, fun l => ⟨hs.scratch,
    hs.scratch.store _ _ _ c l _ hs.held hms hfit, fun a ha => ?_, hs.depth, hs.from_le,
    hs.ptr_le⟩⟩
  · rw [strbufStore, Mem.onSlice, hms]
    simp only [Window.store, Option.map_some, Nat.zero_add, ← hms]
  · rcases List.mem_cons.mp ha with rfl | ha
    · exact ⟨rfl, hfit⟩
    · exact hs.stored a ha

theorem store_ends {c : List UInt8} (hs : Scanning H u n d p json)
    (hfit : json.mem.buf.length + c.length ≤ n + 1) :
    Ends (onTmp fun m => strbufAppendMemUnsafe m c) json
      (fun _ json' => Scanning H u n d p json' ∧ json'.ptr = json.ptr ∧
        json'.mem.buf.length = json.mem.buf.length + c.length) (Raised H u n) := by
  obtain ⟨m', hstore, hlength, hstored⟩ := storeScratch hs hfit
  rw [Ends, onTmp, strbufAppendMemUnsafe, hstore, Option.map_some]
  exact ⟨hstored _, rfl, congrArg (· + c.length) hlength⟩

theorem hexdigit2int_zero : hexdigit2int 0 = none := by decide

theorem decodeHexLoop_ends {m k v : ℕ} {E : Abort → Parse → Prop}
    (hk : json.ptr + k ≤ data.length) :
    Ends (decodeHexLoop data m k v) json
      (fun a json' => json = json' ∧ (a ≠ none → json.ptr + k + m ≤ data.length)) E := by
  induction m generalizing k v with
  | zero => exact ends_pure ⟨rfl, fun _ => hk⟩
  | succ m ih =>
    rw [decodeHexLoop]
    refine (peek_ends hk).bind fun ch json' ⟨hsame, hlt⟩ => ?_
    subst hsame
    cases hd : hexdigit2int ch with
    | none => exact ends_pure ⟨rfl, fun hne => absurd rfl hne⟩
    | some digit =>
      have hch : ch ≠ 0 := by
        rintro rfl
        rw [hexdigit2int_zero] at hd
        cases hd
      have hlt := hlt hch
      refine (ih (k := k + 1) (by omega)).mono fun a json' ⟨hsame, hend⟩ => ⟨hsame, fun ha => ?_⟩
      have hend := hend ha
      omega

theorem codepointToUtf8_length (codepoint : ℕ) : (codepointToUtf8 codepoint).length ≤ 4 := by
  rw [codepointToUtf8]
  dsimp only
  split_ifs
  all_goals simp only [List.length_cons, List.length_nil]
  all_goals omega

theorem surrogatePair_ends {codepoint : ℕ} {E : Abort → Parse → Prop}
    (hk : json.ptr + 6 ≤ data.length) :
    Ends (surrogatePair data codepoint) json
      (fun a json' => json = json' ∧
        ∀ x ∈ a, 6 ≤ x.2 ∧ json.ptr + x.2 ≤ data.length) E := by
  have hnone : Ends (pure none : Dec (Option (ℕ × ℕ))) json (fun a json' => json = json' ∧
      ∀ x ∈ a, 6 ≤ x.2 ∧ json.ptr + x.2 ≤ data.length) E :=
    ends_pure ⟨rfl, fun x hx => by cases hx⟩
  rw [surrogatePair]
  split
  · refine ends_pure ⟨rfl, fun x hx => ?_⟩
    cases hx
    exact ⟨le_rfl, hk⟩
  · split
    · exact hnone
    · refine (peek_ends hk).bind fun backslash json' ⟨hsame, hlt⟩ => ?_
      subst hsame
      split
      · exact hnone
      · next hback =>
        have hback : backslash = 92 := not_not.mp hback
        have hlt := hlt (by rw [hback]; decide)
        refine (peek_ends (k := 7) (by omega)).bind fun u json' ⟨hsame, hlt'⟩ => ?_
        subst hsame
        split
        · exact hnone
        · next hu =>
          have hu : u = 117 := not_not.mp hu
          have hlt' := hlt' (by rw [hu]; decide)
          refine (decodeHexLoop_ends (k := 8) (by omega)).bind fun a json' ⟨hsame, hhex⟩ => ?_
          subst hsame
          cases a with
          | none => exact hnone
          | some surrogateLow =>
            have hhex := hhex (Option.some_ne_none _)
            dsimp only
            split
            · exact hnone
            · refine ends_pure ⟨rfl, fun x hx => ?_⟩
              cases hx
              exact ⟨by dsimp only; omega, by dsimp only; omega⟩

theorem jsonAppendUnicodeEscape_ends (hs : Collecting H u data.length d p json)
    (hk : json.ptr + 2 ≤ data.length) :
    Ends (jsonAppendUnicodeEscape data) json
      (fun ok json' => Scanning H u data.length d p json' ∧
        (ok = true → Collecting H u data.length d (p + 1) json')) (Raised H u data.length) := by
  have hfalse : Ends (pure false : Dec Bool) json
      (fun ok json' => Scanning H u data.length d p json' ∧
        (ok = true → Collecting H u data.length d (p + 1) json')) (Raised H u data.length) :=
    ends_pure ⟨hs.toScanning, fun hok => by cases hok⟩
  rw [jsonAppendUnicodeEscape]
  refine (decodeHexLoop_ends hk).bind fun a json' ⟨hsame, hhex⟩ => ?_
  subst hsame
  cases a with
  | none => exact hfalse
  | some codepoint =>
    have hhex := hhex (Option.some_ne_none _)
    refine (surrogatePair_ends (by omega)).bind fun a json' ⟨hsame, hescape⟩ => ?_
    subst hsame
    cases a with
    | none => exact hfalse
    | some x =>
      obtain ⟨hge, hle⟩ := hescape x rfl
      have hutf8 := codepointToUtf8_length x.1
      have hlength := hs.length_lt
      dsimp only
      split
      · exact hfalse
      · refine (store_ends hs.toScanning (by omega)).bind fun _ json₁ ⟨hs₁, hptr₁, hlength₁⟩ => ?_
        refine (advance_ends hs₁ (by omega)).bind fun _ json₂ ⟨hs₂, hptr₂, hmem₂⟩ => ?_
        refine ends_pure ⟨hs₂.mono (Nat.le_add_right _ _), fun _ => ⟨hs₂.mono (by omega), ?_⟩⟩
        rw [hmem₂]
        omega

theorem stringEscape_ends (hs : Collecting H u data.length d p json)
    (hk : json.ptr + 1 ≤ data.length) :
    Ends (stringEscape data) json
      (fun err json' => Scanning H u data.length d p json' ∧
        (err = none → Collecting H u data.length d (p + 1) json')) (Raised H u data.length) := by
  rw [stringEscape]
  refine (peek_ends hk).bind fun ch json' ⟨hsame, hlt⟩ => ?_
  subst hsame
  have hread : escape2char ch ≠ 0 → json.ptr + 2 ≤ data.length := by
    intro hch
    refine hlt ?_
    rintro rfl
    exact hch (by decide)
  dsimp only
  split
  · next hu =>
    refine (jsonAppendUnicodeEscape_ends hs (hread (by rw [hu]; decide))).bind
      fun ok json₁ ⟨hs₁, hok⟩ => ends_pure ⟨hs₁, fun herr => hok ?_⟩
    cases ok with
    | true => rfl
    | false => cases herr
  · split
    · exact ends_pure ⟨hs.toScanning, fun herr => by cases herr⟩
    · next hch =>
      have hread := hread hch
      have hlength := hs.length_lt
      refine (advance_ends hs.toScanning hk).bind fun _ json₁ ⟨hs₁, hptr₁, hmem₁⟩ => ?_
      have hsame₁ : json₁.mem.buf.length = json.mem.buf.length := by rw [hmem₁]
      refine Ends.bind (store_ends (c := [escape2char ch]) hs₁
        (by rw [List.length_singleton]; omega)) fun _ json₂ ⟨hs₂, hptr₂, hlength₂⟩ => ?_
      rw [List.length_singleton] at hlength₂
      refine (advance_ends hs₂ (by omega)).bind fun _ json₃ ⟨hs₃, hptr₃, hmem₃⟩ => ?_
      refine ends_pure ⟨hs₃.mono (by omega), fun _ => ⟨hs₃.mono (by omega), ?_⟩⟩
      rw [hmem₃]
      omega

/-- The loop over the characters of a string, which ends at the NUL behind the text if
nowhere before. -/
theorem stringLoop_ends {fuel : ℕ} (hs : Collecting H u data.length d p json)
    (hfuel : data.length < json.ptr + fuel) :
    Ends (stringLoop data fuel) json
      (fun err json' => Scanning H u data.length d p json' ∧
        (err = none → Collecting H u data.length d p json' ∧ json'.ptr + 1 ≤ data.length))
      (Raised H u data.length) := by
  induction fuel generalizing json p with
  | zero =>
    have hle := hs.ptr_le
    omega
  | succ fuel ih =>
    have hle := hs.ptr_le
    have hlength := hs.length_lt
    rw [stringLoop]
    refine (peek_ends (k := 0) hle).bind fun ch json' ⟨hsame, hlt⟩ => ?_
    subst hsame
    split
    · next hquote => exact ends_pure ⟨hs.toScanning, fun _ => ⟨hs, hlt (by rw [hquote]; decide)⟩⟩
    · split
      · exact ends_pure ⟨hs.toScanning, fun herr => by cases herr⟩
      · next hch =>
        have hlt : json.ptr + 1 ≤ data.length := hlt hch
        split
        · refine (stringEscape_ends ⟨hs.here, hlength⟩ hlt).bind fun err json₁ ⟨hs₁, hnext⟩ => ?_
          have hp := hs.from_le
          cases err with
          | some errtype => exact ends_pure ⟨hs₁.mono hp, fun herr => by cases herr⟩
          | none =>
            have hnext := hnext rfl
            have hmore := hnext.from_le
            exact ih ⟨hnext.toScanning.mono (by omega), hnext.length_lt⟩ (by omega)
        · refine Ends.bind (store_ends (c := [ch]) hs.toScanning
            (by rw [List.length_singleton]; omega)) fun _ json₁ ⟨hs₁, hptr₁, hlength₁⟩ => ?_
          rw [List.length_singleton] at hlength₁
          refine (advance_ends hs₁ (by omega)).bind fun _ json₂ ⟨hs₂, hptr₂, hmem₂⟩ => ?_
          refine ih ⟨hs₂.mono (Nat.le_add_right _ _), ?_⟩ (by omega)
          rw [hmem₂]
          omega

/-- At such a token the parser stays where it is; it then gives up. -/
def Token.Stuck : Token → Prop
  | .end => True
  | .error _ => True
  | _ => False

/-- What each part of the tokenizer ends in: it has moved on, unless it is stuck. -/
def MovedOn (H : Mem → Prop) (u n d p : ℕ) (token : Token × ℕ) (json : Parse) : Prop :=
  Scanning H u n d p json ∧ (¬ token.1.Stuck → p < json.ptr)

theorem jsonNextStringToken_ends {index : ℕ} (hs : Scanning H u data.length d p json)
    (hk : json.ptr + 1 ≤ data.length) :
    Ends (jsonNextStringToken data index) json (MovedOn H u data.length d p)
      (Raised H u data.length) := by
  have hpos : 1 ≤ json.ptr + 1 := Nat.le_add_left 1 _
  rw [jsonNextStringToken]
  refine (advance_ends hs hk).bind ?_
  rintro _ json₁ ⟨hs₁, hptr₁, _⟩
  have hreset : Ends (onTmp fun m => some (strbufReset m)) json₁
      (fun _ json' => Collecting H u data.length d (p + 1) json')
      (Raised H u data.length) := by
    rw [Ends, onTmp]
    refine ⟨⟨hs₁.scratch, hs₁.scratch.length _ 0 hs₁.held, hs₁.stored, hs₁.depth, hs₁.from_le,
      hs₁.ptr_le⟩, ?_⟩
    change 0 < json₁.ptr
    omega
  refine hreset.bind fun _ json₂ hs₂ => ?_
  have hfuel := hs₂.ptr_le
  refine (stringLoop_ends hs₂ (by omega)).bind ?_
  rintro err json₃ ⟨hs₃, hnone⟩
  cases err with
  | some errtype =>
    exact ends_get_bind (ends_pure ⟨hs₃.mono (Nat.le_succ p), fun hne => absurd trivial hne⟩)
  | none =>
    obtain ⟨hs₃, hclose⟩ := hnone rfl
    have hlength := hs₃.length_lt
    refine (advance_ends hs₃.toScanning hclose).bind ?_
    rintro _ json₄ ⟨hs₄, hptr₄, hmem₄⟩
    have hnull : Ends (onTmp strbufEnsureNull) json₄
        (fun _ json' => Scanning H u data.length d (p + 1 + 1) json')
        (Raised H u data.length) := by
      obtain ⟨m', hstore, -, hstored⟩ := storeScratch hs₄ (c := [0]) (by
        rw [hmem₄, List.length_singleton]
        omega)
      rw [Ends, onTmp, strbufEnsureNull, hstore]
      exact hstored m'.buf.length
    refine hnull.bind fun _ json₅ hs₅ => ?_
    have hfrom := hs₅.from_le
    exact ends_get_bind (ends_pure ⟨hs₅.mono (by omega), fun _ => by omega⟩)

theorem isNext_ends {fold : UInt8 → UInt8} (hfold : fold 0 = 0) {word : List UInt8} {k : ℕ}
    {E : Abort → Parse → Prop} (hword : 0 ∉ word) (hk : json.ptr + k ≤ data.length) :
    Ends (isNext data fold word k) json
      (fun ok json' =>
        json = json' ∧ (ok = true → json.ptr + k + word.length ≤ data.length)) E := by
  induction word generalizing k with
  | nil => exact ends_pure ⟨rfl, fun _ => hk⟩
  | cons c word ih =>
    rw [isNext]
    refine (peek_ends hk).bind fun ch json' ⟨hsame, hlt⟩ => ?_
    subst hsame
    split
    · next hc =>
      have hch : ch ≠ 0 := by
        rintro rfl
        exact hword (List.mem_cons.mpr (.inl (hfold.symm.trans hc)))
      have hlt := hlt hch
      have hrest : 0 ∉ word := fun hmem => hword (List.mem_cons_of_mem c hmem)
      refine (ih (k := k + 1) hrest (by omega)).mono fun ok json' ⟨hsame, hend⟩ =>
        ⟨hsame, fun hok => ?_⟩
      have hend := hend hok
      rw [List.length_cons]
      omega
    · exact ends_pure ⟨rfl, fun hok => by cases hok⟩

theorem isInvalidUnsigned_ends {k : ℕ} {E : Abort → Parse → Prop}
    (hk : json.ptr + k ≤ data.length) :
    Ends (isInvalidUnsigned data k) json (fun _ json' => json = json') E := by
  rw [isInvalidUnsigned]
  refine (peek_ends hk).bind fun ch json' ⟨hsame, hlt⟩ => ?_
  subst hsame
  split
  · next hzero =>
    have hlt := hlt (by rw [hzero]; decide)
    refine (peek_ends (k := k + 1) (by omega)).bind fun ch2 json' ⟨hsame, _⟩ => ?_
    exact ends_pure hsame
  · split
    · exact ends_pure rfl
    · refine (isNext_ends (by decide) (by decide) hk).bind fun inf json' ⟨hsame, _⟩ => ?_
      subst hsame
      split
      · exact ends_pure rfl
      · exact (isNext_ends (by decide) (by decide) hk).mono fun _ _ hq => hq.1

theorem jsonIsInvalidNumber_ends {E : Abort → Parse → Prop} (hk : json.ptr ≤ data.length) :
    Ends (jsonIsInvalidNumber data) json (fun _ json' => json = json') E := by
  rw [jsonIsInvalidNumber]
  refine (peek_ends (k := 0) hk).bind fun ch json' ⟨hsame, hlt⟩ => ?_
  subst hsame
  split
  · exact ends_pure rfl
  · split
    · next hminus => exact isInvalidUnsigned_ends (hlt (by rw [hminus]; decide))
    · exact isInvalidUnsigned_ends hk

theorem cString_length (data : List UInt8) (ptr : ℕ) :
    (cString data ptr).length ≤ data.length - ptr := by
  have hle := (List.takeWhile_sublist (p := fun c : UInt8 => decide (c ≠ 0))
    (l := data.drop ptr)).length_le
  rwa [List.length_drop] at hle

theorem jsonNextNumberToken_ends {host : Host} {index : ℕ}
    (hs : Scanning H u data.length d p json) :
    Ends (jsonNextNumberToken data host index) json (MovedOn H u data.length d p)
      (Raised H u data.length) := by
  have hstuck : MovedOn H u data.length d p (.error "invalid number", json.ptr) json :=
    ⟨hs, fun hne => absurd trivial hne⟩
  have hcstring := cString_length data json.ptr
  have hread := host.strtod_le (cString data json.ptr)
  have hptr := hs.ptr_le
  rw [jsonNextNumberToken]
  obtain ⟨⟨number, len⟩, hstrtod⟩ : ∃ x, host.strtod (cString data json.ptr) = x := ⟨_, rfl⟩
  rw [hstrtod] at hread
  refine ends_get_bind ?_
  rw [hstrtod]
  dsimp only at hread ⊢
  split
  · exact ends_pure hstuck
  · next hlen =>
    refine (advance_ends hs (by omega)).bind fun _ json₁ ⟨hs₁, hptr₁, _⟩ => ?_
    have hfrom := hs.from_le
    exact ends_pure ⟨hs₁.mono (Nat.le_add_right _ _), fun _ => by omega⟩

theorem skipWhitespace_ends {fuel : ℕ} (hs : Scanning H u data.length d p json)
    (hfuel : data.length < json.ptr + fuel) :
    Ends (skipWhitespace data fuel) json
      (fun ch json' => Scanning H u data.length d p json' ∧
        (ch ≠ 0 → json'.ptr < data.length)) (Raised H u data.length) := by
  induction fuel generalizing json p with
  | zero =>
    have hle := hs.ptr_le
    omega
  | succ fuel ih =>
    rw [skipWhitespace]
    refine (peek_ends (k := 0) hs.ptr_le).bind fun ch json' ⟨hsame, hlt⟩ => ?_
    subst hsame
    split
    · next hwhite =>
      have hch : ch ≠ 0 := by
        rintro rfl
        exact absurd hwhite (by decide)
      refine (advance_ends hs (hlt hch)).bind fun _ json₁ ⟨hs₁, hptr₁, _⟩ => ?_
      exact ih (hs₁.mono (Nat.le_add_right _ _)) (by omega)
    · exact ends_pure ⟨hs, hlt⟩

theorem wordToken_ends {E : Abort → Parse → Prop} (hk : json.ptr ≤ data.length) :
    Ends (wordToken data) json (fun a json' => json = json' ∧
      ∀ x ∈ a, 0 < x.2 ∧ json.ptr + x.2 ≤ data.length) E := by
  rw [wordToken]
  refine (isNext_ends rfl (by decide) hk).bind fun isTrue json' ⟨hsame, hend⟩ => ?_
  subst hsame
  split
  · next ok =>
    refine ends_pure ⟨rfl, fun x hx => ?_⟩
    cases hx
    exact ⟨Nat.succ_pos 3, hend ok⟩
  · refine (isNext_ends rfl (by decide) hk).bind fun isFalse json' ⟨hsame, hend⟩ => ?_
    subst hsame
    split
    · next ok =>
      refine ends_pure ⟨rfl, fun x hx => ?_⟩
      cases hx
      exact ⟨Nat.succ_pos 4, hend ok⟩
    · refine (isNext_ends rfl (by decide) hk).bind fun isNull json' ⟨hsame, hend⟩ => ?_
      subst hsame
      refine ends_pure ⟨rfl, fun x hx => ?_⟩
      cases isNull with
      | true =>
        cases hx
        exact ⟨Nat.succ_pos 3, hend rfl⟩
      | false => cases hx

theorem unknownToken_ends {host : Host} {o : Options} {ch : UInt8} {index : ℕ}
    (hs : Scanning H u data.length d p json) (hk : json.ptr + 1 ≤ data.length) :
    Ends (unknownToken data host o ch index) json (MovedOn H u data.length d p)
      (Raised H u data.length) := by
  have hptr := hs.ptr_le
  have hstuck : ∀ errtype, Ends (pure (.error errtype, index)) json
      (MovedOn H u data.length d p) (Raised H u data.length) := fun _ =>
    ends_pure ⟨hs, fun hne => absurd trivial hne⟩
  rw [unknownToken]
  split
  · exact jsonNextStringToken_ends hs hk
  · split
    · split
      · exact jsonNextNumberToken_ends hs
      · refine (jsonIsInvalidNumber_ends hptr).bind fun invalid json' hsame => ?_
        subst hsame
        split
        · exact hstuck _
        · exact jsonNextNumberToken_ends hs
    · refine (wordToken_ends hptr).bind fun a json' ⟨hsame, hword⟩ => ?_
      subst hsame
      cases a with
      | some x =>
        obtain ⟨hpos, hle⟩ := hword x rfl
        refine (advance_ends hs hle).bind fun _ json₁ ⟨hs₁, hptr₁, _⟩ => ?_
        have hfrom := hs.from_le
        exact ends_pure ⟨hs₁.mono (Nat.le_add_right _ _), fun _ => by omega⟩
      | none =>
        dsimp only
        split
        · refine (jsonIsInvalidNumber_ends hptr).bind fun invalid json' hsame => ?_
          subst hsame
          split
          · exact jsonNextNumberToken_ends hs
          · exact hstuck _
        · exact hstuck _

theorem jsonNextToken_ends {host : Host} {o : Options}
    (hs : Scanning H u data.length d p json) :
    Ends (jsonNextToken data host o) json (MovedOn H u data.length d p)
      (Raised H u data.length) := by
  have hptr := hs.ptr_le
  rw [jsonNextToken]
  refine (skipWhitespace_ends hs (by omega)).bind fun ch json₁ ⟨hs₁, hlt⟩ => ?_
  refine ends_get_bind ?_
  have hfrom := hs₁.from_le
  have hread : ch2token ch ≠ .end → json₁.ptr + 1 ≤ data.length := by
    intro hne
    refine hlt ?_
    rintro rfl
    exact hne (by decide)
  generalize htype : ch2token ch = tokenType at *
  cases tokenType with
  | error => exact ends_pure ⟨hs₁, fun hne => absurd trivial hne⟩
  | «end» => exact ends_pure ⟨hs₁, fun hne => absurd trivial hne⟩
  | single t =>
    refine (advance_ends hs₁ (hread (by simp))).bind fun _ json₂ ⟨hs₂, hptr₂, _⟩ => ?_
    exact ends_pure ⟨hs₂.mono (Nat.le_succ p), fun _ => by omega⟩
  | whitespace => exact unknownToken_ends hs₁ (hread (by simp))
  | unknown => exact unknownToken_ends hs₁ (hread (by simp))

theorem jsonThrowParseError_ends {α : Type} {exp : String} {token : Token × ℕ}
    {Q : α → Parse → Prop} (hs : Scanning H u n d p json) :
    Ends (jsonThrowParseError exp token) json Q (Raised H u n) := by
  rw [jsonThrowParseError]
  exact Ends.bind (Q := fun _ json' => Closed H u n json') (ends_modify (hs.free _ _))
    fun _ _ hfreed => ends_throw hfreed

theorem jsonDecodeAscend_ends {E : Abort → Parse → Prop}
    (hs : Scanning H u n (d + 1) p json) :
    Ends jsonDecodeAscend json (fun _ json' => Scanning H u n d p json') E := by
  refine ends_modify ⟨hs.scratch, hs.held, hs.stored, ?_, hs.from_le, hs.ptr_le⟩
  change json.currentDepth - 1 = d
  rw [hs.depth, Nat.add_sub_cancel]

theorem jsonDecodeDescend_ends {host : Host} {o : Options} {levels top slots : ℕ}
    (hs : Scanning H u n d p json) (hd : d + levels = o.decodeMaxDepth) :
    Ends (jsonDecodeDescend host o top slots) json
      (fun _ json' => 0 < levels ∧ Scanning H u n (d + 1) p json')
      (Raised H u n) := by
  have hdepth := hs.depth
  rw [Ends, jsonDecodeDescend]
  split_ifs with hle
  · refine ⟨by omega, hs.scratch, hs.held, hs.stored, ?_, hs.from_le, hs.ptr_le⟩
    exact congrArg (· + 1) hdepth
  · exact hs.free _ _

theorem pushString_ends {len : ℕ} {E : Abort → Parse → Prop}
    (hs : Scanning H u n d p json) :
    Ends (pushString len) json (fun _ json' => json = json') E := by
  obtain ⟨mb, hms⟩ := hs.scratch.slice json.mem hs.held
  rw [Ends, pushString, hms]

variable {host : Host} {o : Options} {process : Token × ℕ → Dec LuaValue}

/-- A part of the parser that returns, or raises a Lua error, and never goes back. -/
def Processes (H : Mem → Prop) (u n d : ℕ)
    (process : Token × ℕ → Dec LuaValue) : Prop :=
  ∀ p json token, Scanning H u n d p json →
    Ends (process token) json (fun _ json' => Scanning H u n d p json')
      (Raised H u n)

theorem objectMember_ends (hprocess : Processes H u data.length d process)
    (hs : Scanning H u data.length d p json) :
    Ends (objectMember data host o process) json
      (fun _ json' => Scanning H u data.length d p json')
      (Raised H u data.length) := by
  rw [objectMember]
  refine (jsonNextToken_ends hs).bind fun token json₁ ⟨hs₁, _⟩ => ?_
  split
  · refine (jsonNextToken_ends hs₁).bind fun token json₂ ⟨hs₂, _⟩ => ?_
    exact hprocess p json₂ token hs₂
  · exact jsonThrowParseError_ends hs₁

theorem objectMembers_ends (hprocess : Processes H u data.length d process) {fuel : ℕ}
    {hash : List (LuaValue × LuaValue)} {token : Token × ℕ}
    (hs : Scanning H u data.length d p json) (hfuel : data.length < json.ptr + fuel) :
    Ends (objectMembers data host o process fuel hash token) json
      (fun _ json' => Scanning H u data.length d p json')
      (Raised H u data.length) := by
  induction fuel generalizing json p hash token with
  | zero =>
    have hle := hs.ptr_le
    omega
  | succ fuel ih =>
    rw [objectMembers]
    split
    · refine (pushString_ends hs).bind fun key json' hsame => ?_
      subst hsame
      refine (objectMember_ends hprocess hs.here).bind fun value json₁ hs₁ => ?_
      refine (jsonNextToken_ends hs₁).bind fun token json₂ ⟨hs₂, hmoved⟩ => ?_
      have hfrom := hs.from_le
      split
      · exact ends_pure (hs₂.mono hfrom)
      · next hcomma =>
        have hmoved := hmoved (by rw [hcomma]; exact id)
        refine (jsonNextToken_ends hs₂.here).bind fun token json₃ ⟨hs₃, _⟩ => ?_
        have hafter := hs₃.from_le
        exact ih (hs₃.mono (by omega)) (by omega)
      · exact jsonThrowParseError_ends hs₂
    · exact jsonThrowParseError_ends hs

theorem arrayElements_ends (hprocess : Processes H u data.length d process) {fuel : ℕ}
    {arr : List LuaValue} {token : Token × ℕ}
    (hs : Scanning H u data.length d p json) (hfuel : data.length < json.ptr + fuel) :
    Ends (arrayElements data host o process fuel arr token) json
      (fun _ json' => Scanning H u data.length d p json')
      (Raised H u data.length) := by
  induction fuel generalizing json p arr token with
  | zero =>
    have hle := hs.ptr_le
    omega
  | succ fuel ih =>
    rw [arrayElements]
    refine (hprocess _ json token hs.here).bind fun value json₁ hs₁ => ?_
    refine (jsonNextToken_ends hs₁).bind fun token json₂ ⟨hs₂, hmoved⟩ => ?_
    have hfrom := hs.from_le
    split
    · exact ends_pure (hs₂.mono hfrom)
    · next hcomma =>
      have hmoved := hmoved (by rw [hcomma]; exact id)
      refine (jsonNextToken_ends hs₂.here).bind fun token json₃ ⟨hs₃, _⟩ => ?_
      have hafter := hs₃.from_le
      exact ih (hs₃.mono (by omega)) (by omega)
    · exact jsonThrowParseError_ends hs₂

theorem jsonParseObjectContext_ends {index : ℕ}
    (hprocess : Processes H u data.length (d + 1) process)
    (hs : Scanning H u data.length (d + 1) p json) :
    Ends (jsonParseObjectContext data host o process index) json
      (fun _ json' => Scanning H u data.length d p json')
      (Raised H u data.length) := by
  rw [jsonParseObjectContext]
  refine (jsonNextToken_ends hs).bind fun token json₁ ⟨hs₁, _⟩ => ?_
  split
  · exact (jsonDecodeAscend_ends hs₁).bind fun _ json₂ hs₂ => ends_pure hs₂
  · have hptr := hs₁.ptr_le
    refine (objectMembers_ends hprocess hs₁ (by omega)).bind fun hash json₂ hs₂ => ?_
    exact (jsonDecodeAscend_ends hs₂).bind fun _ json₃ hs₃ => ends_pure hs₃

theorem jsonParseArrayContext_ends {index : ℕ}
    (hprocess : Processes H u data.length (d + 1) process)
    (hs : Scanning H u data.length (d + 1) p json) :
    Ends (jsonParseArrayContext data host o process index) json
      (fun _ json' => Scanning H u data.length d p json')
      (Raised H u data.length) := by
  rw [jsonParseArrayContext]
  refine (jsonNextToken_ends hs).bind fun token json₁ ⟨hs₁, _⟩ => ?_
  split
  · exact (jsonDecodeAscend_ends hs₁).bind fun _ json₂ hs₂ => ends_pure hs₂
  · have hptr := hs₁.ptr_le
    refine (arrayElements_ends hprocess hs₁ (by omega)).bind fun arr json₂ hs₂ => ?_
    exact (jsonDecodeAscend_ends hs₂).bind fun _ json₃ hs₃ => ends_pure hs₃

/-- The induction is on the levels left; the depth and they make up `decode_max_depth`. -/
theorem jsonProcessValue_ends {levels top : ℕ} (hd : d + levels = o.decodeMaxDepth) :
    Processes H u data.length d (jsonProcessValue data host o levels top) := by
  induction levels generalizing d top with
  | zero =>
    intro p json token hs
    rw [jsonProcessValue.eq_def]
    split
    · exact (pushString_ends hs).bind fun s json' hsame => ends_pure (hsame ▸ hs)
    · exact ends_pure hs
    · exact ends_pure hs
    · exact ends_pure hs
    · exact (jsonDecodeDescend_ends hs hd).bind fun _ json₁ hs₁ => absurd hs₁.1 (Nat.lt_irrefl 0)
    · exact (jsonDecodeDescend_ends hs hd).bind fun _ json₁ hs₁ => absurd hs₁.1 (Nat.lt_irrefl 0)
    · exact jsonThrowParseError_ends hs
  | succ levels ih =>
    have hprocess : ∀ top, Processes H u data.length (d + 1)
        (jsonProcessValue data host o levels top) := fun top => ih (by omega)
    intro p json token hs
    rw [jsonProcessValue.eq_def]
    split
    · exact (pushString_ends hs).bind fun s json' hsame => ends_pure (hsame ▸ hs)
    · exact ends_pure hs
    · exact ends_pure hs
    · exact ends_pure hs
    · exact (jsonDecodeDescend_ends hs hd).bind fun _ json₁ hs₁ =>
        jsonParseObjectContext_ends (hprocess _) hs₁.2
    · exact (jsonDecodeDescend_ends hs hd).bind fun _ json₁ hs₁ =>
        jsonParseArrayContext_ends (hprocess _) hs₁.2
    · exact jsonThrowParseError_ends hs

theorem decodeText_ends (hs : Scanning H u data.length 0 p json) :
    Ends (decodeText data host o) json (fun _ json' => Closed H u data.length json')
      (Raised H u data.length) := by
  rw [decodeText]
  refine (jsonNextToken_ends hs).bind fun token json₁ ⟨hs₁, _⟩ => ?_
  refine (jsonProcessValue_ends (Nat.zero_add _) p json₁ token hs₁).bind fun value json₂ hs₂ => ?_
  refine (jsonNextToken_ends hs₂).bind fun token json₃ ⟨hs₃, _⟩ => ?_
  split
  · exact Ends.bind (Q := fun _ json' => Closed H u data.length json')
      (ends_modify (hs₃.free _ _)) fun _ json₄ hs₄ => ends_pure hs₄
  · exact jsonThrowParseError_ends hs₃

end

/-- The state the parser is left in, whichever way it ends. -/
def finalState {α : Type} : EStateM.Result Abort Parse α → Parse
  | .ok _ json => json
  | .error _ json => json

/-- The capacity of the scratch buffer for a text of `n` bytes. -/
def scratchCapacity (n : ℕ) : ℕ := if n = 0 then strbufDefaultSize else n + 1

theorem initSize_scratch {n : ℕ} (hn : n < 2 ^ 31) :
    initSize (toInt n) = scratchCapacity n := by
  rw [initSize, toInt_of_lt hn, scratchCapacity]
  rcases Nat.eq_zero_or_pos n with rfl | hpos
  · rw [if_pos (by omega), if_pos rfl]
    exact toSizeT_natCast (by rw [strbufDefaultSize]; omega)
  · rw [if_neg (by omega), if_neg (by omega)]
    exact toSizeT_natCast (n := n + 1) (by omega)

theorem lt_scratchCapacity (n : ℕ) : n < scratchCapacity n := by
  rw [scratchCapacity]
  split
  · next h => rw [h, strbufDefaultSize]; omega
  · exact Nat.lt_succ_self n

theorem strbufInit_scratch {h : Heap} {len : ℤ} {mem : Mem} (n : ℕ)
    (hinit : strbufInit h len = some mem) :
    ∃ mb, mem.buf.ms = some ⟨mb, 0, initSize len⟩ ∧ Stored (initSize len) n mem.log := by
  obtain ⟨⟨b, h₀⟩, -, rfl⟩ : ∃ x, levSlabGetBlock h (initSize len) = some x ∧
      (⟨(levSlabIncRef x.2 x.1).store x.1 0 [0], ⟨some ⟨x.1, 0, initSize len⟩, 0⟩,
        [⟨0, 1, initSize len⟩]⟩ : Mem) = mem := Option.map_eq_some_iff.mp hinit
  refine ⟨b, rfl, fun a ha => ?_⟩
  cases List.mem_singleton.mp ha
  exact ⟨rfl, Nat.le_add_left 1 n⟩

variable {data : List UInt8} (host : Host) (o : Options)

theorem decodeText_spec {mem : Mem} (hH : Scratch u data.length H) (hmem : H mem)
    (hstored : Stored u data.length mem.log) :
    Closed H u data.length (finalState (decodeText data host o ⟨mem, 0, 0⟩)) ∧
      ∀ s, ∀ json, decodeText data host o ⟨mem, 0, 0⟩ ≠ .error (.stop s) json := by
  have hs : Scanning H u data.length 0 0 ⟨mem, 0, 0⟩ :=
    ⟨hH, hmem, hstored, rfl, le_rfl, Nat.zero_le _⟩
  have hends : Ends (decodeText data host o) ⟨mem, 0, 0⟩ _ _ := decodeText_ends hs
  cases hrun : decodeText data host o ⟨mem, 0, 0⟩ with
  | ok value json => exact ⟨hends.ok hrun, fun s json' hstop => by cases hstop⟩
  | error e json =>
    have hraised := hends.error hrun
    cases e with
    | stop s => exact hraised.elim
    | error msg => exact ⟨hraised, fun s json' hstop => by cases hstop⟩

/-- A call that is not refused at once, and has its buffer, returns in the memory the parser
leaves. -/
theorem jsonDecode_spec {h : Heap} {mem : Mem}
    (hutf : ¬ (2 ≤ data.length ∧ (data.getD 0 0 = 0 ∨ data.getD 1 0 = 0)))
    (hinit : strbufInit h (toInt data.length) = some mem)
    (hH : Scratch (initSize (toInt data.length)) data.length H) (hmem : H mem) :
    ∃ ending, jsonDecode data host o h =
        .ok (ending, (finalState (decodeText data host o ⟨mem, 0, 0⟩)).mem.heap) ∧
      Closed H (initSize (toInt data.length)) data.length
        (finalState (decodeText data host o ⟨mem, 0, 0⟩)) := by
  obtain ⟨mb, -, hstored⟩ := strbufInit_scratch data.length hinit
  obtain ⟨hclosed, hstop⟩ := decodeText_spec host o hH hmem hstored
  rw [jsonDecode, if_neg hutf, hinit]
  dsimp only
  cases hrun : decodeText data host o ⟨mem, 0, 0⟩ with
  | ok value json =>
    rw [hrun] at hclosed
    exact ⟨_, rfl, hclosed⟩
  | error e json =>
    rw [hrun] at hclosed
    cases e with
    | stop s => exact absurd hrun (hstop s json)
    | error msg => exact ⟨_, rfl, hclosed⟩

/-- `json_decode` returns, whatever the text, and its scratch buffer takes all it stores. -/
theorem jsonDecode_safe (data : List UInt8) (host : Host) (o : Options) (h : Heap)
    (hn : data.length < 2 ^ 20) :
    (∃ ending h', jsonDecode data host o h = .ok (ending, h')) ∧
      ∃ mem mb, strbufInit h (toInt data.length) = some mem ∧
        mem.buf.ms = some ⟨mb, 0, scratchCapacity data.length⟩ ∧
        ∀ a ∈ (finalState (decodeText data host o ⟨mem, 0, 0⟩)).mem.log,
          a.index + a.len ≤ scratchCapacity data.length ∧ a.Inside := by
  have hcapacity := initSize_scratch (n := data.length) (by omega)
  have hlt := lt_scratchCapacity data.length
  have hsize : initSize (toInt data.length) ≤ 2 ^ 20 := by
    rw [hcapacity, scratchCapacity, strbufDefaultSize]
    split
    all_goals omega
  obtain ⟨mem, hinit⟩ : ∃ mem, strbufInit h (toInt data.length) = some mem := by
    rw [← Option.isSome_iff_exists, Option.isSome_iff_ne_none, ne_eq]
    change ¬ Option.map _ (levSlabGetBlock h (initSize (toInt data.length))) = none
    rw [Option.map_eq_none_iff, levSlabGetBlock_eq_none]
    omega
  obtain ⟨mb, hms, hstored⟩ := strbufInit_scratch data.length hinit
  have hscratch : Scratch (initSize (toInt data.length)) data.length
      fun m => ∃ mb, m.buf.ms = some ⟨mb, 0, initSize (toInt data.length)⟩ :=
    ⟨fun m hm => hm, fun m mb off c l log hm _ _ => hm, fun m l hm => hm⟩
  refine ⟨?_, mem, mb, hinit, hcapacity ▸ hms, fun a ha => ?_⟩
  · by_cases hutf : 2 ≤ data.length ∧ (data.getD 0 0 = 0 ∨ data.getD 1 0 = 0)
    · exact ⟨_, _, if_pos hutf⟩
    · obtain ⟨ending, hdecode, -⟩ := jsonDecode_spec host o hutf hinit hscratch
        ⟨mb, hms⟩
      exact ⟨ending, _, hdecode⟩
  · obtain ⟨hclosed, -⟩ := decodeText_spec host o hscratch ⟨mb, hms⟩ hstored
    obtain ⟨huntil, hle⟩ := hclosed.stored a ha
    rw [hcapacity] at huntil
    refine ⟨by omega, ?_⟩
    rw [Access.Inside, huntil]
    omega

/-- The text ends in the middle of a surrogate pair. -/
theorem jsonDecode_safe_surrogate :
    (∃ ending h', jsonDecode (ascii "[\"\\ud83d\\u") zeroHost Options.default
        (levSlabFill (Heap.boot fun _ _ => 0)) = .ok (ending, h')) ∧
      ∃ mem mb, strbufInit (levSlabFill (Heap.boot fun _ _ => 0)) (toInt 10) = some mem ∧
        mem.buf.ms = some ⟨mb, 0, 11⟩ ∧
        ∀ a ∈ (finalState (decodeText (ascii "[\"\\ud83d\\u") zeroHost Options.default
          ⟨mem, 0, 0⟩)).mem.log, a.index + a.len ≤ 11 ∧ a.Inside :=
  jsonDecode_safe (ascii "[\"\\ud83d\\u") zeroHost Options.default
    (levSlabFill (Heap.boot fun _ _ => 0)) (by decide)

end Lev.Json
