import Lev.JsonFollows
import Lev.JsonScratch

/-! The decoder takes a text just where the parser on lists of bytes takes what it has before
its first NUL; so it is not JSON alone that it takes. -/
namespace Lev.Json
open CInt Memory Lua Slab Effect

variable {data s : List UInt8} {d k l n : ℕ} {json : Parse} {host : Host} {o : Options}
  {token : Token × ℕ} {a : Option (Lexeme × List UInt8)}

section tokens
variable {t t₀ : Token} {x x₀ : Lexeme}

theorem Token.Is.eq_iff (ht : t.Is x) (h₀ : t₀.lexeme = some x₀) : t = t₀ ↔ x = x₀ := by
  cases ht with
  | single h =>
    constructor
    · rintro rfl
      exact Option.some.inj (h.symm.trans h₀)
    · rintro rfl
      cases t <;> cases h <;> cases t₀ <;> cases h₀ <;> rfl
  | string | number | boolean | null | «end» =>
    constructor
    · rintro rfl
      cases h₀
    · rintro rfl
      cases t₀ <;> cases h₀

theorem Token.Is.string_iff (ht : t.Is x) : (∃ len, t = .string len) ↔ x = .string := by
  cases ht with
  | single h => cases t <;> cases h <;> simp
  | string | number | boolean | null | «end» => simp

theorem Token.Is.end_iff (ht : t.Is x) : t = .end ↔ x = .end := by
  cases ht with
  | single h => cases t <;> cases h <;> simp
  | string | number | boolean | null | «end» => simp

theorem Lexed.eq (ha : Lexed data d a token json) (ht : token.1 = t₀) (h₀ : t₀.lexeme = some x₀) :
    ∃ r, a = some (x₀, r) ∧ Facing data d r json := by
  cases a with
  | none =>
    obtain ⟨errtype, herr⟩ := ha
    cases ht.symm.trans herr
    cases h₀
  | some x =>
    obtain ⟨his, hf⟩ := ha
    exact ⟨x.2, congrArg some (Prod.ext ((his.eq_iff h₀).mp ht) rfl), hf⟩

theorem Lexed.ne (ha : Lexed data d a token json) (ht : token.1 ≠ t₀) (h₀ : t₀.lexeme = some x₀) :
    ∀ x, a = some x → x.1 ≠ x₀ := by
  rintro x rfl hx
  exact ht ((ha.1.eq_iff h₀).mpr hx)

theorem Lexed.string {len : ℕ} (ha : Lexed data d a token json) (ht : token.1 = .string len) :
    ∃ r, a = some (.string, r) ∧ Facing data d r json := by
  cases a with
  | none =>
    obtain ⟨errtype, herr⟩ := ha
    cases ht.symm.trans herr
  | some x =>
    obtain ⟨his, hf⟩ := ha
    exact ⟨x.2, congrArg some (Prod.ext (his.string_iff.mp ⟨len, ht⟩) rfl), hf⟩

theorem Lexed.ne_string (ha : Lexed data d a token json) (ht : ∀ len, token.1 ≠ .string len) :
    ∀ x, a = some x → x.1 ≠ .string := by
  rintro x rfl hx
  obtain ⟨len, hlen⟩ := ha.1.string_iff.mpr hx
  exact ht len hlen

end tokens

section parser

/-- The program comes to the end of what the parser on lists of bytes read. -/
def Returns {α : Type} (data : List UInt8) (d : ℕ) (p : Reading) (_ : α) (json : Parse) : Prop :=
  ∃ v, p = some v ∧ Facing data d v.2 json

/-- The two read values alike, whatever token comes first. -/
def Alike (data : List UInt8) (d : ℕ) (value : Lexeme → List UInt8 → Reading)
    (process : Token × ℕ → Dec LuaValue) : Prop :=
  ∀ {json token a}, Lexed data d a token json →
    Ends (process token) json (Returns data d (a.bind fun x => value x.1 x.2))
      (Refuses (a.bind fun x => value x.1 x.2))

variable {α β γ : Type} {p : Option β} {value : Lexeme → List UInt8 → Reading}
  {process : Token × ℕ → Dec LuaValue} {index fuel : ℕ}

theorem Refuses.bind {f : β → Option γ} {e : Abort} (h : Refuses p e json) :
    Refuses (p.bind f) e json := by
  cases e with
  | error msg =>
    change p = none at h
    change p.bind f = none
    rw [h, Option.bind_none]
  | stop s => trivial

theorem ends_prepend {c : Dec α} {f : Lexeme × List UInt8 → Reading} (ns : List (List UInt8))
    (hc : Ends c json (Returns data d (a.bind f)) (Refuses (a.bind f))) :
    Ends c json (Returns data d (a.bind fun x => (f x).map fun u => (ns ++ u.1, u.2)))
      (Refuses (a.bind fun x => (f x).map fun u => (ns ++ u.1, u.2))) := by
  have hmap : (a.bind fun x => (f x).map fun u => (ns ++ u.1, u.2)) =
      (a.bind f).map fun u => (ns ++ u.1, u.2) := (Option.map_bind).symm
  have hreturns : ∀ (v : α) json', Returns data d (a.bind f) v json' →
      Returns data d ((a.bind f).map fun u => (ns ++ u.1, u.2)) v json' := by
    rintro v json' ⟨u, hu, hf⟩
    exact ⟨_, congrArg (Option.map _) hu, hf⟩
  have hrefuses : ∀ e json', Refuses (a.bind f) e json' →
      Refuses ((a.bind f).map fun u => (ns ++ u.1, u.2)) e json' := by
    intro e json' he
    cases e with
    | error msg => exact congrArg (Option.map _) he
    | stop s => trivial
  rw [hmap]
  exact (hc.mono hreturns).mono_error hrefuses

theorem jsonThrowParseError_faces {exp : String} {Q : α → Parse → Prop} (hp : p = none) :
    Ends (jsonThrowParseError exp token) json Q (Refuses p) := by
  rw [jsonThrowParseError]
  exact Ends.bind (Q := fun _ _ => True) (ends_modify trivial) fun _ _ _ => ends_throw hp

theorem pushString_faces {len : ℕ} :
    Ends (pushString len) json (fun _ json' => json = json') (Refuses p) := by
  rw [Ends, pushString]
  cases json.mem.buf.ms with
  | none => trivial
  | some ms => rfl

theorem jsonDecodeAscend_faces {E : Abort → Parse → Prop} (hf : Facing data (d + 1) s json) :
    Ends jsonDecodeAscend json (fun _ json' => Facing data d s json') E := by
  refine ends_modify ⟨hf.text, hf.noNul, ?_⟩
  change json.currentDepth - 1 = d
  rw [hf.depth, Nat.add_sub_cancel]

/-- Where the level is one too many, or the stack too high, nothing is read. -/
theorem jsonDecodeDescend_faces {levels top slots : ℕ} (hf : Facing data d s json)
    (hd : d + levels = o.decodeMaxDepth)
    (hp : levels = 0 ∨ host.maxCStack - top < slots → p = none) (hslots : 0 < slots) :
    Ends (jsonDecodeDescend host o top slots) json
      (fun _ json' => 0 < levels ∧ slots ≤ host.maxCStack - top ∧ Facing data (d + 1) s json')
      (Refuses p) := by
  have hdepth := hf.depth
  have hcheck : host.checkstack top slots = true ↔ slots ≤ host.maxCStack - top :=
    host.checkstack_iff hslots
  rw [Ends, jsonDecodeDescend]
  split_ifs with hle
  · exact ⟨by omega, hcheck.mp hle.2, hf.text, hf.noNul, congrArg (· + 1) hdepth⟩
  · rw [hcheck] at hle
    exact hp (by omega)

theorem objectMember_faces (hopt : o.decodeInvalidNumbers = false)
    (hvalue : Alike data d value process) (hf : Facing data d s json) :
    Ends (objectMember data host o process) json
      (Returns data d (readMember host (data.length + 1) value s))
      (Refuses (readMember host (data.length + 1) value s)) := by
  rw [objectMember, readMember]
  refine (jsonNextToken_faces hopt hf).bind fun token json₁ ha => ?_
  split
  · next hcolon =>
    obtain ⟨r, hr, hf₁⟩ := ha.eq hcolon rfl
    rw [hr, Option.bind_some, if_pos rfl]
    exact (jsonNextToken_faces hopt hf₁).bind fun token json₂ ha₂ => hvalue ha₂
  · next hcolon =>
    have hne := ha.ne hcolon rfl
    exact jsonThrowParseError_faces
      (Option.bind_eq_none_iff.mpr fun x hx => if_neg (hne x hx))

theorem objectMembers_faces (hopt : o.decodeInvalidNumbers = false)
    (hvalue : Alike data d value process) {hash : List (LuaValue × LuaValue)}
    (ha : Lexed data d a token json) :
    Ends (objectMembers data host o process fuel hash token) json
      (Returns data d (a.bind fun x => readMembers host (data.length + 1) value fuel x.1 x.2))
      (Refuses (a.bind fun x => readMembers host (data.length + 1) value fuel x.1 x.2)) := by
  induction fuel generalizing json token a hash with
  | zero => exact ends_throw trivial
  | succ fuel ih =>
    rw [objectMembers]
    split
    · next len hstring =>
      obtain ⟨s, hs, hf⟩ := ha.string hstring
      rw [hs, Option.bind_some, readMembers, if_pos rfl]
      refine pushString_faces.bind fun key json' hsame => ?_
      subst hsame
      refine ((objectMember_faces hopt hvalue hf).mono_error fun e _ he => he.bind).bind ?_
      rintro v json₁ ⟨w, hw, hf₁⟩
      rw [hw, Option.bind_some]
      refine (jsonNextToken_faces hopt hf₁).bind fun token json₂ ha₂ => ?_
      split
      · next hend =>
        obtain ⟨r, hr, hf₂⟩ := ha₂.eq hend rfl
        rw [hr, Option.bind_some, if_pos rfl]
        exact ends_pure ⟨_, rfl, hf₂⟩
      · next hcomma =>
        obtain ⟨r, hr, hf₂⟩ := ha₂.eq hcomma rfl
        rw [hr, Option.bind_some, if_neg (show ¬ Lexeme.comma = .objEnd by decide), if_pos rfl]
        refine (jsonNextToken_faces hopt hf₂).bind fun token json₃ ha₃ => ?_
        exact ends_prepend w.1 (ih ha₃)
      · next hend hcomma =>
        have hne := ha₂.ne hend rfl
        have hne' := ha₂.ne hcomma rfl
        exact jsonThrowParseError_faces (Option.bind_eq_none_iff.mpr fun x hx => by
          rw [if_neg (hne x hx), if_neg (hne' x hx)])
    · next hstring =>
      have hne := ha.ne_string hstring
      exact jsonThrowParseError_faces
        (Option.bind_eq_none_iff.mpr fun x hx => if_neg (hne x hx))

theorem arrayElements_faces (hopt : o.decodeInvalidNumbers = false)
    (hvalue : Alike data d value process) {arr : List LuaValue}
    (ha : Lexed data d a token json) :
    Ends (arrayElements data host o process fuel arr token) json
      (Returns data d (a.bind fun x => readElements host (data.length + 1) value fuel x.1 x.2))
      (Refuses (a.bind fun x => readElements host (data.length + 1) value fuel x.1 x.2)) := by
  induction fuel generalizing json token a arr with
  | zero => exact ends_throw trivial
  | succ fuel ih =>
    have hassoc : (a.bind fun x => readElements host (data.length + 1) value (fuel + 1) x.1 x.2) =
        (a.bind fun x => value x.1 x.2).bind fun v => _ := (Option.bind_assoc _ _ _).symm
    rw [arrayElements, hassoc]
    refine ((hvalue ha).mono_error fun e _ he => he.bind).bind ?_
    rintro v json₁ ⟨w, hw, hf₁⟩
    rw [hw, Option.bind_some]
    refine (jsonNextToken_faces hopt hf₁).bind fun token json₂ ha₂ => ?_
    split
    · next hend =>
      obtain ⟨r, hr, hf₂⟩ := ha₂.eq hend rfl
      rw [hr, Option.bind_some, if_pos rfl]
      exact ends_pure ⟨_, rfl, hf₂⟩
    · next hcomma =>
      obtain ⟨r, hr, hf₂⟩ := ha₂.eq hcomma rfl
      rw [hr, Option.bind_some, if_neg (show ¬ Lexeme.comma = .arrEnd by decide), if_pos rfl]
      refine (jsonNextToken_faces hopt hf₂).bind fun token json₃ ha₃ => ?_
      exact ends_prepend w.1 (ih ha₃)
    · next hend hcomma =>
      have hne := ha₂.ne hend rfl
      have hne' := ha₂.ne hcomma rfl
      exact jsonThrowParseError_faces (Option.bind_eq_none_iff.mpr fun x hx => by
        rw [if_neg (hne x hx), if_neg (hne' x hx)])

theorem jsonParseObjectContext_faces (hopt : o.decodeInvalidNumbers = false)
    (hvalue : Alike data (d + 1) value process) (hf : Facing data (d + 1) s json) :
    Ends (jsonParseObjectContext data host o process index) json
      (Returns data d (readObject host (data.length + 1) value s))
      (Refuses (readObject host (data.length + 1) value s)) := by
  rw [jsonParseObjectContext, readObject]
  refine (jsonNextToken_faces hopt hf).bind fun token json₁ ha => ?_
  split
  · next hend =>
    obtain ⟨r, hr, hf₁⟩ := ha.eq hend rfl
    rw [hr, Option.bind_some, if_pos rfl]
    exact (jsonDecodeAscend_faces hf₁).bind fun _ json₂ hf₂ => ends_pure ⟨_, rfl, hf₂⟩
  · next hend =>
    have hne := ha.ne hend rfl
    have hmembers : readObject host (data.length + 1) value s =
        (lex host (data.length + 1) s).bind fun y =>
          readMembers host (data.length + 1) value (data.length + 1) y.1 y.2 :=
      Option.bind_congr fun x hx => if_neg (hne x hx)
    rw [readObject] at hmembers
    rw [hmembers]
    refine (objectMembers_faces hopt hvalue ha).bind ?_
    rintro hash json₂ ⟨v, hv, hf₂⟩
    exact (jsonDecodeAscend_faces hf₂).bind fun _ json₃ hf₃ => ends_pure ⟨v, hv, hf₃⟩

theorem jsonParseArrayContext_faces (hopt : o.decodeInvalidNumbers = false)
    (hvalue : Alike data (d + 1) value process) (hf : Facing data (d + 1) s json) :
    Ends (jsonParseArrayContext data host o process index) json
      (Returns data d (readArray host (data.length + 1) value s))
      (Refuses (readArray host (data.length + 1) value s)) := by
  rw [jsonParseArrayContext, readArray]
  refine (jsonNextToken_faces hopt hf).bind fun token json₁ ha => ?_
  split
  · next hend =>
    obtain ⟨r, hr, hf₁⟩ := ha.eq hend rfl
    rw [hr, Option.bind_some, if_pos rfl]
    exact (jsonDecodeAscend_faces hf₁).bind fun _ json₂ hf₂ => ends_pure ⟨_, rfl, hf₂⟩
  · next hend =>
    have hne := ha.ne hend rfl
    have helements : readArray host (data.length + 1) value s =
        (lex host (data.length + 1) s).bind fun y =>
          readElements host (data.length + 1) value (data.length + 1) y.1 y.2 :=
      Option.bind_congr fun x hx => if_neg (hne x hx)
    rw [readArray] at helements
    rw [helements]
    refine (arrayElements_faces hopt hvalue ha).bind ?_
    rintro arr json₂ ⟨v, hv, hf₂⟩
    exact (jsonDecodeAscend_faces hf₂).bind fun _ json₃ hf₃ => ends_pure ⟨v, hv, hf₃⟩

theorem jsonProcessValue_atom {levels top : ℕ} (ha : Lexed data d a token json)
    (hobj : token.1 ≠ .objBegin) (harr : token.1 ≠ .arrBegin) :
    Ends (jsonProcessValue data host o levels top token) json
      (Returns data d (a.bind fun x => readValue host n levels k x.1 x.2))
      (Refuses (a.bind fun x => readValue host n levels k x.1 x.2)) := by
  obtain ⟨t, index⟩ := token
  rw [jsonProcessValue.eq_def]
  cases a with
  | none =>
    obtain ⟨errtype, herr⟩ := ha
    cases herr
    exact jsonThrowParseError_faces rfl
  | some x =>
    obtain ⟨x, r⟩ := x
    obtain ⟨his, hf⟩ := ha
    rw [Option.bind_some]
    cases his with
    | string =>
      refine pushString_faces.bind fun key json' hsame => ends_pure ?_
      exact ⟨_, by rw [readValue], hsame ▸ hf⟩
    | number => exact ends_pure ⟨_, by rw [readValue], hf⟩
    | boolean => exact ends_pure ⟨_, by rw [readValue], hf⟩
    | null => exact ends_pure ⟨_, by rw [readValue], hf⟩
    | «end» => exact jsonThrowParseError_faces (by cases levels <;> rfl)
    | single h =>
      cases t with
      | objBegin => exact absurd rfl hobj
      | arrBegin => exact absurd rfl harr
      | objEnd | arrEnd | colon | comma =>
        cases h
        exact jsonThrowParseError_faces (by cases levels <;> rfl)
      | string | number | boolean | null | «end» | error => cases h

/-- The induction is on the levels left; the depth and they make up `decode_max_depth`. -/
theorem jsonProcessValue_faces (hopt : o.decodeInvalidNumbers = false) {levels top : ℕ}
    (hd : d + levels = o.decodeMaxDepth) :
    Alike data d (readValue host (data.length + 1) levels (host.maxCStack - top))
      (jsonProcessValue data host o levels top) := by
  induction levels generalizing d top with
  | zero =>
    intro json token a ha
    by_cases hobj : token.1 = .objBegin
    · obtain ⟨r, rfl, hf⟩ := ha.eq hobj rfl
      rw [jsonProcessValue.eq_def, hobj]
      exact (jsonDecodeDescend_faces hf hd (fun _ => rfl) (by decide)).bind fun _ json₁ hf₁ =>
        absurd hf₁.1 (Nat.lt_irrefl 0)
    by_cases harr : token.1 = .arrBegin
    · obtain ⟨r, rfl, hf⟩ := ha.eq harr rfl
      rw [jsonProcessValue.eq_def, harr]
      exact (jsonDecodeDescend_faces hf hd (fun _ => rfl) (by decide)).bind fun _ json₁ hf₁ =>
        absurd hf₁.1 (Nat.lt_irrefl 0)
    exact jsonProcessValue_atom ha hobj harr
  | succ levels ih =>
    have hvalue : ∀ slots, Alike data (d + 1)
        (readValue host (data.length + 1) levels (host.maxCStack - top - slots))
        (jsonProcessValue data host o levels (top + slots)) := by
      intro slots
      rw [Nat.sub_sub]
      exact ih (by omega)
    intro json token a ha
    by_cases hobj : token.1 = .objBegin
    · obtain ⟨r, rfl, hf⟩ := ha.eq hobj rfl
      have hnone : levels + 1 = 0 ∨ host.maxCStack - top < 3 → readValue host (data.length + 1)
          (levels + 1) (host.maxCStack - top) .objBegin r = none := by
        rintro (h | h)
        · cases h
        · exact if_neg (Nat.not_le_of_lt h)
      rw [jsonProcessValue.eq_def, hobj]
      refine (jsonDecodeDescend_faces hf hd hnone (by decide)).bind fun _ json₁ hf₁ => ?_
      rw [Option.bind_some, readValue, if_pos hf₁.2.1]
      exact jsonParseObjectContext_faces hopt (hvalue 2) hf₁.2.2
    by_cases harr : token.1 = .arrBegin
    · obtain ⟨r, rfl, hf⟩ := ha.eq harr rfl
      have hnone : levels + 1 = 0 ∨ host.maxCStack - top < 2 → readValue host (data.length + 1)
          (levels + 1) (host.maxCStack - top) .arrBegin r = none := by
        rintro (h | h)
        · cases h
        · exact if_neg (Nat.not_le_of_lt h)
      rw [jsonProcessValue.eq_def, harr]
      refine (jsonDecodeDescend_faces hf hd hnone (by decide)).bind fun _ json₁ hf₁ => ?_
      rw [Option.bind_some, readValue, if_pos hf₁.2.1]
      exact jsonParseArrayContext_faces hopt (hvalue 1) hf₁.2.2
    exact jsonProcessValue_atom ha hobj harr

def Host.freeSlots (host : Host) : ℕ := host.maxCStack - 1

theorem decodeText_faces (hopt : o.decodeInvalidNumbers = false) (hf : Facing data 0 s json) :
    Ends (decodeText data host o) json
      (fun _ _ => ∃ ns, readText host (data.length + 1) o.decodeMaxDepth host.freeSlots s = some ns)
      (Refuses (readText host (data.length + 1) o.decodeMaxDepth host.freeSlots s)) := by
  rw [Host.freeSlots]
  have hassoc : readText host (data.length + 1) o.decodeMaxDepth (host.maxCStack - 1) s =
      ((lex host (data.length + 1) s).bind fun x =>
        readValue host (data.length + 1) o.decodeMaxDepth (host.maxCStack - 1) x.1 x.2).bind
          fun v => _ :=
    (Option.bind_assoc _ _ _).symm
  rw [decodeText, hassoc]
  refine (jsonNextToken_faces hopt hf).bind fun token json₁ ha => ?_
  refine ((jsonProcessValue_faces hopt (Nat.zero_add _) ha).mono_error
    fun e _ he => he.bind).bind ?_
  rintro value json₂ ⟨v, hv, hf₂⟩
  rw [hv, Option.bind_some]
  refine (jsonNextToken_faces hopt hf₂).bind fun token json₃ ha₃ => ?_
  cases hlex : lex host (data.length + 1) v.2 with
  | none =>
    rw [hlex] at ha₃
    obtain ⟨errtype, herr⟩ := ha₃
    rw [if_neg (by rw [herr]; exact Token.noConfusion)]
    exact jsonThrowParseError_faces rfl
  | some y =>
    rw [hlex] at ha₃
    obtain ⟨his, hf₃⟩ := ha₃
    rw [Option.bind_some]
    split
    · next hend =>
      rw [if_pos (his.end_iff.mp hend)]
      exact Ends.bind (Q := fun _ _ => True) (ends_modify trivial) fun _ _ _ => ends_pure ⟨v.1, rfl⟩
    · next hend => exact jsonThrowParseError_faces (if_neg fun h => hend (his.end_iff.mpr h))

end parser

section accepts

theorem facing_start (mem : Mem) : Facing data 0 (cString data 0) ⟨mem, 0, 0⟩ := by
  have htext : ∀ s : List UInt8, ∃ u, s ++ [0] = s.takeWhile (· ≠ 0) ++ 0 :: u := by
    intro s
    induction s with
    | nil => exact ⟨[], rfl⟩
    | cons c s ih =>
      obtain ⟨u, hu⟩ := ih
      by_cases hc : c = 0
      · subst hc
        exact ⟨s ++ [0], rfl⟩
      · refine ⟨u, ?_⟩
        rw [List.takeWhile_cons_of_pos (p := fun c => decide (c ≠ 0)) (decide_eq_true hc),
          List.cons_append, hu]
        rfl
  refine ⟨htext data, fun h0 => ?_, rfl⟩
  have hne := List.mem_takeWhile_imp h0
  exact absurd rfl (of_decide_eq_true hne)

/-- What the decoder takes: its numbers may lack digits at the point, and what follows a NUL is
not looked at, unless the text is refused as UTF-16. -/
theorem jsonDecode_iff (hhost : host.ReadsLongest) (hopt : o.decodeInvalidNumbers = false)
    (hn : data.length < 2 ^ 20) (h : Heap) :
    (∃ v h', jsonDecode data host o h = .ok (.value v, h')) ↔
      ¬ (2 ≤ data.length ∧ (data.getD 0 0 = 0 ∨ data.getD 1 0 = 0)) ∧
        ∃ ns, IsText IsLax o.decodeMaxDepth host.freeSlots (cString data 0) ns := by
  obtain ⟨⟨ending, h₁, hreturns⟩, mem, -, hinit, -⟩ := jsonDecode_safe data host o h hn
  have hlength : (cString data 0).length < data.length + 1 :=
    Nat.lt_succ_of_le ((cString_length data 0).trans (Nat.sub_le _ _))
  by_cases hutf : 2 ≤ data.length ∧ (data.getD 0 0 = 0 ∨ data.getD 1 0 = 0)
  · refine iff_of_false ?_ fun h => h.1 hutf
    rintro ⟨v, h', hvalue⟩
    rw [jsonDecode, if_pos hutf] at hvalue
    cases hvalue
  · have hread : Ends (decodeText data host o) ⟨mem, 0, 0⟩ _ _ :=
      decodeText_faces hopt (facing_start mem)
    have htext : ∀ ns,
        readText host (data.length + 1) o.decodeMaxDepth host.freeSlots (cString data 0) = some ns ↔
          IsText IsLax o.decodeMaxDepth host.freeSlots (cString data 0) ns :=
      fun ns => readText_iff hhost hlength
    rw [jsonDecode, if_neg hutf, hinit] at hreturns ⊢
    dsimp only at hreturns ⊢
    cases hrun : decodeText data host o ⟨mem, 0, 0⟩ with
    | ok value json =>
      obtain ⟨ns, hns⟩ := hread.ok hrun
      exact iff_of_true ⟨value, _, rfl⟩ ⟨hutf, ns, (htext ns).mp hns⟩
    | error e json =>
      rw [hrun] at hreturns
      cases e with
      | stop s => cases hreturns
      | error msg =>
        have hnone : readText host (data.length + 1) o.decodeMaxDepth host.freeSlots
            (cString data 0) = none := hread.error hrun
        refine iff_of_false ?_ ?_
        · rintro ⟨v, h', hv⟩
          cases hv
        · rintro ⟨-, ns, hns⟩
          rw [(htext ns).mpr hns] at hnone
          cases hnone

/-- A text in which a number lacks digits at its point, or one that a NUL follows. -/
def Sloppy (d k : ℕ) (data : List UInt8) : Prop :=
  ∃ t ns r, data = t ++ r ∧ IsText IsLax d k t ns ∧
    ((r = [] ∧ ∃ n ∈ ns, ¬ IsNumber n) ∨ (r.head? = some 0 ∧ 2 ≤ t.length))

/-- A text whose tables are nested deeper than the slots allow. -/
def Towering (d k : ℕ) (data : List UInt8) : Prop :=
  IsJson d data ∧ ¬ ∃ ns, IsText IsNumber d k data ns

theorem cString_text {t r : List UInt8} (ht : 0 ∉ t) (hr : r = [] ∨ r.head? = some 0) :
    cString (t ++ r) 0 = t := by
  have hall : ∀ c ∈ t, decide (c ≠ 0) = true := fun c hc => decide_eq_true fun h0 => ht (h0 ▸ hc)
  rw [cString, List.drop_zero, List.takeWhile_append_of_pos hall]
  rcases hr with rfl | hr
  · exact List.append_nil t
  · obtain ⟨r, rfl⟩ := List.head?_eq_some_iff.mp hr
    exact List.append_nil t

theorem cString_split (data : List UInt8) :
    ∃ r, data = cString data 0 ++ r ∧ (r = [] ∨ r.head? = some 0) := by
  refine ⟨data.dropWhile (· ≠ 0), List.takeWhile_append_dropWhile.symm, ?_⟩
  have hhead := List.head?_dropWhile_not (fun c : UInt8 => decide (c ≠ 0)) data
  cases hs : data.dropWhile (· ≠ 0) with
  | nil => exact .inl rfl
  | cons c s =>
    rw [hs] at hhead
    exact .inr (congrArg some (not_not.mp (of_decide_eq_false hhead)))

theorem not_utf {t r : List UInt8} (ht : 0 ∉ t) (hlen : 2 ≤ (t ++ r).length → 2 ≤ t.length) :
    ¬ (2 ≤ (t ++ r).length ∧ ((t ++ r).getD 0 0 = 0 ∨ (t ++ r).getD 1 0 = 0)) := by
  rintro ⟨hle, hzero⟩
  obtain ⟨b, c, t, rfl⟩ : ∃ b c t', t = b :: c :: t' := by
    match t, hlen hle with
    | b :: c :: t', _ => exact ⟨b, c, t', rfl⟩
  rcases hzero with rfl | rfl
  · exact ht List.mem_cons_self
  · exact ht (List.mem_cons_of_mem _ List.mem_cons_self)

theorem IsText.unique (hhost : host.ReadsLongest) {t : List UInt8} {ns ms : List (List UInt8)}
    (hns : IsText IsLax d k t ns) (hms : IsText IsLax d l t ms) : ns = ms := by
  have hns' := hns.slots (Nat.le_max_left k l)
  have hms' := hms.slots (Nat.le_max_right k l)
  have hread := (readText_iff (n := t.length + 1) hhost (Nat.lt_succ_self _)).mpr hns'
  exact Option.some.inj
    (hread.symm.trans ((readText_iff hhost (Nat.lt_succ_self _)).mpr hms'))

/-- What the decoder reads of `data` is a text to it. -/
def Taken (d k : ℕ) (data : List UInt8) : Prop :=
  ¬ (2 ≤ data.length ∧ (data.getD 0 0 = 0 ∨ data.getD 1 0 = 0)) ∧
    ∃ ns, IsText IsLax d k (cString data 0) ns

theorem Sloppy.taken (hs : Sloppy d k data) : Taken d k data := by
  obtain ⟨t, ns, r, rfl, ht, hr⟩ := hs
  have h0 := ht.noNul fun t ht => ht.noNul
  rcases hr with ⟨rfl, -⟩ | ⟨hnul, hlen⟩
  · exact ⟨not_utf h0 (by simp), ns, by rwa [cString_text h0 (.inl rfl)]⟩
  · exact ⟨not_utf h0 fun _ => hlen, ns, by rwa [cString_text h0 (.inr hnul)]⟩

theorem Sloppy.not_json (hhost : host.ReadsLongest) (hs : Sloppy d k data) : ¬ IsJson d data := by
  rintro ⟨l, ms, hms⟩
  obtain ⟨t, ns, r, rfl, ht, ⟨rfl, n, hmem, hbad⟩ | ⟨hnul, -⟩⟩ := hs
  · rw [List.append_nil] at hms
    have hsame := ht.unique hhost (hms.mono fun n _ hn => .number hn)
    exact hbad (hms.numbers n (hsame ▸ hmem))
  · have hmem := List.mem_append_right t (List.mem_of_head? hnul)
    exact hms.noNul (fun t ht => (IsLax.number ht).noNul) hmem

theorem IsText.cString_eq (ht : IsText IsNumber d k data ns) : cString data 0 = data := by
  have hc := cString_text (ht.noNul fun n hn => (IsLax.number hn).noNul) (.inl rfl)
  rwa [List.append_nil] at hc

theorem Towering.not_taken (hhost : host.ReadsLongest) (ht : Towering d k data) :
    ¬ Taken d k data := by
  rintro ⟨-, ns, hns⟩
  obtain ⟨⟨l, ms, hms⟩, hslots⟩ := ht
  rw [hms.cString_eq] at hns
  have hsame := hns.unique hhost (hms.mono fun n _ hn => IsLax.number hn)
  exact hslots ⟨ns, hns.mono fun n hmem _ => hms.numbers n (hsame ▸ hmem)⟩

theorem Taken.isJson (h : Taken d k data) (hsloppy : ¬ Sloppy d k data) : IsJson d data := by
  obtain ⟨hutf, ns, ht⟩ := h
  have hne := ht.ne_nil fun t ht => ht.ne_nil
  obtain ⟨r, hdata, hr⟩ := cString_split data
  generalize cString data 0 = t at *
  subst hdata
  rcases hr with rfl | hr
  · rw [List.append_nil]
    refine ⟨_, ns, ht.mono fun n hmem _ => ?_⟩
    by_contra hbad
    exact hsloppy ⟨t, ns, [], rfl, ht, .inl ⟨rfl, n, hmem, hbad⟩⟩
  · have hone : ¬ 2 ≤ t.length := fun hlen => hsloppy ⟨t, ns, r, rfl, ht, .inr ⟨hr, hlen⟩⟩
    obtain ⟨r, rfl⟩ := List.head?_eq_some_iff.mp hr
    obtain ⟨c, rfl⟩ : ∃ c, t = [c] := by
      match t, hne, hone with
      | [c], _, _ => exact ⟨c, rfl⟩
      | _ :: _ :: _, _, hone => exact absurd (Nat.le_add_left 2 _) hone
    exact absurd ⟨Nat.le_add_left 2 _, .inr rfl⟩ hutf

theorem taken_of_json (hjson : IsJson d data) (htowering : ¬ Towering d k data) :
    Taken d k data := by
  obtain ⟨ns, ht⟩ := not_not.mp fun hslots => htowering ⟨hjson, hslots⟩
  have hlax := ht.mono fun n _ hn => IsLax.number hn
  have hutf := not_utf (r := []) (hlax.noNul fun t ht => ht.noNul) (by simp)
  rw [List.append_nil] at hutf
  exact ⟨hutf, ns, by rwa [ht.cString_eq]⟩

/-- The decoder takes the JSON texts and no others, but where a text is sloppy or towers above
the Lua stack. -/
theorem jsonDecode_grammar_iff (data : List UInt8) (host : Host) (o : Options) (h : Heap)
    (hhost : host.ReadsLongest) (hopt : o.decodeInvalidNumbers = false)
    (hn : data.length < 2 ^ 20) :
    ((∃ v h', jsonDecode data host o h = .ok (.value v, h')) ↔ IsJson o.decodeMaxDepth data) ↔
      ¬ Sloppy o.decodeMaxDepth host.freeSlots data ∧
        ¬ Towering o.decodeMaxDepth host.freeSlots data := by
  have htaken : (∃ v h', jsonDecode data host o h = .ok (.value v, h')) ↔
      Taken o.decodeMaxDepth host.freeSlots data := jsonDecode_iff hhost hopt hn h
  rw [htaken]
  constructor
  · exact fun hiff => ⟨fun hs => hs.not_json hhost (hiff.mp hs.taken),
      fun ht => ht.not_taken hhost (hiff.mpr ht.1)⟩
  · rintro ⟨hsloppy, htowering⟩
    exact ⟨fun ht => Taken.isJson ht hsloppy, fun hjson => taken_of_json hjson htowering⟩

/-- A libc whose `strtod` reads as far as it should, and makes nothing of it. -/
noncomputable def longestHost : Host where
  __ := zeroHost
  strtod s := (.ofInt 0,
    @Nat.findGreatest (fun k => Expected (s.take k)) (Classical.decPred _) s.length)
  strtod_le s :=
    @Nat.findGreatest_le (fun k => Expected (s.take k)) (Classical.decPred _) s.length

theorem longestHost_reads : longestHost.ReadsLongest := by
  intro s
  constructor
  · intro hne
    exact @Nat.findGreatest_of_ne_zero _ (fun k => Expected (s.take k)) (Classical.decPred _) _
      rfl hne
  · intro k hk hform
    exact @Nat.le_findGreatest _ (fun k => Expected (s.take k)) (Classical.decPred _) _ hk hform

/-- The settings with `decode_invalid_numbers` off. -/
def strictOptions : Options := { Options.default with decodeInvalidNumbers := false }

theorem isText_true (Num : List UInt8 → Prop) (d k : ℕ) : IsText Num d k (ascii "true") [] := by
  have hvalue : IsValue Num d k (ascii "true") [] := IsValue.atom (.word (by decide))
  have htext : IsText Num d k ([] ++ (ascii "true" ++ [])) [] := .mk nofun hvalue nofun
  exact htext

theorem not_sloppy_true (d k : ℕ) : ¬ Sloppy d k (ascii "true") := by
  rintro ⟨t, ns, r, hdata, ht, ⟨rfl, n, hmem, -⟩ | ⟨hnul, -⟩⟩
  · rw [List.append_nil] at hdata
    subst hdata
    rw [ht.unique longestHost_reads (isText_true IsLax d k)] at hmem
    cases hmem
  · have h0 : (0 : UInt8) ∈ ascii "true" := hdata ▸ List.mem_append_right t (List.mem_of_head? hnul)
    exact absurd h0 (by decide)

/-- The word `true` is JSON. -/
theorem jsonDecode_grammar_iff_true :
    ∃ v h', jsonDecode (ascii "true") longestHost strictOptions
      (levSlabFill (Heap.boot fun _ _ => 0)) = .ok (.value v, h') :=
  ((jsonDecode_grammar_iff (ascii "true") longestHost strictOptions
    (levSlabFill (Heap.boot fun _ _ => 0)) longestHost_reads rfl (by decide)).mpr
      ⟨not_sloppy_true _ _, fun h => h.2 ⟨[], isText_true IsNumber _ _⟩⟩).mpr
        ⟨0, [], isText_true IsNumber _ _⟩

/-- The word `true`, a NUL and anything behind it are taken as well. -/
theorem nul_hides_rest :
    ¬ ((∃ v h', jsonDecode (ascii "true" ++ [0, 120]) longestHost strictOptions
        (levSlabFill (Heap.boot fun _ _ => 0)) = .ok (.value v, h')) ↔
      IsJson strictOptions.decodeMaxDepth (ascii "true" ++ [0, 120])) := by
  rw [jsonDecode_iff longestHost_reads rfl (by decide)]
  intro hiff
  have htext := isText_true IsLax strictOptions.decodeMaxDepth longestHost.freeSlots
  have h0 : (0 : UInt8) ∉ ascii "true" := by decide
  obtain ⟨k, ns, hns⟩ := hiff.mp ⟨by decide, [], by
    rw [cString_text h0 (.inr rfl)]
    exact htext⟩
  exact hns.noNul (fun t ht => (IsLax.number ht).noNul) (by decide)

end accepts

end Lev.Json
