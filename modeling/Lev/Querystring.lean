import Lev.LuaPattern

/-! The query strings of lev (querystring.lua): URL coding of their keys and values in passes over
the text, and their parsing. -/
namespace Lev.Querystring
open Lua

def upperDigit (n : ℕ) : UInt8 := UInt8.ofNat (if n < 10 then 48 + n else 55 + n)

/-- `format('%%%02X', byte(c))` -/
def percent (c : UInt8) : Bytes := [37, upperDigit (c.toNat / 16), upperDigit (c.toNat % 16)]

def hexDigit (c : UInt8) : ℕ :=
  if isdigit c then c.toNat - 48 else if c < 97 then c.toNat - 55 else c.toNat - 87

/-- `char(tonumber(h, 16))` -/
def unpercent (h : Bytes) : Bytes :=
  [UInt8.ofNat (h.foldl (fun n c => n * 16 + hexDigit c) 0)]

def urldecode (str : Bytes) : Bytes :=
  let str := gsub (pattern "+") (fun _ => [32]) str
  let str := gsub (pattern "%%(%x%x)") (fun caps => unpercent (caps.headD [])) str
  gsub (pattern "\r\n") (fun _ => [10]) str

def urlencode (str : Bytes) : Bytes :=
  let str := gsub (pattern "\n") (fun _ => [13, 10]) str
  let str := gsub (pattern "([^%w ])") (fun caps => percent ((caps.headD []).headD 0)) str
  gsub (pattern " ") (fun _ => [43]) str

/-- The table of `parse`. -/
abbrev Vars := Bytes → Option Bytes

/-- What the loop of `parse` does with a pair; `none` is the error for a malformed pattern. -/
def parsePair (eq : Bytes) (vars : Vars) (pair : Bytes) : Option Vars := do
  let find ← compile eq
  match firstMatch find pair with
  | none => some (Function.update vars (urldecode pair) (some []))
  | some _ =>
    let split ← compile (ascii "([^" ++ eq ++ ascii "]*)" ++ eq ++ ascii "(.*)")
    match firstMatch split pair with
    | some (key :: value :: _) =>
      some (Function.update vars (urldecode key) (some (urldecode value)))
    | _ => some vars

/-- `querystring.parse`, of what `tostring` makes of its argument. -/
def parse (str : Bytes) (sep eq : Option Bytes) : Option Vars := do
  let sep := sep.getD (ascii "&")
  let eq := eq.getD (ascii "=")
  let pairs ← compile (ascii "[^" ++ sep ++ ascii "]+")
  (gmatch pairs str).foldlM (fun vars caps => parsePair eq vars (caps.headD [])) fun _ => none

/-- The passes of `urlencode` and of `urldecode` on one byte. -/
def expand (c : UInt8) : Bytes := if c = 10 then [13, 10] else [c]
def escape (c : UInt8) : Bytes := if isalnum c ∨ c = 32 then [c] else percent c
def plus (c : UInt8) : Bytes := if c = 32 then [43] else [c]
def unplus (c : UInt8) : Bytes := if c = 43 then [32] else [c]

section passes

theorem urlencode_eq (s : Bytes) :
    urlencode s = ((s.flatMap expand).flatMap escape).flatMap plus := by
  have hexpand : ∀ c, (if (CharClass.item (.char 10)).test c then [13, 10] else [c]) = expand c :=
    forall_byte (by decide +kernel)
  have hescape : ∀ c, (if (CharClass.set true [.esc 119, .char 32]).test c
      then percent (([[c]].headD []).headD 0) else [c]) = escape c :=
    forall_byte (by decide +kernel)
  have hplus : ∀ c, (if (CharClass.item (.char 32)).test c then [43] else [c]) = plus c :=
    forall_byte (by decide +kernel)
  have hnewline : pattern "\n" = [.single (.item (.char 10)) .one] := by decide
  have hset : pattern "([^%w ])" =
      [.openCapture, .single (.set true [.esc 119, .char 32]) .one, .closeCapture] := by decide
  have hspace : pattern " " = [.single (.item (.char 32)) .one] := by decide
  rw [urlencode, hnewline, hset, hspace, gsub_single, gsub_captured, gsub_single]
  simp only [hexpand, hescape, hplus]

/-- What `urlencode` makes of a byte that the expansion of newlines has left. -/
def encoded (c : UInt8) : Bytes := (escape c).flatMap plus

theorem urlencode_bytes (s : Bytes) : urlencode s = (s.flatMap expand).flatMap encoded := by
  rw [urlencode_eq, List.flatMap_assoc]
  rfl

theorem unplus_encoded : ∀ c, (encoded c).flatMap unplus = escape c :=
  forall_byte (by decide +kernel)

/-- The percent pass reads back what was escaped. -/
def hexPattern : Pattern :=
  [.single (.item (.esc 37)) .one, .openCapture, .single (.item (.esc 120)) .one,
    .single (.item (.esc 120)) .one, .closeCapture]

def decodePercent (s : Bytes) : Bytes := gsub hexPattern (fun caps => unpercent (caps.headD [])) s

theorem hexPattern_skip {c : UInt8} (hc : c ≠ 37) (s : Bytes) :
    doMatch hexPattern [] (c :: s) = none := by
  have htest : ∀ c, c ≠ 37 → CharClass.test c (.item (.esc 37)) = false :=
    forall_byte (by decide +kernel)
  rw [hexPattern, doMatch, htest c hc]
  rfl

theorem hexPattern_match {c d : UInt8} (hc : isxdigit c = true) (hd : isxdigit d = true)
    (s : Bytes) :
    doMatch hexPattern [] (37 :: c :: d :: s) = some (s, [⟨c :: d :: s, some 2⟩]) := by
  have htest : ∀ x, CharClass.test x (.item (.esc 120)) = isxdigit x :=
    forall_byte (by decide +kernel)
  have hpercent : CharClass.test 37 (.item (.esc 37)) = true := by decide
  have hlength : (c :: d :: s).length - s.length = 2 := by
    rw [List.length_cons, List.length_cons]
    omega
  rw [hexPattern, doMatch, hpercent, if_pos rfl, doMatch, doMatch, htest, hc, if_pos rfl, doMatch,
    htest, hd, if_pos rfl, ← hlength]
  rfl

theorem escape_cases (c : UInt8) :
    (escape c = [c] ∧ c ≠ 37) ∨
      ∃ d e, escape c = [37, d, e] ∧ isxdigit d = true ∧ isxdigit e = true ∧
        unpercent [d, e] = [c] := by
  have hdigits : ∀ c, isxdigit (upperDigit (c.toNat / 16)) = true ∧
      isxdigit (upperDigit (c.toNat % 16)) = true ∧
      unpercent [upperDigit (c.toNat / 16), upperDigit (c.toNat % 16)] = [c] :=
    forall_byte (by decide +kernel)
  have hplain : ∀ c, isalnum c = true ∨ c = 32 → c ≠ 37 := forall_byte (by decide +kernel)
  rw [escape]
  split
  · next hc => exact .inl ⟨rfl, hplain c hc⟩
  · exact .inr ⟨_, _, rfl, hdigits c⟩

theorem decodePercent_escape (c : UInt8) (rest : Bytes) :
    decodePercent (escape c ++ rest) = c :: decodePercent rest := by
  obtain ⟨heq, hc⟩ | ⟨d, e, heq, hd, he, hvalue⟩ := escape_cases c
  · rw [heq]
    exact gsub_skip (hexPattern_skip hc rest)
  · rw [heq]
    have hmatch := hexPattern_match hd he rest
    have hlt : rest.length < (37 :: d :: e :: rest).length := by
      simp only [List.length_cons]
      omega
    have hgsub := gsub_match (f := fun caps => unpercent (caps.headD [])) hmatch hlt
    exact hgsub.trans (congrArg (· ++ decodePercent rest) hvalue)

theorem decodePercent_escaped (s : Bytes) : decodePercent (s.flatMap escape) = s := by
  induction s with
  | nil => rfl
  | cons c s ih => rw [List.flatMap_cons, decodePercent_escape, ih]

/-- The newline pass reads back what was expanded. -/
def newlinePattern : Pattern :=
  [.single (.item (.char 13)) .one, .single (.item (.char 10)) .one]

def collapse (s : Bytes) : Bytes := gsub newlinePattern (fun _ => [10]) s

theorem head_expanded_ne (s : Bytes) : (s.flatMap expand).head? ≠ some 10 := by
  cases s with
  | nil => intro h; cases h
  | cons c s =>
    rw [List.flatMap_cons, expand]
    split
    · intro h
      cases h
    · next hc =>
      intro h
      exact hc (Option.some.inj h)

theorem newlinePattern_skip {c : UInt8} {s : Bytes} (h : c = 13 → s.head? ≠ some 10) :
    doMatch newlinePattern [] (c :: s) = none := by
  have hreturn : ∀ c, CharClass.test c (.item (.char 13)) = true → c = 13 :=
    forall_byte (by decide +kernel)
  have hnewline : ∀ c, CharClass.test c (.item (.char 10)) = true → c = 10 :=
    forall_byte (by decide +kernel)
  rw [newlinePattern, doMatch]
  split
  · next hc =>
    cases s with
    | nil => rfl
    | cons d s =>
      rw [doMatch]
      split
      · next hd => exact absurd (congrArg some (hnewline d hd)) (h (hreturn c hc))
      · rfl
  · rfl

theorem collapse_expanded (s : Bytes) : collapse (s.flatMap expand) = s := by
  induction s with
  | nil => rfl
  | cons c s ih =>
    rw [List.flatMap_cons, expand]
    split
    · next hc =>
      subst hc
      have hmatch : doMatch newlinePattern [] (13 :: 10 :: s.flatMap expand) =
          some (s.flatMap expand, []) := rfl
      have hlt : (s.flatMap expand).length < (13 :: 10 :: s.flatMap expand).length := by
        simp only [List.length_cons]
        omega
      exact (gsub_match (f := fun _ => [10]) hmatch hlt).trans (congrArg (10 :: ·) ih)
    · next hc =>
      have hskip := newlinePattern_skip (c := c) fun _ => head_expanded_ne s
      exact (gsub_skip (f := fun _ => [10]) hskip).trans (congrArg (c :: ·) ih)

theorem urldecode_eq (s : Bytes) : urldecode s = collapse (decodePercent (s.flatMap unplus)) := by
  have hunplus : ∀ c, (if (CharClass.item (.char 43)).test c then [32] else [c]) = unplus c :=
    forall_byte (by decide +kernel)
  have hplus : pattern "+" = [.single (.item (.char 43)) .one] := by decide
  have hhex : pattern "%%(%x%x)" = hexPattern := by decide
  have hnewline : pattern "\r\n" = newlinePattern := by decide
  rw [urldecode, hplus, hhex, hnewline, gsub_single]
  simp only [hunplus]
  rfl

theorem urldecode_encoded (s : Bytes) : urldecode (urlencode s) = s := by
  rw [urldecode_eq, urlencode_bytes, List.flatMap_assoc]
  simp only [unplus_encoded]
  rw [decodePercent_escaped, collapse_expanded]

end passes

def Coded (c : UInt8) : Prop := isalnum c = true ∨ c = 37 ∨ c = 43

instance (c : UInt8) : Decidable (Coded c) := inferInstanceAs (Decidable (_ ∨ _ ∨ _))

theorem coded_urlencode (s : Bytes) : ∀ c ∈ urlencode s, Coded c := by
  have hbyte : ∀ c, (encoded c).all (fun d => decide (Coded d)) = true :=
    forall_byte (by decide +kernel)
  intro c hc
  rw [urlencode_bytes] at hc
  obtain ⟨b, -, hc⟩ := List.mem_flatMap.mp hc
  exact of_decide_eq_true (List.all_eq_true.mp (hbyte b) c hc)

/-- Decoding undoes coding, and a coded text has only letters, digits, `%` and `+`. -/
theorem urldecode_urlencode (s : Bytes) :
    urldecode (urlencode s) = s ∧ ∀ c ∈ urlencode s, Coded c :=
  ⟨urldecode_encoded s, coded_urlencode s⟩

/-- A pair of keys and values as it stands in a query string. -/
def pairText (eq : Bytes) (e : Σ _ : Bytes, Bytes) : Bytes := urlencode e.1 ++ eq ++ urlencode e.2

/-- The pairs joined with `sep`. -/
def queryText (sep eq : Bytes) (entries : List (Σ _ : Bytes, Bytes)) : Bytes :=
  sep.intercalate (entries.map (pairText eq))

/-- Two separators that are no characters of coded texts and, in patterns, stand for
themselves. -/
structure Separators (sep eq : UInt8) : Prop where
  coded_sep : ¬ Coded sep
  coded_eq : ¬ Coded eq
  ne : eq ≠ sep
  pairs : compile (ascii "[^" ++ [sep] ++ ascii "]+") = some [.single (.set true [.char sep]) .plus]
  find : compile [eq] = some [.single (.item (.char eq)) .one]
  split : compile (ascii "([^" ++ [eq] ++ ascii "]*)" ++ [eq] ++ ascii "(.*)") =
    some [.openCapture, .single (.set true [.char eq]) .star, .closeCapture,
      .single (.item (.char eq)) .one, .openCapture, .single .any .star, .closeCapture]

theorem separators_default : Separators 38 61 :=
  ⟨by decide, by decide, by decide, by decide, by decide, by decide⟩

theorem separators_colon : Separators 59 58 :=
  ⟨by decide, by decide, by decide, by decide, by decide, by decide⟩

section parse
variable {sep eq : UInt8} {vars : Vars}

theorem test_char (c a : UInt8) : (CharClass.item (.char a)).test c = (a == c) := rfl

theorem test_not (c a : UInt8) : (CharClass.set true [.char a]).test c = !(a == c) := by
  cases h : a == c with
  | true => simp [CharClass.test, ClassItem.test, h]
  | false => simp [CharClass.test, ClassItem.test, h]

theorem firstMatch_char {a : UInt8} {s : Bytes} (h : a ∈ s) :
    (firstMatch [.single (.item (.char a)) .one] s).isSome = true := by
  induction s with
  | nil => cases h
  | cons c s ih =>
    rw [firstMatch, Option.isSome_or, Bool.or_eq_true]
    obtain rfl | h := List.mem_cons.mp h
    · left
      rw [doMatch, test_char, beq_self_eq_true, if_pos rfl]
      rfl
    · exact .inr (ih h)

theorem firstMatch_split {key : Bytes} (hkey : eq ∉ key) (value : Bytes) :
    firstMatch [.openCapture, .single (.set true [.char eq]) .star, .closeCapture,
      .single (.item (.char eq)) .one, .openCapture, .single .any .star, .closeCapture]
      (key ++ eq :: value) = some [key, value] := by
  have hall : ∀ c ∈ key, (CharClass.set true [.char eq]).test c = true := by
    intro c hc
    rw [test_not, Bool.not_eq_true', beq_eq_false_iff_ne]
    rintro rfl
    exact hkey hc
  have hstop : (CharClass.set true [.char eq]).test eq = false := by
    rw [test_not, beq_self_eq_true]
    rfl
  have hdrop : (key ++ eq :: value).dropWhile (CharClass.set true [.char eq]).test =
      eq :: value := by
    rw [List.dropWhile_append_of_pos hall,
      List.dropWhile_cons_of_neg (by rw [hstop]; decide)]
  have hany : value.dropWhile CharClass.any.test = [] :=
    List.dropWhile_eq_nil_iff.mpr fun _ _ => rfl
  have hlength : (key ++ eq :: value).length - (eq :: value).length = key.length := by
    rw [List.length_append, Nat.add_sub_cancel]
  have hmatch : doMatch [.openCapture, .single (.set true [.char eq]) .star, .closeCapture,
      .single (.item (.char eq)) .one, .openCapture, .single .any .star, .closeCapture] []
      (key ++ eq :: value) =
        some ([], [⟨key ++ eq :: value, some key.length⟩, ⟨value, some value.length⟩]) := by
    rw [doMatch, doMatch]
    refine maxExpand_of_some ?_
    rw [hdrop, doMatch, List.nil_append, closeLast, closeLast, hlength]
    simp only [Option.isNone_none, if_true, Option.bind_some]
    rw [doMatch, test_char, beq_self_eq_true, if_pos rfl, doMatch, doMatch]
    refine maxExpand_of_some ?_
    rw [hany]
    rfl
  rw [firstMatch_of_match hmatch]
  have hfirst : Capture.text ⟨key ++ eq :: value, some key.length⟩ = key := List.take_left
  have hsecond : Capture.text ⟨value, some value.length⟩ = value := List.take_length
  exact congrArg some (congrArg₂ (fun x y => [x, y]) hfirst hsecond)

theorem notMem_urlencode {a : UInt8} (ha : ¬ Coded a) (s : Bytes) : a ∉ urlencode s :=
  fun h => ha (coded_urlencode s a h)

theorem parsePair_pairText (hs : Separators sep eq) (vars : Vars) (e : Σ _ : Bytes, Bytes) :
    parsePair [eq] vars (pairText [eq] e) = some (Function.update vars e.1 (some e.2)) := by
  have htext : pairText [eq] e = urlencode e.1 ++ eq :: urlencode e.2 := by
    rw [pairText, List.append_assoc]
    rfl
  have hmem : eq ∈ pairText [eq] e := by
    rw [htext]
    exact List.mem_append_right _ List.mem_cons_self
  obtain ⟨caps, hfound⟩ := Option.isSome_iff_exists.mp (firstMatch_char hmem)
  have hsplit := firstMatch_split (notMem_urlencode hs.coded_eq e.1) (urlencode e.2)
  rw [← htext] at hsplit
  rw [parsePair, hs.find]
  simp only [Option.bind_eq_bind, Option.bind_some, hfound, hs.split, hsplit, urldecode_encoded]

theorem gmatch_queryText (hs : Separators sep eq) (entries : List (Σ _ : Bytes, Bytes)) :
    gmatch [.single (.set true [.char sep]) .plus] (queryText [sep] [eq] entries) =
      entries.map fun e => [pairText [eq] e] := by
  have hstop : (CharClass.set true [.char sep]).test sep = false := by
    rw [test_not, beq_self_eq_true]
    rfl
  have hall : ∀ e, ∀ c ∈ pairText [eq] e, (CharClass.set true [.char sep]).test c = true := by
    intro e c hc
    rw [test_not, Bool.not_eq_true', beq_eq_false_iff_ne]
    rintro rfl
    rw [pairText, List.mem_append, List.mem_append, List.mem_singleton] at hc
    obtain (hc | hc) | hc := hc
    · exact notMem_urlencode hs.coded_sep e.1 hc
    · exact hs.ne hc.symm
    · exact notMem_urlencode hs.coded_sep e.2 hc
  have hne : ∀ e, pairText [eq] e ≠ [] := by
    intro e h
    rw [pairText, List.append_assoc, List.append_eq_nil_iff] at h
    exact absurd h.2 (List.cons_ne_nil _ _)
  induction entries with
  | nil => exact gmatch_nil rfl
  | cons e entries ih =>
    cases entries with
    | nil =>
      have hrun := gmatch_run (r := []) (hne e) (hall e) rfl
      rw [List.append_nil, gmatch_nil rfl] at hrun
      rw [queryText, List.map_singleton, List.intercalate_singleton, hrun]
      rfl
    | cons e' entries =>
      have htext : queryText [sep] [eq] (e :: e' :: entries) =
          pairText [eq] e ++ sep :: queryText [sep] [eq] (e' :: entries) := by
        simp only [queryText, List.map_cons, List.intercalate_cons_cons, List.append_assoc,
          List.singleton_append]
      have hrest : (sep :: queryText [sep] [eq] (e' :: entries)).head?.all
          (fun c => !(CharClass.set true [.char sep]).test c) = true := by
        simp [hstop]
      rw [htext, gmatch_run (hne e) (hall e) hrest, gmatch_gap hstop, ih]
      rfl

theorem foldlM_entries (hs : Separators sep eq) (entries : List (Σ _ : Bytes, Bytes))
    (vars : Vars) :
    (entries.map fun e => [pairText [eq] e]).foldlM
        (fun vars caps => parsePair [eq] vars (caps.headD [])) vars =
      some (entries.foldl (fun (vars : Vars) e => Function.update vars e.1 (some e.2)) vars) := by
  induction entries generalizing vars with
  | nil => rfl
  | cons e entries ih =>
    rw [List.map_cons, List.foldlM_cons, List.foldl_cons, List.headD_cons,
      parsePair_pairText hs vars e]
    exact ih _

/-- With different keys it does not matter that later pairs come over earlier ones. -/
theorem foldl_update {entries : List (Σ _ : Bytes, Bytes)} (hnodup : entries.NodupKeys)
    (vars : Vars) (k : Bytes) :
    entries.foldl (fun (vars : Vars) e => Function.update vars e.1 (some e.2)) vars k =
      (entries.dlookup k).or (vars k) := by
  induction entries generalizing vars with
  | nil => rfl
  | cons e entries ih =>
    obtain ⟨hnew, hnodup⟩ := List.nodupKeys_cons.mp hnodup
    rw [List.foldl_cons, ih hnodup]
    rcases eq_or_ne k e.1 with rfl | hne
    · rw [List.dlookup_eq_none.mpr hnew, Function.update_self, Option.none_or,
        List.dlookup_cons_eq]
      rfl
    · rw [Function.update_of_ne hne, List.dlookup_cons_ne _ _ hne]

theorem parse_queryText (hs : Separators sep eq) (m : AList fun _ : Bytes => Bytes) :
    parse (queryText [sep] [eq] m.entries) (some [sep]) (some [eq]) = some fun k => m.lookup k := by
  rw [parse]
  simp only [Option.getD_some, hs.pairs, Option.bind_eq_bind, Option.bind_some,
    gmatch_queryText hs, foldlM_entries hs]
  refine congrArg some (funext fun k => ?_)
  rw [foldl_update m.nodupKeys, Option.or_none]
  rfl

end parse

/-- A query string is parsed back to the map it was made of, with either pair of separators. -/
theorem parse_join (m : AList fun _ : Bytes => Bytes) :
    parse (queryText (ascii "&") (ascii "=") m.entries) none none = some (fun k => m.lookup k) ∧
      parse (queryText (ascii ";") (ascii ":") m.entries) (some (ascii ";")) (some (ascii ":")) =
        some fun k => m.lookup k :=
  ⟨parse_queryText separators_default m, parse_queryText separators_colon m⟩

end Lev.Querystring
