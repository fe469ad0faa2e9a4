import Lev.LuaText

/-! Lua patterns: character classes, repetitions, captures and balanced pairs, and the functions
of the string library that search with them. Anchors, back references, frontiers and position
captures are left out. -/
namespace Lev.Lua

abbrev Bytes := List UInt8

/-- The classes of ctype.h in the C locale. -/
def isalpha (c : UInt8) : Bool := 65 ≤ c && c ≤ 90 || 97 ≤ c && c ≤ 122
def isdigit (c : UInt8) : Bool := 48 ≤ c && c ≤ 57
def isalnum (c : UInt8) : Bool := isalpha c || isdigit c
def islower (c : UInt8) : Bool := 97 ≤ c && c ≤ 122
def isupper (c : UInt8) : Bool := 65 ≤ c && c ≤ 90
def isspace (c : UInt8) : Bool := c == 32 || 9 ≤ c && c ≤ 13
def iscntrl (c : UInt8) : Bool := c < 32 || c == 127
def ispunct (c : UInt8) : Bool := 33 ≤ c && c ≤ 126 && !isalnum c
def isxdigit (c : UInt8) : Bool := isdigit c || 65 ≤ c && c ≤ 70 || 97 ≤ c && c ≤ 102

/-- `match_class`: does `c` belong to what `%` and `cl` stand for? An upper case letter is the
complement of the lower case one, anything but a letter itself. -/
def matchClass (c cl : UInt8) : Bool :=
  let res : Option Bool := match cl ||| 32 with
    | 97 => some (isalpha c) -- 'a'
    | 99 => some (iscntrl c) -- 'c'
    | 100 => some (isdigit c) -- 'd'
    | 108 => some (islower c) -- 'l'
    | 112 => some (ispunct c) -- 'p'
    | 115 => some (isspace c) -- 's'
    | 117 => some (isupper c) -- 'u'
    | 119 => some (isalnum c) -- 'w'
    | 120 => some (isxdigit c) -- 'x'
    | 122 => some (c == 0) -- 'z'
    | _ => none
  match isalpha cl, res with
  | true, some b => if isupper cl then !b else b
  | _, _ => cl == c

inductive ClassItem
  | char (c : UInt8)
  | range (a b : UInt8)
  | esc (cl : UInt8)
  deriving DecidableEq, Repr

def ClassItem.test (c : UInt8) : ClassItem → Bool
  | .char a => a == c
  | .range a b => a ≤ c && c ≤ b
  | .esc cl => matchClass c cl

inductive CharClass
  | any
  | item (i : ClassItem)
  | set (negated : Bool) (items : List ClassItem)
  deriving DecidableEq, Repr

/-- `singlematch` -/
def CharClass.test (c : UInt8) : CharClass → Bool
  | .any => true
  | .item i => i.test c
  | .set negated items => items.any (ClassItem.test c) != negated

/-- How often a class is to match: once, `*`, `+`, `-` or `?`. -/
inductive Rep
  | one | star | plus | lazy | opt
  deriving DecidableEq, Repr

inductive Item
  | single (cls : CharClass) (rep : Rep)
  | balance (o c : UInt8)
  | openCapture
  | closeCapture
  deriving DecidableEq, Repr

abbrev Pattern := List Item

section compile

/-- The members of a set up to its `]`. -/
def compileSet : ℕ → Bytes → Option (List ClassItem × Bytes)
  | 0, _ => none
  | _ + 1, [] => none
  | _ + 1, 93 :: s => some ([], s)
  | n + 1, 37 :: c :: s => (compileSet n s).map fun (items, r) => (.esc c :: items, r)
  | n + 1, a :: 45 :: b :: s =>
    if b = 93 then (compileSet n (45 :: b :: s)).map fun (items, r) => (.char a :: items, r)
    else (compileSet n s).map fun (items, r) => (.range a b :: items, r)
  | n + 1, c :: s => (compileSet n s).map fun (items, r) => (.char c :: items, r)

/-- A set behind its `[`; a `]` in front of it all is a member. -/
def compileMembers (s : Bytes) : Option (List ClassItem × Bytes) :=
  match s with
  | 93 :: s => (compileSet s.length s).map fun (items, r) => (.char 93 :: items, r)
  | s => compileSet s.length s

def compileClass : Bytes → Option (CharClass × Bytes)
  | [] => none
  | 46 :: s => some (.any, s)
  | 37 :: c :: s => some (.item (.esc c), s)
  | [37] => none
  | 91 :: 94 :: s => (compileMembers s).map fun (items, r) => (.set true items, r)
  | 91 :: s => (compileMembers s).map fun (items, r) => (.set false items, r)
  | c :: s => some (.item (.char c), s)

def compileRep : Bytes → Rep × Bytes
  | 42 :: s => (.star, s)
  | 43 :: s => (.plus, s)
  | 45 :: s => (.lazy, s)
  | 63 :: s => (.opt, s)
  | s => (.one, s)

def compileItems : ℕ → Bytes → Option Pattern
  | 0, _ => none
  | _ + 1, [] => some []
  | n + 1, 40 :: s =>
    if s.head? = some 41 then none else (compileItems n s).map (.openCapture :: ·)
  | n + 1, 41 :: s => (compileItems n s).map (.closeCapture :: ·)
  | n + 1, 37 :: 98 :: o :: c :: s => (compileItems n s).map (.balance o c :: ·)
  | n + 1, s =>
    if s = [36] ∨ s.head? = some 37 ∧ (s.drop 1).head?.any (fun c => c = 98 ∨ c = 102 ∨ isdigit c)
    then none
    else do
      let (cls, r) ← compileClass s
      let (rep, r) := compileRep r
      return .single cls rep :: (← compileItems n r)

/-- The items of a pattern; `none` for a malformed one and for what is left out. -/
def compile (s : Bytes) : Option Pattern :=
  if s.head? = some 94 then none else compileItems (s.length + 1) s

end compile

/-- A capture: what is left of the subject where it starts, and its length once it is closed. -/
structure Capture where
  start : Bytes
  length : Option ℕ
  deriving DecidableEq, Repr

def Capture.text (c : Capture) : Bytes := c.start.take (c.length.getD 0)

/-- The last capture that is still open ends where `s` is left. -/
def closeLast (s : Bytes) : List Capture → Option (List Capture)
  | [] => none
  | c :: cs =>
    match closeLast s cs with
    | some cs => some (c :: cs)
    | none => if c.length.isNone then
        some ({ c with length := some (c.start.length - s.length) } :: cs) else none

/-- `matchbalance` behind the opening character, `cont` of which are open. -/
def matchBalance (o c : UInt8) : ℕ → Bytes → Option Bytes
  | _, [] => none
  | cont, x :: s =>
    if x = c then (if cont = 1 then some s else matchBalance o c (cont - 1) s)
    else matchBalance o c (if x = o then cont + 1 else cont) s

/-- What is left of the subject, and the captures. -/
abbrev Found := Bytes × List Capture

/-- `max_expand`: as many characters as possible. -/
def maxExpand (test : UInt8 → Bool) (k : Bytes → Option Found) : Bytes → Option Found
  | [] => k []
  | c :: s => if test c then (maxExpand test k s).or (k (c :: s)) else k (c :: s)

/-- `min_expand`: as few characters as possible. -/
def minExpand (test : UInt8 → Bool) (k : Bytes → Option Found) : Bytes → Option Found
  | [] => k []
  | c :: s => (k (c :: s)).or (if test c then minExpand test k s else none)

/-- `match`: the pattern against the front of the subject. -/
def doMatch : Pattern → List Capture → Bytes → Option Found
  | [], caps, s => some (s, caps)
  | .openCapture :: p, caps, s => doMatch p (caps ++ [⟨s, none⟩]) s
  | .closeCapture :: p, caps, s => (closeLast s caps).bind fun caps => doMatch p caps s
  | .balance o c :: p, caps, s =>
    match s with
    | [] => none
    | x :: s => if x = o then (matchBalance o c 1 s).bind (doMatch p caps) else none
  | .single cls .one :: p, caps, s =>
    match s with
    | [] => none
    | c :: s => if cls.test c then doMatch p caps s else none
  | .single cls .opt :: p, caps, s =>
    match s with
    | [] => doMatch p caps []
    | c :: s =>
      (if cls.test c then doMatch p caps s else none).or (doMatch p caps (c :: s))
  | .single cls .star :: p, caps, s => maxExpand cls.test (doMatch p caps) s
  | .single cls .plus :: p, caps, s =>
    match s with
    | [] => none
    | c :: s => if cls.test c then maxExpand cls.test (doMatch p caps) s else none
  | .single cls .lazy :: p, caps, s => minExpand cls.test (doMatch p caps) s

/-- A match as the library hands it out: its captures, or the whole of it without any. -/
def captures (s : Bytes) (found : Found) : List Bytes :=
  if found.2 = [] then [s.take (s.length - found.1.length)] else found.2.map Capture.text

/-- `string.find` and `string.match`: the first place where the pattern matches. -/
def firstMatch (p : Pattern) : Bytes → Option (List Bytes)
  | [] => (doMatch p [] []).map (captures [])
  | c :: s => ((doMatch p [] (c :: s)).map (captures (c :: s))).or (firstMatch p s)

/-- The loop of `string.gmatch`; a match of nothing is stepped over. -/
def gmatchLoop (p : Pattern) : ℕ → Bytes → List (List Bytes)
  | 0, _ => []
  | _ + 1, [] => ((doMatch p [] []).map (captures [])).toList
  | n + 1, c :: s =>
    match doMatch p [] (c :: s) with
    | none => gmatchLoop p n s
    | some found =>
      captures (c :: s) found ::
        if found.1.length = (c :: s).length then gmatchLoop p n s else gmatchLoop p n found.1

def gmatch (p : Pattern) (s : Bytes) : List (List Bytes) := gmatchLoop p (s.length + 1) s

/-- The loop of `string.gsub`. -/
def gsubLoop (p : Pattern) (repl : List Bytes → Bytes) : ℕ → Bytes → Bytes
  | 0, _ => []
  | _ + 1, [] => (doMatch p [] []).elim [] fun found => repl (captures [] found)
  | n + 1, c :: s =>
    match doMatch p [] (c :: s) with
    | none => c :: gsubLoop p repl n s
    | some found =>
      repl (captures (c :: s) found) ++
        if found.1.length = (c :: s).length then c :: gsubLoop p repl n s
        else gsubLoop p repl n found.1

def gsub (p : Pattern) (repl : List Bytes → Bytes) (s : Bytes) : Bytes :=
  gsubLoop p repl (s.length + 1) s

/-- A pattern of a program text, which is well formed. -/
def pattern (s : String) (h : (compile (ascii s)).isSome := by decide) : Pattern :=
  (compile (ascii s)).get h

section matching
variable {test : UInt8 → Bool} {k : Bytes → Option Found}

theorem maxExpand_of_some {s : Bytes} {found : Found} (h : k (s.dropWhile test) = some found) :
    maxExpand test k s = some found := by
  induction s with
  | nil => exact h
  | cons c s ih =>
    rw [maxExpand]
    cases hc : test c with
    | true =>
      rw [List.dropWhile_cons_of_pos hc] at h
      rw [if_pos rfl, ih h, Option.some_or]
    | false =>
      rw [List.dropWhile_cons_of_neg (by rw [hc]; decide)] at h
      exact h

theorem minExpand_skip {x : Bytes} (hx : ∀ c ∈ x, test c = true ∧ ∀ s, k (c :: s) = none)
    (r : Bytes) : minExpand test k (x ++ r) = minExpand test k r := by
  induction x with
  | nil => rfl
  | cons c x ih =>
    obtain ⟨htest, hk⟩ := hx c List.mem_cons_self
    rw [List.cons_append, minExpand, hk, htest, if_pos rfl, Option.none_or]
    exact ih fun d hd => hx d (List.mem_cons_of_mem c hd)

theorem maxExpand_suffix (hk : ∀ s found, k s = some found → found.1 <:+ s) {s : Bytes}
    {found : Found} (h : maxExpand test k s = some found) : found.1 <:+ s := by
  induction s with
  | nil => exact hk _ _ h
  | cons c s ih =>
    rw [maxExpand] at h
    split at h
    · obtain h | ⟨-, h⟩ := Option.or_eq_some_iff.mp h
      · exact (ih h).trans (List.suffix_cons c s)
      · exact hk _ _ h
    · exact hk _ _ h

theorem minExpand_suffix (hk : ∀ s found, k s = some found → found.1 <:+ s) {s : Bytes}
    {found : Found} (h : minExpand test k s = some found) : found.1 <:+ s := by
  induction s with
  | nil => exact hk _ _ h
  | cons c s ih =>
    rw [minExpand] at h
    obtain h | ⟨-, h⟩ := Option.or_eq_some_iff.mp h
    · exact hk _ _ h
    · split at h
      · exact (ih h).trans (List.suffix_cons c s)
      · cases h

theorem matchBalance_suffix {o c : UInt8} {cont : ℕ} {s r : Bytes}
    (h : matchBalance o c cont s = some r) : r <:+ s := by
  induction s generalizing cont with
  | nil => cases h
  | cons x s ih =>
    rw [matchBalance] at h
    split at h
    · split at h
      · cases h
        exact List.suffix_cons x _
      · exact (ih h).trans (List.suffix_cons x s)
    · exact (ih h).trans (List.suffix_cons x s)

theorem matchBalance_append {o c : UInt8} {cont : ℕ} {s r : Bytes}
    (h : matchBalance o c cont s = some r) (t : Bytes) :
    matchBalance o c cont (s ++ t) = some (r ++ t) := by
  induction s generalizing cont with
  | nil => cases h
  | cons x s ih =>
    rw [matchBalance] at h
    rw [List.cons_append, matchBalance]
    split
    · next hx =>
      rw [if_pos hx] at h
      split
      · next hcont =>
        rw [if_pos hcont] at h
        cases h
        rfl
      · next hcont =>
        rw [if_neg hcont] at h
        exact ih h
    · next hx =>
      rw [if_neg hx] at h
      exact ih h

theorem doMatch_suffix {p : Pattern} {caps : List Capture} {s : Bytes} {found : Found}
    (h : doMatch p caps s = some found) : found.1 <:+ s := by
  induction p generalizing caps s found with
  | nil =>
    cases h
    exact List.suffix_refl s
  | cons i p ih =>
    have hk : ∀ s found, doMatch p caps s = some found → found.1 <:+ s := fun s found => ih
    cases i with
    | openCapture => exact ih h
    | closeCapture =>
      obtain ⟨caps', -, h⟩ := Option.bind_eq_some_iff.mp h
      exact ih h
    | balance o c =>
      cases s with
      | nil => cases h
      | cons x s =>
        rw [doMatch] at h
        split at h
        · obtain ⟨r, hr, h⟩ := Option.bind_eq_some_iff.mp h
          exact (ih h).trans ((matchBalance_suffix hr).trans (List.suffix_cons x s))
        · cases h
    | single cls rep =>
      cases rep with
      | star => exact maxExpand_suffix hk h
      | lazy => exact minExpand_suffix hk h
      | one =>
        cases s with
        | nil => cases h
        | cons c s =>
          rw [doMatch] at h
          split at h
          · exact (ih h).trans (List.suffix_cons c s)
          · cases h
      | plus =>
        cases s with
        | nil => cases h
        | cons c s =>
          rw [doMatch] at h
          split at h
          · exact (maxExpand_suffix hk h).trans (List.suffix_cons c s)
          · cases h
      | opt =>
        cases s with
        | nil => exact ih h
        | cons c s =>
          rw [doMatch] at h
          obtain h | ⟨-, h⟩ := Option.or_eq_some_iff.mp h
          · split at h
            · exact (ih h).trans (List.suffix_cons c s)
            · cases h
          · exact ih h

end matching

section loops
variable {p : Pattern} {f : List Bytes → Bytes} {s : Bytes} {found : Found}

theorem length_le_of_doMatch (h : doMatch p [] s = some found) : found.1.length ≤ s.length :=
  (doMatch_suffix h).length_le

theorem gsubLoop_fuel {n m : ℕ} (hn : s.length < n) (hm : s.length < m) :
    gsubLoop p f n s = gsubLoop p f m s := by
  induction n generalizing m s with
  | zero => exact absurd hn (Nat.not_lt_zero _)
  | succ n ih =>
    obtain ⟨m, rfl⟩ : ∃ k, m = k + 1 := ⟨m - 1, by omega⟩
    cases s with
    | nil => rfl
    | cons c s =>
      rw [List.length_cons] at hn hm
      have ht : gsubLoop p f n s = gsubLoop p f m s := ih (by omega) (by omega)
      rw [gsubLoop, gsubLoop]
      cases h : doMatch p [] (c :: s) with
      | none => exact congrArg (c :: ·) ht
      | some found =>
        have hle := length_le_of_doMatch h
        rw [List.length_cons] at hle
        dsimp only
        rw [List.length_cons, ht]
        split
        · rfl
        · rw [ih (m := m) (by omega) (by omega)]

theorem gsub_nil (h : doMatch p [] [] = none) : gsub p f [] = [] := by
  rw [gsub, List.length_nil, gsubLoop, h]
  rfl

theorem gsub_skip {c : UInt8} (h : doMatch p [] (c :: s) = none) :
    gsub p f (c :: s) = c :: gsub p f s := by
  rw [gsub, gsubLoop, h]
  rfl

theorem gsub_match (h : doMatch p [] s = some found) (hlt : found.1.length < s.length) :
    gsub p f s = f (captures s found) ++ gsub p f found.1 := by
  cases s with
  | nil => exact absurd hlt (Nat.not_lt_zero _)
  | cons c s =>
    rw [gsub, gsubLoop, h]
    dsimp only
    rw [if_neg (by omega)]
    exact congrArg (_ ++ ·) (gsubLoop_fuel hlt (Nat.lt_succ_self _))

theorem gmatchLoop_fuel {n m : ℕ} (hn : s.length < n) (hm : s.length < m) :
    gmatchLoop p n s = gmatchLoop p m s := by
  induction n generalizing m s with
  | zero => exact absurd hn (Nat.not_lt_zero _)
  | succ n ih =>
    obtain ⟨m, rfl⟩ : ∃ k, m = k + 1 := ⟨m - 1, by omega⟩
    cases s with
    | nil => rfl
    | cons c s =>
      rw [List.length_cons] at hn hm
      have ht : gmatchLoop p n s = gmatchLoop p m s := ih (by omega) (by omega)
      rw [gmatchLoop, gmatchLoop]
      cases h : doMatch p [] (c :: s) with
      | none => exact ht
      | some found =>
        have hle := length_le_of_doMatch h
        rw [List.length_cons] at hle
        dsimp only
        rw [List.length_cons, ht]
        split
        · rfl
        · rw [ih (m := m) (by omega) (by omega)]

theorem gmatch_nil (h : doMatch p [] [] = none) : gmatch p [] = [] := by
  rw [gmatch, List.length_nil, gmatchLoop, h]
  rfl

theorem gmatch_skip {c : UInt8} (h : doMatch p [] (c :: s) = none) :
    gmatch p (c :: s) = gmatch p s := by
  rw [gmatch, gmatchLoop, h]
  rfl

theorem gmatch_match (h : doMatch p [] s = some found) (hlt : found.1.length < s.length) :
    gmatch p s = captures s found :: gmatch p found.1 := by
  cases s with
  | nil => exact absurd hlt (Nat.not_lt_zero _)
  | cons c s =>
    rw [gmatch, gmatchLoop, h]
    dsimp only
    rw [if_neg (by omega)]
    exact congrArg (_ :: ·) (gmatchLoop_fuel hlt (Nat.lt_succ_self _))

theorem firstMatch_of_match (h : doMatch p [] s = some found) :
    firstMatch p s = some (captures s found) := by
  cases s with
  | nil => rw [firstMatch, h, Option.map_some]
  | cons c s => rw [firstMatch, h, Option.map_some, Option.some_or]

theorem gsub_single (cls : CharClass) (repl : List Bytes → Bytes) (s : Bytes) :
    gsub [.single cls .one] repl s =
      s.flatMap fun c => if cls.test c then repl [[c]] else [c] := by
  induction s with
  | nil => exact gsub_nil rfl
  | cons c s ih =>
    rw [List.flatMap_cons, ← ih]
    cases hc : cls.test c with
    | true =>
      have hmatch : doMatch [.single cls .one] [] (c :: s) = some (s, []) := by
        rw [doMatch, hc]
        rfl
      have hcaptures : captures (c :: s) (s, []) = [[c]] := by
        rw [captures, if_pos rfl, List.length_cons, Nat.add_sub_cancel_left]
        rfl
      rw [gsub_match hmatch (Nat.lt_succ_self _), hcaptures, if_pos rfl]
    | false =>
      have hmatch : doMatch [.single cls .one] [] (c :: s) = none := by
        rw [doMatch, hc]
        rfl
      rw [gsub_skip hmatch]
      rfl

theorem gsub_captured (cls : CharClass) (repl : List Bytes → Bytes) (s : Bytes) :
    gsub [.openCapture, .single cls .one, .closeCapture] repl s =
      s.flatMap fun c => if cls.test c then repl [[c]] else [c] := by
  induction s with
  | nil => exact gsub_nil rfl
  | cons c s ih =>
    rw [List.flatMap_cons, ← ih]
    cases hc : cls.test c with
    | true =>
      have hlength : (c :: s).length - s.length = 1 := Nat.add_sub_cancel_left _ _
      have hmatch : doMatch [.openCapture, .single cls .one, .closeCapture] [] (c :: s) =
          some (s, [⟨c :: s, some 1⟩]) := by
        rw [doMatch, doMatch, hc, ← hlength]
        rfl
      exact gsub_match hmatch (Nat.lt_succ_self _)
    | false =>
      have hmatch : doMatch [.openCapture, .single cls .one, .closeCapture] [] (c :: s) = none := by
        rw [doMatch, doMatch, hc]
        rfl
      rw [gsub_skip hmatch]
      rfl

theorem gmatch_run {cls : CharClass} {run r : Bytes} (hrun : run ≠ [])
    (hall : ∀ c ∈ run, cls.test c = true) (hrest : r.head?.all (fun c => !cls.test c) = true) :
    gmatch [.single cls .plus] (run ++ r) = [run] :: gmatch [.single cls .plus] r := by
  have hdrop : r.dropWhile cls.test = r := by
    cases r with
    | nil => rfl
    | cons c r =>
      have hc : cls.test c = false := by simpa using hrest
      exact List.dropWhile_cons_of_neg (by rw [hc]; decide)
  cases run with
  | nil => exact absurd rfl hrun
  | cons c run =>
    have htail : (run ++ r).dropWhile cls.test = r := by
      rw [List.dropWhile_append_of_pos fun d hd => hall d (List.mem_cons_of_mem c hd), hdrop]
    have hmatch : doMatch [.single cls .plus] [] (c :: run ++ r) = some (r, []) := by
      rw [List.cons_append, doMatch, hall c List.mem_cons_self, if_pos rfl]
      exact maxExpand_of_some (by rw [htail]; rfl)
    have hlength : (c :: run ++ r).length - r.length = (c :: run).length := by
      rw [List.length_append, Nat.add_sub_cancel]
    have hcaptures : captures (c :: run ++ r) (r, []) = [c :: run] := by
      rw [captures, if_pos rfl, hlength, List.take_left]
    have hlt : r.length < (c :: run ++ r).length := by
      rw [List.length_append, List.length_cons]
      omega
    rw [gmatch_match hmatch hlt, hcaptures]

theorem gmatch_gap {cls : CharClass} {c : UInt8} (hc : cls.test c = false) (s : Bytes) :
    gmatch [.single cls .plus] (c :: s) = gmatch [.single cls .plus] s :=
  gmatch_skip (by rw [doMatch, hc]; rfl)

end loops

end Lev.Lua
