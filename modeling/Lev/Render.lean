import Lev.LuaLongString

/-! The templates of lev (render.lua): their text is cut at balanced braces and put into a Lua
program again, as long strings that the program collects together with what the directives
yield. -/
namespace Lev.Render
open Lua

/-- The keys of `VIEW_ACTIONS`: `{%`, `{{`, `{(` and `{<`. -/
inductive Action
  | code | value | child | escaped
  deriving DecidableEq, Repr

def viewActions : Bytes → Option Action
  | [123, 37] => some .code
  | [123, 123] => some .value
  | [123, 40] => some .child
  | [123, 60] => some .escaped
  | _ => none

/-- The Lua text that `VIEW_ACTIONS` makes of the code of a directive. -/
def Action.source (code : Bytes) : Action → Bytes
  | .code => code
  | .value => ascii "_result[#_result+1] = " ++ code
  | .child =>
      ascii " \n      if not _children[" ++ code ++ ascii "] then\n        _children[" ++ code ++
      ascii "] = _util.load(" ++ code ++
      ascii ")\n      end\n      _result[#_result+1] = _children[" ++ code ++
      ascii "](getfenv())\n    "
  | .escaped => ascii "_result[#_result+1] =  _util.escape(" ++ code ++ ascii ")"

/-- A statement of the program: a text between long brackets that goes to `_result`, or the
statement of a directive. -/
inductive Stmt
  | literal (text : Bytes)
  | act (a : Action) (code : Bytes)
  deriving DecidableEq, Repr

def Stmt.source : Stmt → Bytes
  | .literal text => ascii "_result[#_result+1] = [==[" ++ text ++ ascii "]==]"
  | .act a code => a.source code

/-- `block:sub(3, -3)` -/
def blockCode (block : Bytes) : Bytes := (block.drop 2).take (block.length - 4)

/-- The body of the loop of `compile_view`. -/
def tokenStmts (text block : Bytes) : List Stmt :=
  match viewActions (block.take 2) with
  | some a => [.literal text, .act a (blockCode block)]
  | none => if 2 < block.length then [.literal (text ++ block)] else [.literal text]

def statements (tmpl : Bytes) : List Stmt :=
  (gmatch (pattern "([^\x7b]-)(%b\x7b\x7d)") tmpl).flatMap fun caps =>
    tokenStmts (caps.headD []) (caps.tail.headD [])

def header : Bytes :=
  ascii "local _result, _children = \x7b\x7d, \x7b\x7d\nlocal _t = require('table')\n"

/-- The text that `compile_view` gives to `loadstring`. -/
def compileView (tmpl : Bytes) : Bytes :=
  let tmpl := tmpl ++ [123, 125]
  (ascii "\n").intercalate
    (header :: (statements tmpl).map Stmt.source ++ [ascii "return _t.concat(_result)"])

/-- What a statement adds to `_result`, given what the directives do; directives are taken as
complete statements. `none` is a literal that ends before its text does, so that the rest of the
text is Lua code. -/
def Stmt.run (out : Action → Bytes → Bytes) : Stmt → Option Bytes
  | .literal text => longStringValue 2 text
  | .act a code => some (out a code)

/-- What the statements of a template put together, the sentinel already appended. -/
def collect (out : Action → Bytes → Bytes) (tmpl : Bytes) : Option Bytes :=
  ((statements tmpl).mapM (Stmt.run out)).map List.flatten

/-- What the function returned by `compile_view` renders. -/
def render (out : Action → Bytes → Bytes) (tmpl : Bytes) : Option Bytes :=
  collect out (tmpl ++ [123, 125])

/-- What the text of a program adds to `_result` when Lua runs it from there, with its long
strings read by the lexer. -/
inductive Yields (out : Action → Bytes → Bytes) : Bytes → Bytes → Prop
  | done : Yields out (ascii "return _t.concat(_result)") []
  | literal {s v r w : Bytes} : readLongString 2 s = some (v, 10 :: r) → Yields out r w →
    Yields out (ascii "_result[#_result+1] = [==[" ++ s) (v ++ w)
  | act {a : Action} {code r w : Bytes} : Yields out r w →
    Yields out (a.source code ++ 10 :: r) (out a code ++ w)

theorem yields_statements {out : Action → Bytes → Bytes} {stmts : List Stmt}
    {outputs : List Bytes} (h : stmts.mapM (Stmt.run out) = some outputs) :
    Yields out ((stmts.flatMap fun s => s.source ++ [10]) ++ ascii "return _t.concat(_result)")
      outputs.flatten := by
  induction stmts generalizing outputs with
  | nil =>
    cases h
    exact .done
  | cons s stmts ih =>
    rw [List.mapM_cons] at h
    obtain ⟨v, hv, h⟩ := Option.bind_eq_some_iff.mp h
    obtain ⟨outputs, houtputs, h⟩ := Option.bind_eq_some_iff.mp h
    cases h
    have hrest := ih houtputs
    rw [List.flatMap_cons, List.flatten_cons, List.append_assoc, List.append_assoc]
    cases s with
    | literal text =>
      have hread := readLongString_of_value hv (10 :: ((stmts.flatMap fun s => s.source ++ [10]) ++
        ascii "return _t.concat(_result)"))
      have hyields := Yields.literal hread hrest
      rwa [← List.append_assoc, ← List.append_assoc] at hyields
    | act a code =>
      cases hv
      exact .act hrest

/-- Where `render` gives a text, the program of `compile_view` puts that text together. -/
theorem compileView_yields {out : Action → Bytes → Bytes} {tmpl text : Bytes}
    (h : render out tmpl = some text) :
    ∃ program, compileView tmpl = header ++ 10 :: program ∧ Yields out program text := by
  obtain ⟨outputs, houtputs, rfl⟩ := Option.map_eq_some_iff.mp h
  refine ⟨_, ?_, yields_statements houtputs⟩
  have hlines : ∀ (first : Bytes) (stmts : List Stmt),
      (ascii "\n").intercalate
        (first :: stmts.map Stmt.source ++ [ascii "return _t.concat(_result)"]) =
      first ++ 10 :: ((stmts.flatMap fun s => s.source ++ [10]) ++
        ascii "return _t.concat(_result)") := by
    intro first stmts
    induction stmts generalizing first with
    | nil => simp [List.intercalate, ascii]
    | cons s stmts ih =>
      have hrest := ih s.source
      simp only [List.intercalate, List.cons_append, List.map_cons, List.intersperse_cons_cons,
        List.flatten_cons, List.flatMap_cons, List.append_assoc] at hrest ⊢
      rw [hrest]
      rfl
  exact hlines header (statements (tmpl ++ [123, 125]))

/-- A block with an action whose braces are balanced; `body` is what is behind the first one. -/
structure Directive where
  action : Action
  body : Bytes
  opens : viewActions ((123 :: body).take 2) = some action
  closes : matchBalance 123 125 1 body = some []

def Directive.block (d : Directive) : Bytes := 123 :: d.body

/-- A template is made of the bytes of its text and of directives. -/
abbrev Chunk := UInt8 ⊕ Directive

def Chunk.bytes : Chunk → Bytes := Sum.elim (fun c => [c]) Directive.block

def Chunk.output (out : Action → Bytes → Bytes) : Chunk → Bytes :=
  Sum.elim (fun c => [c]) fun d => out d.action (blockCode d.block)

def bytes (chunks : List Chunk) : Bytes := chunks.flatMap Chunk.bytes

/-- The text as it is, with the outputs of the directives in their places. -/
def output (out : Action → Bytes → Bytes) (chunks : List Chunk) : Bytes :=
  chunks.flatMap (Chunk.output out)

/-- No brace of the text opens a directive. -/
def IsText (chunks : List Chunk) : Prop :=
  ∀ a r, chunks = a ++ Sum.inl 123 :: r → viewActions (123 :: (bytes r).take 1) = none

structure Template where
  chunks : List Chunk
  text : IsText chunks

/-- The texts that survive: every opening brace of a text is closed in it, not at once, and what
goes into one literal, a block with the text in front of it or a text up to the next directive,
has no carriage return, no newline in front and no closing bracket. -/
inductive Faithful : List Chunk → Prop
  | last {x : Bytes} : 123 ∉ x → Verbatim 2 x → Faithful (x.map Sum.inl)
  | block {x body : Bytes} {r : List Chunk} : 123 ∉ x → matchBalance 123 125 1 body = some [] →
    1 < body.length → Verbatim 2 (x ++ 123 :: body) → Faithful r →
    Faithful ((x ++ 123 :: body).map Sum.inl ++ r)
  | directive {x : Bytes} {d : Directive} {r : List Chunk} : 123 ∉ x → Verbatim 2 x → Faithful r →
    Faithful (x.map Sum.inl ++ Sum.inr d :: r)

section segments
variable {x r e body : Bytes}

def segment : Pattern :=
  [.openCapture, .single (.set true [.char 123]) .lazy, .closeCapture, .openCapture,
    .balance 123 125, .closeCapture]

def segmentBlock (s : Bytes) : Bytes → Option Found :=
  doMatch [.closeCapture, .openCapture, .balance 123 125, .closeCapture] [⟨s, none⟩]

theorem segmentBlock_cons (s : Bytes) (c : UInt8) (r : Bytes) :
    segmentBlock s (c :: r) = if c = 123 then
      (matchBalance 123 125 1 r).map fun e =>
        (e, [⟨s, some (s.length - (c :: r).length)⟩, ⟨c :: r, some ((c :: r).length - e.length)⟩])
      else none := by
  rw [segmentBlock, doMatch, closeLast, closeLast]
  simp only [Option.isNone_none, if_true, Option.bind_some]
  rw [doMatch, doMatch]
  split
  · cases matchBalance 123 125 1 r with
    | none => rfl
    | some e => rfl
  · rfl

theorem doMatch_segment (hx : 123 ∉ x) (r : Bytes) :
    doMatch segment [] (x ++ r) =
      minExpand (CharClass.set true [.char 123]).test (segmentBlock (x ++ r)) r := by
  have htest : ∀ c : UInt8, c ≠ 123 → (CharClass.set true [.char 123]).test c = true :=
    forall_byte (by decide +kernel)
  refine minExpand_skip (fun c hc => ?_) r
  have hne : c ≠ 123 := fun h => hx (h ▸ hc)
  exact ⟨htest c hne, fun s => (segmentBlock_cons _ c s).trans (if_neg hne)⟩

theorem doMatch_segment_nil (hx : 123 ∉ x) : doMatch segment [] x = none := by
  have h := doMatch_segment hx []
  rwa [List.append_nil] at h

theorem doMatch_segment_brace (hx : 123 ∉ x) (r : Bytes) :
    doMatch segment [] (x ++ 123 :: r) = (matchBalance 123 125 1 r).map fun e =>
      (e, [⟨x ++ 123 :: r, some x.length⟩, ⟨123 :: r, some ((123 :: r).length - e.length)⟩]) := by
  have hstop : (CharClass.set true [.char 123]).test 123 = false := by decide
  have hlength : (x ++ 123 :: r).length - (123 :: r).length = x.length := by
    rw [List.length_append, Nat.add_sub_cancel]
  rw [doMatch_segment hx, minExpand, hstop, segmentBlock_cons, if_pos rfl, hlength]
  exact Option.or_none

theorem gmatch_segment_nil (hx : 123 ∉ x) : gmatch segment x = [] := by
  induction x with
  | nil => exact gmatch_nil rfl
  | cons c x ih =>
    rw [gmatch_skip (doMatch_segment_nil hx)]
    exact ih fun h => hx (List.mem_cons_of_mem c h)

theorem gmatch_segment_skip (hx : 123 ∉ x) (hr : matchBalance 123 125 1 r = none) :
    gmatch segment (x ++ 123 :: r) = gmatch segment r := by
  induction x with
  | nil =>
    have hnone := doMatch_segment_brace hx r
    rw [hr] at hnone
    exact gmatch_skip hnone
  | cons c x ih =>
    have hnone := doMatch_segment_brace hx r
    rw [hr] at hnone
    exact (gmatch_skip hnone).trans (ih fun h => hx (List.mem_cons_of_mem c h))

theorem gmatch_segment_match (hx : 123 ∉ x) (hbody : matchBalance 123 125 1 body = some [])
    (e : Bytes) :
    gmatch segment (x ++ 123 :: (body ++ e)) = [x, 123 :: body] :: gmatch segment e := by
  have hmatch := doMatch_segment_brace hx (body ++ e)
  rw [matchBalance_append hbody e, List.nil_append, Option.map_some] at hmatch
  have hlt : e.length < (x ++ 123 :: (body ++ e)).length := by
    simp only [List.length_append, List.length_cons]
    omega
  have hlength : (123 :: (body ++ e)).length - e.length = (123 :: body).length := by
    simp only [List.length_append, List.length_cons]
    omega
  have htext : Capture.text ⟨x ++ 123 :: (body ++ e), some x.length⟩ = x := List.take_left
  have hblock : Capture.text ⟨123 :: (body ++ e), some (123 :: body).length⟩ = 123 :: body :=
    List.take_left' rfl
  rw [gmatch_match hmatch hlt, hlength]
  exact congrArg (· :: gmatch segment e) (congrArg₂ (fun a b => [a, b]) htext hblock)

end segments

section collect
variable {out : Action → Bytes → Bytes} {x r e body o : Bytes}

/-- What one round of the loop of `compile_view` leads to. -/
def tokenOutput (out : Action → Bytes → Bytes) (text block : Bytes) : Option Bytes :=
  ((tokenStmts text block).mapM (Stmt.run out)).map List.flatten

theorem collect_eq (out : Action → Bytes → Bytes) (s : Bytes) :
    collect out s = (((gmatch segment s).flatMap fun caps =>
      tokenStmts (caps.headD []) (caps.tail.headD [])).mapM (Stmt.run out)).map List.flatten := by
  have hpattern : pattern "([^\x7b]-)(%b\x7b\x7d)" = segment := by decide
  rw [collect, statements, hpattern]

theorem collect_nil (hx : 123 ∉ x) : collect out x = some [] := by
  rw [collect_eq, gmatch_segment_nil hx]
  rfl

theorem collect_skip (hx : 123 ∉ x) (hr : matchBalance 123 125 1 r = none) :
    collect out (x ++ 123 :: r) = collect out r := by
  rw [collect_eq, gmatch_segment_skip hx hr, ← collect_eq]

theorem collect_token (hx : 123 ∉ x) (hbody : matchBalance 123 125 1 body = some [])
    (e : Bytes) :
    collect out (x ++ 123 :: (body ++ e)) =
      (tokenOutput out x (123 :: body)).bind fun v => (collect out e).map (v ++ ·) := by
  rw [collect_eq, gmatch_segment_match hx hbody, collect_eq, tokenOutput, List.flatMap_cons,
    List.mapM_append]
  change Option.map List.flatten (do
    let v ← (tokenStmts x (123 :: body)).mapM (Stmt.run out)
    let w ← ((gmatch segment e).flatMap fun caps =>
      tokenStmts (caps.headD []) (caps.tail.headD [])).mapM (Stmt.run out)
    pure (v ++ w)) = _
  cases (tokenStmts x (123 :: body)).mapM (Stmt.run out) with
  | none => rfl
  | some vs =>
    cases ((gmatch segment e).flatMap fun caps =>
        tokenStmts (caps.headD []) (caps.tail.headD [])).mapM (Stmt.run out) with
    | none => rfl
    | some ws => exact congrArg some List.flatten_append

theorem tokenOutput_literal (text : Bytes) :
    (([Stmt.literal text]).mapM (Stmt.run out)).map List.flatten = longStringValue 2 text := by
  rw [List.mapM_cons, List.mapM_nil, Stmt.run]
  cases longStringValue 2 text with
  | none => rfl
  | some v => exact congrArg some (List.append_nil v)

theorem tokenOutput_directive (d : Directive) (x : Bytes) :
    tokenOutput out x d.block =
      (longStringValue 2 x).map (· ++ out d.action (blockCode d.block)) := by
  have hopens : viewActions (d.block.take 2) = some d.action := d.opens
  rw [tokenOutput, tokenStmts, hopens]
  simp only [List.mapM_cons, List.mapM_nil, Stmt.run]
  cases longStringValue 2 x with
  | none => rfl
  | some v => exact congrArg (fun t => some (v ++ t)) (List.append_nil _)

theorem tokenOutput_block (h : viewActions ((123 :: body).take 2) = none) :
    tokenOutput out x (123 :: body) =
      if 1 < body.length then longStringValue 2 (x ++ 123 :: body) else longStringValue 2 x := by
  rw [tokenOutput, tokenStmts, h, List.length_cons]
  by_cases hlt : 1 < body.length
  · rw [if_pos hlt]
    dsimp only
    rw [if_pos (Nat.succ_lt_succ hlt)]
    exact tokenOutput_literal _
  · rw [if_neg hlt]
    dsimp only
    rw [if_neg fun hlt' => hlt (Nat.lt_of_succ_lt_succ hlt')]
    exact tokenOutput_literal _

end collect

section chunks
variable {out : Action → Bytes → Bytes} {chunks r : List Chunk}

@[simp] theorem bytes_nil : bytes [] = [] := rfl
@[simp] theorem output_nil : output out [] = [] := rfl

@[simp] theorem bytes_inl (c : UInt8) (r : List Chunk) :
    bytes (Sum.inl c :: r) = c :: bytes r := rfl

@[simp] theorem bytes_inr (d : Directive) (r : List Chunk) :
    bytes (Sum.inr d :: r) = d.block ++ bytes r := rfl

@[simp] theorem output_inl (c : UInt8) (r : List Chunk) :
    output out (Sum.inl c :: r) = c :: output out r := rfl

@[simp] theorem output_inr (d : Directive) (r : List Chunk) :
    output out (Sum.inr d :: r) = out d.action (blockCode d.block) ++ output out r := rfl

theorem bytes_append (a b : List Chunk) : bytes (a ++ b) = bytes a ++ bytes b :=
  List.flatMap_append

theorem output_append (a b : List Chunk) : output out (a ++ b) = output out a ++ output out b :=
  List.flatMap_append

theorem bytes_text (x : Bytes) : bytes (x.map Sum.inl) = x := by
  induction x with
  | nil => rfl
  | cons c x ih => exact congrArg (c :: ·) ih

theorem output_text (x : Bytes) : output out (x.map Sum.inl) = x := by
  induction x with
  | nil => rfl
  | cons c x ih => exact congrArg (c :: ·) ih

theorem IsText.tail {a r : List Chunk} (h : IsText (a ++ r)) : IsText r := fun b t ht =>
  h (a ++ b) t (by rw [ht, List.append_assoc])

theorem IsText.brace {a r : List Chunk} (h : IsText (a ++ Sum.inl 123 :: r)) :
    viewActions (123 :: (bytes r).take 1) = none := h a r rfl

theorem chunks_cases (chunks : List Chunk) : ∃ x : Bytes, 123 ∉ x ∧
    (chunks = x.map Sum.inl ∨ (∃ r, chunks = x.map Sum.inl ++ Sum.inl 123 :: r) ∨
      ∃ d r, chunks = x.map Sum.inl ++ Sum.inr d :: r) := by
  induction chunks with
  | nil => exact ⟨[], List.not_mem_nil, .inl rfl⟩
  | cons c chunks ih =>
    cases c with
    | inr d => exact ⟨[], List.not_mem_nil, .inr (.inr ⟨d, chunks, rfl⟩)⟩
    | inl c =>
      by_cases hc : c = 123
      · exact ⟨[], List.not_mem_nil, .inr (.inl ⟨chunks, by rw [hc]; rfl⟩)⟩
      · obtain ⟨x, hx, h⟩ := ih
        refine ⟨c :: x, fun hmem => ?_, ?_⟩
        · obtain rfl | hmem := List.mem_cons.mp hmem
          · exact hc rfl
          · exact hx hmem
        · obtain rfl | ⟨r, rfl⟩ | ⟨d, r, rfl⟩ := h
          · exact .inl rfl
          · exact .inr (.inl ⟨r, rfl⟩)
          · exact .inr (.inr ⟨d, r, rfl⟩)

/-- Where a text is closed at its end, it leaves the braces around it as they are. -/
theorem matchBalance_balanced {body : Bytes} {k j : ℕ}
    (h : matchBalance 123 125 (k + 1) body = some []) (hj : 0 < j) (s : Bytes) :
    matchBalance 123 125 (j + k + 1) (body ++ s) = matchBalance 123 125 j s := by
  induction body generalizing k with
  | nil => cases h
  | cons c body ih =>
    rw [matchBalance] at h
    rw [List.cons_append, matchBalance]
    split at h
    · next hc =>
      rw [if_pos hc]
      obtain rfl | ⟨k, rfl⟩ : k = 0 ∨ ∃ l, k = l + 1 := by
        cases k with
        | zero => exact .inl rfl
        | succ l => exact .inr ⟨l, rfl⟩
      · rw [if_pos rfl] at h
        cases h
        rw [if_neg (by omega)]
        rfl
      · rw [if_neg (by omega)] at h
        rw [if_neg (by omega)]
        exact ih h
    · next hc =>
      rw [if_neg hc]
      by_cases hopen : c = 123
      · rw [if_pos hopen] at h ⊢
        exact ih h
      · rw [if_neg hopen] at h ⊢
        exact ih h

theorem matchBalance_block (d : Directive) {k : ℕ} (hk : 0 < k) (s : Bytes) :
    matchBalance 123 125 k (d.block ++ s) = matchBalance 123 125 k s := by
  have hbody := matchBalance_balanced d.closes hk s
  rw [Directive.block, List.cons_append, matchBalance, if_neg (by decide), if_pos rfl]
  exact hbody

theorem matchBalance_chunks (chunks : List Chunk) {k : ℕ} (hk : 0 < k) (s : Bytes) :
    (∃ a r, chunks = a ++ r ∧ matchBalance 123 125 k (bytes a) = some []) ∨
      ∃ j, 0 < j ∧ matchBalance 123 125 k (bytes chunks ++ s) = matchBalance 123 125 j s := by
  induction chunks generalizing k with
  | nil => exact .inr ⟨k, hk, rfl⟩
  | cons c chunks ih =>
    cases c with
    | inr d =>
      obtain ⟨a, r, rfl, ha⟩ | ⟨j, hj, hopen⟩ := ih hk
      · refine .inl ⟨Sum.inr d :: a, r, rfl, ?_⟩
        rw [bytes_inr, matchBalance_block d hk, ha]
      · refine .inr ⟨j, hj, ?_⟩
        rw [bytes_inr, List.append_assoc, matchBalance_block d hk, hopen]
    | inl c =>
      by_cases hc : c = 125
      · obtain rfl | hne := eq_or_ne k 1
        · refine .inl ⟨[Sum.inl c], chunks, rfl, ?_⟩
          rw [bytes_inl, matchBalance, if_pos hc, if_pos rfl]
          rfl
        · obtain ⟨a, r, rfl, ha⟩ | ⟨j, hj, hopen⟩ := @ih (k - 1) (by omega)
          · refine .inl ⟨Sum.inl c :: a, r, rfl, ?_⟩
            rw [bytes_inl, matchBalance, if_pos hc, if_neg hne, ha]
          · refine .inr ⟨j, hj, ?_⟩
            rw [bytes_inl, List.cons_append, matchBalance, if_pos hc, if_neg hne, hopen]
      · obtain ⟨a, r, rfl, ha⟩ | ⟨j, hj, hopen⟩ := @ih (if c = 123 then k + 1 else k) (by
          split
          · omega
          · exact hk)
        · refine .inl ⟨Sum.inl c :: a, r, rfl, ?_⟩
          rw [bytes_inl, matchBalance, if_neg hc, ha]
        · refine .inr ⟨j, hj, ?_⟩
          rw [bytes_inl, List.cons_append, matchBalance, if_neg hc, hopen]

theorem matchBalance_sentinel {j : ℕ} (hj : 0 < j) : matchBalance 123 125 j [123, 125] = none := by
  rw [matchBalance, if_neg (by decide), if_pos rfl, matchBalance, if_pos rfl, if_neg (by omega)]
  rfl

end chunks

section faithful
variable {out : Action → Bytes → Bytes} {chunks r : List Chunk} {o : Bytes}

theorem collect_sentinel {x : Bytes} (hx : 123 ∉ x) :
    collect out (x ++ [123, 125]) = longStringValue 2 x := by
  have hclose : matchBalance 123 125 1 [125] = some [] := rfl
  have htoken : collect out (x ++ 123 :: ([125] ++ [])) = _ := collect_token hx hclose []
  rw [tokenOutput_block rfl, if_neg (by decide), collect_nil List.not_mem_nil] at htoken
  refine htoken.trans ?_
  cases longStringValue 2 x with
  | none => rfl
  | some v => exact congrArg some (List.append_nil v)

/-- The statements for a faithful template put its text and its outputs together. -/
theorem collect_faithful (h : Faithful chunks) (htext : IsText chunks)
    (out : Action → Bytes → Bytes) :
    collect out (bytes chunks ++ [123, 125]) = some (output out chunks) := by
  induction h with
  | last hx hverbatim =>
    rw [bytes_text, output_text, collect_sentinel hx, longStringValue_self_iff.mpr hverbatim]
  | @block x body r hx hbody hlength hverbatim hr ih =>
    have hchunks : (x ++ 123 :: body).map Sum.inl ++ r =
        x.map Sum.inl ++ Sum.inl 123 :: (body.map Sum.inl ++ r) := by
      simp only [List.map_append, List.map_cons, List.append_assoc, List.cons_append]
    have hview : viewActions ((123 :: body).take 2) = none := by
      rw [hchunks] at htext
      have hview := htext.brace
      rwa [bytes_append, bytes_text, List.take_append_of_le_length hlength.le] at hview
    have hbytes : bytes ((x ++ 123 :: body).map Sum.inl ++ r) ++ [123, 125] =
        x ++ 123 :: (body ++ (bytes r ++ [123, 125])) := by
      rw [bytes_append, bytes_text]
      simp only [List.append_assoc, List.cons_append]
    rw [hbytes, collect_token hx hbody, tokenOutput_block hview, if_pos hlength,
      longStringValue_self_iff.mpr hverbatim, ih htext.tail, output_append, output_text]
    rfl
  | @directive x d r hx hverbatim hr ih =>
    rw [← List.singleton_append, ← List.append_assoc] at htext
    have htail := ih htext.tail
    have hbytes : bytes (x.map Sum.inl ++ Sum.inr d :: r) ++ [123, 125] =
        x ++ 123 :: (d.body ++ (bytes r ++ [123, 125])) := by
      rw [bytes_append, bytes_text, bytes_inr, Directive.block]
      simp only [List.append_assoc, List.cons_append]
    have hoperation : tokenOutput out x (123 :: d.body) =
        some (x ++ out d.action (blockCode d.block)) := by
      rw [← Directive.block, tokenOutput_directive, longStringValue_self_iff.mpr hverbatim]
      rfl
    rw [hbytes, collect_token hx d.closes, hoperation, htail, output_append,
      output_text, output_inr,
      Option.bind_some, Option.map_some, List.append_assoc]

/-- Every directive puts out `n` bytes. -/
def marked (n : ℕ) : Action → Bytes → Bytes := fun _ _ => List.replicate n 0

theorem text_or_marked (n : ℕ) (a : List Chunk) :
    (∃ y : Bytes, a = y.map Sum.inl) ∨ n ≤ (output (marked n) a).length := by
  induction a with
  | nil => exact .inl ⟨[], rfl⟩
  | cons c a ih =>
    cases c with
    | inl c =>
      obtain ⟨y, rfl⟩ | hle := ih
      · exact .inl ⟨c :: y, rfl⟩
      · exact .inr (hle.trans (Nat.le_succ _))
    | inr d =>
      right
      rw [output_inr, marked, List.length_append, List.length_replicate]
      omega

theorem append_inj_of_le {v w a b : Bytes} (h : v ++ w = a ++ b) (hv : v.length ≤ a.length)
    (hw : w.length ≤ b.length) : v = a ∧ w = b := by
  have hlength := congrArg List.length h
  rw [List.length_append, List.length_append] at hlength
  exact List.append_inj h (by omega)

/-- What a run of the loop may leave: no more than the template should give, and that only if
the template is faithful. -/
structure Bounded (n : ℕ) (chunks : List Chunk) (o : Bytes) : Prop where
  length_le : o.length ≤ (output (marked n) chunks).length
  faithful : o = output (marked n) chunks → Faithful chunks

theorem bounded_of_lt {n : ℕ} (h : o.length < (output (marked n) chunks).length) :
    Bounded n chunks o :=
  ⟨h.le, fun heq => absurd (congrArg List.length heq) (Nat.ne_of_lt h)⟩

theorem bounded_last {n : ℕ} {x : Bytes} (hx : 123 ∉ x) (h : longStringValue 2 x = some o) :
    Bounded n (x.map Sum.inl) o := by
  refine ⟨?_, fun heq => ?_⟩
  · rw [output_text]
    exact longStringValue_length h
  · rw [output_text] at heq
    rw [heq] at h
    exact .last hx (longStringValue_self_iff.mp h)

theorem bounded_directive {n : ℕ} {x v w : Bytes} {d : Directive} (hx : 123 ∉ x)
    (hv : longStringValue 2 x = some v) (hw : Bounded n r w) :
    Bounded n (x.map Sum.inl ++ Sum.inr d :: r) (v ++ List.replicate n 0 ++ w) := by
  have hle := longStringValue_length hv
  have hle' := hw.length_le
  have houtput : output (marked n) (x.map Sum.inl ++ Sum.inr d :: r) =
      x ++ (List.replicate n 0 ++ output (marked n) r) := by
    rw [output_append, output_text, output_inr, marked]
  refine ⟨?_, fun heq => ?_⟩
  · rw [houtput]
    simp only [List.length_append]
    omega
  · rw [houtput, List.append_assoc] at heq
    obtain ⟨rfl, hrest⟩ := append_inj_of_le heq hle (by simp only [List.length_append]; omega)
    exact .directive hx (longStringValue_self_iff.mp hv)
      (hw.faithful (List.append_cancel_left hrest))

theorem bounded_block {n : ℕ} {x v w : Bytes} {a : List Chunk} (hx : 123 ∉ x)
    (ha : matchBalance 123 125 1 (bytes a) = some [])
    (hn : x.length + 1 + (bytes a).length < n)
    (hv : (if 1 < (bytes a).length then longStringValue 2 (x ++ 123 :: bytes a)
      else longStringValue 2 x) = some v) (hw : Bounded n r w) :
    Bounded n (x.map Sum.inl ++ Sum.inl 123 :: (a ++ r)) (v ++ w) := by
  have hle := hw.length_le
  have houtput : output (marked n) (x.map Sum.inl ++ Sum.inl 123 :: (a ++ r)) =
      x ++ 123 :: (output (marked n) a ++ output (marked n) r) := by
    rw [output_append, output_text, output_inl, output_append]
  split at hv
  · next hlt =>
    have hle' := longStringValue_length hv
    rw [List.length_append, List.length_cons] at hle'
    obtain ⟨y, rfl⟩ | hmarked := text_or_marked n a
    · rw [bytes_text] at ha hlt hv hle'
      rw [output_text] at houtput
      have hcut : x ++ 123 :: (y ++ output (marked n) r) =
          (x ++ 123 :: y) ++ output (marked n) r := by
        rw [List.append_assoc, List.cons_append]
      have hchunks : x.map Sum.inl ++ Sum.inl 123 :: (y.map Sum.inl ++ r) =
          (x ++ 123 :: y).map Sum.inl ++ r := by
        simp only [List.map_append, List.map_cons, List.append_assoc, List.cons_append]
      refine ⟨?_, fun heq => ?_⟩
      · rw [houtput]
        simp only [List.length_append, List.length_cons]
        omega
      · rw [houtput, hcut] at heq
        obtain ⟨rfl, hrest⟩ := append_inj_of_le heq
          (by rw [List.length_append, List.length_cons]; omega) hle
        rw [hchunks]
        exact .block hx ha hlt (longStringValue_self_iff.mp hv) (hw.faithful hrest)
    · -- a directive was taken for text, so that its output is missing
      refine bounded_of_lt ?_
      rw [houtput]
      simp only [List.length_append, List.length_cons]
      omega
  · have hle' := longStringValue_length hv
    refine bounded_of_lt ?_
    rw [houtput]
    simp only [List.length_append, List.length_cons]
    omega

/-- With long outputs what is put together is never longer than it should be, and only faithful
templates give what they should. -/
theorem collect_marked {n : ℕ} (hn : (bytes chunks).length < n) (htext : IsText chunks)
    (h : collect (marked n) (bytes chunks ++ [123, 125]) = some o) : Bounded n chunks o := by
  induction hlength : chunks.length using Nat.strong_induction_on generalizing chunks o with
  | _ m ih =>
    obtain ⟨x, hx, rfl | ⟨r, rfl⟩ | ⟨d, r, rfl⟩⟩ := chunks_cases chunks
    · rw [bytes_text, collect_sentinel hx] at h
      exact bounded_last hx h
    · have hbytes : bytes (x.map Sum.inl ++ Sum.inl 123 :: r) ++ [123, 125] =
          x ++ 123 :: (bytes r ++ [123, 125]) := by
        rw [bytes_append, bytes_text, bytes_inl, List.append_assoc, List.cons_append]
      rw [bytes_append, bytes_text, bytes_inl, List.length_append, List.length_cons] at hn
      rw [List.length_append, List.length_cons] at hlength
      rw [hbytes] at h
      obtain ⟨a, r, rfl, ha⟩ | ⟨j, hj, hopen⟩ := matchBalance_chunks r Nat.one_pos [123, 125]
      · have hview : viewActions ((123 :: bytes a).take 2) = none := by
          have hview := htext.brace
          have hpos : 1 ≤ (bytes a).length := by
            cases hcase : bytes a with
            | nil =>
              rw [hcase] at ha
              cases ha
            | cons c s => exact Nat.succ_le_succ (Nat.zero_le _)
          rwa [bytes_append, List.take_append_of_le_length hpos] at hview
        have htail : IsText r := by
          rw [← List.singleton_append, ← List.append_assoc, ← List.append_assoc] at htext
          exact htext.tail
        rw [bytes_append, List.append_assoc, collect_token hx ha, tokenOutput_block hview] at h
        rw [bytes_append, List.length_append] at hn
        rw [List.length_append] at hlength
        obtain ⟨v, hv, h⟩ := Option.bind_eq_some_iff.mp h
        obtain ⟨w, hw, rfl⟩ := Option.map_eq_some_iff.mp h
        have hrest := ih r.length (by omega) (by omega) htail hw rfl
        exact bounded_block hx ha (by omega) hv hrest
      · have htail : IsText r := by
          rw [← List.singleton_append, ← List.append_assoc] at htext
          exact htext.tail
        rw [matchBalance_sentinel hj] at hopen
        rw [collect_skip hx hopen] at h
        have hrest := ih r.length (by omega) (by omega) htail h rfl
        refine bounded_of_lt ?_
        have hle := hrest.length_le
        rw [output_append, output_inl, List.length_append, List.length_cons]
        omega
    · have hbytes : bytes (x.map Sum.inl ++ Sum.inr d :: r) ++ [123, 125] =
          x ++ 123 :: (d.body ++ (bytes r ++ [123, 125])) := by
        rw [bytes_append, bytes_text, bytes_inr, Directive.block]
        simp only [List.append_assoc, List.cons_append]
      have htail : IsText r := by
        rw [← List.singleton_append, ← List.append_assoc] at htext
        exact htext.tail
      rw [bytes_append, bytes_text, bytes_inr, List.length_append, List.length_append] at hn
      rw [List.length_append, List.length_cons] at hlength
      rw [hbytes, collect_token hx d.closes, ← Directive.block, tokenOutput_directive] at h
      obtain ⟨u, hu, h⟩ := Option.bind_eq_some_iff.mp h
      obtain ⟨w, hw, rfl⟩ := Option.map_eq_some_iff.mp h
      obtain ⟨v, hv, rfl⟩ := Option.map_eq_some_iff.mp hu
      have hrest := ih r.length (by omega) (by omega) htail hw rfl
      exact bounded_directive hx hv hrest

end faithful

/-- A template renders to its text, with the outputs of its directives in their places, exactly
if its texts are ones that survive. -/
theorem render_iff (t : Template) :
    (∀ out, render out (bytes t.chunks) = some (output out t.chunks)) ↔ Faithful t.chunks := by
  constructor
  · intro h
    have hmarked := h (marked ((bytes t.chunks).length + 1))
    exact (collect_marked (Nat.lt_succ_self _) t.text hmarked).faithful rfl
  · exact fun h out => collect_faithful h t.text out

def emptyBlock : Template where
  chunks := [Sum.inl 123, Sum.inl 125]
  text := by
    rintro (_ | ⟨_, _ | ⟨_, _ | ⟨_, _⟩⟩⟩) r h
    · cases h
      rfl
    · cases h
    · cases h
    · cases h

/-- The braces vanish. -/
theorem emptyBlock_vanishes :
    ¬ ∀ out, render out (bytes emptyBlock.chunks) = some (output out emptyBlock.chunks) := by
  intro h
  have hlost : render (marked 0) (bytes emptyBlock.chunks) = some [] := by decide +kernel
  cases hlost.symm.trans (h (marked 0))

end Lev.Render
