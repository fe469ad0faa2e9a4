import Lev.JsonEncode

/-! The decoder of lev_new_json.c: a tokenizer that collects strings in the scratch buffer
`json->tmp` without asking whether they fit, and a recursive parser. -/
namespace Lev.Json
open CInt Memory Lua Slab

/-- `json_parse_t`, with the memory that `tmp` is in. `data` and `cfg` are arguments. -/
structure Parse where
  mem : Mem
  ptr : ℕ
  currentDepth : ℕ

/-- A Lua error is raised after `json->tmp` was freed. -/
inductive Abort
  | stop (s : Stop)
  | error (msg : String)
  deriving DecidableEq, Repr

abbrev Dec := EStateM Abort Parse

inductive Token
  | objBegin | objEnd | arrBegin | arrEnd
  | string (len : ℕ)
  | number (n : Double)
  | boolean (b : Bool)
  | null | colon | comma | end
  | error (errtype : String)
  deriving DecidableEq

/-- `json_token_type_name`, or the text of an error. -/
def Token.found : Token → String
  | .objBegin => "T_OBJ_BEGIN"
  | .objEnd => "T_OBJ_END"
  | .arrBegin => "T_ARR_BEGIN"
  | .arrEnd => "T_ARR_END"
  | .string _ => "T_STRING"
  | .number _ => "T_NUMBER"
  | .boolean _ => "T_BOOLEAN"
  | .null => "T_NULL"
  | .colon => "T_COLON"
  | .comma => "T_COMMA"
  | .end => "T_END"
  | .error errtype => errtype

inductive TokenType
  | single (t : Token)
  | whitespace | end | error | unknown
  deriving DecidableEq

/-- `ch2token` -/
def ch2token (ch : UInt8) : TokenType :=
  if ch = 0x7b then .single .objBegin
  else if ch = 0x7d then .single .objEnd
  else if ch = 0x5b then .single .arrBegin
  else if ch = 0x5d then .single .arrEnd
  else if ch = 44 then .single .comma
  else if ch = 58 then .single .colon
  else if ch = 0 then .end
  else if ch = 32 ∨ ch = 9 ∨ ch = 10 ∨ ch = 13 then .whitespace
  else if ch ∈ ascii "fiInNt\"+-" ∨ (48 ≤ ch ∧ ch ≤ 57) then .unknown
  else .error

/-- `escape2char`; 0 is a string error. -/
def escape2char (ch : UInt8) : UInt8 :=
  if ch = 34 then 34
  else if ch = 92 then 92
  else if ch = 47 then 47
  else if ch = 98 then 8
  else if ch = 116 then 9
  else if ch = 110 then 10
  else if ch = 102 then 12
  else if ch = 114 then 13
  else if ch = 117 then 117
  else 0

section
variable (data : List UInt8)

/-- `*(json->ptr + k)`; a NUL stands behind the text, and nothing behind that is read. -/
def peek (k : ℕ) : Dec UInt8 := fun json =>
  match (data ++ [0])[json.ptr + k]? with
  | some ch => .ok ch json
  | none => .error (.stop .wildRead) json

def advance (k : ℕ) : Dec Unit := modify fun json => { json with ptr := json.ptr + k }

/-- An operation on `json->tmp`. -/
def onTmp (f : Mem → Option Mem) : Dec Unit := fun json =>
  match f json.mem with
  | some mem => .ok () { json with mem := mem }
  | none => .error (.stop .nullBlock) json

def outOfFuel {α : Type} : Dec α := throw (.stop .outOfFuel)

def hexdigit2int (hex : UInt8) : Option ℕ :=
  let hex' := hex ||| 0x20
  if 48 ≤ hex ∧ hex ≤ 57 then some (hex.toNat - 48)
  else if 97 ≤ hex' ∧ hex' ≤ 102 then some (10 + (hex'.toNat - 97))
  else none

/-- The loop of `decode_hex4`, `n` digits to go from the `k`-th byte on. -/
def decodeHexLoop : ℕ → ℕ → ℕ → Dec (Option ℕ)
  | 0, _, value => pure (some value)
  | n + 1, k, value => do
    let hex ← peek data k
    match hexdigit2int hex with
    | none => pure none
    | some d => decodeHexLoop n (k + 1) (value * 16 + d)

def decodeHex4 (k : ℕ) : Dec (Option ℕ) := decodeHexLoop data 4 k 0

/-- `codepoint_to_utf8`; empty if there is none. -/
def codepointToUtf8 (codepoint : ℕ) : List UInt8 :=
  let tail (n : ℕ) : UInt8 := UInt8.ofNat (n % 64) ||| 0x80
  if codepoint ≤ 0x7f then [UInt8.ofNat codepoint]
  else if codepoint ≤ 0x7ff then [UInt8.ofNat (codepoint / 2 ^ 6) ||| 0xc0, tail codepoint]
  else if codepoint ≤ 0xffff then
    [UInt8.ofNat (codepoint / 2 ^ 12) ||| 0xe0, tail (codepoint / 2 ^ 6), tail codepoint]
  else if codepoint ≤ 0x1fffff then
    [UInt8.ofNat (codepoint / 2 ^ 18) ||| 0xf0, tail (codepoint / 2 ^ 12),
      tail (codepoint / 2 ^ 6), tail codepoint]
  else []

/-- The code point of an escape whose first unit is `codepoint`, and the length of the
escape. -/
def surrogatePair (codepoint : ℕ) : Dec (Option (ℕ × ℕ)) := do
  if codepoint / 2 ^ 11 ≠ 0xd800 / 2 ^ 11 then pure (some (codepoint, 6))
  -- the first of a pair is a high one
  else if codepoint / 2 ^ 10 % 2 = 1 then pure none
  else
    let backslash ← peek data 6
    if backslash ≠ 92 then pure none
    else
      let u ← peek data 7
      if u ≠ 117 then pure none
      else
        match ← decodeHex4 data 8 with
        | none => pure none
        | some surrogateLow =>
          if surrogateLow / 2 ^ 10 ≠ 0xdc00 / 2 ^ 10 then pure none
          else pure (some (codepoint % 2 ^ 10 * 2 ^ 10 + surrogateLow % 2 ^ 10 + 0x10000, 12))

/-- `json_append_unicode_escape`; false is an error. -/
def jsonAppendUnicodeEscape : Dec Bool := do
  match ← decodeHex4 data 2 with
  | none => pure false
  | some codepoint =>
    match ← surrogatePair data codepoint with
    | none => pure false
    | some (codepoint, escapeLen) =>
      let utf8 := codepointToUtf8 codepoint
      if utf8.isEmpty then pure false
      else
        onTmp fun m => strbufAppendMemUnsafe m utf8
        advance escapeLen
        pure true

/-- An escape of the loop of `json_next_string_token`; an error, if it is none. -/
def stringEscape : Dec (Option String) := do
  let ch ← peek data 1
  let ch := escape2char ch
  if ch = 117 then
    let ok ← jsonAppendUnicodeEscape data
    pure (if ok then none else some "invalid unicode escape code")
  else if ch = 0 then pure (some "invalid escape code")
  else
    advance 1
    onTmp fun m => strbufAppendCharUnsafe m ch
    advance 1
    pure none

/-- The loop of `json_next_string_token`, up to the final quote or an error. -/
def stringLoop : ℕ → Dec (Option String)
  | 0 => outOfFuel
  | fuel + 1 => do
    let ch ← peek data 0
    if ch = 34 then pure none
    else if ch = 0 then pure (some "unexpected end of string")
    else if ch = 92 then
      match ← stringEscape data with
      | some errtype => pure (some errtype)
      | none => stringLoop fuel
    else
      onTmp fun m => strbufAppendCharUnsafe m ch
      advance 1
      stringLoop fuel

/-- `json_next_string_token`; the token of an error has its index. -/
def jsonNextStringToken (index : ℕ) : Dec (Token × ℕ) := do
  advance 1
  onTmp fun m => some (strbufReset m)
  match ← stringLoop data (data.length + 1) with
  | some errtype =>
    let json ← get
    pure (.error errtype, json.ptr)
  | none =>
    advance 1
    onTmp strbufEnsureNull
    let json ← get
    pure (.string json.mem.buf.length, index)

/-- `strncmp(json->ptr + k, word, n)` is 0, for the `n` characters of the word; `strncasecmp`
goes through `fold`. -/
def isNext (fold : UInt8 → UInt8) : List UInt8 → ℕ → Dec Bool
  | [], _ => pure true
  | c :: word, k => do
    let ch ← peek data k
    if fold ch = c then isNext fold word (k + 1) else pure false

def tolower (ch : UInt8) : UInt8 := if 65 ≤ ch ∧ ch ≤ 90 then ch + 32 else ch

/-- `json_is_invalid_number`, behind the sign. A `char` from 128 on is negative. -/
def isInvalidUnsigned (k : ℕ) : Dec Bool := do
  let ch ← peek data k
  if ch = 48 then
    let ch2 ← peek data (k + 1)
    pure (ch2 ||| 0x20 = 120 ∨ (48 ≤ ch2 ∧ ch2 ≤ 57))
  else if ch ≤ 57 ∨ 128 ≤ ch then pure false
  else
    let inf ← isNext data tolower (ascii "inf") k
    if inf then pure true else isNext data tolower (ascii "nan") k

def jsonIsInvalidNumber : Dec Bool := do
  let ch ← peek data 0
  if ch = 43 then pure true
  else if ch = 45 then isInvalidUnsigned data 1
  else isInvalidUnsigned data 0

/-- The C string at `json->ptr`. -/
def cString (ptr : ℕ) : List UInt8 := (data.drop ptr).takeWhile (· ≠ 0)

def jsonNextNumberToken (host : Host) (index : ℕ) : Dec (Token × ℕ) := do
  let json ← get
  let (number, len) := host.strtod (cString data json.ptr)
  if len = 0 then pure (.error "invalid number", json.ptr)
  else
    advance len
    pure (.number number, index)

/-- The loop that eats whitespace; what it ends at. -/
def skipWhitespace : ℕ → Dec UInt8
  | 0 => outOfFuel
  | fuel + 1 => do
    let ch ← peek data 0
    if ch2token ch = .whitespace then
      advance 1
      skipWhitespace fuel
    else pure ch

/-- The word the text goes on with, and its length. -/
def wordToken : Dec (Option (Token × ℕ)) := do
  let isTrue ← isNext data id (ascii "true") 0
  if isTrue then pure (some (.boolean true, 4))
  else
    let isFalse ← isNext data id (ascii "false") 0
    if isFalse then pure (some (.boolean false, 5))
    else
      let isNull ← isNext data id (ascii "null") 0
      pure (if isNull then some (.null, 4) else none)

/-- The token at a character that says nothing yet. -/
def unknownToken (host : Host) (o : Options) (ch : UInt8) (index : ℕ) : Dec (Token × ℕ) := do
  if ch = 34 then jsonNextStringToken data index
  else if ch = 45 ∨ (48 ≤ ch ∧ ch ≤ 57) then
    if o.decodeInvalidNumbers then jsonNextNumberToken data host index
    else
      let invalid ← jsonIsInvalidNumber data
      if invalid then pure (.error "invalid number", index)
      else jsonNextNumberToken data host index
  else
    match ← wordToken data with
    | some (t, len) =>
      advance len
      pure (t, index)
    | none =>
      if o.decodeInvalidNumbers then
        let invalid ← jsonIsInvalidNumber data
        if invalid then jsonNextNumberToken data host index
        else pure (.error "invalid token", index)
      else pure (.error "invalid token", index)

/-- `json_next_token`: the token and its index. -/
def jsonNextToken (host : Host) (o : Options) : Dec (Token × ℕ) := do
  let ch ← skipWhitespace data (data.length + 1)
  let json ← get
  match ch2token ch with
  | .error => pure (.error "invalid token", json.ptr)
  | .end => pure (.end, json.ptr)
  | .single t =>
    advance 1
    pure (t, json.ptr)
  | _ => unknownToken data host o ch json.ptr

/-- `json_throw_parse_error` -/
def jsonThrowParseError {α : Type} (exp : String) (token : Token × ℕ) : Dec α := do
  modify fun json => { json with mem := strbufFree json.mem }
  throw (.error ("Expected " ++ exp ++ " but found " ++ token.1.found ++ " at character " ++
    toString (token.2 + 1)))

def jsonDecodeAscend : Dec Unit :=
  modify fun json => { json with currentDepth := json.currentDepth - 1 }

/-- `json_decode_descend` -/
def jsonDecodeDescend (host : Host) (o : Options) (top slots : ℕ) : Dec Unit := fun json =>
  let depth := json.currentDepth + 1
  if depth ≤ o.decodeMaxDepth ∧ host.checkstack top slots then
    .ok () { json with currentDepth := depth }
  else
    .error (.error ("Found too many nested data structures (" ++ toString depth ++
      ") at character " ++ toString json.ptr)) ⟨strbufFree json.mem, json.ptr, depth⟩

/-- `lua_pushlstring` of the string a token points to. -/
def pushString (len : ℕ) : Dec (List UInt8) := fun json =>
  match json.mem.buf.ms with
  | some ms => .ok (json.mem.heap.load ms.mb ms.slice len) json
  | none => .error (.stop .nullBlock) json

variable (host : Host) (o : Options)

def objectMember (process : Token × ℕ → Dec LuaValue) : Dec LuaValue := do
  let token ← jsonNextToken data host o
  if token.1 = .colon then
    let token ← jsonNextToken data host o
    process token
  else jsonThrowParseError "colon" token

/-- The loop of `json_parse_object_context`, with the table so far and the token of a key. -/
def objectMembers (process : Token × ℕ → Dec LuaValue) :
    ℕ → List (LuaValue × LuaValue) → Token × ℕ → Dec (List (LuaValue × LuaValue))
  | 0, _, _ => outOfFuel
  | fuel + 1, hash, token =>
    match token.1 with
    | .string len => do
      let key ← pushString len
      let value ← objectMember data host o process
      let hash := (rawset [] hash (.string key) value).2
      let token ← jsonNextToken data host o
      match token.1 with
      | .objEnd => pure hash
      | .comma => do
        let token ← jsonNextToken data host o
        objectMembers process fuel hash token
      | _ => jsonThrowParseError "comma or object end" token
    | _ => jsonThrowParseError "object key string" token

/-- The loop of `json_parse_array_context`, with the elements so far. -/
def arrayElements (process : Token × ℕ → Dec LuaValue) :
    ℕ → List LuaValue → Token × ℕ → Dec (List LuaValue)
  | 0, _, _ => outOfFuel
  | fuel + 1, arr, token => do
    let value ← process token
    let arr := (rawseti arr [] (arr.length + 1) value).1
    let token ← jsonNextToken data host o
    match token.1 with
    | .arrEnd => pure arr
    | .comma => do
      let token ← jsonNextToken data host o
      arrayElements process fuel arr token
    | _ => jsonThrowParseError "comma or array end" token

/-- `json_parse_object_context`; the table is named by the index of its brace. -/
def jsonParseObjectContext (process : Token × ℕ → Dec LuaValue) (index : ℕ) : Dec LuaValue := do
  let token ← jsonNextToken data host o
  if token.1 = .objEnd then
    jsonDecodeAscend
    pure (.table index [] [])
  else
    let hash ← objectMembers data host o process (data.length + 1) [] token
    jsonDecodeAscend
    pure (.table index [] hash)

def jsonParseArrayContext (process : Token × ℕ → Dec LuaValue) (index : ℕ) : Dec LuaValue := do
  let token ← jsonNextToken data host o
  if token.1 = .arrEnd then
    jsonDecodeAscend
    pure (.table index [] [])
  else
    let arr ← arrayElements data host o process (data.length + 1) [] token
    jsonDecodeAscend
    pure (.table index arr [])

/-- `json_process_value`, with `levels` of tables left until `decode_max_depth`, and the Lua stack
`top` high. -/
def jsonProcessValue (levels top : ℕ) (token : Token × ℕ) : Dec LuaValue :=
  match token.1 with
  | .string len => do
    let s ← pushString len
    pure (.string s)
  | .number n => pure (.number n)
  | .boolean b => pure (.boolean b)
  | .null => pure (.foreign .lightuserdata)
  | .objBegin => do
    jsonDecodeDescend host o top 3
    match levels with
    | 0 => outOfFuel
    -- a value is pushed above the table and the key
    | levels + 1 => jsonParseObjectContext data host o (jsonProcessValue levels (top + 2)) token.2
  | .arrBegin => do
    jsonDecodeDescend host o top 2
    match levels with
    | 0 => outOfFuel
    | levels + 1 => jsonParseArrayContext data host o (jsonProcessValue levels (top + 1)) token.2
  | _ => jsonThrowParseError "value" token

/-- What `json_decode` does with its scratch buffer; the text is alone on the Lua stack. -/
def decodeText : Dec LuaValue := do
  let token ← jsonNextToken data host o
  let value ← jsonProcessValue data host o o.decodeMaxDepth 1 token
  let token ← jsonNextToken data host o
  if token.1 = .end then
    modify fun json => { json with mem := strbufFree json.mem }
    pure value
  else jsonThrowParseError "the end" token

/-- `json_decode` -/
def jsonDecode (h : Heap) : Except Stop (Ending LuaValue × Heap) :=
  if 2 ≤ data.length ∧ (data.getD 0 0 = 0 ∨ data.getD 1 0 = 0) then
    .ok (.error "JSON parser does not support UTF-16 or UTF-32", h)
  else
    match strbufInit h (toInt data.length) with
    | none => .error .nullBlock
    | some mem =>
      match decodeText data host o ⟨mem, 0, 0⟩ with
      | .ok value json => .ok (.value value, json.mem.heap)
      | .error (.error msg) json => .ok (.error msg, json.mem.heap)
      | .error (.stop s) _ => .error s

end

/-- A libc for texts in which no number stands but 0, and the limit of LuaJIT. -/
def zeroHost : Host where
  format _ _ := ascii "0"
  format_length _ _ _ := by decide
  strtod s := if s.head? = some 48 then (.ofInt 0, 1) else (.ofInt 0, 0)
  strtod_le s := by
    cases s with
    | nil => exact le_rfl
    | cons c s =>
      split_ifs
      · exact Nat.succ_pos _
      · exact Nat.zero_le _
  maxCStack := 8000

end Lev.Json
