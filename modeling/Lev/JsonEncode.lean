import Lev.LuaText
import Lev.LuaValue
import Lev.Strbuf

/-! The encoder of lev_new_json.c. What it appends depends on the value and the options and
never on the memory: `appendData` gives the pieces it appends, in order, and the error it may
end in. Each piece is an operation on the string buffer. -/
namespace Lev.Json
open CInt Memory Lua Slab

/-- A Lua value, with tables named by `τ`. `null` is `json.null`, the lightuserdata NULL. -/
inductive Value (τ : Type)
  | nil
  | boolean (b : Bool)
  | number (n : Double)
  | string (s : List UInt8)
  | null
  | foreign (t : Foreign)
  | table (t : τ)

/-- The pairs of a table, in the order `lua_next` visits them. -/
abbrev Pairs (τ : Type) := List (Value τ × Value τ)

variable {τ : Type}

def Value.typename : Value τ → String
  | .nil => "nil"
  | .boolean _ => "boolean"
  | .number _ => "number"
  | .string _ => "string"
  | .null => "userdata"
  | .foreign .lightuserdata => "userdata"
  | .foreign .function => "function"
  | .foreign .userdata => "userdata"
  | .foreign .thread => "thread"
  | .foreign .unknown => "cdata"
  | .table _ => "table"

/-- What the module is linked with: the functions of libc that print and read numbers, and the
number of stack slots that Lua grants a C function. A number printed with `%.14g` or less has at
most 21 characters; `strtod` reads a prefix of its string. -/
structure Host where
  format : ℕ → Double → List UInt8
  format_length : ∀ p d, p ≤ 14 → (format p d).length ≤ 21
  strtod : List UInt8 → Double × ℕ
  strtod_le : ∀ s, (strtod s).2 ≤ s.length
  maxCStack : ℕ

/-- `lua_checkstack`, when the stack is `top` high. -/
def Host.checkstack (host : Host) (top slots : ℕ) : Bool := top + slots ≤ host.maxCStack

theorem Host.checkstack_iff (host : Host) {top slots : ℕ} (hslots : 0 < slots) :
    host.checkstack top slots = true ↔ slots ≤ host.maxCStack - top := by
  rw [Host.checkstack, decide_eq_true_iff]
  omega

inductive InvalidNumbers
  | off | on | null
  deriving DecidableEq, Repr

/-- The settings of `json_config_t`. -/
structure Options where
  encodeSparseConvert : Bool
  encodeSparseRatio : ℕ
  encodeSparseSafe : ℕ
  encodeMaxDepth : ℕ
  encodeInvalidNumbers : InvalidNumbers
  encodeNumberPrecision : ℕ
  decodeInvalidNumbers : Bool
  decodeMaxDepth : ℕ
  precision_le : encodeNumberPrecision ≤ 14

def Options.default : Options where
  encodeSparseConvert := false
  encodeSparseRatio := 2
  encodeSparseSafe := 10
  encodeMaxDepth := 1000
  encodeInvalidNumbers := .off
  encodeNumberPrecision := 14
  decodeInvalidNumbers := true
  decodeMaxDepth := 1000
  precision_le := le_rfl

/-- `char2escape` -/
def char2escape (c : UInt8) : Option (List UInt8) :=
  let digit (n : ℕ) : UInt8 := (ascii "0123456789abcdef").getD n 0
  if c = 8 then some (ascii "\\b")
  else if c = 9 then some (ascii "\\t")
  else if c = 10 then some (ascii "\\n")
  else if c = 12 then some (ascii "\\f")
  else if c = 13 then some (ascii "\\r")
  else if c < 32 ∨ c = 127 then
    some (ascii "\\u00" ++ [digit (c.toNat / 16), digit (c.toNat % 16)])
  else if c = 34 then some (ascii "\\\"")
  else if c = 47 then some (ascii "\\/")
  else if c = 92 then some (ascii "\\\\")
  else none

/-- One append of the encoder; a string and a number come with the room they ask for. -/
inductive Piece
  | char (c : UInt8)
  | mem (c : List UInt8)
  | string (s : List UInt8)
  | number (text : List UInt8)
  deriving DecidableEq, Repr

/-- The `if` and `else` in the loop of `json_append_string`. -/
def storeEscaped (m : Mem) (c : UInt8) : Option Mem :=
  match char2escape c with
  | some escstr => strbufAppendString m escstr
  | none => strbufStore m [c]

/-- The loop of `json_append_string`. The macro for a plain character is two statements, and
only the first of them is the `else`: the length grows by one more behind an escape too. -/
def appendEscaped : List UInt8 → Mem → Option Mem
  | [], m => some m
  | c :: str, m =>
    (storeEscaped m c).bind fun m => appendEscaped str (strbufExtendLength m 1)

def jsonAppendString (str : List UInt8) (m : Mem) : Option Mem := do
  let m ← strbufEnsureEmptyLength m (str.length * 6 + 2)
  let m ← strbufAppendCharUnsafe m 34
  let m ← appendEscaped str m
  strbufAppendCharUnsafe m 34

def fpconvGFmtBufsize : ℕ := 32

/-- The end of `json_append_number`; `snprintf` writes 31 characters and a NUL at most. -/
def appendFormatted (text : List UInt8) (m : Mem) : Option Mem := do
  let m ← strbufEnsureEmptyLength m fpconvGFmtBufsize
  let m ← strbufStore m (text.take (fpconvGFmtBufsize - 1) ++ [0])
  return strbufExtendLength m text.length

def Piece.perform : Piece → Mem → Option Mem
  | .char c, m => strbufAppendChar m c
  | .mem c, m => strbufAppendMem m c
  | .string s, m => jsonAppendString s m
  | .number text, m => appendFormatted text m

inductive EncodeError
  | exception (typename reason : String)
  | nesting (depth : ℕ)
  deriving DecidableEq, Repr

def EncodeError.message : EncodeError → String
  | .exception typename reason => "Cannot serialise " ++ typename ++ ": " ++ reason
  | .nesting depth => "Cannot serialise, excessive nesting (" ++ toString depth ++ ")"

/-- What a part of the encoder appends, and what it returns or the error it raises. -/
structure Written (α : Type) where
  pieces : List Piece
  result : Except EncodeError α

instance : Monad Written where
  pure a := ⟨[], .ok a⟩
  bind x f :=
    match x.result with
    | .ok a => ⟨x.pieces ++ (f a).pieces, (f a).result⟩
    | .error e => ⟨x.pieces, .error e⟩

def append (p : Piece) : Written Unit := ⟨[p], .ok ()⟩

/-- `json_encode_exception` -/
def encodeException {α : Type} (typename reason : String) : Written α :=
  ⟨[], .error (.exception typename reason)⟩

def appendNumber (host : Host) (o : Options) (num : Double) : Written Unit :=
  let text := host.format o.encodeNumberPrecision num
  match o.encodeInvalidNumbers with
  | .off =>
    if num.isinf ∨ num.isnan then encodeException "number" "must not be NaN or Infinity"
    else append (.number text)
  | .on =>
    if num.isnan then append (.mem (ascii "NaN"))
    else if num.isinf then append (.mem (ascii (if num.negative then "-Infinity" else "Infinity")))
    else append (.number text)
  | .null =>
    if num.isinf ∨ num.isnan then append (.mem (ascii "null")) else append (.number text)

/-- `max` after the key `k`; none if `k` is no integer from 1 on. An integer that does not fit
becomes INT_MIN in the cast, as does infinity. -/
def maxIndex (max : ℤ) (k : Double) : Option ℤ :=
  if k.isinf then (if k.negative then none else some (-2 ^ 31))
  else
    match k.toInt? with
    | none => none
    | some z =>
      if z < 1 then none
      else if max < z then some (if z < 2 ^ 31 then z else -2 ^ 31)
      else some max

/-- The loop of `lua_array_length`: `max` and `items`, or a key that is no index. -/
def countIndices : Pairs τ → ℤ → ℕ → Option (ℤ × ℕ)
  | [], max, items => some (max, items)
  | (.number k, _) :: pairs, max, items =>
    match maxIndex max k with
    | none => none
    | some max => countIndices pairs max (items + 1)
  | _ :: _, _, _ => none

def luaArrayLength (o : Options) (pairs : Pairs τ) : Written ℤ :=
  match countIndices pairs 0 0 with
  | none => pure (-1)
  | some (max, items) =>
    if 0 < o.encodeSparseRatio ∧ toInt (items * o.encodeSparseRatio) < max ∧
        o.encodeSparseSafe < max then
      if o.encodeSparseConvert then pure (-1)
      else encodeException "table" "excessively sparse array"
    else pure max

/-- `lua_rawgeti` -/
def rawgeti (pairs : Pairs τ) (i : ℕ) : Value τ :=
  let found := pairs.find? fun pair =>
    match pair.1 with
    | .number k => k.eq (.ofInt i)
    | _ => false
  (found.map Prod.snd).getD .nil

def appendComma (comma : Bool) : Written Unit := if comma then append (.char 44) else pure ()

/-- `n` elements, from the one with index `i` on. -/
def arrayLoop (appendData : Value τ → Written Unit) (pairs : Pairs τ) :
    ℕ → ℕ → Bool → Written Unit
  | 0, _, _ => pure ()
  | n + 1, i, comma => do
    appendComma comma
    appendData (rawgeti pairs i)
    arrayLoop appendData pairs n (i + 1) true

def appendArray (appendData : Value τ → Written Unit) (pairs : Pairs τ) (arrayLength : ℕ) :
    Written Unit := do
  append (.char 0x5b)
  arrayLoop appendData pairs arrayLength 1 false
  append (.char 0x5d)

def appendKey (host : Host) (o : Options) : Value τ → Written Unit
  | .number k => do
    append (.char 34)
    appendNumber host o k
    append (.mem (ascii "\":"))
  | .string k => do
    append (.string k)
    append (.char 58)
  | k => encodeException k.typename "table key must be a number or string"

def objectLoop (host : Host) (o : Options) (appendData : Value τ → Written Unit) :
    Pairs τ → Bool → Written Unit
  | [], _ => pure ()
  | (k, v) :: pairs, comma => do
    appendComma comma
    appendKey host o k
    appendData v
    objectLoop host o appendData pairs true

def appendObject (host : Host) (o : Options) (appendData : Value τ → Written Unit)
    (pairs : Pairs τ) : Written Unit := do
  append (.char 0x7b)
  objectLoop host o appendData pairs false
  append (.char 0x7d)

/-- `json_check_encode_depth` -/
def checkEncodeDepth (host : Host) (o : Options) (currentDepth top : ℕ) : Written Unit :=
  if currentDepth ≤ o.encodeMaxDepth ∧ host.checkstack top 3 then pure ()
  else ⟨[], .error (.nesting currentDepth)⟩

/-- `json_append_data`, with `levels` of tables left until `encode_max_depth`; they bound the
recursion, also where tables contain themselves. The value is at the top of the Lua stack. -/
def appendData (host : Host) (o : Options) (tables : τ → Pairs τ) (levels top : ℕ) (v : Value τ) :
    Written Unit :=
  match v with
  | .string s => append (.string s)
  | .number n => appendNumber host o n
  | .boolean b => append (.mem (ascii (if b then "true" else "false")))
  | .nil => append (.mem (ascii "null"))
  | .null => append (.mem (ascii "null"))
  | .foreign t => encodeException (Value.foreign t : Value τ).typename "type not supported"
  | .table t => do
    checkEncodeDepth host o (o.encodeMaxDepth - levels + 1) top
    match levels with
    -- not reached: the depth was too much
    | 0 => pure ()
    | levels + 1 =>
      let len ← luaArrayLength o (tables t)
      if 0 < len then
        appendArray (appendData host o tables levels (top + 1)) (tables t) len.toNat
      -- the key is below the value
      else appendObject host o (appendData host o tables levels (top + 2)) (tables t)

/-- What ends a call that neither returns nor raises a Lua error. Fuel is the model's own. -/
inductive Stop
  | nullBlock | wildRead | outOfFuel
  deriving DecidableEq, Repr

/-- How a call ends: with its result, or with a Lua error. -/
inductive Ending (α : Type)
  | value (a : α)
  | error (msg : String)
  deriving DecidableEq, Repr

/-- `json_config_t`, without the tables of constants. -/
structure Config where
  options : Options
  encodeKeepBuffer : Bool
  encodeBuf : Strbuf

def encodeStart (h : Heap) (cfg : Config) : Option Mem :=
  if cfg.encodeKeepBuffer then some (strbufReset ⟨h, cfg.encodeBuf, []⟩) else strbufInit h 0

/-- A buffer that is not kept is freed. -/
def encodeEnd (cfg : Config) (m : Mem) : Heap × Config :=
  if cfg.encodeKeepBuffer then (m.heap, { cfg with encodeBuf := m.buf })
  else ((strbufFree m).heap, cfg)

/-- The end of a call in `json_encode_exception`. -/
def raiseException (cfg : Config) (m : Mem) (typename reason : String) :
    Ending (List UInt8) × Heap × Config :=
  (.error (EncodeError.exception typename reason).message, encodeEnd cfg m)

/-- The end of a call in `json_check_encode_depth`. -/
def raiseNesting (cfg : Config) (m : Mem) (depth : ℕ) : Ending (List UInt8) × Heap × Config :=
  (.error (EncodeError.nesting depth).message, encodeEnd cfg m)

def performAll (pieces : List Piece) (m : Mem) : Option Mem :=
  pieces.foldlM (fun m p => p.perform m) m

/-- `json_encode` of the argument, which is alone on the Lua stack, up to the string it pushes;
`none` is the crash on a NULL block. -/
def jsonEncode (host : Host) (tables : τ → Pairs τ) (h : Heap) (cfg : Config) (v : Value τ) :
    Option (Ending (List UInt8) × Heap × Config) := do
  let m ← encodeStart h cfg
  let data := appendData host cfg.options tables cfg.options.encodeMaxDepth 1 v
  let m ← performAll data.pieces m
  match data.result with
  | .error (.exception typename reason) => return raiseException cfg m typename reason
  | .error (.nesting depth) => return raiseNesting cfg m depth
  | .ok () =>
    let json ← strbufString m
    return (.value json, encodeEnd cfg m)

/-- `json_cfg_encode_keep_buffer`, given a boolean. -/
def jsonCfgEncodeKeepBuffer (h : Heap) (cfg : Config) (keep : Bool) : Option (Heap × Config) :=
  if keep = cfg.encodeKeepBuffer then some (h, cfg)
  else if keep then
    (strbufInit h 0).map fun m =>
      (m.heap, { cfg with encodeKeepBuffer := true, encodeBuf := m.buf })
  else
    let m := strbufFree ⟨h, cfg.encodeBuf, []⟩
    some (m.heap, { cfg with encodeKeepBuffer := false, encodeBuf := m.buf })

end Lev.Json
