import Mathlib

/-! The chunked transfer coding of HTTP/1.1, read as a receiver reads it: chunks with their
sizes in hexadecimal, up to the first one of size 0. Chunk extensions and trailer fields are
left out. -/
namespace Lev.HttpChunked

def crlf : List UInt8 := [13, 10]

def hexValue (b : UInt8) : Option ℕ :=
  if 48 ≤ b ∧ b ≤ 57 then some (b.toNat - 48)
  else if 97 ≤ b ∧ b ≤ 102 then some (b.toNat - 87)
  else if 65 ≤ b ∧ b ≤ 70 then some (b.toNat - 55)
  else none

/-- The number the digits make behind `n`, and what follows them. -/
def sizeLoop (n : ℕ) : List UInt8 → ℕ × List UInt8
  | [] => (n, [])
  | b :: bs =>
    match hexValue b with
    | some d => sizeLoop (n * 16 + d) bs
    | none => (n, b :: bs)

/-- A line with the size of a chunk, and what follows it. -/
def chunkSize : List UInt8 → Option (ℕ × List UInt8)
  | [] => none
  | b :: bs =>
    match hexValue b with
    | none => none
    | some d =>
      match sizeLoop d bs with
      | (n, 13 :: 10 :: rest) => some (n, rest)
      | _ => none

/-- The data of the chunks, and what is left behind the last one. The fuel bounds the
chunks. -/
def decode : ℕ → List UInt8 → Option (List UInt8 × List UInt8)
  | 0, _ => none
  | fuel + 1, bs =>
    match chunkSize bs with
    | none => none
    | some (0, rest) =>
      match rest with
      | 13 :: 10 :: rest => some ([], rest)
      | _ => none
    | some (n + 1, rest) =>
      match rest.drop (n + 1) with
      | 13 :: 10 :: rest' =>
        (decode fuel rest').map fun (data, left) => (rest.take (n + 1) ++ data, left)
      | _ => none

def chunk (text data : List UInt8) : List UInt8 := text ++ crlf ++ data ++ crlf

variable {text data : List UInt8}

section chunks
variable {chunks : List (List UInt8 × List UInt8)} {tail : List UInt8}

/-- The bytes of the chunks, each with the text of its size. -/
def chunked (chunks : List (List UInt8 × List UInt8)) : List UInt8 :=
  chunks.flatMap fun c => chunk c.1 c.2

/-- The chunk without data that ends a body, as it is usually written. -/
def lastChunk : List UInt8 := 48 :: crlf ++ crlf

end chunks

end Lev.HttpChunked
