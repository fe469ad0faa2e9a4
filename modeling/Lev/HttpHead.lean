import Lev.HttpChunked

/-! The head of an HTTP/1.1 message, read as a receiver reads it: a first line, then the
lines up to the first empty one. What follows is the body. -/
namespace Lev.HttpHead
open HttpChunked

/-- The bytes before the first CRLF, and those behind it. -/
def cutLine : List UInt8 → Option (List UInt8 × List UInt8)
  | [] => none
  | b :: bs =>
    if crlf <+: b :: bs then some ([], bs.drop 1)
    else (cutLine bs).map fun (line, rest) => (b :: line, rest)

/-- The lines before the first empty one, and what is behind that. The fuel bounds the
lines. -/
def cutLines : ℕ → List UInt8 → Option (List (List UInt8) × List UInt8)
  | 0, _ => none
  | fuel + 1, bs =>
    match cutLine bs with
    | none => none
    | some (line, rest) =>
      if line = [] then some ([], rest)
      else (cutLines fuel rest).map fun (lines, body) => (line :: lines, body)

/-- The first line, the header lines and the body. -/
def readHead (bs : List UInt8) : Option (List UInt8 × List (List UInt8) × List UInt8) :=
  (cutLine bs).bind fun (line, rest) =>
    (cutLines (rest.length + 1) rest).map fun (lines, body) => (line, lines, body)

variable {line rest bs body : List UInt8} {lines : List (List UInt8)} {fuel : ℕ}

theorem cutLine_append (h : cutLine bs = some (line, rest)) : bs = line ++ crlf ++ rest := by
  induction bs generalizing line with
  | nil => cases h
  | cons b bs ih =>
    rw [cutLine] at h
    split at h
    · next hcrlf =>
      obtain ⟨tail, htail⟩ := hcrlf
      rw [crlf, List.cons_append, List.cons.injEq] at htail
      cases h
      rw [← htail.1, ← htail.2]
      rfl
    · obtain ⟨⟨line, rest⟩, hr, heq⟩ := Option.map_eq_some_iff.mp h
      cases heq
      rw [ih hr]
      rfl

theorem cutLine_some (h : cutLine bs = some (line, rest)) : ¬ crlf <:+: line := by
  induction bs generalizing line with
  | nil => cases h
  | cons b bs ih =>
    rw [cutLine] at h
    split at h
    · cases h
      decide
    · next hnot =>
      obtain ⟨⟨line, rest⟩, hr, heq⟩ := Option.map_eq_some_iff.mp h
      cases heq
      rw [List.infix_cons_iff]
      rintro (hfirst | hlater)
      · refine hnot (hfirst.trans (List.cons_prefix_cons.mpr ⟨rfl, ?_⟩))
        exact ⟨crlf ++ rest, by rw [← List.append_assoc, ← cutLine_append hr]⟩
      · exact ih hr hlater

theorem cutLine_eq (h : ¬ crlf <:+: line) (rest : List UInt8) :
    cutLine (line ++ crlf ++ rest) = some (line, rest) := by
  induction line with
  | nil => rfl
  | cons b line ih =>
    rw [List.infix_cons_iff, not_or] at h
    have hnot : ¬ crlf <+: b :: (line ++ crlf ++ rest) := by
      intro hfirst
      rw [crlf, List.cons_prefix_cons] at hfirst
      obtain ⟨rfl, hfirst⟩ := hfirst
      cases line with
      | nil => exact absurd (List.cons_prefix_cons.mp hfirst).1 (by decide)
      | cons c line =>
        obtain ⟨rfl, -⟩ := List.cons_prefix_cons.mp hfirst
        exact h.1 ⟨line, rfl⟩
    rw [List.cons_append, List.cons_append, cutLine, if_neg hnot, ih h.2]
    rfl

theorem cutLines_some (h : cutLines fuel bs = some (lines, body)) :
    ∀ l ∈ lines, ¬ crlf <:+: l := by
  induction fuel generalizing bs lines with
  | zero => cases h
  | succ fuel ih =>
    rw [cutLines] at h
    cases hcut : cutLine bs with
    | none =>
      rw [hcut] at h
      cases h
    | some r =>
      obtain ⟨line, rest⟩ := r
      rw [hcut] at h
      simp only at h
      split at h
      · cases h
        exact nofun
      · obtain ⟨⟨lines, body⟩, hlines, heq⟩ := Option.map_eq_some_iff.mp h
        cases heq
        exact List.forall_mem_cons.mpr ⟨cutLine_some hcut, ih hlines⟩

/-- Lines as they are sent: a CRLF behind each, and an empty line behind the last. -/
def head (lines : List (List UInt8)) : List UInt8 := (lines.flatMap fun l => l ++ crlf) ++ crlf

theorem cutLines_head (hne : ∀ l ∈ lines, l ≠ []) (hno : ∀ l ∈ lines, ¬ crlf <:+: l)
    (hfuel : lines.length < fuel) (body : List UInt8) :
    cutLines fuel (head lines ++ body) = some (lines, body) := by
  induction lines generalizing fuel with
  | nil =>
    obtain ⟨fuel, rfl⟩ := Nat.exists_eq_add_one.mpr hfuel
    rfl
  | cons l lines ih =>
    obtain ⟨fuel, rfl⟩ := Nat.exists_eq_add_one.mpr (Nat.zero_lt_of_lt hfuel)
    rw [List.forall_mem_cons] at hne hno
    have hsplit : head (l :: lines) ++ body = l ++ crlf ++ (head lines ++ body) := by
      simp [head]
    rw [hsplit, cutLines, cutLine_eq hno.1]
    simp only [if_neg hne.1, ih hne.2 hno.2 (Nat.lt_of_succ_lt_succ hfuel), Option.map_some]

theorem length_le_head (lines : List (List UInt8)) : lines.length ≤ (head lines).length := by
  induction lines with
  | nil => exact Nat.zero_le _
  | cons l lines ih =>
    simp only [head, List.flatMap_cons, List.length_append, List.length_cons] at ih ⊢
    have hcrlf : crlf.length = 2 := rfl
    omega

/-- Lines that are not empty are read back, with what follows them for the body, exactly if no
CRLF is in one. -/
theorem readHead_iff (hne : ∀ l ∈ lines, l ≠ []) :
    readHead (head (line :: lines) ++ body) = some (line, lines, body) ↔
      ∀ l ∈ line :: lines, ¬ crlf <:+: l := by
  have hsplit : head (line :: lines) ++ body = line ++ crlf ++ (head lines ++ body) := by
    simp [head]
  constructor
  · intro h
    obtain ⟨⟨line, rest⟩, hcut, h⟩ := Option.bind_eq_some_iff.mp h
    obtain ⟨⟨lines, body⟩, hlines, heq⟩ := Option.map_eq_some_iff.mp h
    cases heq
    exact List.forall_mem_cons.mpr ⟨cutLine_some hcut, cutLines_some hlines⟩
  · intro hno
    rw [List.forall_mem_cons] at hno
    have hfuel : lines.length < (head lines ++ body).length + 1 := by
      have := length_le_head lines
      rw [List.length_append]
      omega
    rw [hsplit, readHead, cutLine_eq hno.1, Option.bind_some]
    simp only [cutLines_head hne hno.2 hfuel, Option.map_some]

end Lev.HttpHead
