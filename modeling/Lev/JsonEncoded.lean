import Lev.JsonBlocks

/-! What `json_encode` returns: the text of the pieces it appends, where no string has a
character with an escape, whatever earlier calls left in the kept buffer. -/
namespace Lev.Json
open CInt Slab Memory Run Lua

section text
variable {own : BlockId → ℕ} {lost : BlockId → Prop} {m m' : Mem} {mb : BlockId} {r : Room}
  {u : List UInt8} {p : Piece} {ps : List Piece}

theorem escaped_plain {s : List UInt8} (hs : ∀ c ∈ s, char2escape c = none) :
    s.flatMap escaped = s := by
  induction s with
  | nil => rfl
  | cons c s ih =>
    rw [List.flatMap_cons, ih fun d hd => hs d (List.mem_cons_of_mem _ hd), escaped,
      hs c List.mem_cons_self]
    rfl

theorem appendEscaped_string {s : List UInt8} (hs : ∀ c ∈ s, char2escape c = none)
    (hu : strbufString m = some u) :
    ∃ m', appendEscaped s m = some m' ∧ strbufString m' = some (u ++ s) := by
  induction s generalizing m u with
  | nil => exact ⟨m, rfl, by rwa [List.append_nil]⟩
  | cons c s ih =>
    obtain ⟨m₁, hfirst, hstring₁⟩ := strbufAppend_string hu [c]
    obtain ⟨m₂, hrest, hstring₂⟩ := ih (fun d hd => hs d (List.mem_cons_of_mem _ hd)) hstring₁
    refine ⟨m₂, ?_, by rwa [List.append_assoc] at hstring₂⟩
    obtain ⟨m₀, hstore, rfl⟩ := Option.map_eq_some_iff.mp hfirst
    rw [appendEscaped, storeEscaped, hs c List.mem_cons_self, hstore]
    exact hrest

theorem appendQuoted_string {s : List UInt8} (hs : ∀ c ∈ s, char2escape c = none)
    (hu : strbufString m = some u) :
    ∃ m', appendQuoted s m = some m' ∧ strbufString m' = some (u ++ (Piece.string s).text) := by
  obtain ⟨m₁, hopen, hstring₁⟩ := strbufAppend_string hu [34]
  obtain ⟨m₂, hescaped, hstring₂⟩ := appendEscaped_string hs hstring₁
  obtain ⟨m₃, hclose, hstring₃⟩ := strbufAppend_string hstring₂ [34]
  have htext : u ++ [34] ++ s ++ [34] = u ++ (Piece.string s).text := by
    rw [Piece.text, escaped_plain hs]
    simp only [List.append_assoc, List.cons_append, List.nil_append]
  refine ⟨m₃, ?_, by rwa [htext] at hstring₃⟩
  have hopen' : strbufAppendCharUnsafe m 34 = some m₁ := hopen
  simp only [appendQuoted, hopen', Option.bind_eq_bind, Option.bind_some, hescaped]
  exact hclose

/-- A number and the NUL of `snprintf`, which the next piece overwrites. -/
theorem number_string {t : List UInt8} (ht : t.length < fpconvGFmtBufsize)
    (hu : strbufString m = some u) :
    ∃ m', (strbufStore m (t.take (fpconvGFmtBufsize - 1) ++ [0])).map
        (strbufExtendLength · t.length) = some m' ∧ strbufString m' = some (u ++ t) := by
  obtain ⟨ms, hms, rfl⟩ := Option.map_eq_some_iff.mp hu
  have htake : t.take (fpconvGFmtBufsize - 1) = t := List.take_of_length_le (by omega)
  rw [htake, strbufStore, Mem.onSlice, hms]
  refine ⟨_, rfl, ?_⟩
  have hkeep : (m.heap.store ms.mb (ms.slice + m.buf.length) (t ++ [0])).load ms.mb ms.slice
      m.buf.length = m.heap.load ms.mb ms.slice m.buf.length :=
    Heap.load_store_of_disjoint _ _ _ _ _ fun _ => .inl le_rfl
  have hself := Heap.load_store_self m.heap ms.mb (ms.slice + m.buf.length) (t ++ [0])
  rw [List.length_append, Heap.load_append] at hself
  have hnumber := List.append_inj_left hself (Heap.load_length _ _ _ _)
  change some ((m.heap.store ms.mb (ms.slice + m.buf.length) (t ++ [0])).load ms.mb ms.slice
    (m.buf.length + t.length)) = _
  rw [Heap.load_append, hkeep, hnumber]

theorem perform_string (hm : Held own lost m mb r) (hlen : m.buf.length ≤ r.untilLen)
    (hplain : p.Plain) (hwhole : p.Whole) (hneed : m.buf.length + p.need < 2 ^ 20)
    (hu : strbufString m = some u) :
    ∃ m', p.perform m = some m' ∧ strbufString m' = some (u ++ p.text) := by
  obtain ⟨m₁, hensure, hstring₁⟩ := hm.ensure_string hlen hneed hu
  cases p with
  | char c =>
    obtain ⟨m₂, happend, hstring₂⟩ := strbufAppend_string hstring₁ [c]
    refine ⟨m₂, ?_, hstring₂⟩
    have hensure' : strbufEnsureEmptyLength m [c].length = some m₁ := hensure
    rw [Piece.perform, perform_char, appendMem_eq, hensure']
    exact happend
  | mem c =>
    obtain ⟨m₂, happend, hstring₂⟩ := strbufAppend_string hstring₁ c
    refine ⟨m₂, ?_, hstring₂⟩
    have hensure' : strbufEnsureEmptyLength m c.length = some m₁ := hensure
    rw [Piece.perform, appendMem_eq, hensure']
    exact happend
  | string s =>
    obtain ⟨m₂, hquoted, hstring₂⟩ := appendQuoted_string hplain hstring₁
    refine ⟨m₂, ?_, hstring₂⟩
    have hensure' : strbufEnsureEmptyLength m (s.length * 6 + 2) = some m₁ := hensure
    have happend : jsonAppendString s m = (strbufEnsureEmptyLength m (s.length * 6 + 2)).bind
        (appendQuoted s) := rfl
    rw [Piece.perform, happend, hensure']
    exact hquoted
  | number t =>
    obtain ⟨m₂, hstore, hstring₂⟩ := number_string hwhole hstring₁
    refine ⟨m₂, ?_, hstring₂⟩
    have hensure' : strbufEnsureEmptyLength m fpconvGFmtBufsize = some m₁ := hensure
    obtain ⟨m₀, hm₀, rfl⟩ := Option.map_eq_some_iff.mp hstore
    simp only [Piece.perform, appendFormatted, hensure', Option.bind_eq_bind, Option.bind_some, hm₀,
      Option.pure_def]

theorem charWidth_sum {s : List UInt8} (hs : ∀ c ∈ s, char2escape c = none) :
    (s.map charWidth).sum = s.length := by
  have hone : s.map charWidth = s.map fun _ => 1 :=
    List.map_congr_left fun c hc => charWidth_plain (hs c hc)
  rw [hone, List.map_const', List.sum_replicate, smul_eq_mul, mul_one]

theorem Piece.advance_le_need (hplain : p.Plain) (hwhole : p.Whole) : p.advance ≤ p.need := by
  cases p with
  | char c => exact le_rfl
  | mem c => exact le_rfl
  | number t => exact Nat.le_of_lt hwhole
  | string s =>
    rw [Piece.advance, Piece.need, stringWidth, charWidth_sum hplain]
    omega

theorem performAll_string (hm : Held own lost m mb r) (hroom : 6 < r.untilLen)
    (hlen : m.buf.length ≤ r.untilLen) (hplain : ∀ p ∈ ps, p.Plain) (hwhole : ∀ p ∈ ps, p.Whole)
    (hg : Granted m.buf.length ps) (hu : strbufString m = some u) :
    ∃ m', performAll ps m = some m' ∧ strbufString m' = some (u ++ ps.flatMap Piece.text) := by
  induction ps generalizing m mb r u with
  | nil => exact ⟨m, rfl, by rwa [List.flatMap_nil, List.append_nil]⟩
  | cons p ps ih =>
    obtain ⟨hneed, hrest⟩ := hg
    have hp := hplain p List.mem_cons_self
    have hw := hwhole p List.mem_cons_self
    obtain ⟨m₁, hperform, happends⟩ := perform_spec hm hroom p hneed
    obtain ⟨mb₁, hheld⟩ := happends.held
    obtain ⟨m₂, hperform', hstring⟩ := perform_string hm hlen hp hw hneed hu
    cases hperform.symm.trans hperform'
    have hmore := r.le_ensure (m.buf.length + p.need)
    have hlt := r.lt_ensure (m.buf.length + p.need)
    have hadvance := Piece.advance_le_need hp hw
    have hlength := happends.length
    rw [← hlength] at hrest
    obtain ⟨m', hall, htext⟩ := ih hheld (hroom.trans_le hmore) (by omega)
      (fun q hq => hplain q (List.mem_cons_of_mem _ hq))
      (fun q hq => hwhole q (List.mem_cons_of_mem _ hq)) hrest hstring
    refine ⟨m', ?_, ?_⟩
    · rw [performAll_cons, hperform]
      exact hall
    · rwa [List.flatMap_cons, ← List.append_assoc]

end text

/-- How a call should end that appends `w`. -/
def Written.ending (w : Written Unit) : Ending (List UInt8) :=
  match w.result with
  | .ok _ => .value (w.pieces.flatMap Piece.text)
  | .error e => .error e.message

section encode
variable {own : BlockId → ℕ} {host : Host} {s : State} {τ : Type}

theorem encode_text (hs : s.Ready own) {tables : τ → Pairs τ} {v : Value τ}
    (hplain : ∀ p ∈ (s.data host tables v).pieces, p.Plain)
    (hg : Granted 0 (s.data host tables v).pieces) :
    ∃ h' cfg', jsonEncode host tables s.heap s.cfg v =
      some ((s.data host tables v).ending, h', cfg') := by
  obtain ⟨start, mb, hstart, hheld, hroom, hzero, -⟩ := encodeStart_held hs
  have hwhole := appendData_whole host s.cfg.options tables s.cfg.options.encodeMaxDepth 1 v
  have hempty : strbufString start = some [] := by
    rw [strbufString, hheld.ms, hzero]
    rfl
  rw [← hzero] at hg
  obtain ⟨m, hall, htext⟩ :=
    performAll_string hheld hroom (hzero ▸ Nat.zero_le _) hplain hwhole hg hempty
  have hall' : performAll (appendData host s.cfg.options tables
      s.cfg.options.encodeMaxDepth 1 v).pieces start = some m := hall
  have hending : (s.data host tables v).ending =
      Written.ending (appendData host s.cfg.options tables
      s.cfg.options.encodeMaxDepth 1 v) := rfl
  rw [hending, Written.ending, jsonEncode, hstart]
  simp only [Option.bind_eq_bind, Option.bind_some, hall']
  cases hresult :
      (appendData host s.cfg.options tables s.cfg.options.encodeMaxDepth 1 v).result with
  | error e =>
    cases e with
    | exception typename reason => exact ⟨_, _, rfl⟩
    | nesting depth => exact ⟨_, _, rfl⟩
  | ok a =>
    simp only [htext, Option.bind_some, List.nil_append]
    exact ⟨_, _, rfl⟩

end encode

end Lev.Json
