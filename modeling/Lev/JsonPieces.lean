import Lev.JsonEncode
import Lev.StrbufMemory

/-! What the pieces of an encoding do to the buffer and to the rest of the memory. A piece
asks for room, which may be more than the slab has in one block; what it then writes stays in
the block, except that a string with many escapes reaches further than it asked. -/
namespace Lev.Json
open CInt Slab Memory

/-- How far a character of a string moves the length on: behind an escape by one more. -/
def charWidth (c : UInt8) : ℕ := (char2escape c).elim 1 fun escstr => escstr.length + 1

def stringWidth (s : List UInt8) : ℕ := (s.map charWidth).sum + 2

namespace Piece

def need : Piece → ℕ
  | .char _ => 1
  | .mem c => c.length
  | .string s => s.length * 6 + 2
  | .number _ => fpconvGFmtBufsize

def advance : Piece → ℕ
  | .char _ => 1
  | .mem c => c.length
  | .string s => stringWidth s
  | .number text => text.length

/-- How far the bytes go that a piece stores. -/
def reach : Piece → ℕ
  | .char _ => 1
  | .mem c => c.length
  | .string s => stringWidth s
  | .number text => min (fpconvGFmtBufsize - 1) text.length + 1

end Piece

/-- Single bytes stored one behind the other from `at'` on, the last one first. -/
def byteAccesses (u : ℕ) : ℕ → List UInt8 → List Access
  | _, [] => []
  | at', _ :: str => byteAccesses u (at' + 1) str ++ [⟨at', 1, u⟩]

def charAccesses (u at' : ℕ) (c : UInt8) : List Access :=
  match char2escape c with
  | some escstr => byteAccesses u at' escstr
  | none => [⟨at', 1, u⟩]

def stringAccesses (u : ℕ) : ℕ → List UInt8 → List Access
  | _, [] => []
  | at', c :: s => stringAccesses u (at' + charWidth c) s ++ charAccesses u at' c

/-- The stores of a piece behind `at'` bytes, in a slice of length `u`. -/
def Piece.accesses (u at' : ℕ) : Piece → List Access
  | .char _ => [⟨at', 1, u⟩]
  | .mem c => [⟨at', c.length, u⟩]
  | .string s => ⟨at' + stringWidth s - 1, 1, u⟩ :: (stringAccesses u (at' + 1) s ++ [⟨at', 1, u⟩])
  | .number text => [⟨at', min (fpconvGFmtBufsize - 1) text.length + 1, u⟩]

/-- The slab has room for all the pieces, and they stay in it. -/
def Fits : Room → ℕ → List Piece → Prop
  | _, _, [] => True
  | r, at', p :: ps =>
    at' + p.need < 2 ^ 20 ∧ at' + p.reach ≤ (r.ensure (at' + p.need)).size ∧
      Fits (r.ensure (at' + p.need)) (at' + p.advance) ps

variable {own : BlockId → ℕ} {lost : BlockId → Prop} {h h' h'' : Heap} {m m' : Mem} {mb : BlockId}
  {r : Room}

theorem ensure_spec (hm : Held own lost m mb r) {l : ℕ} (hl : m.buf.length + l < 2 ^ 20) :
    ∃ m' mb', strbufEnsureEmptyLength m l = some m' ∧
      Held own lost m' mb' (r.ensure (m.buf.length + l)) ∧ m'.buf.length = m.buf.length ∧
      m'.log = m.log ∧ Tidy own m.heap m'.heap := by
  obtain ⟨mb', h', hensure, hheld, htidy, -⟩ := hm.ensure hl
  refine ⟨_, mb', ?_, hheld, rfl, rfl, htidy⟩
  rw [strbufEnsureEmptyLength, Mem.onSlice, hm.ms, szAdd_of_lt (by omega)]
  simp only [Window.ensureEmptyLength, Window.onSlice, hensure, Option.map_some]

theorem ensure_crash (hm : Held own lost m mb r) {l : ℕ} (hl : 2 ^ 20 ≤ m.buf.length + l)
    (hint : m.buf.length + l < 2 ^ 31) : strbufEnsureEmptyLength m l = none := by
  rw [strbufEnsureEmptyLength, Mem.onSlice, hm.ms, szAdd_of_lt (by omega)]
  simp only [Window.ensureEmptyLength, Window.onSlice, hm.ensure_crash hl hint, Option.map_none]

theorem store_eq (hm : Held own lost m mb r) (c : List UInt8) :
    strbufStore m c = some ⟨m.heap.store mb m.buf.length c, m.buf,
      ⟨m.buf.length, c.length, r.untilLen⟩ :: m.log⟩ := by
  rw [strbufStore, Mem.onSlice, hm.ms]
  simp only [Window.store, Option.map_some, Nat.zero_add, ← hm.ms]

/-- Bytes were appended to a buffer that had room. -/
structure Wrote (own : BlockId → ℕ) (lost : BlockId → Prop) (mb : BlockId) (r : Room)
    (new : List Access) (width : ℕ) (m m' : Mem) : Prop where
  held : Held own lost m' mb r
  length : m'.buf.length = m.buf.length + width
  log : m'.log = new ++ m.log
  later : Later m.heap m'.heap
  tidy : m.buf.length + width ≤ r.size → Tidy own m.heap m'.heap

theorem Wrote.trans {new new' : List Access} {w w' : ℕ} {m'' : Mem}
    (a : Wrote own lost mb r new w m m') (b : Wrote own lost mb r new' w' m' m'') :
    Wrote own lost mb r (new' ++ new) (w + w') m m'' where
  held := b.held
  length := by rw [b.length, a.length, Nat.add_assoc]
  log := by rw [b.log, a.log, List.append_assoc]
  later := a.later.trans b.later
  tidy hfit := by
    have hlength := a.length
    exact (a.tidy (by omega)).trans (b.tidy (by omega))

theorem wrote_store (hm : Held own lost m mb r) (c : List UInt8) {width : ℕ}
    (hw : c.length ≤ width) :
    Wrote own lost mb r [⟨m.buf.length, c.length, r.untilLen⟩] width m
      ⟨m.heap.store mb m.buf.length c, ⟨m.buf.ms, m.buf.length + width⟩,
        ⟨m.buf.length, c.length, r.untilLen⟩ :: m.log⟩ where
  held := (hm.store m.buf.length c).congr rfl rfl
  length := rfl
  log := rfl
  later := later_store _ _ _ _
  tidy hfit := hm.tidy_store (by omega)

theorem appendStringLoop_spec (hm : Held own lost m mb r) (start : ℕ) {str : List UInt8}
    {i k : ℕ} (hspace : str.length ≤ k) (hlt : k < 2 ^ 64) :
    ∃ h', appendStringLoop start str i k ⟨m.heap, ⟨mb, 0, r.untilLen⟩, m.log⟩ =
        some ⟨h', ⟨mb, 0, r.untilLen⟩, byteAccesses r.untilLen (start + i) str ++ m.log⟩ ∧
      Held own lost { m with heap := h' } mb r ∧ Later m.heap h' ∧
      (start + i + str.length ≤ r.size → Tidy own m.heap h') := by
  induction str generalizing m i k with
  | nil => exact ⟨m.heap, rfl, hm, .refl _, fun _ => .refl _ _⟩
  | cons c str ih =>
    rw [List.length_cons] at hspace
    have hsub : szSub k 1 = k - 1 := szSub_of_le (by omega) hlt
    have hstored := hm.store (start + i) [c]
    obtain ⟨h', hloop, hheld, hlater, htidy⟩ :=
      ih (m := ⟨m.heap.store mb (start + i) [c], m.buf, ⟨start + i, 1, r.untilLen⟩ :: m.log⟩)
        (hstored.congr rfl rfl) (i := i + 1) (k := k - 1) (by omega) (by omega)
    refine ⟨h', ?_, hheld.congr rfl rfl, (later_store _ _ _ _).trans hlater, fun hfit => ?_⟩
    · rw [appendStringLoop, stringSpace, if_neg (by omega), byteAccesses, List.append_assoc]
      simp only [Option.bind_eq_bind, Option.bind_some, hsub, Window.store, Nat.zero_add,
        List.length_singleton]
      exact hloop
    · rw [List.length_cons] at hfit
      exact (hm.tidy_store (by rw [List.length_singleton]; omega)).trans (htidy (by omega))

theorem appendString_spec (hm : Held own lost m mb r) (str : List UInt8)
    (hroom : str.length < r.untilLen) :
    ∃ m', strbufAppendString m str = some m' ∧
      Wrote own lost mb r (byteAccesses r.untilLen m.buf.length str) str.length m m' := by
  have hpos := hm.ok.pos
  have hle := hm.ok.le
  have hsize := hm.ok.size_le
  have hempty : levMemsliceEmptyLength ⟨mb, 0, r.untilLen⟩ = r.untilLen - 1 :=
    szSub_of_le (by dsimp only; omega) (by dsimp only; omega)
  have hspace : str.length ≤ r.untilLen - 1 := by omega
  obtain ⟨h', hloop, hheld, hlater, htidy⟩ := appendStringLoop_spec hm m.buf.length (i := 0)
    hspace (by omega)
  refine ⟨⟨h', ⟨m.buf.ms, m.buf.length + str.length⟩, _ ++ m.log⟩, ?_, hheld.congr rfl rfl, rfl,
    rfl, hlater, fun hfit => htidy (by omega)⟩
  rw [strbufAppendString, Mem.onSlice, hm.ms]
  simp only [levMemsliceAppendString, hempty, hloop, Option.map_some, strbufExtendLength,
    Nat.add_zero]

theorem char2escape_length {c : UInt8} {escstr : List UInt8} (hc : char2escape c = some escstr) :
    escstr.length ≤ 6 := by
  unfold char2escape at hc
  dsimp only at hc
  split_ifs at hc
  all_goals cases hc
  all_goals simp [Lua.ascii]

theorem one_le_charWidth (c : UInt8) : 1 ≤ charWidth c := by
  rw [charWidth]
  cases char2escape c with
  | none => exact le_rfl
  | some escstr => exact Nat.succ_pos _

theorem appendEscaped_cons (hm : Held own lost m mb r) (hroom : 6 < r.untilLen) (c : UInt8) :
    ∃ m', (storeEscaped m c).map (strbufExtendLength · 1) = some m' ∧
      Wrote own lost mb r (charAccesses r.untilLen m.buf.length c) (charWidth c) m m' := by
  rw [storeEscaped, charWidth, charAccesses]
  cases hc : char2escape c with
  | none =>
    refine ⟨_, ?_, wrote_store hm [c] le_rfl⟩
    simp only [store_eq hm, Option.map_some, strbufExtendLength, Option.elim_none]
  | some escstr =>
    have hlength := char2escape_length hc
    obtain ⟨m', happend, hwrote⟩ := appendString_spec hm escstr (by omega)
    refine ⟨strbufExtendLength m' 1, ?_, hwrote.held.congr rfl rfl,
      congrArg (· + 1) hwrote.length, hwrote.log, hwrote.later, fun hfit => hwrote.tidy ?_⟩
    · exact congrArg (Option.map (strbufExtendLength · 1)) happend
    · rw [Option.elim_some] at hfit
      omega

theorem appendEscaped_spec (hm : Held own lost m mb r) (hroom : 6 < r.untilLen) (s : List UInt8) :
    ∃ m', appendEscaped s m = some m' ∧ Wrote own lost mb r
      (stringAccesses r.untilLen m.buf.length s) (s.map charWidth).sum m m' := by
  induction s generalizing m with
  | nil => exact ⟨m, rfl, hm, rfl, rfl, .refl _, fun _ => .refl _ _⟩
  | cons c s ih =>
    obtain ⟨m₁, hfirst, hwrote₁⟩ := appendEscaped_cons hm hroom c
    obtain ⟨m₂, hrest, hwrote₂⟩ := ih hwrote₁.held
    have hboth := hwrote₁.trans hwrote₂
    rw [hwrote₁.length] at hboth
    refine ⟨m₂, ?_, by rwa [List.map_cons, List.sum_cons]⟩
    obtain ⟨m₀, hstore, rfl⟩ := Option.map_eq_some_iff.mp hfirst
    rw [appendEscaped, hstore]
    exact hrest

def appendQuoted (s : List UInt8) (m : Mem) : Option Mem := do
  let m ← strbufAppendCharUnsafe m 34
  let m ← appendEscaped s m
  strbufAppendCharUnsafe m 34

theorem appendCharUnsafe_spec (hm : Held own lost m mb r) (c : UInt8) :
    ∃ m', strbufAppendCharUnsafe m c = some m' ∧
      Wrote own lost mb r [⟨m.buf.length, 1, r.untilLen⟩] 1 m m' ∧
      m'.heap = m.heap.store mb m.buf.length [c] := by
  refine ⟨_, ?_, wrote_store hm [c] le_rfl, rfl⟩
  rw [strbufAppendCharUnsafe, store_eq hm]
  rfl

/-- A string for which there is some room. It may reach further; the last store is that of
the quote. -/
theorem appendQuoted_spec (hm : Held own lost m mb r) (hroom : 6 < r.untilLen) (s : List UInt8) :
    ∃ m', appendQuoted s m = some m' ∧ Wrote own lost mb r
        ((Piece.string s).accesses r.untilLen m.buf.length) (stringWidth s) m m' ∧
      ∃ h₁ : Heap, Later m.heap h₁ ∧ HandedOut h₁ mb 1 ∧ h₁.capacity mb = r.size ∧
        m'.heap = h₁.store mb (m.buf.length + stringWidth s - 1) [34] := by
  obtain ⟨m₁, hopen, hwrote₁, -⟩ := appendCharUnsafe_spec hm 34
  obtain ⟨m₂, hescaped, hwrote₂⟩ := appendEscaped_spec hwrote₁.held hroom s
  obtain ⟨m₃, hclose, hwrote₃, hlast⟩ := appendCharUnsafe_spec hwrote₂.held 34
  have hlength : m₂.buf.length = m.buf.length + stringWidth s - 1 := by
    rw [hwrote₂.length, hwrote₁.length, stringWidth]
    omega
  have hall := (hwrote₁.trans hwrote₂).trans hwrote₃
  rw [hlength] at hall hlast
  refine ⟨m₃, ?_, ?_, m₂.heap, hwrote₁.later.trans hwrote₂.later, hwrote₂.held.handedOut,
    hwrote₂.held.capacity, hlast⟩
  · simp only [appendQuoted, hopen, Option.bind_eq_bind, Option.bind_some, hescaped]
    exact hclose
  · have hwidth : 1 + (s.map charWidth).sum + 1 = stringWidth s := by
      rw [stringWidth]
      omega
    rw [hwidth, hwrote₁.length] at hall
    exact hall

theorem Room.le_ensure (r : Room) (n : ℕ) : r.untilLen ≤ (r.ensure n).untilLen := by
  have hlt := r.lt_ensure n
  by_cases hn : n < r.untilLen
  · exact (congrArg Room.untilLen (if_pos hn : r.ensure n = r)).ge
  · omega

/-- What a piece does that the slab has room for, up to its reach. -/
structure Appends (own : BlockId → ℕ) (lost : BlockId → Prop) (m m' : Mem) (r : Room) (p : Piece) :
    Prop where
  held : ∃ mb, Held own lost m' mb (r.ensure (m.buf.length + p.need))
  length : m'.buf.length = m.buf.length + p.advance
  log : m'.log = p.accesses (r.ensure (m.buf.length + p.need)).untilLen m.buf.length ++ m.log
  later : Later m.heap m'.heap
  tidy : m.buf.length + p.reach ≤ (r.ensure (m.buf.length + p.need)).size → Tidy own m.heap m'.heap

theorem appendMem_eq (m : Mem) (c : List UInt8) : strbufAppendMem m c =
    (strbufEnsureEmptyLength m c.length).bind fun m => strbufAppendMemUnsafe m c := by
  rw [strbufAppendMem, strbufEnsureEmptyLength, Mem.onSlice, Mem.onSlice]
  cases m.buf.ms with
  | none => rfl
  | some ms =>
    simp only [Window.appendMem, Window.ensureEmptyLength, Window.onSlice, levMemsliceAppendMem]
    cases levMemsliceEnsureEmptyLength m.heap ms (toInt (szAdd m.buf.length c.length)) with
    | none => rfl
    | some x => rfl

theorem perform_mem_spec (hm : Held own lost m mb r) {c : List UInt8}
    (hneed : m.buf.length + c.length < 2 ^ 20) :
    ∃ m', strbufAppendMem m c = some m' ∧ Appends own lost m m' r (.mem c) := by
  obtain ⟨m₁, mb', hensure, hheld, hlength, hlog, htidy⟩ := ensure_spec hm hneed
  have hlt := r.lt_ensure (m.buf.length + c.length)
  have hle := hheld.ok.le
  have hwrote := wrote_store hheld c le_rfl
  have hstore := hwrote.tidy (by omega)
  refine ⟨_, ?_, ⟨mb', hwrote.held⟩, congrArg (· + c.length) hlength, ?_,
    htidy.later.trans hstore.later, fun _ => htidy.trans hstore⟩
  · rw [appendMem_eq, hensure, Option.bind_some, strbufAppendMemUnsafe, store_eq hheld]
    rfl
  · rw [hwrote.log, hlength, hlog]
    rfl

theorem perform_char (c : UInt8) (m : Mem) : strbufAppendChar m c = strbufAppendMem m [c] := by
  rw [strbufAppendChar, appendMem_eq, strbufEnsureEmptyLength, Mem.onSlice, Mem.onSlice]
  cases m.buf.ms with
  | none => rfl
  | some ms =>
    simp only [levMemsliceAppendChar, Window.ensureEmptyLength, Window.onSlice,
      List.length_singleton]
    cases levMemsliceEnsureEmptyLength m.heap ms (toInt (szAdd m.buf.length 1)) with
    | none => rfl
    | some x => rfl

theorem perform_number_spec (hm : Held own lost m mb r) {text : List UInt8}
    (hneed : m.buf.length + fpconvGFmtBufsize < 2 ^ 20) :
    ∃ m', appendFormatted text m = some m' ∧ Appends own lost m m' r (.number text) := by
  obtain ⟨m₁, mb', hensure, hheld, hlength, hlog, htidy⟩ := ensure_spec hm hneed
  have hlt := r.lt_ensure (m.buf.length + fpconvGFmtBufsize)
  have hle := hheld.ok.le
  obtain ⟨data, hdata⟩ : ∃ data, data = text.take (fpconvGFmtBufsize - 1) ++ [0] := ⟨_, rfl⟩
  have hsize : data.length = min (fpconvGFmtBufsize - 1) text.length + 1 := by
    rw [hdata, List.length_append, List.length_take, List.length_singleton]
  have hbound : min (fpconvGFmtBufsize - 1) text.length + 1 ≤ fpconvGFmtBufsize := by
    rw [fpconvGFmtBufsize]
    omega
  have hstore := hheld.tidy_store (k := m₁.buf.length) (c := data) (by omega)
  have hformatted : appendFormatted text m = some ⟨m₁.heap.store mb' m₁.buf.length data,
      ⟨m₁.buf.ms, m₁.buf.length + text.length⟩, ⟨m₁.buf.length, data.length,
        (r.ensure (m.buf.length + fpconvGFmtBufsize)).untilLen⟩ :: m₁.log⟩ := by
    rw [appendFormatted, hensure, ← hdata]
    simp only [Option.bind_eq_bind, Option.bind_some, store_eq hheld, strbufExtendLength,
      Option.pure_def]
  refine ⟨_, hformatted, ⟨mb', (hheld.store m₁.buf.length data).congr rfl rfl⟩,
    congrArg (· + text.length) hlength, ?_, htidy.later.trans hstore.later,
    fun _ => htidy.trans hstore⟩
  rw [hlength, hlog, hsize]
  rfl

theorem perform_string_spec (hm : Held own lost m mb r) (hroom : 6 < r.untilLen) {s : List UInt8}
    (hneed : m.buf.length + (s.length * 6 + 2) < 2 ^ 20) :
    ∃ m', jsonAppendString s m = some m' ∧ Appends own lost m m' r (.string s) := by
  obtain ⟨m₁, mb', hensure, hheld, hlength, hlog, htidy⟩ := ensure_spec hm hneed
  have hmore := r.le_ensure (m.buf.length + (s.length * 6 + 2))
  obtain ⟨m', hquoted, hwrote, -⟩ := appendQuoted_spec hheld (hroom.trans_le hmore) s
  refine ⟨m', ?_, ⟨mb', hwrote.held⟩, ?_, ?_, htidy.later.trans hwrote.later,
    fun hfit => htidy.trans (hwrote.tidy ?_)⟩
  · have happend : jsonAppendString s m = (strbufEnsureEmptyLength m (s.length * 6 + 2)).bind
        (appendQuoted s) := rfl
    rw [happend, hensure, Option.bind_some, hquoted]
  · rw [hwrote.length, hlength]
    rfl
  · rw [hwrote.log, hlength, hlog]
    rfl
  · rw [hlength]
    exact hfit

theorem perform_spec (hm : Held own lost m mb r) (hroom : 6 < r.untilLen) (p : Piece)
    (hneed : m.buf.length + p.need < 2 ^ 20) :
    ∃ m', p.perform m = some m' ∧ Appends own lost m m' r p := by
  cases p with
  | char c =>
    obtain ⟨m', happend, hspec⟩ := perform_mem_spec hm (c := [c]) hneed
    exact ⟨m', (perform_char c m).trans happend, hspec.held, hspec.length, hspec.log, hspec.later,
      hspec.tidy⟩
  | mem c => exact perform_mem_spec hm hneed
  | string s => exact perform_string_spec hm hroom hneed
  | number text => exact perform_number_spec hm hneed

end Lev.Json
