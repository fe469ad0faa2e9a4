import Lev.ReadFileSeparate

/-! One call of `lev.fs.readFile`, with a callback or without one: what the caller receives, and
what becomes of the descriptor, for every outcome of its four requests. -/
namespace Lev.Fs
open CInt Slab Memory Buffer Run

/-- What the caller receives: an error name or nil, and a Buffer or nil. -/
abbrev Result := Option String × Option ObjId

/-- A call of `readFile` with a callback; `results` logs what `final_cb` is called with. Its
descriptor is a parameter of the callback of open, so it is what open returned. -/
structure CallbackCall where
  call : Call
  buffers : Buffer.State
  results : List Result

/-- A request completes and its callback runs. The callback of close does nothing. -/
def resumeCallback (s : CallbackCall) : Reply → CallbackCall
  | .error name =>
    match s.call.waits with
    | .stat | .opening _ | .reading _ =>
      { s with
        call := { s.call with waits := .returned (some name) none }
        results := s.results ++ [(some name, none)] }
    | .closing buf => { s with call := { s.call with waits := .returned none (some buf) } }
    | _ => s
  | .stat size =>
    match s.call.waits with
    | .stat => { s with call := { s.call with waits := .opening size } }
    | _ => s
  | .opened fd =>
    match s.call.waits with
    | .opening size =>
      let c := { s.call with opened := some fd }
      match newBuffer s.buffers size with
      | none => { s with call := { c with waits := .crashed } }
      | some (buf, ms, b) => { s with call := fsRead (some fd) ms buf size c, buffers := b }
    | _ => s
  | .read data =>
    match s.call.waits with
    | .reading buf =>
      { call := fsClose s.call.opened buf s.call
        buffers := fill s.buffers buf data
        results := s.results ++ [(none, some buf)] }
    | _ => s
  | .closed =>
    match s.call.waits with
    | .closing buf => { s with call := { s.call with waits := .returned none (some buf) } }
    | _ => s

/-- What the requests of a call come to, those of them that are made. -/
structure Outcomes where
  stat : Except String ℕ
  opened : Except String ℤ
  read : Except String (List UInt8)
  close : Except String Unit

def reply {α : Type} (f : α → Reply) : Except String α → Reply
  | .error name => .error name
  | .ok a => f a

def Outcomes.replies (out : Outcomes) : List Reply :=
  [reply .stat out.stat, reply .opened out.opened, reply .read out.read,
    reply (fun _ => .closed) out.close]

inductive Form
  | direct | callback
  deriving DecidableEq, Repr

/-- What a call leaves behind: what the caller received, what open returned, what was passed to
close, and the Buffers. -/
structure Report where
  results : List Result
  opened : List ℤ
  closes : List ℤ
  buffers : Buffer.State

def Waits.results : Waits → List Result
  | .returned err buf => [(err, buf)]
  | _ => []

/-- The one call of a process whose Buffers are in any state. -/
def report (form : Form) (b : Buffer.State) (path : String) (out : Outcomes) : Report :=
  match form with
  | .direct =>
    let s := exec next (start b) (.readFile path :: out.replies.map (.complete 0))
    let c := (s.calls[0]?).getD ⟨path, .stat, none, [], []⟩
    ⟨c.waits.results, c.opened.toList, c.closes, s.buffers⟩
  | .callback =>
    let s := out.replies.foldl resumeCallback ⟨⟨path, .stat, none, [], []⟩, b, []⟩
    ⟨s.results, s.call.opened.toList, s.call.closes, s.buffers⟩

/-- The caller receives one result, what open returned is closed once, and a Buffer that is
received holds what was read. -/
structure Delivers (out : Outcomes) (rep : Report) : Prop where
  once : rep.results.length = 1
  released : rep.closes = rep.opened
  whole : ∀ buf, (none, some buf) ∈ rep.results → ∃ data ms, out.read = .ok data ∧
    rep.buffers.slice? buf = some ms ∧ ms.contents rep.buffers.heap = data

/-- What `Buffer.new` covers for a size: a size of 0 stands for what the block holds. -/
def extent (b : Buffer.State) (size : ℕ) : ℕ :=
  if size = 0 then
    match b.staticMb with
    | none => SlabClass.mem1k.blocksize
    | some mb =>
      if (b.heap.blocks mb).nbytes = 0 then (b.heap.blocks mb).size else (b.heap.blocks mb).nbytes
  else size

/-- Once the file is open, the read succeeds, and it fills the Buffer if that is what the caller
receives. -/
def Complete (form : Form) (b : Buffer.State) (out : Outcomes) : Prop :=
  ∀ size fd, out.stat = .ok size → out.opened = .ok fd → ∃ data, out.read = .ok data ∧
    (form = .callback ∨ out.close = .ok () → data.length = extent b size)

variable {b b' : Buffer.State} {size : ℕ} {buf : ObjId} {ms : MemSlice} {path : String}
  {out : Outcomes} {name : String} {fd : ℤ} {data : List UInt8}

theorem newBuffer_slice (h : newBuffer b size = some (buf, ms, b')) : b'.slice? buf = some ms := by
  rw [newBuffer] at h
  split at h
  · cases h
  · obtain ⟨ms', hms, heq⟩ := Option.map_eq_some_iff.mp h
    cases heq
    exact hms

theorem staticBlock_zero {mb : BlockId} {h : Heap} (hb : staticBlock b 0 = some (mb, h)) :
    (if (h.blocks mb).nbytes = 0 then (h.blocks mb).size else (h.blocks mb).nbytes) =
      extent b 0 := by
  rw [extent, if_pos rfl]
  rw [staticBlock] at hb
  cases hmb : b.staticMb with
  | none =>
    rw [hmb] at hb
    have hfresh : h.blocks mb = ⟨.mem1k, 0, SlabClass.mem1k.blocksize, 0⟩ := by
      have hc : slabClassOf 0 = some .mem1k := rfl
      rw [levSlabGetBlock, hc] at hb
      cases hb
      exact Function.update_self _ _ _
    rw [hfresh]
    rfl
  | some mb' =>
    rw [hmb] at hb
    dsimp only at hb
    rw [if_neg (Nat.not_lt_zero _)] at hb
    cases hb
    rfl

theorem newBuffer_extent (hsize : size ≤ 2 ^ 20) (h : newBuffer b size = some (buf, ms, b')) :
    ms.untilLen = extent b size := by
  have hsz : (NewArg.number (size : ℤ)).size = size := toSizeT_natCast (by omega)
  simp only [newBuffer, bufferNew, hsz, levBufferNew] at h
  cases hblock : staticBlock b size with
  | none =>
    rw [hblock] at h
    cases h
  | some block =>
    obtain ⟨mb, h₀⟩ := block
    simp only [hblock, State.slice?, State.push, List.getElem?_concat_length, Option.join_some,
      Option.map_some] at h
    cases h
    rcases Nat.eq_zero_or_pos size with rfl | hpos
    · rw [← staticBlock_zero hblock]
      generalize hh : (if 0 ≠ (h₀.blocks mb).size ∧ (h₀.blocks mb).refcount = 0 then
        levSlabIncRef h₀ mb else h₀) = h₁
      have hsame : (h₁.blocks mb).nbytes = (h₀.blocks mb).nbytes ∧
          (h₁.blocks mb).size = (h₀.blocks mb).size := by
        rw [← hh]
        split
        · exact ⟨levSlabIncRef_nbytes _ _ _, levSlabIncRef_size _ _ _⟩
        · exact ⟨rfl, rfl⟩
      simp only [levPushbufferFromMb, if_pos, levSlabIncRef_nbytes, levSlabIncRef_size, hsame.1,
        hsame.2]
    · rw [extent, if_neg (Nat.ne_of_gt hpos)]
      exact if_neg (Nat.ne_of_gt hpos)

theorem report_stat (form : Form) (hstat : out.stat = .error name) :
    report form b path out = ⟨[(some name, none)], [], [], b⟩ := by
  obtain ⟨stat, opened, read, close⟩ := out
  subst hstat
  cases form <;> cases opened <;> cases read <;> cases close <;> rfl

theorem report_opened (form : Form) (hstat : out.stat = .ok size)
    (hopen : out.opened = .error name) :
    report form b path out = ⟨[(some name, none)], [], [], b⟩ := by
  obtain ⟨stat, opened, read, close⟩ := out
  subst hstat hopen
  cases form <;> cases read <;> cases close <;> rfl

section opened
variable (hstat : out.stat = .ok size) (hopen : out.opened = .ok fd)
  (hb : newBuffer b size = some (buf, ms, b'))
include hstat hopen hb

theorem report_read_error (form : Form) (hread : out.read = .error name) :
    report form b path out = ⟨[(some name, none)], [fd], [], b'⟩ := by
  obtain ⟨stat, opened, read, close⟩ := out
  subst hstat hopen hread
  cases form with
  | direct =>
    cases close <;> simp [report, exec, next, start, resume, Outcomes.replies, reply, hb, fsRead,
      Waits.results]
  | callback =>
    cases close <;> simp [report, resumeCallback, Outcomes.replies, reply, hb, fsRead]

theorem report_read (form : Form) (path : String) (hread : out.read = .ok data) :
    ∃ result, report form b path out = ⟨[result], [fd], [fd], fill b' buf data⟩ ∧
      ((form = .callback ∨ out.close = .ok ()) ∧ result = (none, some buf) ∨
        ¬ (form = .callback ∨ out.close = .ok ()) ∧ ∃ name, result = (some name, none)) := by
  obtain ⟨stat, opened, read, close⟩ := out
  subst hstat hopen hread
  cases form with
  | direct =>
    cases close with
    | ok a =>
      refine ⟨(none, some buf), ?_, .inl ⟨.inr rfl, rfl⟩⟩
      simp [report, exec, next, start, resume, Outcomes.replies, reply, hb, fsRead, fsClose,
        Waits.results]
    | error name =>
      refine ⟨(some name, none), ?_, .inr ⟨by simp, name, rfl⟩⟩
      simp [report, exec, next, start, resume, Outcomes.replies, reply, hb, fsRead, fsClose,
        Waits.results]
  | callback =>
    refine ⟨(none, some buf), ?_, .inl ⟨.inl rfl, rfl⟩⟩
    cases close <;> simp [report, resumeCallback, Outcomes.replies, reply, hb, fsRead, fsClose]

end opened

theorem fill_contents (hsize : size ≤ 2 ^ 20) (hb : newBuffer b size = some (buf, ms, b')) :
    ms.contents (fill b' buf data).heap = data ↔ data.length = extent b size := by
  rw [fill, newBuffer_slice hb, ← newBuffer_extent hsize hb]
  constructor
  · intro hdata
    rw [← hdata]
    exact Heap.load_length _ _ _ _
  · intro hlen
    rw [MemSlice.contents, ← hlen]
    exact Heap.load_store_self _ _ _ _

theorem fill_slice (hb : newBuffer b size = some (buf, ms, b')) :
    (fill b' buf data).slice? buf = some ms := by
  have hms := newBuffer_slice hb
  rw [fill, hms]
  exact hms

theorem newBuffer_small (b : Buffer.State) (hsize : size ≤ 2 ^ 20) :
    ∃ buf ms b', newBuffer b size = some (buf, ms, b') := by
  have hfits : fits b size = true := by
    have hle : size ≤ 1024 * 1024 := by omega
    rw [fits, decide_eq_true hle, Bool.true_or]
  have hsome := (newBuffer_isSome (by omega)).mpr hfits
  obtain ⟨⟨buf, ms, b'⟩, hb⟩ := Option.isSome_iff_exists.mp hsome
  exact ⟨buf, ms, b', hb⟩

/-- A call gives one result, closes what it opened and hands over what it read just when the
read succeeds and fills the Buffer. -/
theorem readFile_delivers_iff (form : Form) (b : Buffer.State) (path : String) (out : Outcomes)
    (hsize : ∀ size, out.stat = .ok size → size ≤ 2 ^ 20) :
    Delivers out (report form b path out) ↔ Complete form b out := by
  cases hstat : out.stat with
  | error name =>
    rw [report_stat form hstat]
    refine iff_of_true ⟨rfl, rfl, fun buf hbuf => ?_⟩ fun size fd h => ?_
    · cases List.mem_singleton.mp hbuf
    · cases hstat.symm.trans h
  | ok size =>
    cases hopen : out.opened with
    | error name =>
      rw [report_opened form hstat hopen]
      refine iff_of_true ⟨rfl, rfl, fun buf hbuf => ?_⟩ fun size fd _ h => ?_
      · cases List.mem_singleton.mp hbuf
      · cases hopen.symm.trans h
    | ok fd =>
      have hsize := hsize size hstat
      obtain ⟨buf, ms, b', hb⟩ := newBuffer_small b hsize
      cases hread : out.read with
      | error name =>
        rw [report_read_error hstat hopen hb form hread]
        refine iff_of_false (fun h => List.cons_ne_nil _ _ h.released.symm) fun h => ?_
        obtain ⟨data, hdata, -⟩ := h size fd hstat hopen
        cases hread.symm.trans hdata
      | ok data =>
        obtain ⟨result, hreport, hresult⟩ := report_read hstat hopen hb form path hread
        rw [hreport]
        have hcomplete : Complete form b out ↔
            (form = .callback ∨ out.close = .ok () → data.length = extent b size) := by
          constructor
          · intro h
            obtain ⟨data', hdata', hfull⟩ := h size fd hstat hopen
            cases hread.symm.trans hdata'
            exact hfull
          · intro hfull size' fd' hstat' _
            cases hstat.symm.trans hstat'
            exact ⟨data, hread, hfull⟩
        rw [hcomplete, ← fill_contents hsize hb]
        rcases hresult with ⟨hsuccess, rfl⟩ | ⟨hsuccess, name, rfl⟩
        · constructor
          · intro h _
            obtain ⟨data', ms', hdata', hms', hcontents⟩ := h.whole buf List.mem_cons_self
            cases hread.symm.trans hdata'
            cases (fill_slice hb).symm.trans hms'
            exact hcontents
          · intro h
            refine ⟨rfl, rfl, fun buf' hbuf => ?_⟩
            cases List.mem_singleton.mp hbuf
            exact ⟨data, ms, hread, fill_slice hb, h hsuccess⟩
        · refine iff_of_true ⟨rfl, rfl, fun buf' hbuf => ?_⟩ fun h => absurd h hsuccess
          cases List.mem_singleton.mp hbuf

def threeBytes : Outcomes := ⟨.ok 3, .ok 5, .ok [97, 98, 99], .ok ()⟩

theorem readFile_delivers_iff_threeBytes :
    Delivers threeBytes (report .callback (Buffer.start fun _ _ => 0) "f" threeBytes) := by
  have hextent : extent (Buffer.start fun _ _ => 0) 3 = 3 := by decide +kernel
  refine (readFile_delivers_iff .callback (Buffer.start fun _ _ => 0) "f" threeBytes
    fun size h => by cases h; decide).mpr ?_
  intro size fd hstat hopened
  cases hstat
  exact ⟨[97, 98, 99], rfl, fun _ => hextent.symm⟩

def failedRead : Outcomes := ⟨.ok 3, .ok 5, .error "EIO", .ok ()⟩

/-- The descriptor is never closed. -/
theorem failedRead_leaks :
    ¬ Delivers failedRead (report .direct (Buffer.start fun _ _ => 0) "f" failedRead) ∧
      ¬ Delivers failedRead (report .callback (Buffer.start fun _ _ => 0) "f" failedRead) := by
  have hsize : 3 ≤ 2 ^ 20 := by decide
  obtain ⟨buf, ms, b', hb⟩ := newBuffer_small (Buffer.start fun _ _ => 0) hsize
  have hleaks : ∀ form,
      ¬ Delivers failedRead (report form (Buffer.start fun _ _ => 0) "f" failedRead) := by
    intro form h
    rw [report_read_error rfl rfl hb form rfl] at h
    exact List.cons_ne_nil _ _ h.released.symm
  exact ⟨hleaks .direct, hleaks .callback⟩

end Lev.Fs
