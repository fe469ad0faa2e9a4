import Lev.JsonScratch

/-! The module lev.json over a run of calls: which blocks of the slab it holds, and that it
gives every one back. -/
namespace Lev.Json
open CInt Slab Memory Run Lua

/-- A property of a slice and its memory that lev_new_buffer.c keeps. -/
structure SliceInv (P : Heap → MemSlice → Prop) : Prop where
  store : ∀ h ms off c, P h ms → P (Heap.store h ms.mb off c) ms
  resize : ∀ h ms size ms' h', P h ms → levMemsliceResize h ms size = some (ms', h') → P h' ms'

def Mem.Has (P : Heap → MemSlice → Prop) (m : Mem) : Prop :=
  ∃ ms, m.buf.ms = some ms ∧ P m.heap ms

section sliceInv
variable {P : Heap → MemSlice → Prop} {m m' : Mem} {w w' : Window}

theorem SliceInv.ensure (hP : SliceInv P) {len : ℤ} (hw : P w.heap w.ms)
    (he : w.ensureEmptyLength len = some w') : P w'.heap w'.ms := by
  obtain ⟨⟨ms', h'⟩, hx, rfl⟩ : ∃ x, levMemsliceEnsureEmptyLength w.heap w.ms len = some x ∧
      (⟨x.2, x.1, w.log⟩ : Window) = w' := Option.map_eq_some_iff.mp he
  rw [levMemsliceEnsureEmptyLength] at hx
  split at hx
  · exact hP.resize _ _ _ _ _ hw hx
  · cases hx
    exact hw

theorem SliceInv.stringLoop (hP : SliceInv P) {start : ℕ} {str : List UInt8} {i space : ℕ}
    (hw : P w.heap w.ms) (ha : appendStringLoop start str i space w = some w') :
    P w'.heap w'.ms := by
  induction str generalizing i space w with
  | nil =>
    cases ha
    exact hw
  | cons c str ih =>
    obtain ⟨⟨space', w₁⟩, hspace, hrest⟩ := Option.bind_eq_some_iff.mp ha
    refine ih ?_ hrest
    refine hP.store _ _ _ _ ?_
    rw [stringSpace] at hspace
    split at hspace
    · obtain ⟨w₂, hresize, hx⟩ := Option.map_eq_some_iff.mp hspace
      cases hx
      obtain ⟨⟨ms₂, h₂⟩, hx, rfl⟩ := Option.map_eq_some_iff.mp hresize
      exact hP.resize _ _ _ _ _ hw hx
    · cases hspace
      exact hw

theorem SliceInv.onSlice {f : Window → Option Window}
    (hf : ∀ w w', P w.heap w.ms → f w = some w' → P w'.heap w'.ms) (hm : m.Has P)
    (h : m.onSlice f = some m') : m'.Has P := by
  obtain ⟨ms, hms, hP⟩ := hm
  rw [Mem.onSlice, hms] at h
  obtain ⟨w', hx, rfl⟩ := Option.map_eq_some_iff.mp h
  exact ⟨w'.ms, rfl, hf _ _ hP hx⟩

theorem SliceInv.ensureEmptyLength (hP : SliceInv P) {l : ℕ} (hm : m.Has P)
    (h : strbufEnsureEmptyLength m l = some m') : m'.Has P :=
  SliceInv.onSlice (fun _ _ => hP.ensure) hm h

theorem SliceInv.storeBytes (hP : SliceInv P) {c : List UInt8} (hm : m.Has P)
    (h : strbufStore m c = some m') : m'.Has P :=
  SliceInv.onSlice (fun w w' hw hx => by
    cases hx
    exact hP.store _ _ _ _ hw) hm h

theorem SliceInv.appendMemUnsafe (hP : SliceInv P) {c : List UInt8} (hm : m.Has P)
    (h : strbufAppendMemUnsafe m c = some m') : m'.Has P := by
  obtain ⟨m₁, hstore, rfl⟩ := Option.map_eq_some_iff.mp h
  have hstored : m₁.Has P := hP.storeBytes hm hstore
  exact hstored

theorem SliceInv.appendMem (hP : SliceInv P) {c : List UInt8} (hm : m.Has P)
    (h : strbufAppendMem m c = some m') : m'.Has P := by
  rw [appendMem_eq] at h
  obtain ⟨m₁, hensure, happend⟩ := Option.bind_eq_some_iff.mp h
  exact hP.appendMemUnsafe (hP.ensureEmptyLength hm hensure) happend

theorem SliceInv.appendEscaped (hP : SliceInv P) {s : List UInt8} (hm : m.Has P)
    (h : appendEscaped s m = some m') : m'.Has P := by
  induction s generalizing m with
  | nil =>
    cases h
    exact hm
  | cons c s ih =>
    obtain ⟨m₁, hfirst, hrest⟩ := Option.bind_eq_some_iff.mp h
    replace hfirst : m₁.Has P := by
      rw [storeEscaped] at hfirst
      cases hc : char2escape c with
      | none =>
        rw [hc] at hfirst
        exact hP.storeBytes hm hfirst
      | some escstr =>
        rw [hc] at hfirst
        obtain ⟨m₂, hslice, rfl⟩ := Option.map_eq_some_iff.mp hfirst
        have happended : m₂.Has P :=
          SliceInv.onSlice (fun _ _ hw hx => hP.stringLoop hw hx) hm hslice
        exact happended
    exact ih (m := strbufExtendLength m₁ 1) hfirst hrest

theorem SliceInv.perform (hP : SliceInv P) {p : Piece} (hm : m.Has P)
    (h : p.perform m = some m') : m'.Has P := by
  cases p with
  | char c =>
    rw [Piece.perform, perform_char] at h
    exact hP.appendMem hm h
  | mem c => exact hP.appendMem hm h
  | string s =>
    obtain ⟨m₁, hensure, h⟩ := Option.bind_eq_some_iff.mp h
    obtain ⟨m₂, hopen, h⟩ := Option.bind_eq_some_iff.mp h
    obtain ⟨m₃, hescaped, hclose⟩ := Option.bind_eq_some_iff.mp h
    have hm₁ := hP.ensureEmptyLength hm hensure
    have hm₂ := hP.appendMemUnsafe hm₁ hopen
    exact hP.appendMemUnsafe (hP.appendEscaped hm₂ hescaped) hclose
  | number text =>
    obtain ⟨m₁, hensure, h⟩ := Option.bind_eq_some_iff.mp h
    obtain ⟨m₂, hstore, h⟩ := Option.bind_eq_some_iff.mp h
    cases h
    have hstored : m₂.Has P := hP.storeBytes (hP.ensureEmptyLength hm hensure) hstore
    exact hstored

theorem SliceInv.performAll (hP : SliceInv P) {ps : List Piece} (hm : m.Has P)
    (h : performAll ps m = some m') : m'.Has P := by
  induction ps generalizing m with
  | nil =>
    cases h
    exact hm
  | cons p ps ih =>
    obtain ⟨m₁, hfirst, hrest⟩ := Option.bind_eq_some_iff.mp h
    exact ih (hP.perform hm hfirst) hrest

end sliceInv

variable {own : BlockId → ℕ} {lost : BlockId → Prop} {h h' : Heap}

/-- The block of the slice has the buffer for its only owner. -/
structure Owns (own : BlockId → ℕ) (lost : BlockId → Prop) (h : Heap) (ms : MemSlice) : Prop where
  alone : own ms.mb = 0
  accounts : Accounts h (Function.update own ms.mb 1) lost

section frame
variable {h₀ : Heap} {b : BlockId} (hf : Frame own h₀ h)
include hf

theorem Frame.store (hb : own b = 0) (off : ℕ) (c : List UInt8) :
    Frame own h₀ (h.store b off c) := by
  intro x hx
  refine ⟨(hf x hx).1, .trans (funext fun i => if_neg ?_) (hf x hx).2⟩
  rintro ⟨rfl, -⟩
  omega

theorem Frame.setBlock (hb : own b = 0) (m : MemBlock) : Frame own h₀ (h.setBlock b m) := by
  intro x hx
  have hne : x ≠ b := by
    rintro rfl
    omega
  exact ⟨(Function.update_of_ne hne _ _).trans (hf x hx).1, (hf x hx).2⟩

theorem Frame.decRef (hb : own b = 0) : Frame own h₀ (levSlabDecRef h b) := by
  intro x hx
  have hne : x ≠ b := by
    rintro rfl
    omega
  rw [levSlabDecRef_blocks, levSlabDecRef_bytes, Function.update_of_ne hne]
  exact hf x hx

theorem Frame.getBlock {skip : BlockId → Prop} {own' : BlockId → ℕ} {size : ℕ}
    (hx : Accounts h own' skip) (hb : own b = 0) (hg : levSlabGetBlock h size = some (b, h')) :
    Frame own h₀ h' := by
  intro x hx'
  have hfresh := levSlabGetBlock_fresh hx.owned hg
  have hne : x ≠ b := by
    rintro rfl
    omega
  rw [hfresh.others x hne, hfresh.bytes]
  exact hf x hx'

end frame

theorem Frame.refl (own : BlockId → ℕ) (h : Heap) : Frame own h h := fun _ _ => ⟨rfl, rfl⟩

/-- The blocks of other owners are besides as they were in `h₀`. -/
def OwnsApart (own : BlockId → ℕ) (lost : BlockId → Prop) (h₀ h : Heap) (ms : MemSlice) : Prop :=
  Owns own lost h ms ∧ Frame own h₀ h

theorem ownsApart_sliceInv (own : BlockId → ℕ) (lost : BlockId → Prop) (h₀ : Heap) :
    SliceInv (OwnsApart own lost h₀) where
  store h ms off c := fun ⟨⟨halone, hx⟩, hf⟩ =>
    ⟨⟨halone, hx.congr (sameAlloc_store _ _ _ _)⟩, hf.store halone _ _⟩
  resize h ms size ms' h' := fun ⟨⟨halone, hx⟩, hf⟩ hr => by
    rw [levMemsliceResize] at hr
    split at hr
    · cases hr
      exact ⟨⟨halone, hx⟩, hf⟩
    · dsimp only at hr
      split at hr
      · cases hr
        exact ⟨⟨halone, hx.congr (sameAlloc_addNbytes _ _ _)⟩, hf.setBlock halone _⟩
      · cases hg : levSlabGetBlock h (szAdd size 1) with
        | none =>
          rw [hg] at hr
          cases hr
        | some r =>
          rw [hg] at hr
          cases hr
          obtain ⟨-, hfree, hdec⟩ := accounts_move halone hx hg (sameAlloc_store _ _ _ _)
          refine ⟨⟨hfree, hdec.congr (sameAlloc_addNbytes _ _ _)⟩, ?_⟩
          have hget := hf.getBlock hx hfree hg
          refine Frame.setBlock (Frame.decRef (Frame.store ?_ hfree 0 _) halone) hfree _
          exact hget.setBlock hfree _

theorem strbufInit_ownsApart {len : ℤ} {m : Mem} (hx : Accounts h own lost)
    (hinit : strbufInit h len = some m) : m.Has (OwnsApart own lost h) := by
  obtain ⟨⟨b, h₀⟩, hg, rfl⟩ : ∃ x, levSlabGetBlock h (initSize len) = some x ∧
      (⟨(levSlabIncRef x.2 x.1).store x.1 0 [0], ⟨some ⟨x.1, 0, initSize len⟩, 0⟩,
        [⟨0, 1, initSize len⟩]⟩ : Mem) = m := Option.map_eq_some_iff.mp hinit
  obtain ⟨hfree, hinc⟩ := accounts_fresh hx hg
  have hget := (Frame.refl own h).getBlock hx hfree hg
  exact ⟨_, rfl, ⟨hfree, hinc.congr (sameAlloc_store _ _ _ _)⟩,
    Frame.store (hget.setBlock hfree _) hfree 0 _⟩

theorem strbufFree_accounts {m : Mem} (hm : m.Has (Owns own lost)) :
    Accounts (strbufFree m).heap own lost ∧ (strbufFree m).buf.ms = none := by
  obtain ⟨ms, hms, halone, hx⟩ := hm
  rw [strbufFree, hms]
  exact ⟨accounts_free halone hx, rfl⟩

/-- A call of `json_decode` returns or asks the slab for too much, and gives its block back. -/
theorem jsonDecode_accounts (data : List UInt8) (host : Host) (o : Options)
    (hx : Accounts h own lost) :
    jsonDecode data host o h = .error .nullBlock ∨
      ∃ ending h', jsonDecode data host o h = .ok (ending, h') ∧ Accounts h' own lost ∧
        Frame own h h' := by
  by_cases hutf : 2 ≤ data.length ∧ (data.getD 0 0 = 0 ∨ data.getD 1 0 = 0)
  · exact .inr ⟨_, _, if_pos hutf, hx, fun _ _ => ⟨rfl, rfl⟩⟩
  · cases hinit : strbufInit h (toInt data.length) with
    | none =>
      left
      rw [jsonDecode, if_neg hutf, hinit]
    | some mem =>
      right
      have hscratch : Scratch (initSize (toInt data.length)) data.length fun m =>
          ∃ mb, m.buf.ms = some ⟨mb, 0, initSize (toInt data.length)⟩ ∧
            OwnsApart own lost h m.heap ⟨mb, 0, initSize (toInt data.length)⟩ := by
        refine ⟨fun m hm => hm.imp fun mb hm => hm.1, ?_, fun m l hm => hm⟩
        rintro m mb off c l log ⟨mb', hms, howns⟩ hms' _
        rw [hms, Option.some.injEq, MemSlice.mk.injEq] at hms'
        obtain ⟨rfl, -⟩ := hms'
        exact ⟨mb', hms, (ownsApart_sliceInv own lost h).store _ _ _ _ howns⟩
      obtain ⟨mb, hms, -⟩ := strbufInit_scratch data.length hinit
      obtain ⟨ms, hms', howns⟩ := strbufInit_ownsApart hx hinit
      rw [hms, Option.some.injEq] at hms'
      subst hms'
      obtain ⟨ending, hdecode, hclosed⟩ := jsonDecode_spec host o hutf hinit
        hscratch ⟨mb, hms, howns⟩
      refine ⟨ending, _, hdecode, ?_⟩
      obtain ⟨m, ⟨mb', hms', howns', hframe⟩, hfree⟩ := hclosed.freed
      rw [hfree]
      refine ⟨(strbufFree_accounts ⟨_, hms', howns'⟩).1, ?_⟩
      rw [strbufFree, hms']
      exact hframe.decRef howns'.alone

structure State where
  heap : Heap
  cfg : Config

/-- `json_create_config`; `none` is the crash on a NULL block. -/
def jsonCreateConfig (h : Heap) : Option State :=
  (strbufInit h 0).map fun m => ⟨m.heap, ⟨Options.default, true, m.buf⟩⟩

/-- A call from Lua; `configure` stands for the setters that touch no memory. -/
inductive Call
  | encode (tables : ℕ → Pairs ℕ) (v : Value ℕ)
  | decode (data : List UInt8)
  | encodeKeepBuffer (keep : Bool)
  | configure (o : Options)

section run
variable (host : Host)

def State.call (s : State) : Call → Except Stop State
  | .encode tables v =>
    match jsonEncode host tables s.heap s.cfg v with
    | some (_, heap, cfg) => .ok ⟨heap, cfg⟩
    | none => .error .nullBlock
  | .decode data => (jsonDecode data host s.cfg.options s.heap).map fun x => ⟨x.2, s.cfg⟩
  | .encodeKeepBuffer keep =>
    match jsonCfgEncodeKeepBuffer s.heap s.cfg keep with
    | some (heap, cfg) => .ok ⟨heap, cfg⟩
    | none => .error .nullBlock
  | .configure o => .ok { s with cfg := { s.cfg with options := o } }

def State.next (s : State) (c : Call) : State :=
  match s.call host c with
  | .ok s' => s'
  | .error _ => s

/-- No request of the call is too large for the slab. -/
def State.Served (s : State) (c : Call) : Prop := s.call host c ≠ .error .nullBlock

def State.Returns (s : State) (c : Call) : Prop := ∃ s', s.call host c = .ok s'

end run

/-- The block the module holds while `encode_keep_buffer` is on. -/
def keptBlock (cfg : Config) : Option BlockId :=
  if cfg.encodeKeepBuffer then cfg.encodeBuf.ms.map MemSlice.mb else none

/-- What the slab has on its shelves or gave to free. -/
def shelf (h : Heap) : List BlockId :=
  ([.mem1k, .mem8k, .mem16k, .mem64k, .mem1024k].flatMap fun c => (h.pools c).pool) ++ h.freed

/-- Every block has the references of its owners, and went back once if it has none. -/
structure Balanced (h : Heap) (owners : BlockId → ℕ) : Prop where
  once : (shelf h).Nodup
  counts : ∀ b < h.mallocs, (h.blocks b).refcount = owners b ∧ (b ∈ shelf h ↔ owners b = 0)

/-- The module holds the kept buffer's block, which nobody else does, and no other. -/
structure State.Balanced (own : BlockId → ℕ) (s : State) : Prop where
  kept : s.cfg.encodeKeepBuffer = true → ∃ b, keptBlock s.cfg = some b ∧ own b = 0
  heap : Json.Balanced s.heap fun b => own b + if keptBlock s.cfg = some b then 1 else 0

theorem mem_shelf {b : BlockId} : b ∈ shelf h ↔ Buffer.Returned h b := by
  rw [shelf, List.mem_append, List.mem_flatMap, Buffer.Returned]
  refine or_congr_left (exists_congr fun c => and_iff_right ?_)
  cases c with
  | _ => decide

theorem Accounts.balanced (hx : Accounts h own Buffer.NoBlock) : Balanced h own where
  once := by
    have ho := hx.owned
    refine List.Nodup.append ?_ ho.freed_nodup ?_
    · refine List.nodup_flatMap.mpr ⟨fun c _ => ho.pool_nodup c, ?_⟩
      refine List.Pairwise.imp ?_ (by decide : List.Pairwise (· ≠ ·)
        [SlabClass.mem1k, .mem8k, .mem16k, .mem64k, .mem1024k])
      exact fun hne b hb hb' => hne (ho.pool_disjoint hb hb')
    · intro b hb hfreed
      obtain ⟨c, -, hc⟩ := List.mem_flatMap.mp hb
      exact ho.pool_notFreed c b hc hfreed
  counts b hb := by
    rw [mem_shelf]
    rcases Nat.eq_zero_or_pos (own b) with hzero | hpos
    · rw [hzero]
      exact ⟨hx.quiet b hb id hzero, fun _ => rfl, fun _ => hx.returned b hb id hzero⟩
    · have hout := hx.owned.handedOut b hpos
      refine ⟨hout.refcount, fun hr => ?_, fun hzero => absurd hzero (Nat.ne_of_gt hpos)⟩
      rcases hr with ⟨c, hc⟩ | hfreed
      · exact absurd hc (hout.notPooled c)
      · exact absurd hfreed hout.notFreed

def State.Inv (own : BlockId → ℕ) (s : State) : Prop :=
  if s.cfg.encodeKeepBuffer then
    Mem.Has (Owns own Buffer.NoBlock) ⟨s.heap, s.cfg.encodeBuf, []⟩
  else s.cfg.encodeBuf.ms = none ∧ Accounts s.heap own Buffer.NoBlock

theorem State.Inv.balanced {s : State} (hs : s.Inv own) : s.Balanced own := by
  rw [State.Inv] at hs
  split at hs
  · next hkeep =>
    obtain ⟨ms, hms, halone, hx⟩ := hs
    have hkept : keptBlock s.cfg = some ms.mb := by
      rw [keptBlock, if_pos hkeep, hms]
      rfl
    refine ⟨fun _ => ⟨ms.mb, hkept, halone⟩, ?_⟩
    have howners : (fun b => own b + if keptBlock s.cfg = some b then 1 else 0) =
        Function.update own ms.mb 1 := by
      funext b
      rw [hkept]
      rcases eq_or_ne b ms.mb with rfl | hb
      · rw [if_pos rfl, Function.update_self, halone]
      · rw [if_neg (fun he => hb (Option.some.inj he).symm), Function.update_of_ne hb, Nat.add_zero]
    rw [howners]
    exact hx.balanced
  · next hkeep =>
    have hkept : keptBlock s.cfg = none := if_neg hkeep
    refine ⟨fun hon => absurd hon hkeep, ?_⟩
    have howners : (fun b => own b + if keptBlock s.cfg = some b then 1 else 0) = own := by
      funext b
      rw [hkept, if_neg (fun he => by cases he), Nat.add_zero]
    rw [howners]
    exact hs.2.balanced

theorem State.Inv.accounts {s : State} (hs : s.Inv own) :
    ∃ own', Accounts s.heap own' Buffer.NoBlock ∧
      ∀ h', Accounts h' own' Buffer.NoBlock → State.Inv own ⟨h', s.cfg⟩ := by
  rw [State.Inv] at hs
  split at hs
  · next hkeep =>
    obtain ⟨ms, hms, halone, hx⟩ := hs
    refine ⟨_, hx, fun h' hx' => ?_⟩
    rw [State.Inv, if_pos hkeep]
    exact ⟨ms, hms, halone, hx'⟩
  · next hkeep =>
    refine ⟨own, hs.2, fun h' hx' => ?_⟩
    rw [State.Inv, if_neg hkeep]
    exact ⟨hs.1, hx'⟩

variable {host : Host} {s s' : State}

/-- A call that comes to its end, on success or on error, leaves by `encodeEnd`. -/
theorem jsonEncode_end {τ : Type} {tables : τ → Pairs τ} {cfg : Config} {v : Value τ}
    {x : Ending (List UInt8) × Heap × Config} (hx : jsonEncode host tables h cfg v = some x) :
    ∃ start m, encodeStart h cfg = some start ∧
      performAll (appendData host cfg.options tables cfg.options.encodeMaxDepth 1 v).pieces start =
        some m ∧ x.2 = encodeEnd cfg m := by
  obtain ⟨start, hstart, hx⟩ := Option.bind_eq_some_iff.mp hx
  obtain ⟨m, hall, hx⟩ := Option.bind_eq_some_iff.mp hx
  refine ⟨start, m, hstart, hall, ?_⟩
  split at hx
  · cases hx
    rfl
  · cases hx
    rfl
  · obtain ⟨json, -, hx⟩ := Option.bind_eq_some_iff.mp hx
    cases hx
    rfl

instance (host : Host) (s : State) (c : Call) : Decidable (s.Served host c) :=
  match hcall : s.call host c with
  | .ok _ => .isTrue (by rw [State.Served, hcall]; exact nofun)
  | .error e => decidable_of_iff (e ≠ .nullBlock) (by
      rw [State.Served, hcall, ne_eq, ne_eq, Except.error.injEq])

theorem accounts_start (junk : BlockId → ℕ → UInt8) :
    Accounts (levSlabFill (Heap.boot junk)) (fun _ => 0) Buffer.NoBlock where
  toExact := by
    have hrefs : Buffer.refs (Buffer.start junk) = fun _ => 0 := by
      funext b
      simp [Buffer.refs, Buffer.start, Buffer.held]
    exact hrefs ▸ Buffer.exact_start junk
  quiet b hb _ _ := by
    rw [Buffer.start_blocks]

def loaded : Option State := jsonCreateConfig (levSlabFill (Heap.boot fun _ _ => 0))

theorem loaded_isSome : loaded.isSome = true := by decide +kernel

end Lev.Json
