import Lev.JsonStores

/-! The module lev.json over a run of calls in which every store counts: it holds the blocks it
should, and stores behind none of them, as long as each text has the room that is made for it. -/
namespace Lev.Json
open CInt Slab Memory Run Lua

variable {own : BlockId → ℕ} {lost : BlockId → Prop} {h h' h'' : Heap} {host : Host}

/-- Since `h` every store was inside its block. -/
structure Within (h h' : Heap) : Prop where
  later : Later h h'
  inside : Inside h h'

theorem Within.refl (h : Heap) : Within h h :=
  ⟨.refl h, [], rfl, fun _ hst => by cases hst⟩

theorem Within.trans (a : Within h h') (b : Within h' h'') : Within h h'' :=
  ⟨a.later.trans b.later, a.inside.trans b.later b.inside⟩

theorem Tidy.within (ht : Tidy own h h') : Within h h' := ⟨ht.later, ht.inside⟩

theorem within_free (m : Mem) : Within m.heap (strbufFree m).heap := by
  rw [strbufFree]
  split
  · exact .refl _
  · exact ⟨later_decRef _ _, [], levSlabDecRef_stores _ _, fun _ hst => by cases hst⟩

theorem strbufInit_within {m : Mem} (hx : Accounts h own lost) (hinit : strbufInit h 0 = some m) :
    Within h m.heap := by
  have hsize : 2 ≤ initSize 0 ∧ initSize 0 ≤ 2 ^ 20 := by
    rw [initSize_zero]
    decide
  obtain ⟨mb, h', hinit', -, htidy⟩ := strbufInit_held hx hsize.1 hsize.2
  cases hinit'.symm.trans hinit
  exact htidy.within

/-- A decoder's scratch buffer and the stores there were since the call began. -/
def Scribbles (own : BlockId → ℕ) (lost : BlockId → Prop) (h : Heap) (u : ℕ) (m : Mem) : Prop :=
  ∃ mb, m.buf.ms = some ⟨mb, 0, u⟩ ∧
    Held own lost ⟨m.heap, ⟨some ⟨mb, 0, u⟩, 0⟩, []⟩ mb ⟨u, 0, classSize u⟩ ∧ Within h m.heap

theorem scribbles_scratch {u n : ℕ} (hn : n < u) : Scratch u n (Scribbles own lost h u) where
  slice _ hm := hm.imp fun _ hm => hm.1
  length _ _ hm := hm
  store m mb off c l log hm hms hfit := by
    obtain ⟨mb', hms', hheld, hwithin⟩ := hm
    obtain rfl : mb' = mb := by
      rw [hms', Option.some.injEq, MemSlice.mk.injEq] at hms
      exact hms.1
    have hroom := hheld.ok.le
    have hinside : off + c.length ≤ classSize u := by
      dsimp only at hroom
      omega
    exact ⟨mb', hms', hheld.store off c, hwithin.trans (hheld.tidy_store hinside).within⟩

/-- A call of `json_decode` stores in its scratch buffer only. A text is a Lua string. -/
theorem jsonDecode_within {data : List UInt8} {o : Options} {ending : Ending LuaValue}
    (hx : Accounts h own lost) (hlua : data.length < 2 ^ 31)
    (hdecode : jsonDecode data host o h = .ok (ending, h')) : Within h h' := by
  by_cases hutf : 2 ≤ data.length ∧ (data.getD 0 0 = 0 ∨ data.getD 1 0 = 0)
  · rw [jsonDecode, if_pos hutf] at hdecode
    cases hdecode
    exact .refl h
  have hcapacity := initSize_scratch hlua
  have hlt := lt_scratchCapacity data.length
  rw [← hcapacity] at hlt
  have hpos : 2 ≤ initSize (toInt data.length) := by
    rw [hcapacity, scratchCapacity, strbufDefaultSize]
    split
    · decide
    · omega
  have hsize : initSize (toInt data.length) ≤ 2 ^ 20 := by
    by_contra hbig
    rw [jsonDecode, if_neg hutf, strbufInit_crash h (Nat.lt_of_not_le hbig)] at hdecode
    cases hdecode
  obtain ⟨mb, h₀, hinit, hheld, htidy⟩ := strbufInit_held hx hpos hsize
  obtain ⟨ending', hreturns, hclosed⟩ := jsonDecode_spec host o hutf hinit
    (scribbles_scratch hlt) ⟨mb, rfl, hheld.congr rfl rfl, htidy.within⟩
  cases hdecode.symm.trans hreturns
  obtain ⟨m, ⟨mb', -, -, hwithin⟩, hfree⟩ := hclosed.freed
  rw [hfree]
  exact hwithin.trans (within_free m)

section calls
variable {s : State}

/-- What is stored for the value is inside the block it goes to, also while that grows. -/
def State.FitsCall (host : Host) (s : State) : Call → Prop
  | .encode tables v => Fits s.room 0 (s.data host tables v).pieces
  | _ => True

/-- A text is shorter than any Lua string may be. -/
def Call.IsLua : Call → Prop
  | .decode data => data.length < 2 ^ 31
  | _ => True

/-- A call on Lua strings for which the slab has the blocks, and that stores inside them. -/
def State.Fitting (host : Host) (s : State) (c : Call) : Prop :=
  s.Served host c ∧ c.IsLua ∧ s.FitsCall host c

/-- The module holds the kept buffer's block and no other, and since `h` all its stores were
inside their blocks. -/
structure State.Sound (own : BlockId → ℕ) (h : Heap) (s : State) : Prop where
  balanced : s.Balanced own
  inside : Inside h s.heap

theorem State.Ready.inv (hs : s.Ready own) : s.Inv own := by
  rw [State.Ready] at hs
  rw [State.Inv]
  split at hs
  · next hkeep =>
    obtain ⟨mb, r, hheld, -⟩ := hs
    rw [if_pos hkeep]
    exact ⟨_, hheld.ms, hheld.alone, hheld.exact⟩
  · next hkeep =>
    rw [if_neg hkeep]
    exact hs

theorem encodeStart_within (hs : s.Ready own) {m : Mem} (hm : encodeStart s.heap s.cfg = some m) :
    Within s.heap m.heap := by
  rw [State.Ready] at hs
  rw [encodeStart] at hm
  split at hs
  · next hkeep =>
    rw [if_pos hkeep] at hm
    cases hm
    exact .refl _
  · next hkeep =>
    rw [if_neg hkeep] at hm
    exact strbufInit_within hs.2 hm

theorem encodeEnd_within (cfg : Config) (m : Mem) : Within m.heap (encodeEnd cfg m).1 := by
  rw [encodeEnd]
  split
  · exact .refl _
  · exact within_free m

variable {tables : ℕ → Pairs ℕ} {v : Value ℕ} {x : Ending (List UInt8) × Heap × Config}

theorem encode_fits (hs : s.Ready own) (hfits : Fits s.room 0 (s.data host tables v).pieces)
    (hx : jsonEncode host tables s.heap s.cfg v = some x) :
    State.Ready own ⟨x.2.1, x.2.2⟩ ∧ Within s.heap x.2.1 := by
  obtain ⟨start, mb, hstart, hheld, hroom, hzero, -⟩ := encodeStart_held hs
  obtain ⟨start', m, hstart', hall, hend⟩ := jsonEncode_end hx
  cases hstart.symm.trans hstart'
  rw [← hzero] at hfits
  obtain ⟨m', mb', r', hall', hheld', hroom', htidy⟩ := performAll_fits hheld hroom hfits
  cases hall.symm.trans hall'
  rw [hend]
  exact ⟨encodeEnd_ready hs hheld' hroom',
    (encodeStart_within hs hstart).trans (htidy.within.trans (encodeEnd_within _ _))⟩

theorem keepBuffer_within (hs : s.Ready own) {keep : Bool} {x : Heap × Config}
    (hx : jsonCfgEncodeKeepBuffer s.heap s.cfg keep = some x) : Within s.heap x.1 := by
  rw [jsonCfgEncodeKeepBuffer] at hx
  split at hx
  · cases hx
    exact .refl _
  · next hchange =>
    split at hx
    · next hkeep =>
      have hoff : ¬ s.cfg.encodeKeepBuffer = true := fun hon => hchange (hkeep.trans hon.symm)
      rw [State.Ready, if_neg hoff] at hs
      obtain ⟨m, hinit, rfl⟩ := Option.map_eq_some_iff.mp hx
      have hwithin : Within s.heap m.heap := strbufInit_within hs.2 hinit
      exact hwithin
    · cases hx
      have hfree : Within s.heap (strbufFree ⟨s.heap, s.cfg.encodeBuf, []⟩).heap :=
        within_free ⟨s.heap, s.cfg.encodeBuf, []⟩
      exact hfree

/-- The step lemma: a call that returns keeps the invariant, if what it stores fits. -/
theorem State.Ready.within_next (hs : s.Ready own) {c : Call} (hlua : c.IsLua)
    (hfits : s.FitsCall host c) :
    (s.next host c).Ready own ∧ Within s.heap (s.next host c).heap := by
  rw [State.next]
  cases hcall : s.call host c with
  | error e => exact ⟨hs, .refl _⟩
  | ok s' =>
    cases c with
    | encode tables v =>
      rw [State.call] at hcall
      split at hcall
      · next heap cfg hx =>
        cases hcall
        exact encode_fits hs hfits hx
      · cases hcall
    | decode data =>
      rw [State.call] at hcall
      cases hx : jsonDecode data host s.cfg.options s.heap with
      | error e =>
        rw [hx] at hcall
        cases hcall
      | ok x =>
        rw [hx] at hcall
        cases hcall
        obtain ⟨own', haccounts, -⟩ := hs.inv.accounts
        exact ⟨decode_ready hs hx, jsonDecode_within haccounts hlua hx⟩
    | encodeKeepBuffer keep =>
      rw [State.call] at hcall
      split at hcall
      · next heap cfg hx =>
        cases hcall
        exact ⟨keepBuffer_ready hs hx, keepBuffer_within hs hx⟩
      · cases hcall
    | configure o =>
      cases hcall
      exact ⟨hs, .refl _⟩

theorem ready_exec {calls : List Call} (hx : Accounts h own Buffer.NoBlock)
    (hs : jsonCreateConfig h = some s)
    (hrun : Along (State.next host) (State.Fitting host) s calls) :
    (exec (State.next host) s calls).Ready own := by
  obtain ⟨m, hinit, rfl⟩ := Option.map_eq_some_iff.mp hs
  exact inv_exec (fun _ _ ht hc => (ht.within_next hc.2.1 hc.2.2).1) (init_ready hx hinit) hrun

end calls

instance decidableFits : (r : Room) → (n : ℕ) → (ps : List Piece) → Decidable (Fits r n ps)
  | _, _, [] => .isTrue trivial
  | r, n, p :: ps =>
    have := decidableFits (r.ensure (n + p.need)) (n + p.advance) ps
    inferInstanceAs (Decidable (_ ∧ _ ∧ _))

instance (host : Host) (s : State) : (c : Call) → Decidable (s.FitsCall host c)
  | .encode _ _ => inferInstanceAs (Decidable (Fits _ _ _))
  | .decode _ => .isTrue trivial
  | .encodeKeepBuffer _ => .isTrue trivial
  | .configure _ => .isTrue trivial

instance : (c : Call) → Decidable c.IsLua
  | .decode data => inferInstanceAs (Decidable (data.length < 2 ^ 31))
  | .encode _ _ => .isTrue trivial
  | .encodeKeepBuffer _ => .isTrue trivial
  | .configure _ => .isTrue trivial

instance (host : Host) (s : State) (c : Call) : Decidable (s.Fitting host c) :=
  inferInstanceAs (Decidable (_ ∧ _ ∧ _))

end Lev.Json
