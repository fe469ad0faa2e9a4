import Lev.BufferSteps

/-! Isolation of Buffers: without indexed assignment, no operation changes the bytes
of a live Buffer, and Buffers made by different `Buffer:new` calls share none. -/
namespace Lev.Buffer
open CInt Slab Memory Run

/-- The two byte ranges have no address in common. -/
def Apart (mb off len mb' off' len' : ℕ) : Prop :=
  mb = mb' → off + len ≤ off' ∨ off' + len' ≤ off

/-- Sizes of 1 byte to 1 MiB, joins of at most 1 MiB, and no indexed assignment. -/
def Creating (s : State) : Op → Prop
  | .new a => 1 ≤ a.size ∧ a.size ≤ 2 ^ 20
  | .slice _ _ _ => True
  | .concat x y => operandLen s x + operandLen s y ≤ 2 ^ 20
  | .newindex _ _ _ => False
  | .gc _ => True

instance (s : State) : (op : Op) → Decidable (Creating s op)
  | .new a => inferInstanceAs (Decidable (1 ≤ a.size ∧ a.size ≤ 2 ^ 20))
  | .slice _ _ _ => isTrue trivial
  | .concat x y => inferInstanceAs (Decidable (operandLen s x + operandLen s y ≤ 2 ^ 20))
  | .newindex _ _ _ => isFalse id
  | .gc _ => isTrue trivial

/-- The bytes a step writes meet no live Buffer, and every Buffer that is not the one
finalised is there afterwards with the contents it had. -/
def Isolated (s : State) (op : Op) : Prop :=
  (∃ w, (next s op).heap.stores = w ++ s.heap.stores ∧ ∀ st ∈ w, ∀ o ms, s.slice? o = some ms →
    Apart st.mb st.off st.len ms.mb ms.slice ms.untilLen) ∧
  ∀ o ms, s.slice? o = some ms → op ≠ .gc o →
    (next s op).slice? o = some ms ∧ ms.contents (next s op).heap = ms.contents s.heap

/-- Two live results of different `Buffer:new` calls share no byte. -/
def NewsApart (s : State) : Prop :=
  ∀ o₁ ∈ s.created, ∀ o₂ ∈ s.created, o₁ ≠ o₂ → ∀ ms₁ ms₂,
    s.slice? o₁ = some ms₁ → s.slice? o₂ = some ms₂ →
      Apart ms₁.mb ms₁.slice ms₁.untilLen ms₂.mb ms₂.slice ms₂.untilLen

structure Good (s : State) : Prop where
  wf : Wf s
  created_lt : ∀ o ∈ s.created, o < s.objs.length
  apart : NewsApart s

theorem Apart.symm {mb off len mb' off' len' : ℕ} (h : Apart mb off len mb' off' len') :
    Apart mb' off' len' mb off len :=
  fun he => (h he.symm).symm

theorem next_of_ok {s s' : State} {op : Op} (h : step s op = .ok s') : next s op = s' := by
  simp [next, h]

theorem next_of_error {s : State} {op : Op} {f : Fault} (h : step s op = .error f) :
    next s op = s := by
  simp [next, h]

theorem slice?_append {s s' : State} {x : Option MemSlice} (hobjs : s'.objs = s.objs ++ [x])
    {o : ObjId} (ho : o < s.objs.length) : s'.slice? o = s.slice? o := by
  rw [State.slice?, State.slice?, hobjs, List.getElem?_append_left ho]

theorem slice?_lt {s : State} {o : ObjId} {ms : MemSlice} (h : s.slice? o = some ms) :
    o < s.objs.length := by
  obtain ⟨hlt, _⟩ := List.getElem?_eq_some_iff.mp (slice?_eq_some.mp h)
  exact hlt

theorem isolated_of_error {s : State} {op : Op} {f : Fault} (h : step s op = .error f) :
    Isolated s op := by
  rw [Isolated, next_of_error h]
  exact ⟨⟨[], rfl, by simp⟩, fun o ms ho _ => ⟨ho, rfl⟩⟩

theorem isolated_of_behind {s s' : State} {op : Op} {x : Option MemSlice} {mb off : ℕ}
    (h : step s op = .ok s') (hobjs : s'.objs = s.objs ++ [x]) (hbeh : Behind s s' mb off) :
    Isolated s op := by
  rw [Isolated, next_of_ok h]
  obtain ⟨w, hw, hin⟩ := hbeh.stores
  refine ⟨⟨w, hw, fun st hst o ms ho hmb => .inr ?_⟩, fun o ms ho _ => ⟨?_, ?_⟩⟩
  · obtain ⟨hst, hoff⟩ := hin st hst
    exact (hbeh.live ms (slice?_mem ho) (hmb.symm.trans hst)).trans hoff
  · rw [slice?_append hobjs (slice?_lt ho), ho]
  · exact hbeh.contents (slice?_mem ho)

/-- A step that makes no Buffer of its own leaves the results of `Buffer:new` apart. -/
theorem newsApart_of_sub {s s' : State} (h : NewsApart s) (hcreated : s'.created = s.created)
    (hsub : ∀ o ∈ s.created, ∀ ms, s'.slice? o = some ms → s.slice? o = some ms) :
    NewsApart s' := by
  intro o₁ h₁ o₂ h₂ hne ms₁ ms₂ hs₁ hs₂
  rw [hcreated] at h₁ h₂
  exact h o₁ h₁ o₂ h₂ hne ms₁ ms₂ (hsub o₁ h₁ ms₁ hs₁) (hsub o₂ h₂ ms₂ hs₂)

theorem good_of_creates {s s' : State} {ms : MemSlice} (hg : Good s) (hc : Creates s s' ms) :
    Good s' where
  wf := hc.wf
  created_lt := by
    intro o ho
    rw [hc.created] at ho
    rw [hc.objs, List.length_append]
    exact Nat.lt_add_right _ (hg.created_lt o ho)
  apart := by
    refine newsApart_of_sub hg.apart hc.created fun o ho ms' hs => ?_
    rwa [slice?_append hc.objs (hg.created_lt o ho)] at hs

theorem good_of_made {s s' : State} {ms : MemSlice} {size : ℕ} (hg : Good s)
    (hm : Made s s' ms size) : Good { s' with created := s.objs.length :: s.created } := by
  have hnew : s'.slice? s.objs.length = some ms := by
    rw [slice?_eq_some, hm.objs, List.getElem?_concat_length]
  have hold : ∀ o ∈ s.created, s'.slice? o = s.slice? o := fun o ho =>
    slice?_append hm.objs (hg.created_lt o ho)
  -- the new Buffer starts where every live Buffer of its block has ended
  have hlast : ∀ o ∈ s.created, ∀ ms', s.slice? o = some ms' →
      Apart ms'.mb ms'.slice ms'.untilLen ms.mb ms.slice ms.untilLen := fun o _ ms' hs hmb =>
    .inl (hm.behind.live ms' (slice?_mem hs) hmb)
  refine ⟨⟨hm.wf.owned, hm.wf.nbytes_le, hm.wf.size_le, hm.wf.static_used, hm.wf.range,
    hm.wf.pos⟩, ?_, ?_⟩
  · intro o ho
    rw [hm.objs, List.length_append]
    rcases List.mem_cons.mp ho with rfl | ho
    · exact Nat.lt_succ_self _
    · exact Nat.lt_add_right _ (hg.created_lt o ho)
  · intro o₁ h₁ o₂ h₂ hne ms₁ ms₂ hs₁ hs₂
    change s'.slice? o₁ = some ms₁ at hs₁
    change s'.slice? o₂ = some ms₂ at hs₂
    rcases List.mem_cons.mp h₁ with rfl | h₁ <;> rcases List.mem_cons.mp h₂ with rfl | h₂
    · exact absurd rfl hne
    · rw [hnew, Option.some.injEq] at hs₁
      subst hs₁
      exact (hlast o₂ h₂ ms₂ (hold o₂ h₂ ▸ hs₂)).symm
    · rw [hnew, Option.some.injEq] at hs₂
      subst hs₂
      exact hlast o₁ h₁ ms₁ (hold o₁ h₁ ▸ hs₁)
    · exact hg.apart o₁ h₁ o₂ h₂ hne ms₁ ms₂ (hold o₁ h₁ ▸ hs₁) (hold o₂ h₂ ▸ hs₂)

theorem bufferGc_eq {s s' : State} {o : ObjId} (hs : bufferGc s o = .ok s') :
    ∃ ms, s.slice? o = some ms ∧
      s' = { s with heap := levSlabDecRef s.heap ms.mb, objs := s.objs.set o none } := by
  unfold bufferGc at hs
  cases ho : s.slice? o with
  | none => simp [ho] at hs
  | some ms =>
    simp only [ho, Except.ok.injEq] at hs
    exact ⟨ms, rfl, hs.symm⟩

/-- The step lemma, one case for each operation. -/
theorem good_step {s : State} {op : Op} (hg : Good s) (hp : Creating s op) :
    Good (next s op) ∧ Isolated s op := by
  cases hs : step s op with
  | error f =>
    refine ⟨?_, isolated_of_error hs⟩
    rw [next_of_error hs]
    exact hg
  | ok s' =>
    rw [next_of_ok hs]
    cases op with
    | new a =>
      have hnew := hs
      simp only [step, bufferNew] at hnew
      cases hb : levBufferNew s a.size a.temp 0 with
      | none => simp [hb] at hnew
      | some r =>
        obtain ⟨ms, t⟩ := r
        simp only [hb, Except.ok.injEq] at hnew
        subst hnew
        have hm := levBufferNew_made hg.wf hp.1 hb
        exact ⟨good_of_made hg hm, isolated_of_behind hs hm.objs
          ⟨hm.behind.live, hm.behind.stores, hm.behind.bytes⟩⟩
    | slice o i j =>
      obtain ⟨ms, hc⟩ := bufferSlice_creates hg.wf hs
      obtain ⟨off, hbeh⟩ := hc.behind
      exact ⟨good_of_creates hg hc, isolated_of_behind hs hc.objs hbeh⟩
    | concat x y =>
      have hy : operandLen s y < 2 ^ 32 := by
        have : operandLen s x + operandLen s y ≤ 2 ^ 20 := hp
        omega
      obtain ⟨ms, hc⟩ := bufferConcat_creates hg.wf hy hs
      obtain ⟨off, hbeh⟩ := hc.behind
      exact ⟨good_of_creates hg hc, isolated_of_behind hs hc.objs hbeh⟩
    | newindex o i v => exact absurd hp id
    | gc o =>
      obtain ⟨ms, ho, rfl⟩ := bufferGc_eq hs
      have hsub : ∀ o' ms', State.slice? { s with
          heap := levSlabDecRef s.heap ms.mb, objs := s.objs.set o none } o' = some ms' →
          s.slice? o' = some ms' := by
        intro o' ms' h
        rw [slice?_eq_some] at h ⊢
        rcases eq_or_ne o o' with rfl | hne
        · simp [List.getElem?_set_self (slice?_lt ho)] at h
        · rwa [List.getElem?_set_ne hne] at h
      refine ⟨⟨bufferGc_wf hg.wf hs, ?_, newsApart_of_sub hg.apart rfl fun o' _ => hsub o'⟩, ?_⟩
      · simpa using hg.created_lt
      · rw [Isolated, next_of_ok hs]
        refine ⟨⟨[], levSlabDecRef_stores _ _, by simp⟩, fun o' ms' ho' hne => ⟨?_, ?_⟩⟩
        · rw [slice?_eq_some] at ho' ⊢
          have hne' : o ≠ o' := by
            rintro rfl
            exact hne rfl
          rwa [List.getElem?_set_ne hne']
        · exact Heap.load_congr fun i _ => by simp

theorem good_run {s : State} {ops : List Op} (hg : Good s) (h : Along next Creating s ops) :
    Along next Isolated s ops ∧ Always next NewsApart s ops := by
  have hstep : ∀ t op, Good t → Creating t op → Good (next t op) ∧ Isolated t op :=
    fun t op ht hp => good_step ht hp
  have hapart : ∀ t, Good t → NewsApart t := fun t ht => ht.apart
  exact ⟨along_of_inv hstep hg h,
    always_of_inv hapart (fun t op ht hp => (hstep t op ht hp).1) hg h⟩

theorem good_start (junk : BlockId → ℕ → UInt8) : Good (start junk) where
  wf := wf_start junk
  created_lt := by
    intro o ho
    cases ho
  apart := by
    intro o₁ h₁
    cases h₁

/-- Along every run of creations, slices, joins and finalisations, each step writes
clear of the live Buffers and changes none, and the Buffers `Buffer:new` returned
are apart in every state. -/
theorem buffers_isolated (junk : BlockId → ℕ → UInt8) (ops : List Op)
    (h : Along next Creating (start junk) ops) :
    Along next Isolated (start junk) ops ∧ Always next NewsApart (start junk) ops :=
  good_run (good_start junk) h

/-- Buffers carved from one block, cut, joined in place and in a copy, collected, and
a Buffer that takes over a block given back. -/
def mixedRun : List Op :=
  [.new (.number 600), .new (.str [1, 2, 3]), .slice 0 11 20, .concat (.buffer 0) (.buffer 1),
    .concat (.buffer 1) (.str [4, 5]), .concat (.buffer 2) (.buffer 1), .new (.number 1024),
    .gc 6, .new (.number 1000), .gc 0, .gc 3]

theorem buffers_isolated_mixedRun :
    Along next Creating (start fun _ _ => 0) mixedRun ∧
      Along next Isolated (start fun _ _ => 0) mixedRun ∧
      Always next NewsApart (start fun _ _ => 0) mixedRun := by
  have h : Along next Creating (start fun _ _ => 0) mixedRun := by decide +kernel
  exact ⟨h, buffers_isolated (fun _ _ => 0) mixedRun h⟩

end Lev.Buffer
