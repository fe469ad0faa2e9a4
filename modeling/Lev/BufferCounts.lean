import Lev.BufferBounds
import Lev.SlabSafety

/-! Reference counts under every operation. A count is exact when it is the number of
live Buffers on the block and one more for `_static_mb`. The one step that loses a
reference is a call of `lev_buffer_new` that takes over a shared block it kept. -/
namespace Lev.Buffer
open CInt Slab Memory Run

def Returned (h : Heap) (b : BlockId) : Prop := (∃ c, b ∈ (h.pools c).pool) ∨ b ∈ h.freed

/-- A block has owners and their number for refcount, or it was given back. -/
def RefsExact (s : State) : Prop :=
  ∀ b < s.heap.mallocs, (refs s b = 0 ↔ Returned s.heap b) ∧
    (0 < refs s b → (s.heap.blocks b).refcount = refs s b)

/-- Does a join find room behind its first operand? -/
def joinsBehind (s : State) (first : MemSlice) (secondLen : ℕ) : Prop :=
  (s.heap.blocks first.mb).nbytes = first.slice + first.untilLen ∧
    secondLen ≤ szSub (s.heap.blocks first.mb).size (s.heap.blocks first.mb).nbytes

instance (s : State) (first : MemSlice) (secondLen : ℕ) :
    Decidable (joinsBehind s first secondLen) :=
  inferInstanceAs (Decidable (_ ∧ _))

/-- The size with which the operation calls `lev_buffer_new`, if it does. -/
def newSize (s : State) : Op → Option ℕ
  | .new a => some a.size
  | .concat (.str _) (.buffer o) => (s.slice? o).map fun second => szAdd 0 second.untilLen
  | .concat (.buffer o) (.str t) =>
    (s.slice? o).bind fun first =>
      if joinsBehind s first t.length then none else some (szAdd first.untilLen t.length)
  | .concat (.buffer o) (.buffer o') =>
    (s.slice? o).bind fun first => (s.slice? o').bind fun second =>
      if adjacent first second ∨ joinsBehind s first second.untilLen then none
      else some (szAdd first.untilLen second.untilLen)
  | _ => none

/-- A call with this size keeps the shared block, and as it is the whole size of the
block, gives `_static_mb` up without a release. -/
def TakesOver (s : State) (size : ℕ) : Prop :=
  ∃ mb, s.staticMb = some mb ∧ size = (s.heap.blocks mb).size ∧
    ¬ szSub (s.heap.blocks mb).size (s.heap.blocks mb).nbytes < size

def NoTakeover (s : State) (op : Op) : Prop := ∀ size ∈ newSize s op, ¬ TakesOver s size

/-- Buffers of at most 1 MiB, Lua strings, and no slab request above 1 MiB. -/
def Served (s : State) (op : Op) : Prop :=
  (match op with
    | .new a => a.size ≤ 2 ^ 20
    | .concat x y => x.Short ∧ y.Short
    | .newindex _ _ v => v.Short
    | .slice _ _ _ => True
    | .gc _ => True) ∧
  crashes s op = false

instance (s : State) : (op : Op) → Decidable (Served s op)
  | .new a => inferInstanceAs (Decidable (a.size ≤ 2 ^ 20 ∧ crashes s (.new a) = false))
  | .slice o i j => inferInstanceAs (Decidable (True ∧ crashes s (.slice o i j) = false))
  | .concat x y =>
    inferInstanceAs (Decidable ((x.Short ∧ y.Short) ∧ crashes s (.concat x y) = false))
  | .newindex o i v =>
    inferInstanceAs (Decidable (v.Short ∧ crashes s (.newindex o i v) = false))
  | .gc o => inferInstanceAs (Decidable (True ∧ crashes s (.gc o) = false))

/-- Ownership is counted and every other block was given back, `skip` apart. -/
structure Exact (h : Heap) (own : BlockId → ℕ) (skip : BlockId → Prop) : Prop where
  owned : Owned h own
  returned : ∀ b < h.mallocs, ¬ skip b → own b = 0 → Returned h b

abbrev NoBlock (_ : BlockId) : Prop := False

variable {h h' : Heap} {own : BlockId → ℕ} {b : BlockId}

theorem Exact.congr {skip : BlockId → Prop} (hx : Exact h own skip) (hs : SameAlloc h h') :
    Exact h' own skip where
  owned := hx.owned.congr hs
  returned b' hb' hskip hown := by
    rw [hs.mallocs] at hb'
    rw [Returned, hs.pools, hs.freed]
    exact hx.returned b' hb' hskip hown

theorem Exact.getBlock {skip : BlockId → Prop} {size : ℕ} (hx : Exact h own skip)
    (hg : levSlabGetBlock h size = some (b, h')) : Exact h' own (fun b' => b' = b ∨ skip b') where
  owned := (levSlabGetBlock_fresh hx.owned hg).owned
  returned b' hb' hskip hown := by
    rw [not_or] at hskip
    obtain ⟨hne, hskip⟩ := hskip
    obtain ⟨c, ⟨pool, hp, rfl⟩ | ⟨rfl, rfl⟩⟩ := levSlabGetBlock_cases hg
    · rcases hx.returned b' hb' hskip hown with ⟨c', hin⟩ | hin
      · refine .inl ⟨c', ?_⟩
        rcases eq_or_ne c' c with rfl | hc
        · rw [Heap.setBlock_pools, Heap.setPool_pool_self]
          rw [hp] at hin
          exact (List.mem_cons.mp hin).resolve_left hne
        · rwa [Heap.setBlock_pools, Heap.setPool_pool_of_ne _ _ _ hc]
      · exact .inr hin
    · have hle : b' < h.mallocs + 1 := hb'
      have hlt : b' < h.mallocs := lt_of_le_of_ne (Nat.le_of_lt_succ hle) hne
      exact hx.returned b' hlt hskip hown

theorem exact_getBlock {size : ℕ} (hx : Exact h own NoBlock)
    (hg : levSlabGetBlock h size = some (b, h')) : Exact h' own (· = b) where
  owned := (hx.getBlock hg).owned
  returned b' hb' hne hown := (hx.getBlock hg).returned b' hb' (not_or.mpr ⟨hne, id⟩) hown

theorem Exact.incRef {skip skip' : BlockId → Prop} (hx : Exact h own skip)
    (hb : HandedOut h b (own b)) (hskip : ∀ b', skip b' → b' = b ∨ skip' b') :
    Exact (levSlabIncRef h b) (Function.update own b (own b + 1)) skip' where
  owned := levSlabIncRef_owned hx.owned hb
  returned b' hb' hskip' hown := by
    have hne : b' ≠ b := by
      rintro rfl
      rw [Function.update_self] at hown
      omega
    rw [Function.update_of_ne hne] at hown
    exact hx.returned b' hb' (fun hs => (hskip b' hs).elim hne hskip') hown

theorem exact_incRef {skip : BlockId → Prop} (hx : Exact h own skip)
    (hb : HandedOut h b (own b)) (hskip : ∀ b', skip b' → b' = b) :
    Exact (levSlabIncRef h b) (Function.update own b (own b + 1)) NoBlock :=
  hx.incRef hb fun b' hs => .inl (hskip b' hs)

theorem returned_decRef {b' : BlockId} (hr : Returned h b') : Returned (levSlabDecRef h b) b' := by
  rcases levSlabDecRef_cases h b with ⟨_, he⟩ | ⟨_, he⟩ | ⟨_, he⟩
  · rwa [he]
  · rw [he]
    rcases hr with ⟨c, hin⟩ | hin
    · refine .inl ⟨c, ?_⟩
      rcases eq_or_ne c (h.blocks b).allocator with rfl | hc
      · rw [Heap.setPool_pool_self]
        exact List.mem_cons_of_mem _ hin
      · rwa [Heap.setPool_pool_of_ne _ _ _ hc]
    · exact .inr hin
  · rw [he]
    rcases hr with hin | hin
    · exact .inl hin
    · exact .inr (List.mem_cons_of_mem _ hin)

theorem levSlabDecRef_mallocs (h : Heap) (b : BlockId) :
    (levSlabDecRef h b).mallocs = h.mallocs := by
  rcases levSlabDecRef_cases h b with ⟨_, he⟩ | ⟨_, he⟩ | ⟨_, he⟩ <;> rw [he] <;> rfl

theorem Exact.decRef {skip : BlockId → Prop} (hx : Exact h own skip) (hb : 0 < own b) :
    Exact (levSlabDecRef h b) (Function.update own b (own b - 1)) skip where
  owned := levSlabDecRef_owned hx.owned hb
  returned b' hb' hskip hown := by
    rw [levSlabDecRef_mallocs] at hb'
    rcases eq_or_ne b' b with rfl | hne
    · rw [Function.update_self] at hown
      have hcount := (hx.owned.handedOut b' hb).refcount
      rcases levSlabDecRef_cases h b' with ⟨h1, _⟩ | ⟨_, he⟩ | ⟨_, he⟩
      · omega
      · rw [he]
        refine .inl ⟨(h.blocks b').allocator, ?_⟩
        rw [Heap.setPool_pool_self]
        exact List.mem_cons_self
      · rw [he]
        exact .inr List.mem_cons_self
    · rw [Function.update_of_ne hne] at hown
      exact returned_decRef (hx.returned b' hb' hskip hown)

theorem exact_decRef (hx : Exact h own NoBlock) (hb : 0 < own b) :
    Exact (levSlabDecRef h b) (Function.update own b (own b - 1)) NoBlock :=
  hx.decRef hb

theorem Exact.refsExact {s : State} (hx : Exact s.heap (refs s) NoBlock) : RefsExact s := by
  intro b hb
  refine ⟨⟨hx.returned b hb id, fun hr => ?_⟩, fun hpos => (hx.owned.handedOut b hpos).refcount⟩
  by_contra hne
  have hh := hx.owned.handedOut b (Nat.pos_of_ne_zero hne)
  rcases hr with ⟨c, hin⟩ | hin
  · exact hh.notPooled c hin
  · exact hh.notFreed hin

theorem exact_window {s : State} (hx : Exact s.heap (refs s) NoBlock) {src : MemSlice}
    (ms : MemSlice)
    (hsrc : some src ∈ s.objs) (hmb : ms.mb = src.mb) {h : Heap}
    (hh : SameAlloc (levSlabIncRef s.heap ms.mb) h) :
    Exact h (refs { s.push ms with heap := h }) NoBlock := by
  have hr : refs { s.push ms with heap := h } = refs (s.push ms) := rfl
  rw [hr, refs_push]
  have hpos : 0 < refs s ms.mb := hmb ▸ refs_pos_of_slice hsrc
  exact (exact_incRef hx (hx.owned.handedOut _ hpos) (fun _ hf => hf.elim)).congr hh

/-- Where the block of `lev_buffer_new` comes from, as far as counts go. -/
theorem staticBlock_exact {s : State} (hx : Exact s.heap (refs s) NoBlock) {size : ℕ} {mb : BlockId}
    {h : Heap} (hs : staticBlock s size = some (mb, h)) :
    (s.staticMb = some mb ∧ h = s.heap ∧
      ¬ szSub (s.heap.blocks mb).size (s.heap.blocks mb).nbytes < size) ∨
    (held s.objs mb = 0 ∧ HandedOut h mb 0 ∧ Exact h (held s.objs) (· = mb)) := by
  unfold staticBlock at hs
  cases hst : s.staticMb with
  | none =>
    simp only [hst] at hs
    have hr : refs s = held s.objs := by
      funext b
      simp [refs, hst]
    rw [hr] at hx
    have hf := levSlabGetBlock_fresh hx.owned hs
    exact .inr ⟨hf.unowned, hf.handedOut, exact_getBlock hx hs⟩
  | some b =>
    simp only [hst] at hs
    split at hs
    · have hdec := exact_decRef hx (b := b) (by simp [refs, hst])
      have hr : Function.update (refs s) b (refs s b - 1) = held s.objs := by
        funext b'
        rcases eq_or_ne b' b with rfl | hne
        · simp [refs, hst]
        · simp [refs, hst, hne, hne.symm]
      rw [hr] at hdec
      have hf := levSlabGetBlock_fresh hdec.owned hs
      exact .inr ⟨hf.unowned, hf.handedOut, exact_getBlock hdec hs⟩
    · rename_i hkeep
      simp only [Option.some.injEq, Prod.mk.injEq] at hs
      obtain ⟨rfl, rfl⟩ := hs
      exact .inl ⟨rfl, rfl, hkeep⟩

/-- The heap and owners behind `settle` and the push of the new Buffer. -/
theorem settle_exact {s : State} (hx : Exact s.heap (refs s) NoBlock) {size : ℕ} {mb : BlockId}
    {h : Heap} (hs : staticBlock s size = some (mb, h)) (hk : ¬ TakesOver s size) {ms : MemSlice}
    (hmb : ms.mb = mb) :
    Exact (levSlabIncRef (settle s size mb h).heap mb)
      (refs ((settle s size mb h).push ms)) NoBlock := by
  rw [refs_push, hmb]
  rcases staticBlock_exact hx hs with ⟨hst, rfl, hkeep⟩ | ⟨hzero, hmine, hfresh⟩
  · have hshared : size ≠ (s.heap.blocks mb).size := fun he => hk ⟨mb, hst, he, hkeep⟩
    have hpos : 0 < refs s mb := by simp [refs, hst]
    have hcount : (s.heap.blocks mb).refcount ≠ 0 := by
      rw [(hx.owned.handedOut mb hpos).refcount]
      omega
    have ht : settle s size mb s.heap = s := by
      simp [settle, hshared, hcount, ← hst]
    rw [ht]
    exact exact_incRef hx (hx.owned.handedOut mb hpos) (fun _ hf => hf.elim)
  · rcases eq_or_ne size (h.blocks mb).size with hfull | hshared
    · have ht : settle s size mb h = ⟨h, none, s.objs, s.created⟩ := by
        simp [settle, hfull]
      have hr : refs (settle s size mb h) = held s.objs := by
        funext b
        simp [ht, refs]
      rw [hr, ht]
      exact exact_incRef hfresh (hzero ▸ hmine) fun _ he => he
    · have hcount : (h.blocks mb).refcount = 0 := by simpa using hmine.refcount
      have ht : settle s size mb h = ⟨levSlabIncRef h mb, some mb, s.objs, s.created⟩ := by
        simp [settle, hshared, hcount]
      have hr : refs (settle s size mb h) =
          Function.update (held s.objs) mb (held s.objs mb + 1) := by
        funext b
        rcases eq_or_ne b mb with rfl | hb
        · simp [ht, refs]
        · simp [ht, refs, hb, hb.symm]
      have hinc : Exact (levSlabIncRef h mb) (refs (settle s size mb h)) NoBlock := by
        rw [hr]
        exact exact_incRef hfresh (hzero ▸ hmine) fun _ he => he
      have hpos : 0 < refs (settle s size mb h) mb := by
        rw [hr, Function.update_self]
        exact Nat.succ_pos _
      have hself := hinc.owned.handedOut mb hpos
      rw [ht] at hinc hself ⊢
      exact exact_incRef hinc hself fun _ hf => hf.elim

theorem levBufferNew_eq {s s' : State} {ms : MemSlice} {size tempSize : ℕ}
    {temp : Option (List UInt8)} (hnew : levBufferNew s size temp tempSize = some (ms, s')) :
    ∃ mb h h', staticBlock s size = some (mb, h) ∧ ms.mb = mb ∧
      s' = { (settle s size mb h).push ms with heap := h' } ∧
      SameAlloc (levSlabIncRef (settle s size mb h).heap mb) h' := by
  unfold levBufferNew at hnew
  cases hst : staticBlock s size with
  | none => simp [hst] at hnew
  | some r =>
    obtain ⟨mb, h⟩ := r
    simp only [hst, Option.some.injEq, Prod.mk.injEq] at hnew
    obtain ⟨hms, hs'⟩ := hnew
    refine ⟨mb, h, s'.heap, rfl, ?_, ?_, ?_⟩
    · rw [← hms]
      rfl
    · rw [← hs', ← hms]
      rfl
    · rw [← hs']
      exact (sameAlloc_store (levSlabIncRef (settle s size mb h).heap mb) _ _ _).trans
        (sameAlloc_addNbytes _ _ _)

/-- What `lev_buffer_new` copies or clears. -/
def newData (size : ℕ) (temp : Option (List UInt8)) (tempSize : ℕ) : List UInt8 :=
  match temp with
  | some t => t.take (min size (if tempSize = 0 then size else tempSize))
  | none => List.replicate size 0

theorem newData_length_le (size : ℕ) (temp : Option (List UInt8)) (tempSize : ℕ) :
    (newData size temp tempSize).length ≤ size := by
  cases temp with
  | none => simp [newData]
  | some t => simp [newData]

theorem levBufferNew_writes {s s' : State} {ms : MemSlice} {size tempSize : ℕ}
    {temp : Option (List UInt8)} (hnew : levBufferNew s size temp tempSize = some (ms, s')) :
    ∃ mb h t, staticBlock s size = some (mb, h) ∧ t = (settle s size mb h).heap ∧
      ms = (levPushbufferFromMb t mb size (some (t.blocks mb).nbytes)).1 ∧
      s'.objs = s.objs ++ [some ms] ∧
      s'.heap = ((levSlabIncRef t mb).store mb (t.blocks mb).nbytes
        (newData size temp tempSize)).addNbytes mb size := by
  unfold levBufferNew at hnew
  cases hst : staticBlock s size with
  | none => simp [hst] at hnew
  | some r =>
    obtain ⟨mb, h⟩ := r
    simp only [hst, Option.some.injEq, Prod.mk.injEq] at hnew
    obtain ⟨rfl, rfl⟩ := hnew
    exact ⟨mb, h, _, rfl, rfl, rfl, rfl, rfl⟩

theorem levBufferNew_exact {s s' : State} (hx : Exact s.heap (refs s) NoBlock) {ms : MemSlice}
    {size tempSize : ℕ} {temp : Option (List UInt8)} (hk : ¬ TakesOver s size)
    (hnew : levBufferNew s size temp tempSize = some (ms, s')) :
    Exact s'.heap (refs s') NoBlock := by
  obtain ⟨mb, h, h', hst, hmb, rfl, hsame⟩ := levBufferNew_eq hnew
  exact (settle_exact hx hst hk hmb).congr hsame

theorem levBufferNew_leaks {s s' : State} (hx : Exact s.heap (refs s) NoBlock) {ms : MemSlice}
    {size tempSize : ℕ} {temp : Option (List UInt8)} (hk : TakesOver s size)
    (hnew : levBufferNew s size temp tempSize = some (ms, s')) : ¬ RefsExact s' := by
  obtain ⟨mb₀, hst₀, hsize, hkeep⟩ := hk
  obtain ⟨mb, h, h', hst, hmb, rfl, hsame⟩ := levBufferNew_eq hnew
  have hkept : staticBlock s size = some (mb₀, s.heap) := by
    simp only [staticBlock, hst₀]
    rw [if_neg hkeep]
  rw [hkept, Option.some.injEq, Prod.mk.injEq] at hst
  obtain ⟨rfl, rfl⟩ := hst
  have ht : settle s size mb₀ s.heap = ⟨s.heap, none, s.objs, s.created⟩ := by
    simp [settle, hsize]
  rw [ht] at hsame ⊢
  have hpos : 0 < refs s mb₀ := by simp [refs, hst₀]
  have hmine := hx.owned.handedOut mb₀ hpos
  have hrefs : refs { State.push ⟨s.heap, none, s.objs, s.created⟩ ms with heap := h' } mb₀ =
      held s.objs mb₀ + 1 := by
    show held (s.objs ++ [some ms]) mb₀ + 0 = _
    rw [held_append, hmb, Function.update_self]
  have hcount : (h'.blocks mb₀).refcount = held s.objs mb₀ + 2 := by
    rw [hsame.refcount]
    simp only [levSlabIncRef, Heap.setBlock_blocks, Function.update_self, hmine.refcount]
    simp [refs, hst₀]
    ring
  intro hexact
  have hlt : mb₀ < h'.mallocs := by
    rw [hsame.mallocs]
    exact hmine.lt
  have hself := (hexact mb₀ hlt).2 (by rw [hrefs]; exact Nat.succ_pos _)
  rw [hrefs] at hself
  change (h'.blocks mb₀).refcount = _ at hself
  rw [hcount] at hself
  push_cast at hself
  omega

/-- The operand onto whose end a join puts the other one, if it does. -/
def joinedSlice (s : State) : Op → Option MemSlice
  | .concat (.buffer o) (.str t) =>
    (s.slice? o).bind fun first => if joinsBehind s first t.length then some first else none
  | .concat (.buffer o) (.buffer o') =>
    (s.slice? o).bind fun first => (s.slice? o').bind fun second =>
      if adjacent first second then none
      else if joinsBehind s first second.untilLen then some first else none
  | _ => none

/-- The things a join can be: an error, a window over both operands, the second operand
copied behind the first, or a call of `lev_buffer_new`. -/
inductive Joined (s : State) (x y : Operand) :
    Except Fault State → Option ℕ → Option MemSlice → Prop
  | error (f : Fault) : Joined s x y (.error f) none none
  | union {first second ms : MemSlice} (hfirst : some first ∈ s.objs)
      (hsecond : some second ∈ s.objs) (hadj : adjacent first second = true)
      (hms : ms = (levPushbufferFromMb s.heap first.mb (szAdd first.untilLen second.untilLen)
        (some (min first.slice second.slice))).1) :
      Joined s x y (.ok { s.push ms with heap := levSlabIncRef s.heap ms.mb }) none none
  | behind {first ms : MemSlice} {h' : Heap} {data : List UInt8} (hfirst : some first ∈ s.objs)
      (hdata : data.length = operandLen s y) (hroom : joinsBehind s first data.length)
      (hms : ms = (levPushbufferFromMb s.heap first.mb (szAdd first.untilLen data.length)
        (some first.slice)).1)
      (hheap : h' = ((levSlabIncRef s.heap first.mb).addNbytes first.mb data.length).store first.mb
        (first.slice + first.untilLen) data) :
      Joined s x y (.ok { s.push ms with heap := h' }) none (some first)
  | fresh (first : Option (List UInt8)) {firstLen : ℕ} (second : Heap → List UInt8)
      {secondLen : ℕ} (hfirst : firstLen ≤ operandLen s x) (hlen : secondLen = operandLen s y)
      (hsecond : ∀ h, (second h).length = secondLen) :
      Joined s x y (concatFresh s first firstLen second secondLen)
        (some (szAdd firstLen secondLen)) none

theorem concatBehind_fresh {s : State} {first : MemSlice} {second : Heap → List UInt8}
    {secondLen : ℕ} (hroom : ¬ joinsBehind s first secondLen) :
    concatBehind s first second secondLen =
      concatFresh s (some (first.contents s.heap)) first.untilLen second secondLen := by
  rw [concatBehind]
  exact if_neg hroom

/-- The second operand is read after the window is pushed, before it is copied. -/
theorem concatBehind_window {s : State} {first : MemSlice} (second : Heap → List UInt8)
    {secondLen : ℕ} (hroom : joinsBehind s first secondLen) :
    concatBehind s first second secondLen =
      .ok { s.push (levPushbufferFromMb s.heap first.mb (szAdd first.untilLen secondLen)
          (some first.slice)).1 with
        heap := ((levSlabIncRef s.heap first.mb).addNbytes first.mb secondLen).store first.mb
          (first.slice + first.untilLen)
          (second ((levSlabIncRef s.heap first.mb).addNbytes first.mb secondLen)) } := by
  rw [concatBehind]
  exact if_pos hroom

theorem concatBehind_joined {s : State} {x y : Operand} {first : MemSlice}
    {second : Heap → List UInt8} {secondLen : ℕ} (hfirst : some first ∈ s.objs)
    (hx : first.untilLen = operandLen s x) (hy : secondLen = operandLen s y)
    (hsecond : ∀ h, (second h).length = secondLen) :
    Joined s x y (concatBehind s first second secondLen)
      (if joinsBehind s first secondLen then none else some (szAdd first.untilLen secondLen))
      (if joinsBehind s first secondLen then some first else none) := by
  rcases Classical.em (joinsBehind s first secondLen) with hroom | hroom
  · have hlen := hsecond ((levSlabIncRef s.heap first.mb).addNbytes first.mb secondLen)
    rw [if_pos hroom, if_pos hroom, concatBehind_window second hroom]
    exact .behind hfirst (hlen.trans hy) (by rwa [hlen]) (by rw [hlen]) (by rw [hlen])
  · rw [if_neg hroom, if_neg hroom, concatBehind_fresh hroom]
    exact .fresh _ _ hx.le hy hsecond

theorem bufferConcat_joined (s : State) (x y : Operand) :
    Joined s x y (bufferConcat s x y) (newSize s (.concat x y)) (joinedSlice s (.concat x y)) := by
  cases x with
  | str t =>
    cases y with
    | str t' => exact .error _
    | buffer o' =>
      cases ho' : s.slice? o' with
      | none =>
        simp only [bufferConcat, newSize, joinedSlice, ho']
        exact .error _
      | some second =>
        simp only [bufferConcat, newSize, joinedSlice, ho']
        exact .fresh _ _ (Nat.zero_le _) (by simp [operandLen, ho'])
          fun _ => by simp [MemSlice.contents]
  | buffer o =>
    cases ho : s.slice? o with
    | none =>
      cases y with
      | str t =>
        simp only [bufferConcat, newSize, joinedSlice, ho]
        exact .error _
      | buffer o' =>
        simp only [bufferConcat, newSize, joinedSlice, ho]
        exact .error _
    | some first =>
      have hfirst := slice?_mem ho
      have hx : first.untilLen = operandLen s (.buffer o) := by simp [operandLen, ho]
      cases y with
      | str t =>
        simp only [bufferConcat, newSize, joinedSlice, ho, Option.bind_some]
        exact concatBehind_joined hfirst hx rfl fun _ => rfl
      | buffer o' =>
        cases ho' : s.slice? o' with
        | none =>
          simp only [bufferConcat, newSize, joinedSlice, ho, ho', Option.bind_some]
          exact .error _
        | some second =>
          simp only [bufferConcat, newSize, joinedSlice, ho, ho', Option.bind_some]
          cases hadj : adjacent first second with
          | true =>
            simp only [if_true, true_or]
            exact .union hfirst (slice?_mem ho') hadj rfl
          | false =>
            simp only [Bool.false_eq_true, if_false, false_or]
            exact concatBehind_joined hfirst hx (by simp [operandLen, ho'])
              fun _ => by simp [MemSlice.contents]

theorem concatFresh_ok {s s' : State} {first : Option (List UInt8)} {firstLen secondLen : ℕ}
    {second : Heap → List UInt8} (h : concatFresh s first firstLen second secondLen = .ok s') :
    ∃ ms t h', levBufferNew s (szAdd firstLen secondLen) first firstLen = some (ms, t) ∧
      s' = { t with heap := h' } ∧ SameAlloc t.heap h' := by
  unfold concatFresh at h
  cases hn : levBufferNew s (szAdd firstLen secondLen) first firstLen with
  | none => simp [hn] at h
  | some r =>
    obtain ⟨ms, t⟩ := r
    simp only [hn, Except.ok.injEq] at h
    exact ⟨ms, t, _, rfl, h.symm, sameAlloc_store _ _ _ _⟩

theorem takesOver_isSome {s : State} {size : ℕ} (temp : Option (List UInt8)) (tempSize : ℕ)
    (hk : TakesOver s size) : ∃ r, levBufferNew s size temp tempSize = some r := by
  obtain ⟨mb, hst, _, hkeep⟩ := hk
  have hkept : staticBlock s size = some (mb, s.heap) := by
    simp only [staticBlock, hst]
    rw [if_neg hkeep]
  unfold levBufferNew
  rw [hkept]
  exact ⟨_, rfl⟩

theorem refsExact_congr {s : State} {h : Heap} (hs : SameAlloc s.heap h) :
    RefsExact { s with heap := h } ↔ RefsExact s := by
  have hr : refs { s with heap := h } = refs s := rfl
  have hb : ∀ b, Returned h b ↔ Returned s.heap b := by
    intro b
    rw [Returned, Returned, hs.pools, hs.freed]
  simp only [RefsExact, hr, hb, hs.mallocs, hs.refcount]

theorem exact_new {s : State} (hx : Exact s.heap (refs s) NoBlock) {a : NewArg}
    (hk : ¬ TakesOver s a.size) {s' : State} (hs : bufferNew s a = .ok s') :
    Exact s'.heap (refs s') NoBlock := by
  unfold bufferNew at hs
  cases hb : levBufferNew s a.size a.temp 0 with
  | none => simp [hb] at hs
  | some r =>
    obtain ⟨ms, t⟩ := r
    simp only [hb, Except.ok.injEq] at hs
    have ht : Exact t.heap (refs t) NoBlock := levBufferNew_exact hx hk hb
    subst hs
    exact ht

theorem bufferSlice_eq {s s' : State} {o : ObjId} {i j : ℤ} (hs : bufferSlice s o i j = .ok s') :
    ∃ src ms : MemSlice, s.slice? o = some src ∧ ms.mb = src.mb ∧
      s' = { s.push ms with heap := levSlabIncRef s.heap ms.mb } := by
  unfold bufferSlice at hs
  cases ho : s.slice? o with
  | none => simp [ho] at hs
  | some src =>
    simp only [ho] at hs
    generalize (if toSizeT i = 0 then 1 else toSizeT i) = offset at hs
    split at hs
    · cases hs
    · generalize (if toSizeT j = 0 then src.untilLen - (offset - 1) else toSizeT j) = length at hs
      split at hs
      · cases hs
      · simp only [Except.ok.injEq] at hs
        exact ⟨src, ⟨src.mb, src.slice + (offset - 1), length⟩, rfl, rfl, hs.symm⟩

theorem exact_slice {s s' : State} (hx : Exact s.heap (refs s) NoBlock) {o : ObjId} {i j : ℤ}
    (hs : bufferSlice s o i j = .ok s') : Exact s'.heap (refs s') NoBlock := by
  obtain ⟨src, ms, ho, hmb, rfl⟩ := bufferSlice_eq hs
  exact exact_window hx ms (slice?_mem ho) hmb
    ⟨fun _ => rfl, fun _ => rfl, fun _ => rfl, rfl, rfl, rfl, rfl⟩

theorem exact_put {s : State} (ms' : MemSlice) (hx : Exact s.heap (refs s) NoBlock) {o : ObjId}
    {ms : MemSlice} (ho : s.slice? o = some ms) (hmb : ms'.mb = ms.mb) {h : Heap}
    (hs : SameAlloc s.heap h) :
    Exact h (refs (s.put o ms' h)) NoBlock := by
  have hr : refs (s.put o ms' h) = refs s := by
    funext b
    have hp := refs_pos_of_slice (slice?_mem ho)
    rw [refs_put ho, hmb]
    rcases eq_or_ne ms.mb b with rfl | hb
    · simp only [if_true]
      omega
    · simp [hb]
  rw [hr]
  exact hx.congr hs

theorem exact_move {s : State} (ms' : MemSlice) (hx : Exact s.heap (refs s) NoBlock) {o : ObjId}
    {ms : MemSlice} {h₀ h₁ h : Heap} {n : ℕ} (ho : s.slice? o = some ms)
    (hg : levSlabGetBlock s.heap n = some (ms'.mb, h₀))
    (h₁same : SameAlloc (levSlabIncRef h₀ ms'.mb) h₁) (hs : SameAlloc (levSlabDecRef h₁ ms.mb) h) :
    Exact h (refs (s.put o ms' h)) NoBlock := by
  have hf := levSlabGetBlock_fresh hx.owned hg
  have hp := refs_pos_of_slice (slice?_mem ho)
  have hne : ms.mb ≠ ms'.mb := by
    intro he
    have := hf.unowned
    rw [← he] at this
    omega
  have hone := (exact_incRef (exact_getBlock hx hg) (by rw [hf.unowned]; exact hf.handedOut)
    fun _ he => he).congr h₁same
  rw [hf.unowned, Nat.zero_add] at hone
  have hval : Function.update (refs s) ms'.mb 1 ms.mb = refs s ms.mb :=
    Function.update_of_ne hne _ _
  have hdec := exact_decRef hone (b := ms.mb) (by rw [hval]; exact hp)
  rw [hval] at hdec
  have hr : refs (s.put o ms' h) =
      Function.update (Function.update (refs s) ms'.mb 1) ms.mb (refs s ms.mb - 1) := by
    funext b
    rw [refs_put ho]
    rcases eq_or_ne b ms.mb with rfl | hb
    · simp [hne.symm]
    · rw [Function.update_of_ne hb, if_neg hb.symm]
      rcases eq_or_ne b ms'.mb with rfl | hb'
      · simp [hf.unowned]
      · simp [hb', hb'.symm]
  rw [hr]
  exact hdec.congr hs

theorem exact_resize {s : State} (hx : Exact s.heap (refs s) NoBlock) {o : ObjId}
    {ms ms' : MemSlice}
    {size : ℕ} {h h' : Heap} (ho : s.slice? o = some ms)
    (hr : levMemsliceResize s.heap ms size = some (ms', h)) (hs : SameAlloc h h') :
    Exact h' (refs (s.put o ms' h')) NoBlock := by
  unfold levMemsliceResize at hr
  split at hr
  · simp only [Option.some.injEq, Prod.mk.injEq] at hr
    obtain ⟨rfl, rfl⟩ := hr
    exact exact_put ms hx ho rfl hs
  · simp only at hr
    split at hr
    · simp only [Option.some.injEq, Prod.mk.injEq] at hr
      obtain ⟨rfl, rfl⟩ := hr
      exact exact_put { ms with untilLen := szAdd size 1 } hx ho rfl
        ((sameAlloc_addNbytes _ _ _).trans hs)
    · cases hg : levSlabGetBlock s.heap (szAdd size 1) with
      | none => simp [hg] at hr
      | some r =>
        obtain ⟨b, h₀⟩ := r
        simp only [hg, Option.some.injEq, Prod.mk.injEq] at hr
        obtain ⟨rfl, rfl⟩ := hr
        exact exact_move ⟨b, 0, szAdd size 1⟩ hx ho hg (sameAlloc_store _ _ _ _)
          ((sameAlloc_addNbytes _ _ _).trans hs)

theorem exact_newindex {s s' : State} (hx : Exact s.heap (refs s) NoBlock) {o : ObjId} {i : ℤ}
    {v : Value} (hs : bufferNewindex s o i v = .ok s') : Exact s'.heap (refs s') NoBlock := by
  unfold bufferNewindex at hs
  cases ho : s.slice? o with
  | none => simp [ho] at hs
  | some ms =>
    simp only [ho] at hs
    split at hs
    · cases hs
    · cases v with
      | number n =>
        simp only at hs
        split at hs
        · cases hs
        · simp only [Except.ok.injEq] at hs
          subst hs
          exact hx.congr (sameAlloc_store _ _ _ _)
      | operand v =>
        cases hc : operandBytes s v with
        | none => simp [hc] at hs
        | some c =>
          simp only [hc] at hs
          cases hm : levMemsliceAppendMem s.heap ms (toSizeT i - 1) c with
          | none => simp [hm] at hs
          | some r =>
            obtain ⟨ms', h'⟩ := r
            simp only [hm, Except.ok.injEq] at hs
            subst hs
            obtain ⟨h₁, he, rfl⟩ := ensure_of_append hm
            unfold levMemsliceEnsureEmptyLength at he
            split at he
            · exact exact_resize hx ho he (sameAlloc_store _ _ _ _)
            · simp only [Option.some.injEq, Prod.mk.injEq] at he
              obtain ⟨rfl, rfl⟩ := he
              exact exact_put _ hx ho rfl (sameAlloc_store _ _ _ _)

theorem exact_gc {s s' : State} (hx : Exact s.heap (refs s) NoBlock) {o : ObjId}
    (hs : bufferGc s o = .ok s') : Exact s'.heap (refs s') NoBlock := by
  obtain ⟨ms, ho, rfl⟩ := bufferGc_eq hs
  rw [refs_gc ho]
  exact exact_decRef hx (refs_pos_of_slice (slice?_mem ho))

/-- The step lemma, one case for each operation. -/
theorem exact_step {s : State} {op : Op} (hx : Exact s.heap (refs s) NoBlock)
    (hk : NoTakeover s op) : Exact (next s op).heap (refs (next s op)) NoBlock := by
  cases hs : step s op with
  | error f =>
    rw [next_of_error hs]
    exact hx
  | ok s' =>
    rw [next_of_ok hs]
    cases op with
    | new a => exact exact_new hx (hk a.size rfl) hs
    | slice o i j => exact exact_slice hx hs
    | concat x y =>
      have hj := bufferConcat_joined s x y
      generalize hn : newSize s (.concat x y) = n at hj
      generalize joinedSlice s (.concat x y) = onto at hj
      rw [show bufferConcat s x y = .ok s' from hs] at hj
      generalize hr : Except.ok s' = r at hj
      cases hj with
      | error f => cases hr
      | union hfirst _ _ hms =>
        cases hr
        exact exact_window hx _ hfirst (by rw [hms]; rfl)
          ⟨fun _ => rfl, fun _ => rfl, fun _ => rfl, rfl, rfl, rfl, rfl⟩
      | behind hfirst _ _ hms hheap =>
        cases hr
        subst hheap
        have hmb := congrArg MemSlice.mb hms
        refine exact_window hx _ hfirst hmb ?_
        rw [hmb]
        exact (sameAlloc_addNbytes _ _ _).trans (sameAlloc_store _ _ _ _)
      | fresh first second =>
        obtain ⟨ms, t, h', hnew, rfl, hsame⟩ := concatFresh_ok hr.symm
        exact (levBufferNew_exact hx (hk _ hn) hnew).congr hsame
    | newindex o i v => exact exact_newindex hx hs
    | gc o => exact exact_gc hx hs

theorem not_refsExact_of_takeover {s : State} {op : Op} (hx : Exact s.heap (refs s) NoBlock)
    (hk : ¬ NoTakeover s op) : ¬ RefsExact (next s op) := by
  simp only [NoTakeover, not_forall, not_not] at hk
  obtain ⟨size, hsize, hk⟩ := hk
  rw [Option.mem_def] at hsize
  cases op with
  | new a =>
    obtain rfl : a.size = size := Option.some.inj hsize
    obtain ⟨⟨ms, t⟩, hnew⟩ := takesOver_isSome a.temp 0 hk
    have hok : step s (.new a) = .ok { t with created := s.objs.length :: s.created } := by
      simp [step, bufferNew, hnew]
    have hleak : ¬ RefsExact t := levBufferNew_leaks hx hk hnew
    rw [next_of_ok hok]
    exact hleak
  | concat x y =>
    have hj := bufferConcat_joined s x y
    rw [hsize] at hj
    generalize joinedSlice s (.concat x y) = onto at hj
    generalize hr : bufferConcat s x y = r at hj
    cases hj with
    | @fresh first firstLen second secondLen _ _ _ =>
      obtain ⟨⟨ms, t⟩, hnew⟩ := takesOver_isSome first firstLen hk
      have hok : step s (.concat x y) =
          .ok { t with heap := copySecond t.heap ms firstLen (second t.heap) } := by
        show bufferConcat s x y = _
        rw [hr, concatFresh, hnew]
      rw [next_of_ok hok]
      exact fun h => levBufferNew_leaks hx hk hnew
        ((refsExact_congr (sameAlloc_store _ _ _ _)).mp h)
  | slice o i j => cases hsize
  | newindex o i v => cases hsize
  | gc o => cases hsize

def Shelved (h : Heap) : Prop := ∀ b < h.mallocs, ∃ c, b ∈ (h.pools c).pool

theorem shelved_fillLoop {c : SlabClass} {fuel : ℕ} (hs : Shelved h) :
    Shelved (slabFillLoop c fuel h) := by
  induction fuel generalizing h with
  | zero => exact hs
  | succ fuel ih =>
    rw [slabFillLoop]
    split
    · exact hs
    · refine ih fun b hb => ?_
      have hle : b < h.mallocs + 1 := hb
      rcases eq_or_ne b h.mallocs with rfl | hne
      · refine ⟨c, ?_⟩
        rw [Heap.setPool_pool_self]
        exact List.mem_cons_self
      · obtain ⟨c', hin⟩ := hs b (lt_of_le_of_ne (Nat.le_of_lt_succ hle) hne)
        refine ⟨c', ?_⟩
        rcases eq_or_ne c' c with rfl | hc
        · rw [Heap.setPool_pool_self]
          exact List.mem_cons_of_mem _ hin
        · rwa [Heap.setPool_pool_of_ne _ _ _ hc]

theorem shelved_fillClass {c : SlabClass} {k : ℕ} (hs : Shelved h) (hc : (h.pools c).pool = []) :
    Shelved (slabFillClass h c k) := by
  refine shelved_fillLoop fun b hb => ?_
  obtain ⟨c', hin⟩ := hs b hb
  have hne : c' ≠ c := by
    rintro rfl
    rw [hc] at hin
    cases hin
  refine ⟨c', ?_⟩
  simpa [hne] using hin

theorem fillLoop_pool_of_ne {c c' : SlabClass} {fuel : ℕ} (hne : c' ≠ c) :
    ((slabFillLoop c fuel h).pools c').pool = (h.pools c').pool := by
  induction fuel generalizing h with
  | zero => rfl
  | succ fuel ih =>
    rw [slabFillLoop]
    split
    · rfl
    · rw [ih]
      exact Heap.setPool_pool_of_ne _ _ _ hne

theorem fillClass_pool_of_ne {c c' : SlabClass} {k : ℕ} (hne : c' ≠ c) :
    ((slabFillClass h c k).pools c').pool = (h.pools c').pool := by
  rw [slabFillClass, fillLoop_pool_of_ne hne]
  simp [hne]

theorem exact_start (junk : BlockId → ℕ → UInt8) :
    Exact (start junk).heap (refs (start junk)) NoBlock where
  owned := (wf_start junk).owned
  returned b hb _ _ := by
    have hboot : Shelved (Heap.boot junk) := fun b hb => absurd hb (Nat.not_lt_zero b)
    have hempty : ∀ c, ((Heap.boot junk).pools c).pool = [] := fun c => rfl
    have hall : Shelved (levSlabFill (Heap.boot junk)) := by
      refine shelved_fillClass (shelved_fillClass (shelved_fillClass (shelved_fillClass
        (shelved_fillClass hboot (hempty _)) ?_) ?_) ?_) ?_ <;>
        simp only [fillClass_pool_of_ne, ne_eq, reduceCtorEq, not_false_eq_true, hempty]
    exact .inl (hall b hb)

end Lev.Buffer
