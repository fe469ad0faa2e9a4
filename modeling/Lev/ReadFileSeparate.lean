import Lev.ReadFile

/-! When concurrent calls of `readFile` keep out of each other's way. A call that waits for
its read finds its descriptor in the global `fd` as long as no open completes in between. -/
namespace Lev.Fs
open CInt Slab Memory Buffer Run

variable {s s' : System} {c c' : Call} {i : ℕ}

theorem levSlabGetBlock_isSome (h : Heap) (size : ℕ) :
    (levSlabGetBlock h size).isSome = true ↔ size ≤ 1024 * 1024 := by
  unfold levSlabGetBlock slabClassOf
  constructor
  · intro hsome
    by_contra hbig
    rw [if_neg (by omega), if_neg (by omega), if_neg (by omega), if_neg (by omega),
      if_neg (by omega)] at hsome
    cases hsome
  · intro hsmall
    split
    · rename_i hnone
      split at hnone
      · cases hnone
      · split at hnone
        · cases hnone
        · split at hnone
          · cases hnone
          · split at hnone
            · cases hnone
            · cases hnone
    · rfl

theorem staticBlock_isSome (b : Buffer.State) (size : ℕ) :
    (staticBlock b size).isSome = true ↔ fits b size = true := by
  unfold staticBlock fits
  rw [Bool.or_eq_true, decide_eq_true_eq]
  cases hmb : b.staticMb with
  | none => simp [levSlabGetBlock_isSome]
  | some mb =>
    simp only [decide_eq_true_eq]
    by_cases hroom : szSub (b.heap.blocks mb).size (b.heap.blocks mb).nbytes < size
    · rw [if_pos hroom, levSlabGetBlock_isSome]
      omega
    · rw [if_neg hroom, Option.isSome_some]
      exact ⟨fun _ => .inr (Nat.le_of_not_lt hroom), fun _ => rfl⟩

/-- `Buffer.new` of a size has memory for it, or takes the process with it. -/
theorem newBuffer_isSome {b : Buffer.State} {size : ℕ} (hsize : size < 2 ^ 53) :
    (newBuffer b size).isSome = true ↔ fits b size = true := by
  have hsz : (NewArg.number (size : ℤ)).size = size := toSizeT_natCast (by omega)
  rw [← staticBlock_isSome]
  unfold newBuffer bufferNew levBufferNew
  simp only [hsz]
  cases staticBlock b size with
  | none => rfl
  | some block =>
    obtain ⟨mb, h⟩ := block
    simp [State.slice?, State.push]

/-- A call that nothing has interfered with so far. -/
def Tidy (s : System) (c : Call) : Prop :=
  match c.waits with
  | .stat => c.opened = none ∧ c.reads = [] ∧ c.closes = []
  | .opening size => size < 2 ^ 53 ∧ c.opened = none ∧ c.reads = [] ∧ c.closes = []
  | .reading _ =>
    ∃ fd, c.opened = some fd ∧ s.fd = some fd ∧ fd ∈ s.openFds ∧ (∀ r ∈ c.reads, r.fd = fd) ∧
      c.closes = []
  | .closing _ | .returned _ _ =>
    (∀ r ∈ c.reads, c.opened = some r.fd) ∧ c.closes = c.opened.toList
  | .raised | .crashed => False

structure Inv (s : System) : Prop where
  running : s.running = true
  tidy : ∀ c ∈ s.calls, Tidy s c
  one : ∀ (i j : ℕ) (c d : Call), s.calls[i]? = some c → s.calls[j]? = some d →
    c.waits.isReading = true → d.waits.isReading = true → i = j

theorem inv_start (b : Buffer.State) : Inv (start b) where
  running := rfl
  tidy := fun c hc => by cases hc
  one := fun i j c d hc => by cases hc

theorem Tidy.congr (h : Tidy s c) (hc : c.waits.isReading = false) : Tidy s' c := by
  unfold Tidy at h ⊢
  cases hw : c.waits with
  | reading buf =>
    rw [hw] at hc
    cases hc
  | _ =>
    rw [hw] at h
    exact h

theorem Tidy.private (h : Tidy s c) : c.Private := by
  unfold Tidy at h
  cases hw : c.waits with
  | stat =>
    rw [hw] at h
    obtain ⟨ho, hr, hc⟩ := h
    refine ⟨?_, ?_, ?_, ?_⟩
    · simp [hr]
    · simp [hc]
    · simp [hc]
    · simp [ho]
  | opening size =>
    rw [hw] at h
    obtain ⟨_, ho, hr, hc⟩ := h
    refine ⟨?_, ?_, ?_, ?_⟩
    · simp [hr]
    · simp [hc]
    · simp [hc]
    · simp [ho]
  | reading buf =>
    rw [hw] at h
    obtain ⟨fd, ho, _, _, hr, hc⟩ := h
    refine ⟨fun r hr' => ?_, ?_, ?_, ?_⟩
    · rw [ho, hr r hr']
    · simp [hc]
    · simp [hc]
    · rw [hw]
      intro hover
      cases hover
  | raised =>
    rw [hw] at h
    exact h.elim
  | crashed =>
    rw [hw] at h
    exact h.elim
  | _ =>
    rw [hw] at h
    obtain ⟨hr, hc⟩ := h
    refine ⟨hr, fun fd hfd => ?_, ?_, fun _ fd ho => ?_⟩
    · rw [hc] at hfd
      exact Option.mem_toList.mp hfd
    · rw [hc]
      cases c.opened <;> simp
    · rw [hc, ho]
      rfl

theorem Inv.separate (h : Inv s) : Separate s := fun c hc => (h.tidy c hc).private

theorem Inv.set (h : Inv s) (hi : s.calls[i]? = some c) (hrun : s'.running = true)
    (hcalls : s'.calls = s.calls.set i c') (htidy : Tidy s' c')
    (hothers : (∀ j d, j ≠ i → s.calls[j]? = some d → d.waits.isReading = false) ∨
      (s'.fd = s.fd ∧ s'.openFds = s.openFds ∧ c'.waits.isReading = false)) : Inv s' := by
  obtain ⟨hlt, _⟩ := List.getElem?_eq_some_iff.mp hi
  have hother : ∀ j d, j ≠ i → s'.calls[j]? = some d → s.calls[j]? = some d := by
    intro j d hj hd
    rw [hcalls, List.getElem?_set_ne hj.symm] at hd
    exact hd
  have hself : ∀ d, s'.calls[i]? = some d → d = c' := by
    intro d hd
    rw [hcalls, List.getElem?_set_self hlt] at hd
    exact (Option.some.inj hd).symm
  refine ⟨hrun, fun d hd => ?_, fun j k d e hd he hrd hre => ?_⟩
  · obtain ⟨j, hj⟩ := List.mem_iff_getElem?.mp hd
    rcases eq_or_ne j i with rfl | hne
    · exact hself d hj ▸ htidy
    · have hold := hother j d hne hj
      have ht := h.tidy d (List.mem_of_getElem? hold)
      rcases hothers with hquiet | ⟨hfd, hopen, _⟩
      · exact ht.congr (hquiet j d hne hold)
      · unfold Tidy at ht ⊢
        rw [hfd, hopen]
        exact ht
  · rcases eq_or_ne j i with rfl | hj
    · rcases eq_or_ne k j with rfl | hk
      · rfl
      · rcases hothers with hquiet | ⟨_, _, hc'⟩
        · rw [hquiet k e hk (hother k e hk he)] at hre
          cases hre
        · rw [hself d hd, hc'] at hrd
          cases hrd
    · rcases eq_or_ne k i with rfl | hk
      · rcases hothers with hquiet | ⟨_, _, hc'⟩
        · rw [hquiet j d hj (hother j d hj hd)] at hrd
          cases hrd
        · rw [hself e he, hc'] at hre
          cases hre
      · exact h.one j k d e (hother j d hj hd) (hother k e hk he) hrd hre

theorem Inv.readFile (h : Inv s) (path : String) : Inv (next s (.readFile path)) := by
  have hnext : next s (.readFile path) =
      { s with calls := s.calls ++ [⟨path, .stat, none, [], []⟩] } := by
    rw [next, if_pos h.running]
  rw [hnext]
  have hold : ∀ (j : ℕ) (d : Call), (s.calls ++ [⟨path, .stat, none, [], []⟩])[j]? = some d →
      d.waits.isReading = true → s.calls[j]? = some d := by
    intro j d hd hr
    rcases Nat.lt_or_ge j s.calls.length with hlt | hge
    · rwa [List.getElem?_append_left hlt] at hd
    · rw [List.getElem?_append_right hge] at hd
      obtain rfl := List.mem_singleton.mp (List.mem_of_getElem? hd)
      cases hr
  refine ⟨h.running, fun d hd => ?_, fun j k d e hd he hrd hre => ?_⟩
  · rcases List.mem_append.mp hd with hd | hd
    · exact h.tidy d hd
    · rw [List.mem_singleton.mp hd]
      exact ⟨rfl, rfl, rfl⟩
  · exact h.one j k d e (hold j d hd hrd) (hold k e he hre) hrd hre

theorem allowed_complete {r : Reply} (h : Allowed s (.complete i r)) :
    ∃ c, s.calls[i]? = some c ∧ answers c.waits r = true ∧
      ∀ fd, r = .opened fd → fd ∉ s.openFds := by
  unfold Allowed System.allows at h
  cases hi : s.calls[i]? with
  | none => simp only [hi, Bool.false_eq_true] at h
  | some c =>
    simp only [hi, Bool.and_eq_true] at h
    refine ⟨c, rfl, h.1, ?_⟩
    rintro fd rfl
    exact of_decide_eq_true h.2

theorem alone_complete {r : Reply} (hi : s.calls[i]? = some c) :
    Alone s (.complete i r) ↔ undisturbed s c.waits r = true := by
  unfold Alone System.spares
  simp only [hi]

theorem quiet_iff : s.quiet = true ↔ ∀ d ∈ s.calls, d.waits.isReading = false := by
  simp only [System.quiet, List.all_eq_true, Bool.not_eq_true']

theorem next_complete (hrun : s.running = true) (hi : s.calls[i]? = some c) (r : Reply) :
    next s (.complete i r) =
      { (resume s c r).1 with calls := s.calls.set i (resume s c r).2 } := by
  rw [next, if_pos hrun]
  simp only [hi]

theorem Inv.others (h : Inv s) (hi : s.calls[i]? = some c) (hc : c.waits.isReading = true) :
    ∀ j d, j ≠ i → s.calls[j]? = some d → d.waits.isReading = false := by
  intro j d hj hd
  cases hr : d.waits.isReading with
  | false => rfl
  | true => exact absurd (h.one j i d c hd hi hr hc) hj

/-- What `resume` does to a call whose request for a Buffer was met. -/
theorem resume_opened {size : ℕ} {fd : ℤ} {buf : ObjId} {ms : MemSlice} {b : Buffer.State}
    (hw : c.waits = .opening size) (hnew : newBuffer s.buffers size = some (buf, ms, b)) :
    resume s c (.opened fd) =
      ({ s with fd := some fd, openFds := fd :: s.openFds, buffers := b },
        fsRead (some fd) ms buf size { c with opened := some fd }) := by
  simp only [resume, hw, hnew]

theorem Inv.complete (h : Inv s) {r : Reply} (hi : s.calls[i]? = some c)
    (ha : answers c.waits r = true) (halone : undisturbed s c.waits r = true) :
    Inv (next s (.complete i r)) := by
  have ht := h.tidy c (List.mem_of_getElem? hi)
  rw [next_complete h.running hi]
  unfold Tidy at ht
  cases hw : c.waits with
  | stat =>
    rw [hw] at ht ha
    obtain ⟨ho, hr, hc⟩ := ht
    cases r with
    | error name =>
      simp only [resume, hw]
      refine h.set hi h.running rfl ⟨?_, ?_⟩ (.inr ⟨rfl, rfl, rfl⟩)
      · simp [hr]
      · rw [hc, ho]; rfl
    | stat size =>
      simp only [resume, hw]
      exact h.set hi h.running rfl ⟨of_decide_eq_true ha, ho, hr, hc⟩ (.inr ⟨rfl, rfl, rfl⟩)
    | _ => cases ha
  | opening size =>
    rw [hw] at ht ha halone
    obtain ⟨hsize, ho, hr, hc⟩ := ht
    cases r with
    | error name =>
      simp only [resume, hw]
      refine h.set hi h.running rfl ⟨?_, ?_⟩
        (.inl fun j d _ hd => quiet_iff.mp halone d (List.mem_of_getElem? hd))
      · simp [hr]
      · rw [hc, ho]; rfl
    | opened fd =>
      obtain ⟨hquiet, hfits⟩ := Bool.and_eq_true_iff.mp halone
      obtain ⟨⟨buf, ms, b⟩, hnew⟩ := Option.isSome_iff_exists.mp
        ((newBuffer_isSome hsize).mpr hfits)
      rw [resume_opened hw hnew]
      refine h.set hi h.running rfl ⟨fd, rfl, rfl, List.mem_cons_self, ?_, hc⟩
        (.inl fun j d _ hd => quiet_iff.mp hquiet d (List.mem_of_getElem? hd))
      simp [fsRead, hr]
    | _ => cases ha
  | reading buf =>
    rw [hw] at ht ha halone
    obtain ⟨fd, ho, hfd, _, hr, hc⟩ := ht
    cases r with
    | error name => cases halone
    | read data =>
      simp only [resume, hw, hfd, fsClose]
      refine h.set hi h.running rfl ⟨fun r hr' => ?_, ?_⟩
        (.inl (h.others hi (by rw [hw]; rfl)))
      · rw [ho, hr r hr']
      · rw [hc, ho]; rfl
    | _ => cases ha
  | closing buf =>
    rw [hw] at ht ha
    cases r with
    | error name =>
      simp only [resume, hw]
      exact h.set hi h.running rfl ht (.inr ⟨rfl, rfl, rfl⟩)
    | closed =>
      simp only [resume, hw]
      exact h.set hi h.running rfl ht (.inr ⟨rfl, rfl, rfl⟩)
    | _ => cases ha
  | _ =>
    rw [hw] at ha
    cases r <;> cases ha

theorem Inv.step (h : Inv s) {op : Op} (hallowed : Allowed s op) (halone : Alone s op) :
    Inv (next s op) := by
  cases op with
  | readFile path => exact h.readFile path
  | complete i r =>
    obtain ⟨c, hi, ha, _⟩ := allowed_complete hallowed
    exact h.complete hi ha ((alone_complete hi).mp halone)

def Waits.settled (w : Waits) : Bool :=
  match w with
  | .closing _ => true
  | w => w.over

/-- The call will close another descriptor than its own, which stays open until then. -/
structure Robbed (s : System) (c : Call) : Prop where
  running : s.running = true
  reading : c.waits.isReading = true
  own : ∃ fd, c.opened = some fd ∧ fd ∈ s.openFds ∧ s.fd ≠ some fd

/-- Nothing is closed before the read. -/
def Early (s : System) : Prop := ∀ c ∈ s.calls, c.waits.settled = false → c.closes = []

/-- A call has gone wrong or will. -/
structure Damaged (s : System) : Prop where
  early : Early s
  damage : ∃ (i : ℕ) (c : Call), s.calls[i]? = some c ∧
    (c.waits.settled = true ∧ ¬ c.Private ∨ Robbed s c)

theorem not_private_leak {fd : ℤ} (hover : c.waits.over = true) (ho : c.opened = some fd)
    (hc : c.closes = []) : ¬ c.Private := by
  intro hp
  have hclosed := hp.released hover fd ho
  rw [hc] at hclosed
  cases hclosed

theorem not_private_resume {r : Reply} (ha : answers c.waits r = true) (hs : c.waits.settled = true)
    (h : ¬ c.Private) : (resume s c r).2.waits.settled = true ∧ ¬ (resume s c r).2.Private := by
  cases hw : c.waits with
  | closing buf =>
    have hreturn : ∀ err buf, ¬ ({ c with waits := .returned err buf } : Call).Private := by
      intro err buf hp
      refine h ⟨hp.reads, hp.closes, hp.once, fun hover => ?_⟩
      rw [hw] at hover
      cases hover
    rw [hw] at ha
    cases r with
    | error name =>
      simp only [resume, hw]
      exact ⟨rfl, hreturn _ _⟩
    | closed =>
      simp only [resume, hw]
      exact ⟨rfl, hreturn _ _⟩
    | _ => cases ha
  | stat => rw [hw] at hs; cases hs
  | opening size => rw [hw] at hs; cases hs
  | reading buf => rw [hw] at hs; cases hs
  | _ =>
    rw [hw] at ha
    cases r <;> cases ha

/-- The read of a call that was robbed ends in a wrong close, an error or a leak. -/
theorem Robbed.resume {r : Reply} (h : Robbed s c) (ha : answers c.waits r = true)
    (hc : c.closes = []) :
    (resume s c r).2.waits.settled = true ∧ ¬ (resume s c r).2.Private := by
  obtain ⟨_, hreading, fd, ho, _, hne⟩ := h
  cases hw : c.waits with
  | reading buf =>
    rw [hw] at ha
    cases r with
    | error name =>
      simp only [Fs.resume, hw]
      exact ⟨rfl, not_private_leak rfl ho hc⟩
    | read data =>
      simp only [Fs.resume, hw, fsClose]
      cases hfd : s.fd with
      | none => exact ⟨rfl, not_private_leak rfl ho hc⟩
      | some g =>
        refine ⟨rfl, fun hp => hne ?_⟩
        have hclosed := hp.closes g (by simp)
        exact hfd.trans (hclosed.symm.trans ho)
    | _ => cases ha
  | _ =>
    rw [hw] at hreading
    cases hreading

theorem resume_keeps {d : Call} {r : Reply} {fd : ℤ} (hopen : fd ∈ s.openFds)
    (hne : s.fd ≠ some fd) (hfresh : ∀ fd', r = .opened fd' → fd' ∉ s.openFds) :
    fd ∈ (resume s d r).1.openFds ∧ (resume s d r).1.fd ≠ some fd := by
  cases r with
  | error name =>
    rw [resume]
    split
    · exact ⟨hopen, by simp⟩
    all_goals exact ⟨hopen, hne⟩
  | stat size =>
    rw [resume]
    split
    all_goals exact ⟨hopen, hne⟩
  | opened fd' =>
    have hother : some fd' ≠ some fd := fun heq => hfresh fd' rfl (Option.some.inj heq ▸ hopen)
    rw [resume]
    split
    · simp only
      split
      all_goals exact ⟨List.mem_cons_of_mem _ hopen, hother⟩
    · exact ⟨hopen, hne⟩
  | read data =>
    rw [resume]
    split
    · exact ⟨List.mem_filter.mpr ⟨hopen, decide_eq_true hne.symm⟩, hne⟩
    · exact ⟨hopen, hne⟩
  | closed =>
    rw [resume]
    split
    all_goals exact ⟨hopen, hne⟩

/-- The process goes on, or a call that has opened a descriptor has taken it down. -/
theorem resume_running (hrun : s.running = true) (d : Call) (r : Reply) :
    (resume s d r).1.running = true ∨
      ∃ fd, d.waits.settled = false ∧
        (resume s d r).2 = { d with opened := some fd, waits := .crashed } := by
  cases r with
  | opened fd =>
    cases hw : d.waits with
    | opening size =>
      cases hnew : newBuffer s.buffers size with
      | none =>
        refine .inr ⟨fd, rfl, ?_⟩
        simp only [resume, hw, hnew]
      | some new =>
        refine .inl ?_
        simp only [resume, hw, hnew]
        exact hrun
    | _ =>
      refine .inl ?_
      simp only [resume, hw]
      exact hrun
  | _ =>
    refine .inl ?_
    rw [resume]
    split <;> exact hrun

theorem resume_early {r : Reply} (ha : answers c.waits r = true)
    (h : c.waits.settled = false → c.closes = []) :
    (resume s c r).2.waits.settled = false → (resume s c r).2.closes = [] := by
  intro hs
  cases hw : c.waits with
  | stat =>
    have hc := h (by rw [hw]; rfl)
    cases r <;> simp only [resume, hw] <;> exact hc
  | opening size =>
    have hc := h (by rw [hw]; rfl)
    cases r with
    | opened fd =>
      cases hnew : newBuffer s.buffers size with
      | none =>
        simp only [resume, hw, hnew]
        exact hc
      | some new =>
        obtain ⟨buf, ms, b⟩ := new
        rw [resume_opened hw hnew]
        exact hc
    | _ => simp only [resume, hw]; exact hc
  | reading buf =>
    have hc := h (by rw [hw]; rfl)
    cases r with
    | read data =>
      simp only [resume, hw, fsClose] at hs
      cases hfd : s.fd with
      | none =>
        simp only [resume, hw, fsClose, hfd]
        exact hc
      | some fd =>
        rw [hfd] at hs
        cases hs
    | _ => simp only [resume, hw]; exact hc
  | closing buf =>
    rw [hw] at ha
    cases r with
    | error name =>
      simp only [resume, hw] at hs
      cases hs
    | closed =>
      simp only [resume, hw] at hs
      cases hs
    | _ => cases ha
  | _ =>
    rw [hw] at ha
    cases r <;> cases ha

theorem Early.complete (h : Early s) {r : Reply} (hi : s.calls[i]? = some c)
    (ha : answers c.waits r = true) (hrun : s.running = true) : Early (next s (.complete i r)) := by
  rw [next_complete hrun hi]
  intro d hd
  rcases List.mem_or_eq_of_mem_set hd with hd | rfl
  · exact h d hd
  · exact resume_early ha (h c (List.mem_of_getElem? hi))

theorem Early.readFile (h : Early s) (path : String) : Early (next s (.readFile path)) := by
  rw [next]
  split
  · intro d hd
    rcases List.mem_append.mp hd with hd | hd
    · exact h d hd
    · rw [List.mem_singleton.mp hd]
      exact fun _ => rfl
  · exact h

theorem Damaged.complete (h : Damaged s) {r : Reply} (hi : s.calls[i]? = some c)
    (ha : answers c.waits r = true) (hfresh : ∀ fd, r = .opened fd → fd ∉ s.openFds)
    (hrun : s.running = true) : Damaged (next s (.complete i r)) := by
  refine ⟨h.early.complete hi ha hrun, ?_⟩
  obtain ⟨j, d, hd, hbad⟩ := h.damage
  obtain ⟨hlt, _⟩ := List.getElem?_eq_some_iff.mp hi
  rw [next_complete hrun hi]
  rcases eq_or_ne j i with rfl | hne
  · obtain rfl : c = d := Option.some.inj (hi.symm.trans hd)
    refine ⟨j, _, List.getElem?_set_self hlt, .inl ?_⟩
    rcases hbad with ⟨hs, hp⟩ | hrobbed
    · exact not_private_resume ha hs hp
    · have hs : c.waits.settled = false := by
        have hr := hrobbed.reading
        cases hw : c.waits with
        | reading buf => rfl
        | _ =>
          rw [hw] at hr
          cases hr
      exact hrobbed.resume ha (h.early c (List.mem_of_getElem? hi) hs)
  · have hother : (s.calls.set i (resume s c r).2)[j]? = some d := by
      rw [List.getElem?_set_ne hne.symm]
      exact hd
    rcases hbad with hbad | ⟨_, hreading, fd, ho, hopen, hfd⟩
    · exact ⟨j, d, hother, .inl hbad⟩
    · rcases resume_running hrun c r with hrun' | ⟨fd', hs, hcrash⟩
      · obtain ⟨hopen', hfd'⟩ := resume_keeps (d := c) hopen hfd hfresh
        exact ⟨j, d, hother, .inr ⟨hrun', hreading, fd, ho, hopen', hfd'⟩⟩
      · refine ⟨i, _, List.getElem?_set_self hlt, .inl ?_⟩
        rw [hcrash]
        exact ⟨rfl, not_private_leak rfl rfl (h.early c (List.mem_of_getElem? hi) hs)⟩

theorem Damaged.step (h : Damaged s) {op : Op} (hallowed : Allowed s op) :
    Damaged (next s op) := by
  cases hrun : s.running with
  | false =>
    have hnext : next s op = s := by
      unfold next
      rw [hrun]
      rfl
    rw [hnext]
    exact h
  | true =>
    cases op with
    | readFile path =>
      refine ⟨h.early.readFile path, ?_⟩
      obtain ⟨j, d, hd, hbad⟩ := h.damage
      obtain ⟨hlt, _⟩ := List.getElem?_eq_some_iff.mp hd
      rw [next, if_pos hrun]
      refine ⟨j, d, (List.getElem?_append_left hlt).trans hd, ?_⟩
      rcases hbad with hbad | ⟨_, hreading, hown⟩
      · exact .inl hbad
      · exact .inr ⟨hrun, hreading, hown⟩
    | complete i r =>
      obtain ⟨c, hi, ha, hfresh⟩ := allowed_complete hallowed
      exact h.complete hi ha hfresh hrun

theorem Inv.early (h : Inv s) : Early s := by
  intro c hc hs
  have ht := h.tidy c hc
  unfold Tidy at ht
  cases hw : c.waits with
  | stat =>
    rw [hw] at ht
    exact ht.2.2
  | opening size =>
    rw [hw] at ht
    exact ht.2.2.2
  | reading buf =>
    rw [hw] at ht
    obtain ⟨_, _, _, _, _, hcloses⟩ := ht
    exact hcloses
  | _ =>
    rw [hw] at hs
    cases hs

/-- An open that completes while another call waits for its read robs that call, or ends
the process. -/
theorem Inv.rob (h : Inv s) {r : Reply} {size : ℕ} (hi : s.calls[i]? = some c)
    (hw : c.waits = .opening size) (ha : answers c.waits r = true)
    (hfresh : ∀ fd, r = .opened fd → fd ∉ s.openFds)
    (hreader : ∃ d ∈ s.calls, d.waits.isReading = true) : Damaged (next s (.complete i r)) := by
  refine ⟨h.early.complete hi ha h.running, ?_⟩
  obtain ⟨hlt, _⟩ := List.getElem?_eq_some_iff.mp hi
  obtain ⟨d, hd, hreading⟩ := hreader
  obtain ⟨j, hj⟩ := List.mem_iff_getElem?.mp hd
  have hne : j ≠ i := by
    rintro rfl
    obtain rfl : c = d := Option.some.inj (hi.symm.trans hj)
    rw [hw] at hreading
    cases hreading
  have hother : (s.calls.set i (resume s c r).2)[j]? = some d := by
    rw [List.getElem?_set_ne hne.symm]
    exact hj
  have ht := h.tidy d hd
  unfold Tidy at ht
  rw [next_complete h.running hi]
  cases hwd : d.waits with
  | reading buf =>
    rw [hwd] at ht
    obtain ⟨fd, ho, hfd, hopen, _, _⟩ := ht
    rw [hw] at ha
    cases r with
    | error name =>
      simp only [resume, hw] at hother ⊢
      exact ⟨j, d, hother, .inr ⟨h.running, hreading, fd, ho, hopen, by simp⟩⟩
    | opened fd' =>
      have hother' : some fd' ≠ some fd := fun heq => hfresh fd' rfl (Option.some.inj heq ▸ hopen)
      cases hnew : newBuffer s.buffers size with
      | some new =>
        obtain ⟨buf', ms, b⟩ := new
        rw [resume_opened hw hnew] at hother ⊢
        exact ⟨j, d, hother,
          .inr ⟨h.running, hreading, fd, ho, List.mem_cons_of_mem _ hopen, hother'⟩⟩
      | none =>
        have hcloses := h.early c (List.mem_of_getElem? hi) (by rw [hw]; rfl)
        refine ⟨i, _, List.getElem?_set_self hlt, .inl ?_⟩
        simp only [resume, hw, hnew]
        exact ⟨rfl, not_private_leak rfl rfl hcloses⟩
    | _ => cases ha
  | _ =>
    rw [hwd] at hreading
    cases hreading

theorem Inv.leak (h : Inv s) {r : Reply} (fd : ℤ) (hi : s.calls[i]? = some c)
    (ha : answers c.waits r = true) (hs : c.waits.settled = false)
    (hover : (resume s c r).2.waits.over = true) (ho : (resume s c r).2.opened = some fd)
    (hcloses : (resume s c r).2.closes = c.closes) : Damaged (next s (.complete i r)) := by
  refine ⟨h.early.complete hi ha h.running, ?_⟩
  obtain ⟨hlt, _⟩ := List.getElem?_eq_some_iff.mp hi
  have hnone := h.early c (List.mem_of_getElem? hi) hs
  rw [next_complete h.running hi]
  refine ⟨i, _, List.getElem?_set_self hlt, .inl ⟨?_, ?_⟩⟩
  · cases hw : (resume s c r).2.waits with
    | closing buf => rfl
    | _ =>
      rw [hw] at hover
      exact hover
  · exact not_private_leak hover ho (hcloses.trans hnone)

theorem Inv.damage (h : Inv s) {op : Op} (hallowed : Allowed s op) (halone : ¬ Alone s op) :
    Damaged (next s op) := by
  cases op with
  | readFile path => exact absurd rfl halone
  | complete i r =>
    obtain ⟨c, hi, ha, hfresh⟩ := allowed_complete hallowed
    have ht := h.tidy c (List.mem_of_getElem? hi)
    unfold Tidy at ht
    rw [alone_complete hi] at halone
    have hreader : s.quiet ≠ true → ∃ d ∈ s.calls, d.waits.isReading = true := by
      intro hnot
      rw [ne_eq, quiet_iff] at hnot
      push Not at hnot
      obtain ⟨d, hd, hr⟩ := hnot
      exact ⟨d, hd, eq_true_of_ne_false hr⟩
    cases hw : c.waits with
    | opening size =>
      rw [hw] at ht halone
      cases r with
      | error name => exact h.rob hi hw ha hfresh (hreader halone)
      | opened fd =>
        by_cases hquiet : s.quiet = true
        · have hfits : ¬ fits s.buffers size = true := fun hfits =>
            halone (Bool.and_eq_true_iff.mpr ⟨hquiet, hfits⟩)
          have hnew : newBuffer s.buffers size = none := by
            rw [← newBuffer_isSome ht.1, Bool.not_eq_true, Option.isSome_eq_false_iff,
              Option.isNone_iff_eq_none] at hfits
            exact hfits
          refine h.leak fd hi ha (by rw [hw]; rfl) ?_ ?_ ?_
          all_goals simp only [resume, hw, hnew, Waits.over]
        · exact h.rob hi hw ha hfresh (hreader hquiet)
      | _ => exact absurd rfl halone
    | reading buf =>
      rw [hw] at ht halone
      obtain ⟨fd, ho, _⟩ := ht
      cases r with
      | error name =>
        refine h.leak fd hi ha (by rw [hw]; rfl) ?_ ?_ ?_
        all_goals simp only [resume, hw, Waits.over, ho]
      | _ => exact absurd rfl halone
    | _ =>
      rw [hw] at halone
      exact absurd rfl halone

theorem Damaged.not_separate (h : Damaged s) (hdone : Done s) : ¬ Separate s := by
  intro hsep
  obtain ⟨i, c, hi, ⟨_, hp⟩ | hrobbed⟩ := h.damage
  · exact hp (hsep c (List.mem_of_getElem? hi))
  · have hover := hdone hrobbed.running c (List.mem_of_getElem? hi)
    have hreading := hrobbed.reading
    cases hw : c.waits with
    | reading buf =>
      rw [hw] at hover
      cases hover
    | _ =>
      rw [hw] at hreading
      cases hreading

/-- Calls that are alone when it matters stay separate; and if the calls of a run that has
come to its end were separate, they were alone. -/
theorem readFile_separate_iff (b : Buffer.State) (ops : List Op)
    (hallowed : Along next Allowed (start b) ops) :
    (Along next Alone (start b) ops → Always next Separate (start b) ops) ∧
      (Done (exec next (start b) ops) →
        (Separate (exec next (start b) ops) ↔ Along next Alone (start b) ops)) := by
  have hforward : Along next Alone (start b) ops → Always next Separate (start b) ops := by
    intro halone
    exact always_of_inv (fun s hs => hs.separate) (fun s op hs hop => hs.step hop.1 hop.2)
      (inv_start b) (hallowed.and halone)
  refine ⟨hforward, fun hdone => ⟨fun hsep => ?_, fun halone => (hforward halone).exec⟩⟩
  rcases along_or_damaged (fun s op hs => hs.step) (fun s op hs => hs.damage)
    (fun s op hs => hs.step) (inv_start b) hallowed with ⟨halone, _⟩ | hdamaged
  · exact halone
  · exact absurd hsep (Damaged.not_separate hdamaged hdone)

/-- A process without Buffers. -/
def noBuffers : Buffer.State := ⟨Heap.boot fun _ _ => 0, none, [], []⟩

/-- Two calls whose opens and reads take turns, with one descriptor after the other. -/
def turns : List Op :=
  [.readFile "a", .readFile "b", .complete 0 (.stat 2), .complete 1 (.stat 1),
    .complete 0 (.opened 7), .complete 0 (.read [104, 105]), .complete 1 (.opened 7),
    .complete 0 .closed, .complete 1 (.read [33]), .complete 1 .closed]

theorem readFile_separate_iff_turns : Separate (exec next (start noBuffers) turns) := by
  have hallowed : Along next Allowed (start noBuffers) turns := by decide +kernel
  have hdone : Done (exec next (start noBuffers) turns) := by
    intro _
    decide +kernel
  have halone : Along next Alone (start noBuffers) turns := by decide +kernel
  exact ((readFile_separate_iff noBuffers turns hallowed).2 hdone).mpr halone

/-- The open of the second call completes before the read of the first. -/
def overlap : List Op :=
  [.readFile "a", .readFile "b", .complete 0 (.stat 2), .complete 1 (.stat 1),
    .complete 0 (.opened 7), .complete 1 (.opened 8), .complete 0 (.read [104, 105])]

/-- The first call closes the descriptor of the second. -/
theorem overlap_not_separate : Along next Allowed (start noBuffers) overlap ∧
    ¬ Separate (exec next (start noBuffers) overlap) := by
  refine ⟨by decide +kernel, fun hsep => ?_⟩
  have hclose : ∃ c ∈ (exec next (start noBuffers) overlap).calls,
      c.opened = some 7 ∧ 8 ∈ c.closes := by decide +kernel
  obtain ⟨c, hc, ho, hcloses⟩ := hclose
  have hown := (hsep c hc).closes 8 hcloses
  rw [ho] at hown
  cases hown

end Lev.Fs
