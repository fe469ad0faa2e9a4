import Lev.BufferRefines

/-! Which Buffers an assignment can change: those that slices and joins link to its target. All
others show their bytes until they are collected, whatever is done to the rest. -/
namespace Lev.Buffer
open Slab Run Aliases

def operands : Operand → List ObjId
  | .buffer o => [o]
  | .str _ => []

/-- The Buffers that a new one may share bytes with. -/
def parents : Op → List ObjId
  | .slice o _ _ => [o]
  | .concat x y => operands x ++ operands y
  | .new _ | .newindex _ _ _ | .gc _ => []

def linksOf (n n' : ℕ) (op : Op) : List (ObjId × ObjId) :=
  if n < n' then (parents op).map fun o => (n, o) else []

def links (s : State) : List Op → List (ObjId × ObjId)
  | [] => []
  | op :: ops => linksOf s.objs.length (next s op).objs.length op ++ links (next s op) ops

section spec
variable {α : Type*} {s t : Store α UInt8} {op : Op} {o : ObjId} {cells old new : List α}
  {bs : List UInt8} {ls : List (ObjId × ObjId)}

theorem kin_adds (hk : Kin s ls) (ha : Adds s t old new bs)
    (hold : ∀ c ∈ old, ∃ o ∈ parents op, ∃ cells, s.cells? o = some cells ∧ c ∈ cells) :
    Kin t (ls ++ linksOf s.objs.length t.objs.length op) := by
  have hlt : s.objs.length < t.objs.length := by
    rw [ha.objs, List.length_append]
    exact Nat.lt_succ_self _
  rw [linksOf, if_pos hlt]
  exact hk.adds ha hold

theorem kin_same (hk : Kin s ls)
    (hsub : ∀ o cells, t.cells? o = some cells → s.cells? o = some cells) :
    Kin t (ls ++ linksOf s.objs.length t.objs.length op) :=
  (hk.of_sub hsub).mono fun _ hl => List.mem_append_left _ hl

theorem cells?_set_none {o' : ObjId} {objs : List (Option (List α))} {read : α → UInt8}
    (h : Store.cells? ⟨read, objs.set o' none⟩ o = some cells) :
    Store.cells? ⟨read, objs⟩ o = some cells := by
  rw [cells?_eq_some] at h ⊢
  by_cases ho : o' = o
  · subst ho
    have hlt : o' < objs.length := by
      have hlt := (List.getElem?_eq_some_iff.mp h).1
      rwa [List.length_set] at hlt
    have hnone : (objs.set o' none)[o']? = some none := List.getElem?_set_self hlt
    cases hnone.symm.trans h
  · rwa [List.getElem?_set_ne ho] at h

/-- The step lemma of kinship, one case for each effect. -/
theorem kin_effect (hk : Kin s ls) (h : Effect s op t) :
    Kin t (ls ++ linksOf s.objs.length t.objs.length op) := by
  cases h with
  | new ha => exact kin_adds hk ha fun _ hc => absurd hc List.not_mem_nil
  | slice ho _ ha =>
    exact kin_adds hk ha fun c hc =>
      ⟨_, List.mem_singleton_self _, _, ho, List.mem_of_mem_drop (List.mem_of_mem_take hc)⟩
  | copy _ _ ha => exact kin_adds hk ha fun _ hc => absurd hc List.not_mem_nil
  | behind ho _ ha =>
    exact kin_adds hk ha fun c hc => ⟨_, List.mem_cons_self, _, ho, hc⟩
  | joined ho ho' ha =>
    refine kin_adds hk ha fun c hc => ?_
    rcases List.mem_append.mp hc with hc | hc
    · exact ⟨_, List.mem_cons_self, _, ho, hc⟩
    · exact ⟨_, List.mem_cons_of_mem _ List.mem_cons_self, _, ho', hc⟩
  | assign _ _ _ _ ha =>
    refine kin_same hk fun o cells ho => ?_
    rwa [Store.cells?, ha.objs] at ho
  | gc _ => exact kin_same hk fun _ _ ho => cells?_set_none ho
  | refused _ => exact kin_same hk fun _ _ ho => ho

theorem effect_value (h : Effect s op t) (ho : s.cells? o = some cells) (hgc : op ≠ .gc o)
    (hfar : ∀ o' i v, op = .newindex o' i v → ¬ Shares s o' o) :
    t.cells? o = some cells ∧ t.value o = s.value o := by
  cases h with
  | new ha => exact ⟨ha.cells?_old ho, ha.value_old ho⟩
  | slice _ _ ha => exact ⟨ha.cells?_old ho, ha.value_old ho⟩
  | copy _ _ ha => exact ⟨ha.cells?_old ho, ha.value_old ho⟩
  | behind _ _ ha => exact ⟨ha.cells?_old ho, ha.value_old ho⟩
  | joined _ _ ha => exact ⟨ha.cells?_old ho, ha.value_old ho⟩
  | assign ho' _ _ _ ha =>
    refine ⟨?_, ha.value_other (hfar _ _ _ rfl) ho'⟩
    rw [Store.cells?, ha.objs]
    exact ho
  | @gc o' _ ho' =>
    have hne : o' ≠ o := fun h => hgc (congrArg Op.gc h)
    have hcells : Store.cells? { s with objs := s.objs.set o' none } o = some cells := by
      rw [cells?_eq_some] at ho ⊢
      rw [List.getElem?_set_ne hne]
      exact ho
    have hkeeps : Keeps s { s with objs := s.objs.set o' none } := fun _ _ _ _ => rfl
    exact ⟨hcells, hkeeps.value ho hcells⟩
  | refused _ => exact ⟨ho, rfl⟩

end spec

variable {s : State} {o : ObjId} {ls : List (ObjId × ObjId)}

theorem length_store (s : State) : (store s).objs.length = s.objs.length := List.length_map _

theorem kin_next {op : Op} (hi : Inv s) (hk : Kin (store s) ls) (hp : Orderly s op) :
    Kin (store (next s op)) (ls ++ linksOf s.objs.length (next s op).objs.length op) := by
  have hkin := kin_effect hk (effect_next hi hp)
  rwa [length_store, length_store] at hkin

theorem kin_run {ops : List Op} (hi : Inv s) (hk : Kin (store s) ls)
    (h : Along next Orderly s ops) :
    Inv (exec next s ops) ∧ Kin (store (exec next s ops)) (ls ++ links s ops) := by
  induction ops generalizing s ls with
  | nil =>
    rw [links, List.append_nil]
    exact ⟨hi, hk⟩
  | cons op ops ih =>
    rw [links, ← List.append_assoc]
    exact ih (inv_next hi h.1) (kin_next hi hk h.1) h.2

theorem kin_start (junk : BlockId → ℕ → UInt8) : Kin (store (start junk)) [] := by
  rintro o o' ⟨cells, -, -, ho, -⟩
  rw [cells?_eq_some] at ho
  cases ho

theorem links_append (s : State) (ops ops' : List Op) :
    links s (ops ++ ops') = links s ops ++ links (exec next s ops) ops' := by
  induction ops generalizing s with
  | nil => rfl
  | cons op ops ih => rw [List.cons_append, links, links, ih, exec_cons, List.append_assoc]

/-- The run lemma, by induction on the run: the links only grow. -/
theorem value_kept {ops : List Op} {cells : List (BlockId × ℕ)} (hi : Inv s)
    (hk : Kin (store s) ls) (h : Along next Orderly s ops) (ho : (store s).cells? o = some cells)
    (hgc : .gc o ∉ ops)
    (hfar : ∀ o' i v, .newindex o' i v ∈ ops → ¬ Linked (ls ++ links s ops) o' o) :
    (store (exec next s ops)).value o = (store s).value o := by
  induction ops generalizing s ls with
  | nil => rfl
  | cons op ops ih =>
    have hgrow : ∀ l ∈ ls, l ∈ ls ++ links s (op :: ops) := fun l hl => List.mem_append_left _ hl
    have hstep := effect_value (effect_next hi h.1) ho (fun he => hgc (he ▸ List.mem_cons_self))
      fun o' i v he hshares => hfar o' i v (he ▸ List.mem_cons_self) ((hk o' o hshares).mono hgrow)
    rw [links, ← List.append_assoc] at hfar
    rw [exec_cons, ← hstep.2]
    exact ih (inv_next hi h.1) (kin_next hi hk h.1) h.2 hstep.1
      (fun hin => hgc (List.mem_cons_of_mem _ hin))
      fun o' i v hin => hfar o' i v (List.mem_cons_of_mem _ hin)

/-- What a Buffer shows at some point of a run it shows at its end, unless it was collected or
something was assigned to a Buffer that is linked to it. -/
theorem unlinked_unchanged (junk : BlockId → ℕ → UInt8) {ops ops' : List Op} {b : List UInt8}
    (h : Along next Orderly (start junk) (ops ++ ops'))
    (hb : operandBytes (exec next (start junk) ops) (.buffer o) = some b) (hgc : .gc o ∉ ops')
    (hfar : ∀ o' i v, .newindex o' i v ∈ ops' → ¬ Linked (links (start junk) (ops ++ ops')) o' o) :
    operandBytes (exec next (start junk) (ops ++ ops')) (.buffer o) = some b := by
  obtain ⟨hfirst, hrest⟩ := along_append.mp h
  obtain ⟨hi, hk⟩ := kin_run (inv_start junk) (kin_start junk) hfirst
  obtain ⟨ms, hms, rfl⟩ := operandBytes_buffer hb
  have ho : (store (exec next (start junk) ops)).cells? o = some (cellsOf ms) := by
    rw [store_cells?, hms, Option.map_some]
  rw [List.nil_append] at hk
  rw [links_append] at hfar
  have hkept := value_kept hi hk hrest ho hgc hfar
  rw [← exec_append] at hkept
  exact (shown_store _ _).symm.trans (hkept.trans ((shown_store _ (.buffer o)).trans hb))

/-- Two Buffers and a slice of the first one, to which a byte is assigned. -/
def twoFamilies : List Op := [.new (.str [1, 2, 3]), .new (.str [4, 5]), .slice 0 2 2]

theorem unlinked_unchanged_twoFamilies :
    operandBytes (exec next (start fun _ _ => 0) (twoFamilies ++ [.newindex 2 1 (.number 9)]))
      (.buffer 1) = some [4, 5] := by
  have hslice : (exec next (start fun _ _ => 0) twoFamilies).slice? 2 = some ⟨1023, 1, 2⟩ := by
    decide +kernel
  have hlinks :
      links (start fun _ _ => 0) (twoFamilies ++ [.newindex 2 1 (.number 9)]) = [(2, 0)] := by
    decide +kernel
  have hb :
      operandBytes (exec next (start fun _ _ => 0) twoFamilies) (.buffer 1) = some [4, 5] := by
    decide +kernel
  have hrun : Along next Orderly (start fun _ _ => 0)
      (twoFamilies ++ [.newindex 2 1 (.number 9)]) := by
    refine ⟨⟨by decide, by decide⟩, ⟨by decide, by decide⟩,
      ⟨⟨by decide, by decide⟩, by decide, by decide⟩, ⟨⟨by decide, by decide⟩, ?_⟩, trivial⟩
    simp only [twoFamilies, exec, List.foldl] at hslice
    intro ms hms
    cases hslice.symm.trans hms
    exact ⟨by decide, fun _ _ => ⟨by decide, by decide⟩⟩
  refine unlinked_unchanged _ hrun hb (by decide) ?_
  intro o' i v hin hlinked
  cases List.mem_singleton.mp hin
  rw [hlinks] at hlinked
  -- the links stay on one side of the second Buffer
  have hside : decide (2 = 1) = decide (1 = 1) := by
    refine hlinked.eq_of_respects (f := fun o => decide (o = 1)) fun l hl => ?_
    rw [List.mem_singleton.mp hl]
    rfl
  exact absurd hside (by decide)

end Lev.Buffer
