import Mathlib

/-! Objects that are lists of references into one memory, and may share some of it. New objects
are made of cells that no object has, or of cells of older ones; an assignment changes the cells
of one object, and so what the others with these cells show. Nothing here is about one particular
program. -/
namespace Lev.Aliases

/-- The memory, and the cells of each object; `none` for an object that is no more. -/
structure Store (α β : Type*) where
  read : α → β
  objs : List (Option (List α))

variable {α β : Type*}

def Store.cells? (s : Store α β) (o : ℕ) : Option (List α) := (s.objs[o]?).join

def Store.value (s : Store α β) (o : ℕ) : Option (List β) := (s.cells? o).map (List.map s.read)

/-- Different cells that no object has. -/
structure Fresh (s : Store α β) (new : List α) : Prop where
  nodup : new.Nodup
  unused : ∀ cells, some cells ∈ s.objs → ∀ c ∈ cells, c ∉ new

def Keeps (s t : Store α β) : Prop :=
  ∀ cells, some cells ∈ s.objs → ∀ c ∈ cells, t.read c = s.read c

/-- An object is added that has the cells `old`, and behind them fresh ones that show `bs`. -/
structure Adds (s t : Store α β) (old new : List α) (bs : List β) : Prop where
  objs : t.objs = s.objs ++ [some (old ++ new)]
  fresh : Fresh s new
  shows : new.map t.read = bs
  keeps : Keeps s t

/-- `bs` is assigned to the cells from the `k`-th on. -/
structure Assigns (s t : Store α β) (cells : List α) (k : ℕ) (bs : List β) : Prop where
  objs : t.objs = s.objs
  shows : ((cells.drop k).take bs.length).map t.read = bs
  others : ∀ c, c ∉ (cells.drop k).take bs.length → t.read c = s.read c

def Shares (s : Store α β) (o o' : ℕ) : Prop :=
  ∃ cells cells' c, s.cells? o = some cells ∧ s.cells? o' = some cells' ∧ c ∈ cells ∧ c ∈ cells'

/-- Objects that are linked through others. -/
def Linked (links : List (ℕ × ℕ)) : ℕ → ℕ → Prop :=
  Relation.EqvGen fun o o' => (o, o') ∈ links

def Kin (s : Store α β) (links : List (ℕ × ℕ)) : Prop := ∀ o o', Shares s o o' → Linked links o o'

variable {s t : Store α β} {old new cells : List α} {bs : List β} {o o' k : ℕ}
  {links links' : List (ℕ × ℕ)}

theorem cells?_eq_some : s.cells? o = some cells ↔ s.objs[o]? = some (some cells) := by
  simp [Store.cells?, Option.join_eq_some_iff]

theorem cells?_mem (h : s.cells? o = some cells) : some cells ∈ s.objs :=
  List.mem_of_getElem? (cells?_eq_some.mp h)

theorem Keeps.value (hk : Keeps s t) (h : s.cells? o = some cells)
    (h' : t.cells? o = some cells) : t.value o = s.value o := by
  rw [Store.value, Store.value, h, h']
  exact congrArg some (List.map_congr_left (hk cells (cells?_mem h)))

theorem Adds.cells?_old (h : Adds s t old new bs) (ho : s.cells? o = some cells) :
    t.cells? o = some cells := by
  rw [cells?_eq_some] at ho ⊢
  rw [h.objs, List.getElem?_append_left (List.getElem?_eq_some_iff.mp ho).1]
  exact ho

theorem Adds.value_old (h : Adds s t old new bs) (ho : s.cells? o = some cells) :
    t.value o = s.value o := h.keeps.value ho (h.cells?_old ho)

theorem Adds.cells?_cases (h : Adds s t old new bs) (ho : t.cells? o = some cells) :
    s.cells? o = some cells ∨ (o = s.objs.length ∧ cells = old ++ new) := by
  rw [cells?_eq_some, h.objs] at ho
  rcases Nat.lt_or_ge o s.objs.length with hlt | hge
  · rw [List.getElem?_append_left hlt] at ho
    exact .inl (cells?_eq_some.mpr ho)
  · rw [List.getElem?_append_right hge, List.getElem?_singleton] at ho
    split at ho
    · next hzero =>
      cases ho
      exact .inr ⟨by omega, rfl⟩
    · cases ho

/-- An object shows what it did after an assignment to cells that it has not. -/
theorem Assigns.value_other (h : Assigns s t cells k bs) (hdisjoint : ¬ Shares s o o')
    (ho : s.cells? o = some cells) : t.value o' = s.value o' := by
  have hcells : t.cells? o' = s.cells? o' := by rw [Store.cells?, Store.cells?, h.objs]
  rw [Store.value, Store.value, hcells]
  cases ho' : s.cells? o' with
  | none => rfl
  | some cells' =>
    refine congrArg some (List.map_congr_left fun c hc => h.others c fun hin => ?_)
    have hmem : c ∈ cells := List.mem_of_mem_drop (List.mem_of_mem_take hin)
    exact hdisjoint ⟨cells, cells', c, ho, ho', hmem, hc⟩

theorem Linked.mono (hsub : ∀ l ∈ links, l ∈ links') (h : Linked links o o') :
    Linked links' o o' :=
  Relation.EqvGen.mono (fun o o' hl => hsub (o, o') hl) _ _ h

/-- What the two ends of each link have in common, all linked objects have in common. -/
theorem Linked.eq_of_respects {γ : Type*} {f : ℕ → γ} (h : Linked links o o')
    (hf : ∀ l ∈ links, f l.1 = f l.2) : f o = f o' := by
  induction h with
  | rel _ _ hl => exact hf _ hl
  | refl _ => rfl
  | symm _ _ _ ih => exact ih.symm
  | trans _ _ _ _ _ ih ih' => exact ih.trans ih'

theorem Shares.symm (h : Shares s o o') : Shares s o' o := by
  obtain ⟨cells, cells', c, ho, ho', hc, hc'⟩ := h
  exact ⟨cells', cells, c, ho', ho, hc', hc⟩

theorem Kin.mono (h : Kin s links) (hsub : ∀ l ∈ links, l ∈ links') : Kin s links' :=
  fun o o' hs => (h o o' hs).mono hsub

theorem Kin.of_sub (h : Kin s links) (hsub : ∀ o cells, t.cells? o = some cells →
    s.cells? o = some cells) : Kin t links := by
  rintro o o' ⟨cells, cells', c, ho, ho', hc, hc'⟩
  exact h o o' ⟨cells, cells', c, hsub o cells ho, hsub o' cells' ho', hc, hc'⟩

/-- A new object is kin once it is linked to the ones that its cells are from. -/
theorem Kin.adds (h : Kin s links) (ha : Adds s t old new bs) {srcs : List ℕ}
    (hold : ∀ c ∈ old, ∃ o ∈ srcs, ∃ cells, s.cells? o = some cells ∧ c ∈ cells) :
    Kin t (links ++ srcs.map fun o => (s.objs.length, o)) := by
  have hsub : ∀ l ∈ links, l ∈ links ++ srcs.map fun o => (s.objs.length, o) :=
    fun l hl => List.mem_append_left _ hl
  -- a cell of the new object that an old one has too
  have hnew : ∀ o cells c, s.cells? o = some cells → c ∈ cells → c ∈ old ++ new →
      Linked (links ++ srcs.map fun o => (s.objs.length, o)) s.objs.length o := by
    intro o cells c ho hc hin
    rcases List.mem_append.mp hin with hin | hin
    · obtain ⟨src, hsrc, cells', hcells', hc'⟩ := hold c hin
      have hlink : (s.objs.length, src) ∈ links ++ srcs.map fun o => (s.objs.length, o) :=
        List.mem_append_right _ (List.mem_map_of_mem hsrc)
      exact .trans _ _ _ (.rel _ _ hlink)
        ((h src o ⟨cells', cells, c, hcells', ho, hc', hc⟩).mono hsub)
    · exact absurd hin (ha.fresh.unused cells (cells?_mem ho) c hc)
  rintro o o' ⟨cells, cells', c, ho, ho', hc, hc'⟩
  rcases ha.cells?_cases ho with hs | ⟨rfl, rfl⟩
  · rcases ha.cells?_cases ho' with hs' | ⟨rfl, rfl⟩
    · exact (h o o' ⟨cells, cells', c, hs, hs', hc, hc'⟩).mono hsub
    · exact .symm _ _ (hnew o cells c hs hc hc')
  · rcases ha.cells?_cases ho' with hs' | ⟨rfl, rfl⟩
    · exact hnew o' cells' c hs' hc' hc
    · exact .refl _

end Lev.Aliases
