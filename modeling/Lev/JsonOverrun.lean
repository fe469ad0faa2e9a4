import Lev.JsonPieces

/-! Where the slab has no room for a piece: the encoder crashes on the NULL, or it stores
outside its block. Lengths from 2^31 on, which an `int` cannot hold, come to the same. -/
namespace Lev.Json
open CInt Slab Memory

variable {own : BlockId → ℕ} {lost : BlockId → Prop} {h h' h'' : Heap} {m m' : Mem}
  {mb : BlockId} {r : Room}

/-- Some new store is not in its block. -/
def Outside (h h' : Heap) : Prop :=
  ∃ new, h'.stores = new ++ h.stores ∧ ∃ st ∈ new,
    (st.mb < h'.mallocs ∧ h'.capacity st.mb < st.off + st.len) ∨ 2 ^ 20 < st.off + st.len

theorem Outside.later (ho : Outside h h') (hl : Later h' h'') : Outside h h'' := by
  obtain ⟨new, hnew, st, hst, hout⟩ := ho
  obtain ⟨more, hmore⟩ := hl.stores
  refine ⟨more ++ new, by rw [hmore, hnew, List.append_assoc], st,
    List.mem_append_right more hst, ?_⟩
  refine hout.imp_left fun ⟨hlt, hcapacity⟩ => ⟨hlt.trans_le hl.mallocs, ?_⟩
  rwa [hl.capacity _ hlt]

section later

end later

theorem perform_crash (hm : Held own lost m mb r) {p : Piece}
    (hneed : 2 ^ 20 ≤ m.buf.length + p.need)
    (hint : m.buf.length + p.need < 2 ^ 31) : p.perform m = none := by
  have hensure := ensure_crash hm hneed hint
  cases p with
  | char c =>
    refine (perform_char c m).trans ?_
    rw [appendMem_eq]
    exact congrArg (Option.bind · _) hensure
  | mem c =>
    refine (appendMem_eq m c).trans ?_
    exact congrArg (Option.bind · _) hensure
  | string s => exact congrArg (Option.bind · _) hensure
  | number text => exact congrArg (Option.bind · _) hensure

theorem performAll_fits (hm : Held own lost m mb r) (hroom : 6 < r.untilLen) {ps : List Piece}
    (hfits : Fits r m.buf.length ps) :
    ∃ m' mb' r', performAll ps m = some m' ∧ Held own lost m' mb' r' ∧ 6 < r'.untilLen ∧
      Tidy own m.heap m'.heap := by
  induction ps generalizing m mb r with
  | nil => exact ⟨m, mb, r, rfl, hm, hroom, .refl _ _⟩
  | cons p ps ih =>
    obtain ⟨hneed, hreach, hrest⟩ := hfits
    obtain ⟨m₁, hperform, happends⟩ := perform_spec hm hroom p hneed
    obtain ⟨mb₁, hheld⟩ := happends.held
    rw [← happends.length] at hrest
    have hmore := r.le_ensure (m.buf.length + p.need)
    obtain ⟨m', mb', r', hall, hheld', hroom', htidy⟩ := ih hheld (hroom.trans_le hmore) hrest
    refine ⟨m', mb', r', ?_, hheld', hroom', (happends.tidy hreach).trans htidy⟩
    rw [performAll, List.foldlM_cons, hperform]
    exact hall

end Lev.Json
