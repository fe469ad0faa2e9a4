import Lev.JsonModule
import Lev.JsonOverrun

/-! Where `json_encode` stores, and whether it stored all the bytes it reports. The room made
for a string is enough for its characters, but not for the byte that the length moves on behind
each escape, where nothing is stored. -/
namespace Lev.Memory

/-- The access stores the `i`-th byte of the slice. -/
def Access.Covers (a : Access) (i : ℕ) : Prop := a.index ≤ i ∧ i < a.index + a.len

instance (a : Access) (i : ℕ) : Decidable (a.Covers i) := inferInstanceAs (Decidable (_ ∧ _))

end Lev.Memory

namespace Lev.Json
open CInt Slab Memory Run Lua

/-- A character and its escape as they should stand in the text. -/
def escaped (c : UInt8) : List UInt8 := (char2escape c).getD [c]

namespace Piece

def text : Piece → List UInt8
  | .char c => [c]
  | .mem c => c
  | .string s => 34 :: (s.flatMap escaped ++ [34])
  | .number text => text

def Plain : Piece → Prop
  | .string s => ∀ c ∈ s, char2escape c = none
  | _ => True

instance : (p : Piece) → Decidable p.Plain
  | .string s => inferInstanceAs (Decidable (∀ c ∈ s, char2escape c = none))
  | .char _ => .isTrue trivial
  | .mem _ => .isTrue trivial
  | .number _ => .isTrue trivial

/-- `snprintf` writes all of a number. -/
def Whole : Piece → Prop
  | .number text => text.length < fpconvGFmtBufsize
  | _ => True

end Piece

/-- The slab has a block for every piece, by the lengths alone. -/
def Granted : ℕ → List Piece → Prop
  | _, [] => True
  | at', p :: ps => at' + p.need < 2 ^ 20 ∧ Granted (at' + p.advance) ps

/-- What is stored for the pieces that are appended stays in the slice. -/
def Roomy : Room → ℕ → List Piece → Prop
  | _, _, [] => True
  | r, at', p :: ps => at' + p.need < 2 ^ 20 →
    at' + p.reach ≤ (r.ensure (at' + p.need)).untilLen ∧
      Roomy (r.ensure (at' + p.need)) (at' + p.advance) ps

section accesses
variable {u i : ℕ} {s : List UInt8} {a : Access}

theorem mem_byteAccesses {n : ℕ} {str : List UInt8} :
    a ∈ byteAccesses u n str ↔ ∃ k < str.length, a = ⟨n + k, 1, u⟩ := by
  induction str generalizing n with
  | nil => simp [byteAccesses]
  | cons c str ih =>
    rw [byteAccesses, List.mem_append, ih, List.mem_singleton, List.length_cons]
    constructor
    · rintro (⟨k, hk, rfl⟩ | rfl)
      · exact ⟨k + 1, by omega, by rw [Nat.add_assoc, Nat.add_comm 1 k]⟩
      · exact ⟨0, by omega, rfl⟩
    · rintro ⟨k, hk, rfl⟩
      cases k with
      | zero => exact .inr rfl
      | succ k => exact .inl ⟨k, by omega, by rw [Nat.add_assoc, Nat.add_comm 1 k]⟩

theorem mem_charAccesses {n : ℕ} {c : UInt8} (ha : a ∈ charAccesses u n c) :
    ∃ k < charWidth c, a = ⟨n + k, 1, u⟩ ∧ (char2escape c ≠ none → k + 1 < charWidth c) := by
  rw [charAccesses] at ha
  rw [charWidth]
  cases hc : char2escape c with
  | none =>
    rw [hc, List.mem_singleton] at ha
    exact ⟨0, Nat.one_pos, ha, fun h => absurd rfl h⟩
  | some escstr =>
    rw [hc] at ha
    obtain ⟨k, hk, rfl⟩ := mem_byteAccesses.mp ha
    exact ⟨k, Nat.lt_succ_of_lt hk, rfl, fun _ => Nat.succ_lt_succ hk⟩

theorem mem_stringAccesses {n : ℕ} (ha : a ∈ stringAccesses u n s) :
    ∃ k < (s.map charWidth).sum, a = ⟨n + k, 1, u⟩ := by
  induction s generalizing n with
  | nil => cases ha
  | cons c s ih =>
    rw [List.map_cons, List.sum_cons]
    rcases List.mem_append.mp ha with ha | ha
    · obtain ⟨k, hk, rfl⟩ := ih ha
      exact ⟨charWidth c + k, by omega, by rw [Nat.add_assoc]⟩
    · obtain ⟨k, hk, rfl, -⟩ := mem_charAccesses ha
      exact ⟨k, by omega, rfl⟩

theorem charWidth_plain {c : UInt8} (hc : char2escape c = none) : charWidth c = 1 := by
  rw [charWidth, hc]
  rfl

theorem stringAccesses_cover {n : ℕ} (hs : ∀ c ∈ s, char2escape c = none) {k : ℕ}
    (hk : k < (s.map charWidth).sum) : ⟨n + k, 1, u⟩ ∈ stringAccesses u n s := by
  induction s generalizing n k with
  | nil => cases hk
  | cons c s ih =>
    have hc := hs c List.mem_cons_self
    rw [List.map_cons, List.sum_cons, charWidth_plain hc] at hk
    rw [stringAccesses, charWidth_plain hc, charAccesses, hc, List.mem_append]
    cases k with
    | zero => exact .inr (List.mem_singleton_self _)
    | succ k =>
      have hrest :=
        ih (n := n + 1) (k := k) (fun d hd => hs d (List.mem_cons_of_mem _ hd)) (by omega)
      rw [Nat.add_assoc, Nat.add_comm 1 k] at hrest
      exact .inl hrest

theorem stringAccesses_gap {n : ℕ} (hs : ∃ c ∈ s, char2escape c ≠ none) :
    ∃ k < (s.map charWidth).sum, ⟨n + k, 1, u⟩ ∉ stringAccesses u n s := by
  induction s generalizing n with
  | nil =>
    obtain ⟨c, hc, -⟩ := hs
    cases hc
  | cons c s ih =>
    have hpos := one_le_charWidth c
    rw [List.map_cons, List.sum_cons, stringAccesses]
    simp only [List.mem_append, not_or]
    by_cases hc : char2escape c = none
    · have hs' : ∃ d ∈ s, char2escape d ≠ none := by
        obtain ⟨d, hd, hesc⟩ := hs
        rcases List.mem_cons.mp hd with rfl | hd
        · exact absurd hc hesc
        · exact ⟨d, hd, hesc⟩
      obtain ⟨k, hk, hgap⟩ := ih (n := n + charWidth c) hs'
      refine ⟨charWidth c + k, by omega, by rwa [← Nat.add_assoc], fun ha => ?_⟩
      obtain ⟨j, hj, heq, -⟩ := mem_charAccesses ha
      rw [Access.mk.injEq] at heq
      omega
    · refine ⟨charWidth c - 1, by omega, fun ha => ?_, fun ha => ?_⟩
      · obtain ⟨j, hj, heq⟩ := mem_stringAccesses ha
        rw [Access.mk.injEq] at heq
        omega
      · obtain ⟨j, hj, heq, hlt⟩ := mem_charAccesses ha
        have hlt := hlt hc
        rw [Access.mk.injEq] at heq
        omega

theorem Piece.accesses_bounds {p : Piece} {n : ℕ} (ha : a ∈ p.accesses u n) :
    n ≤ a.index ∧ a.index + a.len ≤ n + p.reach ∧ a.untilLen = u := by
  cases p with
  | char c =>
    obtain rfl := List.mem_singleton.mp ha
    exact ⟨le_rfl, le_rfl, rfl⟩
  | mem c =>
    obtain rfl := List.mem_singleton.mp ha
    exact ⟨le_rfl, le_rfl, rfl⟩
  | number t =>
    obtain rfl := List.mem_singleton.mp ha
    exact ⟨le_rfl, le_rfl, rfl⟩
  | string s =>
    rw [Piece.reach, stringWidth]
    rcases List.mem_cons.mp ha with rfl | ha
    · dsimp only [stringWidth]
      omega
    · rcases List.mem_append.mp ha with ha | ha
      · obtain ⟨k, hk, rfl⟩ := mem_stringAccesses ha
        dsimp only
        omega
      · obtain rfl := List.mem_singleton.mp ha
        dsimp only
        omega

theorem Piece.inside_iff (p : Piece) (n : ℕ) :
    (∀ a ∈ p.accesses u n, a.Inside) ↔ n + p.reach ≤ u := by
  constructor
  · intro h
    obtain ⟨a, ha, hlast⟩ : ∃ a ∈ p.accesses u n, a.index + a.len = n + p.reach := by
      cases p with
      | char c => exact ⟨_, List.mem_singleton_self _, rfl⟩
      | mem c => exact ⟨_, List.mem_singleton_self _, rfl⟩
      | number t => exact ⟨_, List.mem_singleton_self _, rfl⟩
      | string s =>
        refine ⟨_, List.mem_cons_self, ?_⟩
        rw [Piece.reach, stringWidth]
        dsimp only
        omega
    have hin := h a ha
    rw [Access.Inside, hlast, (accesses_bounds ha).2.2] at hin
    exact hin
  · intro h a ha
    obtain ⟨-, hle, hu⟩ := accesses_bounds ha
    rw [Access.Inside, hu]
    exact hle.trans h

theorem Piece.cover {p : Piece} (hp : p.Plain) (hw : p.Whole) (n : ℕ) {k : ℕ} (hk : k < p.advance) :
    ∃ a ∈ p.accesses u n, a.Covers (n + k) := by
  cases p with
  | char c => exact ⟨_, List.mem_singleton_self _, Nat.le_add_right _ _, Nat.add_lt_add_left hk n⟩
  | mem c => exact ⟨_, List.mem_singleton_self _, Nat.le_add_right _ _, Nat.add_lt_add_left hk n⟩
  | number t =>
    refine ⟨_, List.mem_singleton_self _, Nat.le_add_right _ _, Nat.add_lt_add_left ?_ n⟩
    have hwhole : t.length < fpconvGFmtBufsize := hw
    have hlt : k < t.length := hk
    rw [Nat.min_eq_right (Nat.le_sub_one_of_lt hwhole)]
    exact Nat.lt_succ_of_lt hlt
  | string s =>
    have hlt : k < (s.map charWidth).sum + 2 := hk
    rcases Nat.eq_zero_or_pos k with rfl | hpos
    · refine ⟨⟨n, 1, u⟩, ?_, le_rfl, Nat.lt_succ_self n⟩
      exact List.mem_cons_of_mem _ (List.mem_append_right _ (List.mem_singleton_self _))
    · rcases Nat.lt_or_ge k ((s.map charWidth).sum + 1) with hin | hlast
      · have hmem := stringAccesses_cover (u := u) (n := n + 1) hp (k := k - 1) (by omega)
        refine ⟨_, List.mem_cons_of_mem _ (List.mem_append_left _ hmem), ?_, ?_⟩
        · dsimp only
          omega
        · dsimp only
          omega
      · refine ⟨_, List.mem_cons_self, ?_, ?_⟩
        · rw [stringWidth]
          dsimp only
          omega
        · rw [stringWidth]
          dsimp only
          omega

theorem Piece.gap {p : Piece} (hp : ¬ p.Plain) (n : ℕ) :
    ∃ k, 0 < k ∧ k < p.advance ∧ ∀ a ∈ p.accesses u n, ¬ a.Covers (n + k) := by
  cases p with
  | char c => exact absurd trivial hp
  | mem c => exact absurd trivial hp
  | number t => exact absurd trivial hp
  | string s =>
    obtain ⟨c, hc⟩ := not_forall.mp hp
    obtain ⟨hmem, hesc⟩ := Classical.not_imp.mp hc
    obtain ⟨k, hk, hgap⟩ := stringAccesses_gap (u := u) (n := n + 1) ⟨c, hmem, hesc⟩
    have hadvance : (Piece.string s).advance = (s.map charWidth).sum + 2 := rfl
    refine ⟨k + 1, Nat.succ_pos k, by omega, fun a ha hcover => ?_⟩
    rcases List.mem_cons.mp ha with rfl | ha
    · have hlow := hcover.1
      rw [stringWidth] at hlow
      dsimp only at hlow
      omega
    · rcases List.mem_append.mp ha with ha | ha
      · obtain ⟨j, hj, rfl⟩ := mem_stringAccesses ha
        obtain ⟨hlow, hhigh⟩ := hcover
        dsimp only at hlow hhigh
        obtain rfl : j = k := by omega
        exact hgap ha
      · obtain rfl := List.mem_singleton.mp ha
        have hhigh := hcover.2
        dsimp only at hhigh
        omega

end accesses

theorem charWidth_le (c : UInt8) : charWidth c ≤ 2 * (escaped c).length := by
  rw [charWidth, escaped]
  cases hc : char2escape c with
  | none => exact Nat.le_succ 1
  | some escstr =>
    have hne : 0 < escstr.length := by
      unfold char2escape at hc
      dsimp only at hc
      split_ifs at hc
      all_goals cases hc
      all_goals simp [Lua.ascii]
    rw [Option.elim_some, Option.getD_some]
    omega

theorem Piece.advance_le (p : Piece) : p.advance ≤ 2 * p.text.length := by
  have hsum : ∀ s : List UInt8, (s.map charWidth).sum ≤ 2 * (s.flatMap escaped).length := by
    intro s
    induction s with
    | nil => exact le_rfl
    | cons c s ih =>
      have hc := charWidth_le c
      rw [List.map_cons, List.sum_cons, List.flatMap_cons, List.length_append]
      omega
  cases p with
  | char c => exact Nat.le_succ 1
  | mem c => exact Nat.le_mul_of_pos_left _ (by decide)
  | number t => exact Nat.le_mul_of_pos_left _ (by decide)
  | string s =>
    have hs := hsum s
    rw [Piece.advance, Piece.text, stringWidth, List.length_cons, List.length_append,
      List.length_singleton]
    omega

theorem Piece.need_le (p : Piece) : p.need ≤ 6 * p.text.length + fpconvGFmtBufsize := by
  cases p with
  | char c => exact Nat.le_add_right_of_le (show 1 ≤ 6 by decide)
  | mem c => exact Nat.le_add_right_of_le (Nat.le_mul_of_pos_left _ (by decide))
  | number t => exact Nat.le_add_left _ _
  | string s =>
    have hs : s.length ≤ (s.flatMap escaped).length := by
      induction s with
      | nil => exact le_rfl
      | cons c s ih =>
        have hwidth := one_le_charWidth c
        have hle := charWidth_le c
        rw [List.flatMap_cons, List.length_append, List.length_cons]
        omega
    rw [Piece.need, Piece.text, List.length_cons, List.length_append, List.length_singleton]
    omega

theorem Piece.reach_le (p : Piece) : p.reach ≤ p.advance + 1 := by
  cases p with
  | char c => exact Nat.le_succ 1
  | mem c => exact Nat.le_succ c.length
  | number t => exact Nat.succ_le_succ (Nat.min_le_right _ _)
  | string s => exact Nat.le_succ _

/-- The pieces are far from lengths that an `int` does not hold. -/
def Bounded (n : ℕ) (ps : List Piece) : Prop := n + 8 * (ps.flatMap Piece.text).length < 2 ^ 30

section run
variable {own : BlockId → ℕ} {lost : BlockId → Prop} {m m' : Mem} {mb : BlockId} {r : Room}
  {p : Piece} {ps : List Piece} {n : ℕ}

theorem Bounded.head (hb : Bounded n (p :: ps)) : n + p.need < 2 ^ 31 := by
  have hneed := p.need_le
  rw [Bounded, List.flatMap_cons, List.length_append] at hb
  rw [fpconvGFmtBufsize] at hneed
  omega

theorem Bounded.tail (hb : Bounded n (p :: ps)) : Bounded (n + p.advance) ps := by
  have hadvance := p.advance_le
  rw [Bounded, List.flatMap_cons, List.length_append] at hb
  rw [Bounded]
  omega

theorem performAll_cons : performAll (p :: ps) m = (p.perform m).bind (performAll ps) :=
  List.foldlM_cons

theorem stores_iff (hm : Held own lost m mb r) (hroom : 6 < r.untilLen)
    (hb : Bounded m.buf.length ps) :
    (∀ k m', performAll (ps.take k) m = some m' → ∀ a ∈ m'.log, a.Inside) ↔
      (∀ a ∈ m.log, a.Inside) ∧ Roomy r m.buf.length ps := by
  induction ps generalizing m mb r with
  | nil =>
    constructor
    · exact fun h => ⟨h 0 m rfl, trivial⟩
    · rintro ⟨hlog, -⟩ k m' hall
      rw [List.take_nil] at hall
      cases hall
      exact hlog
  | cons p ps ih =>
    have hsplit : (∀ k m', performAll ((p :: ps).take k) m = some m' → ∀ a ∈ m'.log, a.Inside) ↔
        (∀ a ∈ m.log, a.Inside) ∧ ∀ m₁, p.perform m = some m₁ →
          ∀ k m', performAll (ps.take k) m₁ = some m' → ∀ a ∈ m'.log, a.Inside := by
      constructor
      · refine fun h => ⟨h 0 m rfl, fun m₁ hfirst k m' hrest => h (k + 1) m' ?_⟩
        rw [List.take_succ_cons, performAll_cons, hfirst]
        exact hrest
      · rintro ⟨hlog, hrest⟩ k m' hall
        cases k with
        | zero =>
          cases hall
          exact hlog
        | succ k =>
          rw [List.take_succ_cons, performAll_cons] at hall
          obtain ⟨m₁, hfirst, hall⟩ := Option.bind_eq_some_iff.mp hall
          exact hrest m₁ hfirst k m' hall
    rw [hsplit, Roomy]
    refine and_congr_right fun hlog => ?_
    by_cases hneed : m.buf.length + p.need < 2 ^ 20
    · obtain ⟨m₁, hperform, happends⟩ := perform_spec hm hroom p hneed
      obtain ⟨mb₁, hheld⟩ := happends.held
      have hmore := r.le_ensure (m.buf.length + p.need)
      have hnext := ih hheld (hroom.trans_le hmore) (happends.length ▸ hb.tail)
      rw [happends.length, happends.log, List.forall_mem_append, p.inside_iff,
        and_iff_left hlog] at hnext
      simp only [hperform, Option.some.injEq, forall_eq', hnext, hneed, forall_const]
    · have hcrash := perform_crash hm (Nat.le_of_not_lt hneed) hb.head
      refine iff_of_true (fun m₁ hfirst => ?_) (fun h => absurd h hneed)
      rw [hcrash] at hfirst
      cases hfirst

theorem granted_of_performAll (hm : Held own lost m mb r) (hroom : 6 < r.untilLen)
    (hb : Bounded m.buf.length ps) (hall : performAll ps m = some m') :
    Granted m.buf.length ps := by
  induction ps generalizing m mb r with
  | nil => trivial
  | cons p ps ih =>
    rw [performAll_cons] at hall
    obtain ⟨m₁, hfirst, hrest⟩ := Option.bind_eq_some_iff.mp hall
    have hneed : m.buf.length + p.need < 2 ^ 20 := by
      by_contra hneed
      rw [perform_crash hm (Nat.le_of_not_lt hneed) hb.head] at hfirst
      cases hfirst
    obtain ⟨m₂, hperform, happends⟩ := perform_spec hm hroom p hneed
    cases hperform.symm.trans hfirst
    obtain ⟨mb₁, hheld⟩ := happends.held
    have hmore := r.le_ensure (m.buf.length + p.need)
    have hnext := ih hheld (hroom.trans_le hmore) (happends.length ▸ hb.tail) hrest
    rw [happends.length] at hnext
    exact ⟨hneed, hnext⟩

/-- The stores `new` of pieces that go from the `n`-th to before the `n + width`-th byte. -/
structure Laid (n width : ℕ) (ps : List Piece) (new : List Access) : Prop where
  low : ∀ a ∈ new, n ≤ a.index
  cover : (∀ p ∈ ps, p.Plain) → ∀ k < width, ∃ a ∈ new, a.Covers (n + k)
  gap : ¬ (∀ p ∈ ps, p.Plain) → ∃ k, 0 < k ∧ k < width ∧ ∀ a ∈ new, ¬ a.Covers (n + k)

theorem Laid.cons {width : ℕ} {new : List Access} (hw : p.Whole) (u : ℕ)
    (hs : Laid (n + p.advance) width ps new) :
    Laid n (p.advance + width) (p :: ps) (new ++ p.accesses u n) where
  low a ha := by
    rcases List.mem_append.mp ha with ha | ha
    · have hlow := hs.low a ha
      omega
    · exact (Piece.accesses_bounds ha).1
  cover hplain k hk := by
    rcases Nat.lt_or_ge k p.advance with hlt | hge
    · obtain ⟨a, ha, hcover⟩ := Piece.cover (u := u) (hplain p List.mem_cons_self) hw n hlt
      exact ⟨a, List.mem_append_right _ ha, hcover⟩
    · obtain ⟨a, ha, hcover⟩ := hs.cover (fun q hq => hplain q (List.mem_cons_of_mem _ hq))
        (k - p.advance) (by omega)
      rw [Nat.add_assoc, Nat.add_sub_cancel' hge] at hcover
      exact ⟨a, List.mem_append_left _ ha, hcover⟩
  gap hplain := by
    by_cases hp : p.Plain
    · have hrest : ¬ ∀ q ∈ ps, q.Plain :=
        fun hrest => hplain (List.forall_mem_cons.mpr ⟨hp, hrest⟩)
      obtain ⟨k, hpos, hlt, hgap⟩ := hs.gap hrest
      refine ⟨p.advance + k, by omega, by omega, fun a ha => ?_⟩
      rcases List.mem_append.mp ha with ha | ha
      · rw [← Nat.add_assoc]
        exact hgap a ha
      · intro hcover
        have hhigh := (Piece.accesses_bounds ha).2.1
        have hreach := p.reach_le
        have hlt := hcover.2
        omega
    · obtain ⟨k, hpos, hlt, hgap⟩ := Piece.gap (u := u) hp n
      refine ⟨k, hpos, by omega, fun a ha => ?_⟩
      rcases List.mem_append.mp ha with ha | ha
      · intro hcover
        have hlow := hs.low a ha
        have hle := hcover.1
        omega
      · exact hgap a ha

theorem performAll_granted (hm : Held own lost m mb r) (hroom : 6 < r.untilLen)
    (hg : Granted m.buf.length ps) (hwhole : ∀ p ∈ ps, p.Whole) :
    ∃ m' new, performAll ps m = some m' ∧ m'.log = new ++ m.log ∧
      m'.buf.length = m.buf.length + (ps.map Piece.advance).sum ∧
      Laid m.buf.length (ps.map Piece.advance).sum ps new := by
  induction ps generalizing m mb r with
  | nil =>
    refine ⟨m, [], rfl, rfl, rfl, nofun, ?_, ?_⟩
    · exact fun _ k hk => absurd hk (Nat.not_lt_zero k)
    · exact fun h => absurd (fun p hp => by cases hp) h
  | cons p ps ih =>
    obtain ⟨hneed, hrest⟩ := hg
    obtain ⟨m₁, hperform, happends⟩ := perform_spec hm hroom p hneed
    obtain ⟨mb₁, hheld⟩ := happends.held
    have hmore := r.le_ensure (m.buf.length + p.need)
    rw [← happends.length] at hrest
    obtain ⟨m', new, hall, hlog, hlength, hstored⟩ := ih hheld (hroom.trans_le hmore) hrest
      fun q hq => hwhole q (List.mem_cons_of_mem _ hq)
    rw [happends.length] at hlength hstored
    refine ⟨m', _, ?_, ?_, ?_, hstored.cons (hwhole p List.mem_cons_self)
      (r.ensure (m.buf.length + p.need)).untilLen⟩
    · rw [performAll_cons, hperform]
      exact hall
    · rw [hlog, happends.log, List.append_assoc]
    · rw [hlength, List.map_cons, List.sum_cons, Nat.add_assoc]

end run

section written
variable {P : Piece → Prop} {α β τ : Type}

def Written.All (P : Piece → Prop) (w : Written α) : Prop := ∀ p ∈ w.pieces, P p

theorem Written.All.bind {x : Written α} {f : α → Written β} (hx : x.All P)
    (hf : ∀ a, (f a).All P) : (x >>= f).All P := by
  intro p hp
  simp only [Bind.bind] at hp
  cases hresult : x.result with
  | error e =>
    rw [hresult] at hp
    exact hx p hp
  | ok a =>
    rw [hresult] at hp
    exact (List.mem_append.mp hp).elim (hx p) (hf a p)

theorem Written.all_pure (a : α) : (pure a : Written α).All P := nofun

theorem Written.all_append {p : Piece} (hp : P p) : (append p).All P := by
  intro q hq
  rwa [List.mem_singleton.mp hq]

theorem Written.all_exception (t reason : String) : (encodeException t reason : Written α).All P :=
  nofun

theorem appendNumber_whole (host : Host) (o : Options) (num : Double) :
    (appendNumber host o num).All Piece.Whole := by
  have hnumber : (append (.number (host.format o.encodeNumberPrecision num))).All Piece.Whole := by
    refine Written.all_append ?_
    have hlength := host.format_length o.encodeNumberPrecision num o.precision_le
    exact hlength.trans_lt (by decide)
  rw [appendNumber]
  split
  · split
    · exact Written.all_exception _ _
    · exact hnumber
  · split
    · exact Written.all_append trivial
    · split
      · exact Written.all_append trivial
      · exact hnumber
  · split
    · exact Written.all_append trivial
    · exact hnumber

theorem appendComma_whole (comma : Bool) : (appendComma comma).All Piece.Whole := by
  cases comma with
  | true => exact Written.all_append trivial
  | false => exact Written.all_pure ()

theorem arrayLoop_whole {append : Value τ → Written Unit} {pairs : Pairs τ}
    (ha : ∀ v, (append v).All Piece.Whole) (n i : ℕ) (comma : Bool) :
    (arrayLoop append pairs n i comma).All Piece.Whole := by
  induction n generalizing i comma with
  | zero => exact Written.all_pure ()
  | succ n ih =>
    exact (appendComma_whole comma).bind fun _ => (ha _).bind fun _ => ih _ _

theorem appendKey_whole (host : Host) (o : Options) (k : Value τ) :
    (appendKey host o k).All Piece.Whole := by
  cases k with
  | number k =>
    exact (Written.all_append trivial).bind fun _ =>
      (appendNumber_whole host o k).bind fun _ => Written.all_append trivial
  | string k => exact (Written.all_append trivial).bind fun _ => Written.all_append trivial
  | nil | boolean b | null | foreign t | table t => exact Written.all_exception _ _

theorem objectLoop_whole {host : Host} {o : Options} {append : Value τ → Written Unit}
    (ha : ∀ v, (append v).All Piece.Whole) (pairs : Pairs τ) (comma : Bool) :
    (objectLoop host o append pairs comma).All Piece.Whole := by
  induction pairs generalizing comma with
  | nil => exact Written.all_pure ()
  | cons pair pairs ih =>
    exact (appendComma_whole comma).bind fun _ => (appendKey_whole host o pair.1).bind fun _ =>
      (ha pair.2).bind fun _ => ih true

theorem checkEncodeDepth_whole (host : Host) (o : Options) (depth top : ℕ) :
    (checkEncodeDepth host o depth top).All Piece.Whole := by
  rw [checkEncodeDepth]
  split
  · exact Written.all_pure ()
  · exact nofun

theorem appendData_whole (host : Host) (o : Options) (tables : τ → Pairs τ) (levels top : ℕ)
    (v : Value τ) : (appendData host o tables levels top v).All Piece.Whole := by
  induction levels generalizing top v with
  | zero =>
    cases v with
    | table t => exact (checkEncodeDepth_whole _ _ _ _).bind fun _ => Written.all_pure ()
    | string s => exact Written.all_append trivial
    | number n => exact appendNumber_whole host o n
    | nil | boolean b | null => exact Written.all_append trivial
    | foreign t => exact Written.all_exception _ _
  | succ levels ih =>
    cases v with
    | table t =>
      have hlen : (luaArrayLength o (tables t)).All Piece.Whole := by
        rw [luaArrayLength]
        split
        · exact Written.all_pure _
        · split
          · split
            · exact Written.all_pure _
            · exact Written.all_exception _ _
          · exact Written.all_pure _
      refine (checkEncodeDepth_whole _ _ _ _).bind fun _ => hlen.bind fun len => ?_
      split
      · exact (Written.all_append trivial).bind fun _ =>
          (arrayLoop_whole (ih (top + 1)) _ _ _).bind fun _ => Written.all_append trivial
      · exact (Written.all_append trivial).bind fun _ =>
          (objectLoop_whole (ih (top + 2)) _ _).bind fun _ => Written.all_append trivial
    | string s => exact Written.all_append trivial
    | number n => exact appendNumber_whole host o n
    | nil | boolean b | null => exact Written.all_append trivial
    | foreign t => exact Written.all_exception _ _

end written

section state
variable {τ : Type} (host : Host)

/-- What `json_encode` appends for a value. -/
def State.data (s : State) (tables : τ → Pairs τ) (v : Value τ) : Written Unit :=
  appendData host s.cfg.options tables s.cfg.options.encodeMaxDepth 1 v

/-- The text of the pieces is below 1 MiB. -/
def ShortText (w : Written Unit) : Prop := (w.pieces.flatMap Piece.text).length < 2 ^ 20

def writtenBytes (m : Mem) : Finset ℕ :=
  (Finset.range m.buf.length).filter fun i => ∃ a ∈ m.log, a.Covers i

/-- At no moment of the call was a byte stored outside the slice as it was then, and where a
text is returned, all its bytes were stored by the call. -/
structure Contained (s : State) (tables : τ → Pairs τ) (v : Value τ) : Prop where
  stores : ∀ start k m, encodeStart s.heap s.cfg = some start →
    performAll ((s.data host tables v).pieces.take k) start = some m → ∀ a ∈ m.log, a.Inside
  length : ∀ start m, encodeStart s.heap s.cfg = some start →
    performAll (s.data host tables v).pieces start = some m →
    (s.data host tables v).result = .ok () → m.buf.length ≤ (writtenBytes m).card

def State.room (s : State) : Room :=
  match s.cfg.encodeBuf.ms with
  | some ms =>
    if s.cfg.encodeKeepBuffer then
      ⟨ms.untilLen, (s.heap.blocks ms.mb).nbytes, (s.heap.blocks ms.mb).size⟩
    else ⟨initSize 0, 0, classSize (initSize 0)⟩
  | none => ⟨initSize 0, 0, classSize (initSize 0)⟩

/-- No string that is appended has a character with an escape, or there is no text because of an
error, and the strings appended before it are no longer than the room made for them. -/
def State.Sparing (s : State) (tables : τ → Pairs τ) (v : Value τ) : Prop :=
  Roomy s.room 0 (s.data host tables v).pieces ∧
    ((s.data host tables v).result = .ok () → Granted 0 (s.data host tables v).pieces →
      ∀ p ∈ (s.data host tables v).pieces, p.Plain)

/-- A call with a text of less than 1 MiB that does not ask the slab for too much. -/
def State.Ordinary (s : State) (c : Call) : Prop :=
  s.Served host c ∧ ∀ tables v, c = .encode tables v → ShortText (s.data host tables v)

end state

theorem roomy_of_plain {r : Room} {n : ℕ} {ps : List Piece} (hp : ∀ p ∈ ps, p.Plain) :
    Roomy r n ps := by
  induction ps generalizing r n with
  | nil => trivial
  | cons p ps ih =>
    refine fun _ => ⟨?_, ih fun q hq => hp q (List.mem_cons_of_mem _ hq)⟩
    have hlt := r.lt_ensure (n + p.need)
    have hreach : p.reach ≤ p.need := by
      cases p with
      | char c => exact le_rfl
      | mem c => exact le_rfl
      | number t =>
        rw [Piece.reach, Piece.need, fpconvGFmtBufsize]
        omega
      | string s =>
        have hplain := hp (.string s) List.mem_cons_self
        have hsum : ∀ s : List UInt8, (∀ c ∈ s, char2escape c = none) →
            (s.map charWidth).sum = s.length := by
          intro s hs
          induction s with
          | nil => rfl
          | cons c s hrest =>
            rw [List.map_cons, List.sum_cons, charWidth_plain (hs c List.mem_cons_self),
              hrest fun d hd => hs d (List.mem_cons_of_mem _ hd), List.length_cons, Nat.add_comm]
        rw [Piece.reach, Piece.need, stringWidth, hsum s hplain]
        omega
    omega

section ready
variable {own : BlockId → ℕ} {lost : BlockId → Prop} {m m' : Mem} {mb : BlockId} {r : Room}
  {ps : List Piece} {host : Host} {s s' : State}

/-- The invariant of a run of ordinary calls: the kept buffer has room for an escape. -/
def State.Ready (own : BlockId → ℕ) (s : State) : Prop :=
  if s.cfg.encodeKeepBuffer then
    ∃ mb r, Held own Buffer.NoBlock ⟨s.heap, s.cfg.encodeBuf, []⟩ mb r ∧ 6 < r.untilLen
  else s.cfg.encodeBuf.ms = none ∧ Accounts s.heap own Buffer.NoBlock

theorem performAll_held (hm : Held own lost m mb r) (hroom : 6 < r.untilLen)
    (hb : Bounded m.buf.length ps) (hall : performAll ps m = some m') :
    ∃ mb' r', Held own lost m' mb' r' ∧ 6 < r'.untilLen := by
  have hg := granted_of_performAll hm hroom hb hall
  induction ps generalizing m mb r with
  | nil =>
    cases hall
    exact ⟨mb, r, hm, hroom⟩
  | cons p ps ih =>
    obtain ⟨hneed, hrest⟩ := hg
    obtain ⟨m₁, hperform, happends⟩ := perform_spec hm hroom p hneed
    obtain ⟨mb₁, hheld⟩ := happends.held
    have hmore := r.le_ensure (m.buf.length + p.need)
    rw [performAll_cons, hperform] at hall
    rw [← happends.length] at hrest
    exact ih hheld (hroom.trans_le hmore) (happends.length ▸ hb.tail) hall hrest

theorem initSize_zero : initSize 0 = strbufDefaultSize := by
  rw [initSize, if_pos le_rfl]
  exact toSizeT_natCast (by decide)

theorem encodeStart_held (hs : s.Ready own) :
    ∃ m mb, encodeStart s.heap s.cfg = some m ∧ Held own Buffer.NoBlock m mb s.room ∧
      6 < s.room.untilLen ∧ m.buf.length = 0 ∧ ∀ a ∈ m.log, a.Inside ∧ a.index + a.len ≤ 1 := by
  rw [State.Ready] at hs
  rw [encodeStart, State.room]
  split at hs
  · next hkeep =>
    obtain ⟨mb, r, hheld, hroom⟩ := hs
    have hms : s.cfg.encodeBuf.ms = some ⟨mb, 0, r.untilLen⟩ := hheld.ms
    have hr : (⟨r.untilLen, (s.heap.blocks mb).nbytes, (s.heap.blocks mb).size⟩ : Room) = r := by
      rw [show (s.heap.blocks mb).nbytes = r.nbytes from hheld.nbytes,
        show (s.heap.blocks mb).size = r.size from hheld.size]
    rw [hms]
    simp only [hkeep, if_true, hr]
    exact ⟨_, mb, rfl, hheld.congr rfl rfl, hroom, rfl, fun a ha => by cases ha⟩
  · next hkeep =>
    obtain ⟨hms, hx⟩ := hs
    have hsize : 6 < initSize 0 ∧ initSize 0 ≤ 2 ^ 20 := by
      rw [initSize_zero]
      decide
    obtain ⟨mb, h', hinit, hheld, -⟩ := @strbufInit_held _ _ _ hx 0 (by omega) hsize.2
    rw [hms]
    simp only [hkeep, hinit, Bool.false_eq_true, if_false]
    refine ⟨_, mb, rfl, hheld, hsize.1, rfl, fun a ha => ?_⟩
    obtain rfl := List.mem_singleton.mp ha
    have hone : 0 + 1 ≤ initSize 0 := by omega
    exact ⟨hone, le_rfl⟩

theorem ShortText.bounded {w : Written Unit} (h : ShortText w) : Bounded 0 w.pieces := by
  rw [ShortText] at h
  rw [Bounded]
  omega

theorem encodeEnd_ready (hs : s.Ready own) (hm : Held own Buffer.NoBlock m mb r)
    (hroom : 6 < r.untilLen) : State.Ready own ⟨(encodeEnd s.cfg m).1, (encodeEnd s.cfg m).2⟩ := by
  rw [State.Ready] at hs
  rw [encodeEnd]
  split at hs
  · next hkeep =>
    rw [if_pos hkeep, State.Ready, if_pos hkeep]
    exact ⟨mb, r, hm.congr rfl rfl, hroom⟩
  · next hkeep =>
    rw [if_neg hkeep, State.Ready, if_neg hkeep]
    exact ⟨hs.1, (strbufFree_exact hm).1⟩

theorem encode_ready (hs : s.Ready own) {tables : ℕ → Pairs ℕ} {v : Value ℕ}
    (hshort : ShortText (s.data host tables v)) {x : Ending (List UInt8) × Heap × Config}
    (hx : jsonEncode host tables s.heap s.cfg v = some x) : State.Ready own ⟨x.2.1, x.2.2⟩ := by
  obtain ⟨start, mb, hstart, hheld, hroom, hzero, -⟩ := encodeStart_held hs
  obtain ⟨start', m, hstart', hall, hend⟩ := jsonEncode_end hx
  cases hstart.symm.trans hstart'
  obtain ⟨mb', r', hheld', hroom'⟩ :=
    performAll_held hheld hroom (hzero.symm ▸ hshort.bounded) hall
  rw [hend]
  exact encodeEnd_ready hs hheld' hroom'

theorem decode_ready (hs : s.Ready own) {data : List UInt8} {ending : Ending LuaValue} {h' : Heap}
    (hx : jsonDecode data host s.cfg.options s.heap = .ok (ending, h')) :
    State.Ready own ⟨h', s.cfg⟩ := by
  rw [State.Ready] at hs ⊢
  split at hs
  · next hkeep =>
    obtain ⟨mb, r, hheld, hroom⟩ := hs
    rw [if_pos hkeep]
    obtain hnull | ⟨ending', h₁, hok, hx', hframe⟩ :=
      jsonDecode_accounts data host s.cfg.options hheld.exact
    · rw [hnull] at hx
      cases hx
    · cases hok.symm.trans hx
      obtain ⟨hblocks, -⟩ := hframe mb (by rw [Function.update_self]; exact Nat.one_pos)
      exact ⟨mb, r,
        ⟨hheld.ms, hheld.alone, hx', (congrArg MemBlock.nbytes hblocks).trans hheld.nbytes,
        (congrArg MemBlock.size hblocks).trans hheld.size, hheld.ok⟩, hroom⟩
  · next hkeep =>
    rw [if_neg hkeep]
    obtain hnull | ⟨ending', h₁, hok, hx', -⟩ :=
      jsonDecode_accounts data host s.cfg.options hs.2
    · rw [hnull] at hx
      cases hx
    · cases hok.symm.trans hx
      exact ⟨hs.1, hx'⟩

theorem init_ready {h : Heap} (hx : Accounts h own Buffer.NoBlock) {o : Options} {m : Mem}
    (hinit : strbufInit h 0 = some m) : State.Ready own ⟨m.heap, ⟨o, true, m.buf⟩⟩ := by
  have hsize : 6 < initSize 0 ∧ initSize 0 ≤ 2 ^ 20 := by
    rw [initSize_zero]
    decide
  obtain ⟨mb, h', hinit', hheld, -⟩ := @strbufInit_held _ _ _ hx 0 (by omega) hsize.2
  cases hinit'.symm.trans hinit
  rw [State.Ready, if_pos rfl]
  exact ⟨mb, _, hheld.congr rfl rfl, hsize.1⟩

theorem keepBuffer_ready (hs : s.Ready own) {keep : Bool} {x : Heap × Config}
    (hx : jsonCfgEncodeKeepBuffer s.heap s.cfg keep = some x) : State.Ready own ⟨x.1, x.2⟩ := by
  rw [jsonCfgEncodeKeepBuffer] at hx
  split at hx
  · cases hx
    exact hs
  · next hchange =>
    rw [State.Ready] at hs
    split at hx
    · next hkeep =>
      have hoff : ¬ s.cfg.encodeKeepBuffer = true := fun hon => hchange (hkeep.trans hon.symm)
      rw [if_neg hoff] at hs
      obtain ⟨m, hinit, rfl⟩ := Option.map_eq_some_iff.mp hx
      exact init_ready hs.2 hinit
    · next hkeep =>
      have hon : s.cfg.encodeKeepBuffer = true := by
        cases hold : s.cfg.encodeKeepBuffer with
        | true => rfl
        | false =>
          rw [hold] at hchange
          exact absurd (Bool.eq_false_iff.mpr hkeep) hchange
      rw [if_pos hon] at hs
      obtain ⟨mb, r, hheld, -⟩ := hs
      cases hx
      rw [State.Ready, if_neg Bool.false_ne_true]
      refine ⟨?_, (strbufFree_exact hheld).1⟩
      rw [strbufFree, hheld.ms]

/-- The step lemma, one case for each call. -/
theorem State.Ready.next (hs : s.Ready own) {c : Call} (hc : s.Ordinary host c) :
    (s.next host c).Ready own := by
  obtain ⟨hserved, hshort⟩ := hc
  rw [State.next]
  cases hcall : s.call host c with
  | error e => exact hs
  | ok s' =>
    cases c with
    | encode tables v =>
      rw [State.call] at hcall
      split at hcall
      · next heap cfg hx =>
        cases hcall
        exact encode_ready hs (hshort tables v rfl) hx
      · cases hcall
    | decode data =>
      rw [State.call] at hcall
      cases hx : jsonDecode data host s.cfg.options s.heap with
      | error e =>
        rw [hx] at hcall
        cases hcall
      | ok x =>
        rw [hx] at hcall
        cases hcall
        exact decode_ready hs hx
    | encodeKeepBuffer keep =>
      rw [State.call] at hcall
      split at hcall
      · next heap cfg hx =>
        cases hcall
        exact keepBuffer_ready hs hx
      · cases hcall
    | configure o =>
      cases hcall
      exact hs

theorem writtenBytes_iff : m.buf.length ≤ (writtenBytes m).card ↔
    ∀ i < m.buf.length, ∃ a ∈ m.log, a.Covers i := by
  have hle : (writtenBytes m).card ≤ m.buf.length :=
    (Finset.card_filter_le _ _).trans_eq (Finset.card_range _)
  have hall := Finset.card_filter_eq_iff (s := Finset.range m.buf.length)
    (p := fun i => ∃ a ∈ m.log, a.Covers i)
  rw [Finset.card_range] at hall
  simp only [Finset.mem_range] at hall
  rw [← hall]
  exact ⟨fun hge => Nat.le_antisymm hle hge, fun h => h.ge⟩

theorem contained_iff {τ : Type} (hs : s.Ready own) {tables : τ → Pairs τ} {v : Value τ}
    (hshort : ShortText (s.data host tables v)) :
    Contained host s tables v ↔ s.Sparing host tables v := by
  obtain ⟨start, mb, hstart, hheld, hroom, hzero, hlog⟩ := encodeStart_held hs
  have hb : Bounded start.buf.length (s.data host tables v).pieces := hzero.symm ▸ hshort.bounded
  have hwhole := appendData_whole host s.cfg.options tables s.cfg.options.encodeMaxDepth 1 v
  have hstores := stores_iff hheld hroom hb
  rw [and_iff_right fun a ha => (hlog a ha).1, hzero] at hstores
  have hlength : Granted 0 (s.data host tables v).pieces → ((∀ m,
      performAll (s.data host tables v).pieces start = some m →
        m.buf.length ≤ (writtenBytes m).card) ↔ ∀ p ∈ (s.data host tables v).pieces, p.Plain) := by
    intro hg
    rw [← hzero] at hg
    obtain ⟨m, new, hall, hnew, hwidth, hlaid⟩ := performAll_granted hheld hroom hg hwhole
    rw [hzero, Nat.zero_add] at hwidth
    rw [hzero] at hlaid
    simp only [hall, Option.some.injEq, forall_eq', writtenBytes_iff, hnew, hwidth]
    constructor
    · intro hcover
      by_contra hplain
      obtain ⟨k, hpos, hlt, hgap⟩ := hlaid.gap hplain
      obtain ⟨a, ha, hcovers⟩ := hcover k hlt
      rw [Nat.zero_add] at hgap
      rcases List.mem_append.mp ha with ha | ha
      · exact hgap a ha hcovers
      · have hlast := (hlog a ha).2
        have hhigh := hcovers.2
        omega
    · intro hplain i hi
      obtain ⟨a, ha, hcovers⟩ := hlaid.cover hplain i hi
      rw [Nat.zero_add] at hcovers
      exact ⟨a, List.mem_append_left _ ha, hcovers⟩
  constructor
  · rintro ⟨hin, hlen⟩
    refine ⟨hstores.mp fun k m => hin start k m hstart,
      fun hok hg => (hlength hg).mp fun m hall => ?_⟩
    exact hlen start m hstart hall hok
  · rintro ⟨hroomy, hplain⟩
    refine ⟨fun start' k m hstart' => ?_, fun start' m hstart' hall hok => ?_⟩
    · cases hstart.symm.trans hstart'
      exact hstores.mpr hroomy k m
    · cases hstart.symm.trans hstart'
      have hg := granted_of_performAll hheld hroom hb hall
      rw [hzero] at hg
      exact (hlength hg).mpr (hplain hok hg) m hall

/-- After any run of ordinary calls, `json_encode` stores in its buffer only, and all the bytes
it reports, exactly if no string has a character with an escape (of a call that ends in an
error: if the strings fit all the same). -/
theorem encode_contained_iff (host : Host) (own : BlockId → ℕ) (h : Heap) (s : State)
    (calls : List Call) (hx : Accounts h own Buffer.NoBlock) (hs : jsonCreateConfig h = some s)
    (hrun : Along (State.next host) (State.Ordinary host) s calls) {τ : Type}
    (tables : τ → Pairs τ) (v : Value τ)
    (hshort : ShortText ((exec (State.next host) s calls).data host tables v)) :
    Contained host (exec (State.next host) s calls) tables v ↔
      (exec (State.next host) s calls).Sparing host tables v := by
  have hstart : s.Ready own := by
    obtain ⟨m, hinit, rfl⟩ := Option.map_eq_some_iff.mp hs
    exact init_ready hx hinit
  exact contained_iff (inv_exec (fun _ _ ht hc => ht.next hc) hstart hrun) hshort

end ready

theorem data_string {τ : Type} (host : Host) (s : State) (tables : τ → Pairs τ) (t : List UInt8) :
    s.data host tables (.string t) = append (.string t) := by
  rw [State.data, appendData]

/-- A line feed: four bytes are stored, and a length of five is reported. -/
theorem newline_overcounts : ¬ Contained zeroHost (loaded.get loaded_isSome)
    (fun _ : ℕ => []) (.string [10]) := by
  intro hc
  have hrun : ((encodeStart (loaded.get loaded_isSome).heap (loaded.get loaded_isSome).cfg).bind
      fun start => performAll [.string [10]] start).map
        (fun m => (m.buf.length, (writtenBytes m).card)) = some (5, 4) := by
    decide +kernel
  obtain ⟨m, hm, hcount⟩ := Option.map_eq_some_iff.mp hrun
  obtain ⟨start, hstart, hall⟩ := Option.bind_eq_some_iff.mp hm
  have hlength := hc.length
  rw [data_string] at hlength
  have hle := hlength start m hstart hall rfl
  rw [Prod.mk.injEq] at hcount
  omega

/-- A second text in the kept buffer. -/
theorem encode_contained_iff_kept :
    Contained zeroHost (exec (State.next zeroHost) (loaded.get loaded_isSome)
      [.encode (fun _ => []) (.string [97])]) (fun _ : ℕ => []) (.string [98]) := by
  have hserved : Along (State.next zeroHost) (State.Ordinary zeroHost) (loaded.get loaded_isSome)
      [.encode (fun _ => []) (.string [97])] := by
    refine ⟨⟨by decide +kernel, ?_⟩, trivial⟩
    rintro tables v ⟨⟩
    rw [data_string]
    exact (by decide : (3 : ℕ) < 2 ^ 20)
  have hplain : ∀ p ∈ [Piece.string [98]], p.Plain := by decide +kernel
  have hs : loaded = some (loaded.get loaded_isSome) := (Option.some_get loaded_isSome).symm
  refine (encode_contained_iff zeroHost (fun _ => 0) (levSlabFill (Heap.boot fun _ _ => 0))
    (loaded.get loaded_isSome) [.encode (fun _ => []) (.string [97])] (accounts_start _) hs hserved
    (fun _ : ℕ => []) (.string [98]) ?_).mpr ?_
  · rw [data_string]
    exact (by decide : (3 : ℕ) < 2 ^ 20)
  · rw [State.Sparing, data_string]
    exact ⟨roomy_of_plain hplain, fun _ _ => hplain⟩

end Lev.Json
