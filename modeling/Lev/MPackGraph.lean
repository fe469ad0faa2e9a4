import Mathlib.Data.Fintype.Card
import Lev.MPackEncoding

/-! The encoder over tables that may share and contain each other. Its recursion has no bound of
its own: the fuel here is one for the model. -/
namespace Lev.MPack
open CInt Slab Memory Lua Relation

/-- A value of which the tables are names `τ`. -/
inductive Ref (τ : Type)
  | nil
  | boolean (b : Bool)
  | number (n : Double)
  | string (s : List UInt8)
  | buffer (ms : MemSlice)
  | foreign (t : Foreign)
  | table (t : τ)

/-- The values at 1, 2, …, `lua_objlen`, and the other pairs in the order of `lua_next`. -/
structure Table (τ : Type) where
  arr : List (Ref τ)
  hash : List (Ref τ × Ref τ)

variable {τ : Type}

/-- What the encoder visits of a table: the elements 1 to `(int)l`, or the keys and values. -/
def Table.parts (t : Table τ) : List (Ref τ) :=
  if 0 < t.arr.length then t.arr.take (toInt t.arr.length).toNat
  else t.hash.flatMap fun p => [p.1, p.2]

/-- A packing function that may not come to an end. -/
abbrev PartialPack := Mpwbuf → Option (ℕ × Mpwbuf)

/-- The loops of `mpwbuf_pack_table`; no error bit stops them. -/
def packEach (pack : Ref τ → PartialPack) : List (Ref τ) → PartialPack
  | [], b => some (0, b)
  | v :: vs, b =>
    (pack v b).bind fun r => (packEach pack vs r.2).map fun r' => (r.1 + r'.1, r'.2)

def tableHeader (t : Table τ) : Pack :=
  if 0 < t.arr.length then packHeader 0x90 0xdc 0xdd t.arr.length
  else packHeader 0x80 0xde 0xdf t.hash.length

def mpwbufPackTable (pack : Ref τ → PartialPack) (t : Table τ) : PartialPack := fun b =>
  (packEach pack t.parts (tableHeader t b).2).map fun r => ((tableHeader t b).1 + r.1, r.2)

section pack
variable (h : Heap) (tables : τ → Table τ)

/-- `mpwbuf_pack_anytype` with a bound on its nesting. -/
def packRef : ℕ → Ref τ → PartialPack
  | 0, _ => fun _ => none
  | _ + 1, .nil => fun b => some (mpwbufPackNil b)
  | _ + 1, .boolean iv => fun b => some (mpwbufPackBoolean iv b)
  | _ + 1, .number nv => fun b => some (mpwbufPackNumber nv b)
  | _ + 1, .string s => fun b => some (mpwbufPackString s b)
  | _ + 1, .buffer ms => fun b => some (mpwbufPackString (ms.contents h) b)
  | _ + 1, .foreign t => fun b => some (b.fail (foreignBit t))
  | fuel + 1, .table t => mpwbufPackTable (packRef fuel) (tables t)

/-- The end of `msgpack_pack_api`. -/
def packResult (h : Heap) (r : ℕ × Mpwbuf) : Except PackError (MemSlice × Heap) :=
  if 0 < r.1 ∧ r.2.err = 0 then
    match levSlabGetBlock h r.2.data.length with
    | none => .error .nullBlock
    | some (outMb, h) =>
      let nbytes := (h.blocks outMb).nbytes
      let (ms, h) := levPushbufferFromMb h outMb r.2.data.length (some nbytes)
      .ok (ms, h.store outMb nbytes r.2.data)
  else .error (.error (errmsg r.2.err))

theorem msgpackPack_eq (v : LuaValue) :
    msgpackPack h v = packResult h (mpwbufPackAnytype h v Mpwbuf.init) := rfl

/-- `msgpack_pack_api`; `none` where the bound is too small. -/
def msgpackPackRef (fuel : ℕ) (v : Ref τ) : Option (Except PackError (MemSlice × Heap)) :=
  (packRef h tables fuel v Mpwbuf.init).map (packResult h)

def Terminates (v : Ref τ) : Prop :=
  ∃ fuel r, msgpackPackRef h tables fuel v = some r ∧ r ≠ .error .nullBlock

end pack

section graph
variable (tables : τ → Table τ)

/-- Table `b` is visited within table `a`. -/
def Inside (b a : τ) : Prop := Ref.table b ∈ (tables a).parts

/-- The value leads to a table that contains itself. -/
def Cyclic : Ref τ → Prop
  | .table a => ∃ b, ReflTransGen (Inside tables) b a ∧ TransGen (Inside tables) b b
  | _ => False

/-- Tables are nested less than `fuel` deep. -/
def Within : ℕ → Ref τ → Prop
  | 0, _ => False
  | fuel + 1, .table t => ∀ v ∈ (tables t).parts, Within fuel v
  | _ + 1, _ => True

/-- `w` is the tree that `v` stands for, as far as the encoder visits it. -/
def Unfolds : ℕ → Ref τ → LuaValue → Prop
  | 0, _, _ => False
  | _ + 1, .nil, w => w = .nil
  | _ + 1, .boolean b, w => w = .boolean b
  | _ + 1, .number n, w => w = .number n
  | _ + 1, .string s, w => w = .string s
  | _ + 1, .buffer ms, w => w = .buffer ms
  | _ + 1, .foreign t, w => w = .foreign t
  | fuel + 1, .table t, w =>
    if 0 < (tables t).arr.length then
      ∃ ws rest, w = .table 0 (ws ++ rest) [] ∧ (ws ++ rest).length = (tables t).arr.length ∧
        List.Forall₂ (Unfolds fuel) (tables t).parts ws
    else
      ∃ hash, w = .table 0 [] hash ∧
        List.Forall₂ (fun p q => Unfolds fuel p.1 q.1 ∧ Unfolds fuel p.2 q.2) (tables t).hash hash

end graph

variable {tables : τ → Table τ}

theorem within_mono {fuel fuel' : ℕ} {v : Ref τ} (hle : fuel ≤ fuel')
    (hv : Within tables fuel v) : Within tables fuel' v := by
  induction fuel generalizing fuel' v with
  | zero => exact absurd hv id
  | succ fuel ih =>
    obtain ⟨fuel', rfl⟩ : ∃ k, fuel' = k + 1 := ⟨fuel' - 1, by omega⟩
    cases v with
    | table t => exact fun w hw => ih (by omega) (hv w hw)
    | _ => trivial

theorem within_list {vs : List (Ref τ)} (hvs : ∀ v ∈ vs, ∃ fuel, Within tables fuel v) :
    ∃ fuel, ∀ v ∈ vs, Within tables fuel v := by
  induction vs with
  | nil => exact ⟨0, nofun⟩
  | cons v vs ih =>
    obtain ⟨fuel, hv⟩ := hvs v List.mem_cons_self
    obtain ⟨fuel', hrest⟩ := ih fun w hw => hvs w (List.mem_cons_of_mem _ hw)
    refine ⟨max fuel fuel', fun w hw => ?_⟩
    rcases List.mem_cons.mp hw with rfl | hw
    · exact within_mono (le_max_left _ _) hv
    · exact within_mono (le_max_right _ _) (hrest w hw)

theorem within_inside {fuel : ℕ} {a b : τ} (ha : Within tables fuel (.table a))
    (hb : TransGen (Inside tables) b a) : ∃ fuel' < fuel, Within tables fuel' (.table b) := by
  induction hb using TransGen.head_induction_on with
  | single hstep =>
    cases fuel with
    | zero => exact absurd ha id
    | succ fuel => exact ⟨fuel, Nat.lt_succ_self _, ha _ hstep⟩
  | head hstep _ ih =>
    obtain ⟨fuel', hlt, hw⟩ := ih
    cases fuel' with
    | zero => exact absurd hw id
    | succ fuel' => exact ⟨fuel', by omega, hw _ hstep⟩

theorem not_within_cycle {a : τ} (ha : TransGen (Inside tables) a a) (fuel : ℕ) :
    ¬ Within tables fuel (.table a) := by
  induction fuel using Nat.strong_induction_on with
  | _ fuel ih =>
    intro hw
    obtain ⟨fuel', hlt, hw'⟩ := within_inside hw ha
    exact ih fuel' hlt hw'

theorem not_cyclic_of_within {fuel : ℕ} {v : Ref τ} (hv : Within tables fuel v) :
    ¬ Cyclic tables v := by
  cases v with
  | table a =>
    rintro ⟨b, hreach, hcycle⟩
    rcases reflTransGen_iff_eq_or_transGen.mp hreach with rfl | hreach
    · exact not_within_cycle hcycle fuel hv
    · obtain ⟨fuel', -, hb⟩ := within_inside hv hreach
      exact not_within_cycle hcycle fuel' hb
  | _ => exact id

theorem acc_of_acyclic {α : Type} [Finite α] {r : α → α → Prop} {a : α}
    (ha : ∀ b, ReflTransGen r b a → ¬ TransGen r b b) : Acc r a := by
  let reached := {b : α // ReflTransGen r b a}
  let below : reached → reached → Prop := fun b c => TransGen r b.1 c.1
  have : IsTrans reached below := ⟨fun _ _ _ hb hc => hb.trans hc⟩
  have : Std.Irrefl below := ⟨fun b => ha b.1 b.2⟩
  have hwf : WellFounded below := Finite.wellFounded_of_trans_of_irrefl below
  have hacc : ∀ b : reached, Acc r b.1 := by
    intro b
    induction b using hwf.induction with
    | _ b ih => exact Acc.intro _ fun c hc => ih ⟨c, b.2.head hc⟩ (.single hc)
  exact hacc ⟨a, .refl⟩

theorem within_of_acc {a : τ} (ha : Acc (Inside tables) a) :
    ∃ fuel, Within tables fuel (.table a) := by
  induction ha with
  | intro a _ ih =>
    obtain ⟨fuel, hparts⟩ : ∃ fuel, ∀ v ∈ (tables a).parts, Within tables fuel v := by
      refine within_list fun v hv => ?_
      cases v with
      | table b => exact ih b hv
      | _ => exact ⟨1, trivial⟩
    exact ⟨fuel + 1, hparts⟩

theorem within_iff [Finite τ] {v : Ref τ} :
    (∃ fuel, Within tables fuel v) ↔ ¬ Cyclic tables v := by
  refine ⟨fun ⟨_, hv⟩ => not_cyclic_of_within hv, fun hv => ?_⟩
  cases v with
  | table a => exact within_of_acc (acc_of_acyclic fun b hb hcycle => hv ⟨b, hb, hcycle⟩)
  | _ => exact ⟨1, trivial⟩

theorem packEach_isSome {pack : Ref τ → PartialPack} {P : Ref τ → Prop} (vs : List (Ref τ))
    (hpack : ∀ v ∈ vs, ∀ b, (pack v b).isSome ↔ P v) (b : Mpwbuf) :
    (packEach pack vs b).isSome ↔ ∀ v ∈ vs, P v := by
  induction vs generalizing b with
  | nil => exact iff_of_true rfl nofun
  | cons v vs ih =>
    have hv := hpack v List.mem_cons_self b
    have hrest := ih fun w hw => hpack w (List.mem_cons_of_mem _ hw)
    rw [List.forall_mem_cons, ← hv, packEach]
    cases pack v b with
    | none => simp
    | some r =>
      rw [← hrest r.2, Option.bind_some, Option.isSome_map]
      simp

/-- The recursion comes to its end if the bound is above the nesting. What is in the buffer and
its error bits make no difference. -/
theorem packRef_isSome (h : Heap) (fuel : ℕ) (v : Ref τ) (b : Mpwbuf) :
    (packRef h tables fuel v b).isSome ↔ Within tables fuel v := by
  induction fuel generalizing v b with
  | zero => exact iff_of_false (by simp [packRef]) id
  | succ fuel ih =>
    cases v with
    | table t =>
      have heach := packEach_isSome (tables t).parts (fun v _ => ih v)
        (tableHeader (tables t) b).2
      rw [packRef, mpwbufPackTable, Within, ← heach, Option.isSome_map]
    | _ => exact iff_of_true rfl trivial

/-- The write buffer never holds more than its capacity. -/
def Fitting (b : Mpwbuf) : Prop := b.data.length ≤ 2 ^ 20

theorem fitting_append (bs : List UInt8) {b : Mpwbuf} (hb : Fitting b) :
    Fitting (mpwbufAppend bs b).2 := by
  rw [mpwbufAppend]
  split
  · exact hb
  · split
    · exact hb
    · next hroom =>
      rw [Mpwbuf.left, capacity_eq] at hroom
      rw [Fitting] at hb ⊢
      simp only [List.length_append]
      omega

theorem fitting_andThen {p q : Pack} (hp : ∀ b, Fitting b → Fitting (p b).2)
    (hq : ∀ b, Fitting b → Fitting (q b).2) (b : Mpwbuf) (hb : Fitting b) :
    Fitting (p.andThen q b).2 := hq _ (hp b hb)

theorem fitting_string (s : List UInt8) (b : Mpwbuf) (hb : Fitting b) :
    Fitting (mpwbufPackString s b).2 := by
  have happend := fun bs b => @fitting_append bs b
  rw [mpwbufPackString]
  split_ifs
  · exact fitting_andThen (happend _) (happend _) b hb
  · exact fitting_andThen (fitting_andThen (happend _) (happend _)) (happend _) b hb
  · exact fitting_andThen (fitting_andThen (happend _) (happend _)) (happend _) b hb
  · exact hb

theorem fitting_header (fix tag16 tag32 : UInt8) (l : ℕ) (b : Mpwbuf) (hb : Fitting b) :
    Fitting (packHeader fix tag16 tag32 l b).2 := by
  have happend := fun bs b => @fitting_append bs b
  rw [packHeader]
  split_ifs
  · exact happend _ b hb
  · exact fitting_andThen (happend _) (happend _) b hb
  · exact fitting_andThen (happend _) (happend _) b hb
  · exact hb

theorem fitting_packEach {pack : Ref τ → PartialPack} {vs : List (Ref τ)}
    (hpack : ∀ v ∈ vs, ∀ b r, Fitting b → pack v b = some r → Fitting r.2) {b : Mpwbuf}
    {r : ℕ × Mpwbuf} (hb : Fitting b) (hr : packEach pack vs b = some r) : Fitting r.2 := by
  induction vs generalizing b r with
  | nil =>
    cases hr
    exact hb
  | cons v vs ih =>
    obtain ⟨r₁, hfirst, hr⟩ := Option.bind_eq_some_iff.mp hr
    obtain ⟨r₂, hrest, rfl⟩ := Option.map_eq_some_iff.mp hr
    have hb₁ := hpack v List.mem_cons_self b r₁ hb hfirst
    exact ih (r := r₂) (fun w hw => hpack w (List.mem_cons_of_mem _ hw)) hb₁ hrest

theorem fitting_packRef {h : Heap} {fuel : ℕ} {v : Ref τ} {b : Mpwbuf} {r : ℕ × Mpwbuf}
    (hb : Fitting b) (hr : packRef h tables fuel v b = some r) : Fitting r.2 := by
  induction fuel generalizing v b r with
  | zero => cases hr
  | succ fuel ih =>
    cases v with
    | nil | boolean b' | number n =>
      cases hr
      exact fitting_append _ hb
    | string s | buffer ms =>
      cases hr
      exact fitting_string _ _ hb
    | foreign t =>
      cases hr
      exact hb
    | table t =>
      obtain ⟨r', heach, rfl⟩ := Option.map_eq_some_iff.mp hr
      refine fitting_packEach (r := r') (fun _ _ _ _ hb hr => ih hb hr) ?_ heach
      rw [tableHeader]
      split
      · exact fitting_header _ _ _ _ b hb
      · exact fitting_header _ _ _ _ b hb

theorem packResult_ne_nullBlock {h : Heap} {r : ℕ × Mpwbuf} (hr : Fitting r.2) :
    packResult h r ≠ .error .nullBlock := by
  rw [packResult]
  split
  · cases hget : levSlabGetBlock h r.2.data.length with
    | none =>
      have hnone := levSlabGetBlock_eq_none.mp hget
      rw [Fitting] at hr
      omega
    | some x => nofun
  · nofun

theorem terminates_iff_within {h : Heap} {v : Ref τ} :
    Terminates h tables v ↔ ∃ fuel, Within tables fuel v := by
  constructor
  · rintro ⟨fuel, r, hr, -⟩
    obtain ⟨x, hx, -⟩ := Option.map_eq_some_iff.mp hr
    exact ⟨fuel, (packRef_isSome h fuel v Mpwbuf.init).mp (by rw [hx]; rfl)⟩
  · rintro ⟨fuel, hv⟩
    obtain ⟨x, hx⟩ := Option.isSome_iff_exists.mp
      ((packRef_isSome h fuel v Mpwbuf.init).mpr hv)
    have hfit : Fitting x.2 := fitting_packRef (Nat.zero_le _) hx
    exact ⟨fuel, packResult h x, congrArg (Option.map (packResult h)) hx,
      packResult_ne_nullBlock hfit⟩

/-- Packing comes to an end exactly for the values without a cycle. -/
theorem pack_terminates_iff [Finite τ] (h : Heap) (tables : τ → Table τ) (v : Ref τ) :
    Terminates h tables v ↔ ¬ Cyclic tables v :=
  terminates_iff_within.trans within_iff

theorem exists_forall₂ {α β : Type} {R : α → β → Prop} {xs : List α}
    (hxs : ∀ x ∈ xs, ∃ y, R x y) : ∃ ys, List.Forall₂ R xs ys := by
  induction xs with
  | nil => exact ⟨[], .nil⟩
  | cons x xs ih =>
    obtain ⟨y, hy⟩ := hxs x List.mem_cons_self
    obtain ⟨ys, hys⟩ := ih fun x' hx' => hxs x' (List.mem_cons_of_mem _ hx')
    exact ⟨y :: ys, .cons hy hys⟩

theorem toInt_toNat_le (n : ℕ) : (toInt n).toNat ≤ n := by
  unfold toInt
  split
  · omega
  · omega

theorem parts_array {t : Table τ} (ht : 0 < t.arr.length) :
    t.parts.length = (toInt t.arr.length).toNat := by
  rw [Table.parts, if_pos ht, List.length_take, Nat.min_eq_left (toInt_toNat_le _)]

theorem exists_unfolds {fuel : ℕ} {v : Ref τ} (hv : Within tables fuel v) :
    ∃ w, Unfolds tables fuel v w := by
  induction fuel generalizing v with
  | zero => exact absurd hv id
  | succ fuel ih =>
    cases v with
    | table t =>
      simp only [Unfolds]
      have hparts : ∀ v ∈ (tables t).parts, ∃ w, Unfolds tables fuel v w := fun v h => ih (hv v h)
      split
      · next harr =>
        obtain ⟨ws, hws⟩ := exists_forall₂ hparts
        have hlen := hws.length_eq
        have hle := toInt_toNat_le (tables t).arr.length
        rw [parts_array harr] at hlen
        refine ⟨_, ws, List.replicate ((tables t).arr.length - ws.length) .nil, rfl, ?_, hws⟩
        rw [List.length_append, List.length_replicate]
        omega
      · next harr =>
        rw [Table.parts, if_neg harr] at hparts
        have hpairs : ∀ p ∈ (tables t).hash, ∃ q : LuaValue × LuaValue,
            Unfolds tables fuel p.1 q.1 ∧ Unfolds tables fuel p.2 q.2 := by
          intro p hp
          obtain ⟨k, hk⟩ := hparts p.1 (List.mem_flatMap.mpr ⟨p, hp, by simp⟩)
          obtain ⟨w, hw⟩ := hparts p.2 (List.mem_flatMap.mpr ⟨p, hp, by simp⟩)
          exact ⟨(k, w), hk, hw⟩
        obtain ⟨hash, hhash⟩ := exists_forall₂ hpairs
        exact ⟨_, hash, rfl, hhash⟩
    | _ => exact ⟨_, rfl⟩

section each
variable {h : Heap} {fuel : ℕ}
  (ih : ∀ v w b,
    Unfolds tables fuel v w → packRef h tables fuel v b = some (mpwbufPackAnytype h w b))
include ih

theorem packEach_elems {vs : List (Ref τ)} {ws : List LuaValue} (rest : List LuaValue)
    (hws : List.Forall₂ (Unfolds tables fuel) vs ws) (b : Mpwbuf) :
    packEach (packRef h tables fuel) vs b = some (packElems h ws.length (ws ++ rest) b) := by
  induction hws generalizing b with
  | nil =>
    cases rest
    all_goals rfl
  | cons hfirst _ ihws =>
    rw [packEach, ih _ _ _ hfirst, Option.bind_some, ihws]
    rfl

theorem packEach_pairs {ps : List (Ref τ × Ref τ)} {hash : List (LuaValue × LuaValue)}
    (hhash : List.Forall₂ (fun p q => Unfolds tables fuel p.1 q.1 ∧ Unfolds tables fuel p.2 q.2)
      ps hash) (b : Mpwbuf) :
    packEach (packRef h tables fuel) (ps.flatMap fun p => [p.1, p.2]) b =
      some (packPairs h hash b) := by
  induction hhash generalizing b with
  | nil => rfl
  | cons hfirst _ ihhash =>
    rw [List.flatMap_cons, List.cons_append, List.cons_append, List.nil_append, packEach,
      ih _ _ _ hfirst.1, Option.bind_some, packEach, ih _ _ _ hfirst.2, Option.bind_some, ihhash]
    simp only [Option.map_some, packPairs, Pack.andThen, Nat.add_assoc]

end each

theorem packRef_unfolds {h : Heap} {fuel : ℕ} {v : Ref τ} {w : LuaValue}
    (hv : Unfolds tables fuel v w) (b : Mpwbuf) :
    packRef h tables fuel v b = some (mpwbufPackAnytype h w b) := by
  induction fuel generalizing v w b with
  | zero => exact absurd hv id
  | succ fuel ih =>
    replace ih := fun v w b hv => @ih v w hv b
    cases v with
    | table t =>
      simp only [Unfolds] at hv
      rw [packRef, mpwbufPackTable]
      split at hv
      · next harr =>
        obtain ⟨ws, rest, rfl, hlen, hws⟩ := hv
        have hn : ws.length = (toInt (tables t).arr.length).toNat := by
          rw [← hws.length_eq, parts_array harr]
        rw [packEach_elems ih rest hws, tableHeader, if_pos harr, mpwbufPackAnytype, hlen,
          if_pos harr, hn]
        rfl
      · next harr =>
        obtain ⟨hash, rfl, hhash⟩ := hv
        rw [Table.parts, if_neg harr, packEach_pairs ih hhash, tableHeader, if_neg harr,
          mpwbufPackAnytype, hhash.length_eq]
        rfl
    | _ =>
      rw [Unfolds] at hv
      subst hv
      rfl

theorem msgpackPackRef_eq [Finite τ] (h : Heap) {v : Ref τ} (hv : ¬ Cyclic tables v) :
    ∃ fuel w, Unfolds tables fuel v w ∧
      msgpackPackRef h tables fuel v = some (msgpackPack h w) := by
  obtain ⟨fuel, hw⟩ := within_iff.mpr hv
  obtain ⟨w, hunf⟩ := exists_unfolds hw
  refine ⟨fuel, w, hunf, ?_⟩
  rw [msgpackPackRef, packRef_unfolds hunf, msgpackPack_eq]
  rfl

def ownElement : Unit → Table Unit := fun _ => ⟨[.table ()], []⟩

theorem ownElement_diverges : ¬ Terminates (Heap.boot fun _ _ => 0) ownElement (.table ()) := by
  intro hends
  obtain ⟨fuel, hw⟩ := terminates_iff_within.mp hends
  have hself : Inside ownElement () () := by simp [Inside, Table.parts, ownElement, toInt]
  exact not_within_cycle (.single hself) fuel hw

def sharedElement : Bool → Table Bool
  | true => ⟨[.table false, .table false], []⟩
  | false => ⟨[], [(.string [97], .boolean true)]⟩

theorem sharedElement_terminates :
    Terminates (Heap.boot fun _ _ => 0) sharedElement (.table true) := by
  suffices hw : Within sharedElement 3 (.table true) from
    (pack_terminates_iff _ sharedElement _).mpr (not_cyclic_of_within hw)
  intro v hv
  have htable : v = .table false := by
    simpa [Table.parts, sharedElement, toInt] using hv
  subst htable
  intro w hw
  have hleaf : w = .string [97] ∨ w = .boolean true := by
    simpa [Table.parts, sharedElement] using hw
  rcases hleaf with rfl | rfl
  all_goals trivial

end Lev.MPack
