import Lev.MPackHead
import Lev.MPackInteger
import Lev.MPackSafety

/-! The values that msgpack carries from one program to another: their encodings are legal,
and are read as the same values again, as far as strings are read as the same. -/
namespace Lev.MPack
open CInt Endian Slab Memory Lua

/-- Not NaN, and in the range of `long long` if integral. -/
def PlainNumber (n : Double) : Prop := n.isnan = false ∧ InInt64 (.number n)

def PlainKey : LuaValue → Prop
  | .boolean _ => True
  | .number n => PlainNumber n
  | .string _ => True
  | _ => False

mutual

/-- nil, a boolean, a number, a string, a sequence or a map of these. -/
def Plain : LuaValue → Prop
  | .nil => True
  | .boolean _ => True
  | .number n => PlainNumber n
  | .string _ => True
  | .buffer _ => False
  | .foreign _ => False
  | .table _ arr hash => if 0 < arr.length then PlainList arr ∧ hash = [] else PlainPairs hash

def PlainList : List LuaValue → Prop
  | [] => True
  | v :: arr => (v.isNil = false ∧ Plain v) ∧ PlainList arr

def PlainPairs : List (LuaValue × LuaValue) → Prop
  | [] => True
  | (k, v) :: hash =>
    (PlainKey k ∧ ∀ p ∈ hash, k.rawequal p.1 = false) ∧ (v.isNil = false ∧ Plain v) ∧
      PlainPairs hash

end

def SameKey : LuaValue → LuaValue → Prop
  | .boolean b, w => w = .boolean b
  | .number n, w => ∃ n', w = .number n' ∧ n'.eq n = true
  | .string s, w => w = .string s
  | _, _ => False

mutual

/-- `w` is the value `v` again, where `S` says what becomes of a string outside keys. -/
def SameBy (S : List UInt8 → LuaValue → Prop) : LuaValue → LuaValue → Prop
  | .nil, w => w = .nil
  | .boolean b, w => w = .boolean b
  | .number n, w => ∃ n', w = .number n' ∧ n'.eq n = true
  | .string s, w => S s w
  | .buffer _, _ => False
  | .foreign _, _ => False
  | .table _ arr hash, w => ∃ id arr' hash', w = .table id arr' hash' ∧ SameList S arr arr' ∧
    SamePairs S hash hash'

def SameList (S : List UInt8 → LuaValue → Prop) : List LuaValue → List LuaValue → Prop
  | [], ws => ws = []
  | v :: arr, ws => ∃ w ws', ws = w :: ws' ∧ SameBy S v w ∧ SameList S arr ws'

def SamePairs (S : List UInt8 → LuaValue → Prop) :
    List (LuaValue × LuaValue) → List (LuaValue × LuaValue) → Prop
  | [], ws => ws = []
  | (k, v) :: hash, ws => ∃ k' w ws', ws = (k', w) :: ws' ∧ (SameKey k k' ∧ SameBy S v w) ∧
    SamePairs S hash ws'

end

mutual

/-- Every string outside keys satisfies `E`. -/
def Strings (E : List UInt8 → Prop) : LuaValue → Prop
  | .string s => E s
  | .table _ arr hash => StringsList E arr ∧ StringsPairs E hash
  | .nil => True
  | .boolean _ => True
  | .number _ => True
  | .buffer _ => True
  | .foreign _ => True

def StringsList (E : List UInt8 → Prop) : List LuaValue → Prop
  | [] => True
  | v :: arr => Strings E v ∧ StringsList E arr

def StringsPairs (E : List UInt8 → Prop) : List (LuaValue × LuaValue) → Prop
  | [] => True
  | (_, v) :: hash => Strings E v ∧ StringsPairs E hash

end

theorem goodKey_number {n : Double} (hn : PlainNumber n) : (numberWire n).GoodKey := by
  have hreads : ∀ {w}, (numberWire n).Reads ⟨none, 0, 0⟩ false 0 w →
      ∃ n', w = .number n' ∧ n'.eq n = true :=
    fun hr => numberWire_reads hn.1 hn.2 hr
  generalize numberWire n = x at hreads ⊢
  cases x with
  | single t =>
    obtain ⟨n', hn', _⟩ := hreads (w := singleValue t) rfl
    rw [Wire.GoodKey, hn']
    rfl
  | scalar s p =>
    obtain ⟨n', hn', heq⟩ := hreads (w := .number (s.value p)) rfl
    obtain rfl := LuaValue.number.inj hn'
    exact (Double.eq_iff.mp heq).1.1
  | _ => trivial

theorem PlainKey.goodKey {k : LuaValue} (hk : PlainKey k) (h : Heap) : (toWire h k).GoodKey := by
  cases k with
  | boolean b =>
    rw [toWire, Wire.GoodKey]
    cases b <;> rfl
  | number n =>
    rw [toWire]
    exact goodKey_number hk
  | string s => trivial
  | _ => exact hk.elim

theorem PlainKey.plain {k : LuaValue} (hk : PlainKey k) : Plain k := by
  cases k with
  | number n =>
    rw [Plain]
    exact hk
  | boolean b => simp only [Plain]
  | string s => simp only [Plain]
  | _ => exact hk.elim

theorem toWireList_length (h : Heap) (arr : List LuaValue) :
    (toWireList h arr).length = arr.length := by
  induction arr with
  | nil => rfl
  | cons v arr ih => rw [toWireList, List.length_cons, ih, List.length_cons]

theorem toWirePairs_length_eq (h : Heap) (hash : List (LuaValue × LuaValue)) :
    (toWirePairs h hash).length = 2 * hash.length := by
  induction hash with
  | nil => rfl
  | cons p hash ih =>
    obtain ⟨k, v⟩ := p
    rw [toWirePairs, List.length_cons, List.length_cons, ih, List.length_cons]
    omega

/-- A plain value that fits is in the range of the encoder, and its encoding is legal. -/
structure Sound (h : Heap) (v : LuaValue) : Prop where
  legal : (toWire h v).Legal
  small : (toWire h v).Small
  range : InRange v
  packable : Packable v

section Sound

variable {h : Heap}

theorem sound_list {arr : List LuaValue} (hv : PlainList arr)
    (hfit : (Wire.bytesList (toWireList h arr)).length ≤ 2 ^ 20)
    (ih : ∀ v ∈ arr, Plain v → (toWire h v).len ≤ 2 ^ 20 → Sound h v) :
    (Wire.LegalList (toWireList h arr) ∧ Wire.SmallList (toWireList h arr)) ∧
      ReachedList InInt64 InTable arr ∧ ReachedList Encodable (fun _ => True) arr := by
  induction arr with
  | nil => exact ⟨⟨trivial, trivial⟩, trivial, trivial⟩
  | cons v arr hrec =>
    rw [toWireList, Wire.bytesList, List.length_append] at hfit
    rw [PlainList] at hv
    have hhead := ih v List.mem_cons_self hv.1.2 (by rw [Wire.len]; omega)
    have htail := hrec hv.2 (by omega) fun u hu => ih u (List.mem_cons_of_mem _ hu)
    exact ⟨⟨⟨hhead.legal, htail.1.1⟩, hhead.small, htail.1.2⟩, ⟨hhead.range, htail.2.1⟩,
      hhead.packable, htail.2.2⟩

theorem sound_pairs {hash : List (LuaValue × LuaValue)} (hv : PlainPairs hash)
    (hfit : (Wire.bytesList (toWirePairs h hash)).length ≤ 2 ^ 20)
    (ih : ∀ p ∈ hash, (Plain p.1 → (toWire h p.1).len ≤ 2 ^ 20 → Sound h p.1) ∧
      (Plain p.2 → (toWire h p.2).len ≤ 2 ^ 20 → Sound h p.2)) :
    (Wire.GoodKeys (toWirePairs h hash) ∧ Wire.LegalList (toWirePairs h hash) ∧
        Wire.SmallList (toWirePairs h hash)) ∧
      ReachedPairs InInt64 InTable hash ∧ ReachedPairs Encodable (fun _ => True) hash := by
  induction hash with
  | nil => exact ⟨⟨trivial, trivial, trivial⟩, trivial, trivial⟩
  | cons p hash hrec =>
    obtain ⟨k, v⟩ := p
    rw [toWirePairs, Wire.bytesList, Wire.bytesList, List.length_append, List.length_append] at hfit
    rw [PlainPairs] at hv
    obtain ⟨hkey, hvalue⟩ := ih (k, v) List.mem_cons_self
    have hk := hkey hv.1.1.plain (by simp only [Wire.len]; omega)
    have hval := hvalue hv.2.1.2 (by simp only [Wire.len]; omega)
    have htail := hrec hv.2.2 (by omega) fun q hq => ih q (List.mem_cons_of_mem _ hq)
    exact ⟨⟨⟨hv.1.1.goodKey h, htail.1.1⟩, ⟨hk.legal, hval.legal, htail.1.2.1⟩,
        hk.small, hval.small, htail.1.2.2⟩,
      ⟨⟨hk.range, hval.range⟩, htail.2.1⟩, ⟨hk.packable, hval.packable⟩, htail.2.2⟩

theorem integerWire_small (z : ℤ) : (integerWire z).Small := by
  unfold integerWire
  split_ifs
  all_goals trivial

theorem numberWire_small (n : Double) : (numberWire n).Small := by
  unfold numberWire
  split
  · trivial
  · split
    · exact integerWire_small _
    · trivial

theorem toInt_toNat {n : ℕ} (hn : n ≤ 2 ^ 20) : (toInt n).toNat = n := by
  unfold toInt
  omega

theorem sound_of_plain {v : LuaValue} (hv : Plain v) (hfit : (toWire h v).len ≤ 2 ^ 20) :
    Sound h v := by
  induction v using LuaValue.induct with
  | nil => exact ⟨by rw [toWire]; rfl, by rw [toWire]; trivial, trivial, trivial⟩
  | boolean b =>
    refine ⟨?_, by rw [toWire]; trivial, trivial, trivial⟩
    rw [toWire]
    cases b <;> rfl
  | number n =>
    rw [Plain] at hv
    rw [toWire] at hfit
    have hlegal := numberWire_legal n
    refine ⟨by rw [toWire]; exact hlegal, ?_, hv.2, trivial⟩
    rw [toWire]
    exact numberWire_small n
  | string s =>
    refine ⟨?_, by rw [toWire]; trivial, trivial, trivial⟩
    rw [toWire, Wire.len, stringWire, Wire.bytes, List.length_append] at hfit
    rw [toWire]
    exact widthOf_fits (by omega)
  | buffer ms => simp only [Plain] at hv
  | foreign t => simp only [Plain] at hv
  | table id arr hash iharr ihhash =>
    rw [Plain] at hv
    rw [toWire, Wire.len] at hfit
    by_cases harr : 0 < arr.length
    · rw [if_pos harr] at hv hfit
      rw [Wire.bytes, List.length_append] at hfit
      have hcount := Wire.length_le_bytesList (toWireList h arr)
      rw [toWireList_length] at hcount
      have hlist := sound_list hv.1 (by omega) iharr
      refine ⟨?_, ?_, ?_, ?_⟩
      · rw [toWire, if_pos harr]
        refine ⟨widthOf_fits (by omega), ?_, hlist.1.1⟩
        rw [toWireList_length, toInt_toNat (by omega)]
      · rw [toWire, if_pos harr]
        exact ⟨by omega, hlist.1.2⟩
      · rw [InRange, Reached, if_pos harr]
        exact ⟨by unfold InTable; omega, hlist.2.1⟩
      · rw [Packable, Reached, if_pos harr]
        exact ⟨trivial, hlist.2.2⟩
    · rw [if_neg harr] at hv hfit
      rw [Wire.bytes, List.length_append] at hfit
      have hcount := Wire.length_le_bytesList (toWirePairs h hash)
      rw [toWirePairs_length_eq] at hcount
      have hpairs := sound_pairs hv (by omega) ihhash
      refine ⟨?_, ?_, ?_, ?_⟩
      · rw [toWire, if_neg harr]
        refine ⟨widthOf_fits (by omega), ?_, hpairs.1.1, hpairs.1.2.1⟩
        rw [toWirePairs_length_eq, toInt_toNat (by omega)]
      · rw [toWire, if_neg harr]
        exact ⟨by omega, hpairs.1.2.2⟩
      · rw [InRange, Reached, if_neg harr]
        exact hpairs.2.1
      · rw [Packable, Reached, if_neg harr]
        exact hpairs.2.2

theorem Sound.granted {grants : Grants} (hg : grants.Ample) {v : LuaValue} (hs : Sound h v)
    (hfit : (toWire h v).len ≤ 2 ^ 20) : grants.All [] (toWire h v).tables :=
  hg.value (hs.legal.wellFormed hs.small) hs.small hfit

end Sound

section Reading

variable {h : Heap} {c : Source} {data : List UInt8} {S : List UInt8 → LuaValue → Prop}
  {E : List UInt8 → Prop}

theorem key_reads {k : LuaValue} (hk : PlainKey k) {ofs : ℕ} {w : LuaValue}
    (hr : (toWire h k).Reads c true ofs w) : SameKey k w := by
  cases k with
  | boolean b =>
    rw [toWire, Wire.Reads] at hr
    rw [SameKey, hr]
    cases b <;> rfl
  | number d =>
    rw [toWire] at hr
    exact numberWire_reads hk.1 hk.2 hr
  | string s =>
    rw [toWire, stringWire, Wire.Reads, Source.string] at hr
    rw [SameKey, hr]
    cases c.mb <;> rfl
  | _ => exact hk.elim

theorem rawequal_congr {k k' w w' : LuaValue} (hk : SameKey k w) (hk' : SameKey k' w') :
    w.rawequal w' = k.rawequal k' := by
  cases k with
  | boolean b =>
    obtain rfl := hk
    cases k' with
    | boolean b' => rw [show w' = _ from hk']
    | number d' =>
      obtain ⟨d, rfl, _⟩ := hk'
      rfl
    | string s' => rw [show w' = _ from hk']
    | _ => exact hk'.elim
  | number d =>
    obtain ⟨e, rfl, he⟩ := hk
    cases k' with
    | boolean b' => rw [show w' = _ from hk']; rfl
    | number d' =>
      obtain ⟨e', rfl, he'⟩ := hk'
      rw [LuaValue.rawequal, LuaValue.rawequal, Bool.eq_iff_iff]
      exact ⟨fun heq => Double.eq_trans (Double.eq_symm he) (Double.eq_trans heq he'),
        fun heq => Double.eq_trans he (Double.eq_trans heq (Double.eq_symm he'))⟩
    | string s' => rw [show w' = _ from hk']; rfl
    | _ => exact hk'.elim
  | string s =>
    obtain rfl := hk
    cases k' with
    | boolean b' => rw [show w' = _ from hk']
    | number d' =>
      obtain ⟨d, rfl, _⟩ := hk'
      rfl
    | string s' => rw [show w' = _ from hk']
    | _ => exact hk'.elim
  | _ => exact hk.elim

theorem isNil_of_reads {c : Source} {v : LuaValue} (hv : Plain v) (hnil : v.isNil = false)
    {k : Bool}
    {ofs : ℕ} {w : LuaValue} (hr : (toWire h v).Reads c k ofs w) : w.isNil = false := by
  cases v with
  | nil => cases hnil
  | boolean b =>
    rw [toWire, Wire.Reads] at hr
    rw [hr]
    cases b <;> rfl
  | number d =>
    rw [Plain] at hv
    rw [toWire] at hr
    obtain ⟨d', rfl, _⟩ := numberWire_reads hv.1 hv.2 hr
    rfl
  | string s =>
    rw [toWire, stringWire, Wire.Reads, Source.string] at hr
    subst hr
    cases c.mb with
    | none => rfl
    | some mb => cases k <;> rfl
  | buffer ms => simp only [Plain] at hv
  | foreign t => simp only [Plain] at hv
  | table id arr hash =>
    rw [toWire] at hr
    split at hr
    · obtain ⟨id', vs, rfl, _⟩ := hr
      rfl
    · obtain ⟨id', ps, rfl, _⟩ := hr
      rfl

theorem drop_item {d r : List UInt8} {x : Wire} {rest : List UInt8} {ofs : ℕ}
    (hd : d.drop ofs = (x.bytes ++ rest) ++ r) : d.drop (ofs + x.len) = rest ++ r := by
  rw [← List.drop_drop, hd, List.append_assoc]
  exact List.drop_left' rfl

theorem drop_header {d r : List UInt8} (header : List UInt8) {rest : List UInt8} {ofs k : ℕ}
    (hlen : header.length = k + 1) (hd : d.drop ofs = (header ++ rest) ++ r) :
    d.drop (ofs + (1 + k)) = rest ++ r := by
  rw [← List.drop_drop, hd, List.append_assoc]
  exact List.drop_left' (hlen.trans (Nat.add_comm k 1))

theorem list_reads {arr : List LuaValue} (hv : PlainList arr)
    (ih : ∀ v ∈ arr, Plain v → ∀ {ofs r w}, (toWire h v).Reads c false ofs w →
      data.drop ofs = (toWire h v).bytes ++ r → (SameBy S v w ↔ Strings E v))
    {ofs : ℕ} {r : List UInt8} {ws : List LuaValue}
    (hr : Wire.ReadsList c false ofs (toWireList h arr) ws)
    (hd : data.drop ofs = Wire.bytesList (toWireList h arr) ++ r) :
    SameList S arr ws ↔ StringsList E arr := by
  induction arr generalizing ofs ws with
  | nil =>
    rw [toWireList, Wire.ReadsList] at hr
    simp only [SameList, StringsList, hr]
  | cons v arr hrec =>
    rw [PlainList] at hv
    rw [toWireList, Wire.ReadsList] at hr
    rw [toWireList, Wire.bytesList] at hd
    obtain ⟨w, ws', rfl, hw, hws⟩ := hr
    rw [keyingAfter_false] at hws
    have hhead := ih v List.mem_cons_self hv.1.2 hw (hd.trans (List.append_assoc _ _ _))
    have htail := hrec hv.2 (fun u hu => ih u (List.mem_cons_of_mem _ hu)) hws (drop_item hd)
    rw [SameList, StringsList, ← hhead, ← htail]
    constructor
    · rintro ⟨_, _, heq, hsame, hrest⟩
      cases heq
      exact ⟨hsame, hrest⟩
    · rintro ⟨hsame, hrest⟩
      exact ⟨w, ws', rfl, hsame, hrest⟩

theorem pairs_reads {hash : List (LuaValue × LuaValue)} (hv : PlainPairs hash)
    (ih : ∀ p ∈ hash, Plain p.2 → ∀ {ofs r w},
      (toWire h p.2).Reads c false ofs w →
      data.drop ofs = (toWire h p.2).bytes ++ r → (SameBy S p.2 w ↔ Strings E p.2))
    {acc : List (LuaValue × LuaValue)}
    (hnew : ∀ p ∈ acc, ∀ q ∈ hash, ∀ k', SameKey q.1 k' → p.1.rawequal k' = false)
    {ofs : ℕ} {r : List UInt8} {ws : List (LuaValue × LuaValue)}
    (hr : Wire.ReadsPairs c ofs acc (toWirePairs h hash) ws)
    (hd : data.drop ofs = Wire.bytesList (toWirePairs h hash) ++ r) :
    ∃ ps, ws = acc ++ ps ∧ (SamePairs S hash ps ↔ StringsPairs E hash) := by
  induction hash generalizing ofs acc with
  | nil =>
    rw [toWirePairs, Wire.ReadsPairs] at hr
    exact ⟨[], hr.trans (List.append_nil _).symm, by simp only [SamePairs, StringsPairs]⟩
  | cons p hash hrec =>
    obtain ⟨k, v⟩ := p
    rw [PlainPairs] at hv
    rw [toWirePairs, Wire.ReadsPairs] at hr
    rw [toWirePairs, Wire.bytesList, Wire.bytesList] at hd
    obtain ⟨k', w, hk, hw, hws⟩ := hr
    have hkey := key_reads hv.1.1 hk
    have hset : setHash k' w acc = acc ++ [(k', w)] :=
      setHash_of_new (isNil_of_reads hv.2.1.2 hv.2.1.1 hw)
        fun q hq => hnew q hq (k, v) List.mem_cons_self k' hkey
    rw [hset, ← Nat.add_assoc] at hws
    have hvalue := drop_item hd
    have hhead := ih (k, v) List.mem_cons_self hv.2.1.2 hw
      (hvalue.trans (List.append_assoc _ _ _))
    have hnew' : ∀ q ∈ acc ++ [(k', w)], ∀ q' ∈ hash, ∀ k'', SameKey q'.1 k'' →
        q.1.rawequal k'' = false := by
      intro q hq q' hq' k'' hsame
      rcases List.mem_append.mp hq with hq | hq
      · exact hnew q hq q' (List.mem_cons_of_mem _ hq') k'' hsame
      · rw [List.mem_singleton.mp hq, rawequal_congr hkey hsame]
        exact hv.1.2 q' hq'
    obtain ⟨ps, rfl, htail⟩ := hrec hv.2.2 (fun q hq => ih q (List.mem_cons_of_mem _ hq)) hnew' hws
      (drop_item hvalue)
    refine ⟨(k', w) :: ps, by rw [List.append_assoc]; rfl, ?_⟩
    rw [SamePairs, StringsPairs, ← hhead, ← htail]
    constructor
    · rintro ⟨_, _, _, heq, hsame, hrest⟩
      cases heq
      exact ⟨hsame.2, hrest⟩
    · rintro ⟨hsame, hrest⟩
      exact ⟨k', w, ps, rfl, ⟨hkey, hsame⟩, hrest⟩

theorem sameBy_iff
    (hS : ∀ {s ofs r w}, (stringWire s).Reads c false ofs w →
      data.drop ofs = (stringWire s).bytes ++ r → (S s w ↔ E s))
    {v : LuaValue} (hv : Plain v) {ofs : ℕ}
    {r : List UInt8} {w : LuaValue}
    (hr : (toWire h v).Reads c false ofs w)
    (hd : data.drop ofs = (toWire h v).bytes ++ r) : SameBy S v w ↔ Strings E v := by
  induction v using LuaValue.induct generalizing ofs r w with
  | nil =>
    rw [toWire, Wire.Reads] at hr
    rw [hr]
    simp only [SameBy, Strings]
    exact iff_of_true rfl trivial
  | boolean b =>
    rw [toWire, Wire.Reads] at hr
    rw [hr]
    simp only [SameBy, Strings]
    cases b <;> exact iff_of_true rfl trivial
  | number d =>
    rw [Plain] at hv
    rw [toWire] at hr
    simp only [SameBy, Strings]
    exact iff_of_true (numberWire_reads hv.1 hv.2 hr) trivial
  | string s =>
    rw [toWire] at hr hd
    simp only [SameBy, Strings]
    exact hS hr hd
  | buffer ms => simp only [Plain] at hv
  | foreign t => simp only [Plain] at hv
  | table id arr hash iharr ihhash =>
    rw [Plain] at hv
    rw [toWire] at hr hd
    by_cases harr : 0 < arr.length
    · rw [if_pos harr] at hv hr hd
      obtain ⟨id', ws, rfl, hws⟩ := hr
      have hdrop := drop_header (Wire.arrayHeader _ _) (Width.header_length _ _ _ _ _) hd
      have hlist := list_reads hv.1 (fun u hu hplain _ _ _ => iharr u hu hplain) hws hdrop
      rw [SameBy, Strings, hv.2, ← hlist]
      constructor
      · rintro ⟨_, _, _, heq, hsame, -⟩
        cases heq
        exact ⟨hsame, trivial⟩
      · rintro ⟨hsame, -⟩
        exact ⟨id', ws, [], rfl, hsame, rfl⟩
    · rw [if_neg harr] at hv hr hd
      obtain ⟨id', ws, rfl, hws⟩ := hr
      have hdrop := drop_header (Wire.mapHeader _ _) (Width.header_length _ _ _ _ _) hd
      obtain ⟨_, rfl, hpairs⟩ := pairs_reads hv (fun q hq hplain _ _ _ => (ihhash q hq).2 hplain)
        (fun q hq => by cases hq) hws hdrop
      obtain rfl := List.eq_nil_of_length_eq_zero (Nat.eq_zero_of_not_pos harr)
      rw [SameBy, Strings, ← hpairs]
      constructor
      · rintro ⟨_, _, _, heq, -, hsame⟩
        cases heq
        exact ⟨trivial, hsame⟩
      · rintro ⟨-, hsame⟩
        exact ⟨id', [], ws, rfl, rfl, hsame⟩

end Reading

end Lev.MPack
