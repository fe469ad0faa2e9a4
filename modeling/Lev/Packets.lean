import Lev.MPackEncoding
import Lev.ReadLoop

/-! Whole packets in a read. A packet is a map with string keys; what the read loops do to
a Buffer that holds whole packets is to process them one after the other, each with a
Buffer that starts at it. -/
namespace Lev.Ipc
open CInt Slab Memory Lua MPack

def Present (x : Wire) : Prop :=
  match x with
  | .single t => (singleValue t).isNil = false
  | _ => True

structure Packet where
  fields : List (List UInt8 × Wire)
  distinct : (fields.map Prod.fst).Nodup
  present : ∀ f ∈ fields, Present f.2
  legal : ∀ f ∈ fields, f.1.length < 2 ^ 32 ∧ f.2.Legal
  few : fields.length < 2 ^ 31

def fieldWires (fields : List (List UInt8 × Wire)) : List Wire :=
  fields.flatMap fun f => [stringWire f.1, f.2]

namespace Packet

def wire (p : Packet) : Wire :=
  .map (widthOf 16 p.fields.length) p.fields.length (fieldWires p.fields)

def field (p : Packet) (name : String) : Option Wire := p.fields.lookup (ascii name)

def text (p : Packet) (name : String) : Option (List UInt8) :=
  match p.field name with
  | some (.raw _ s) => some s
  | _ => none

end Packet

theorem fieldWires_cons (f : List UInt8 × Wire) (fields : List (List UInt8 × Wire)) :
    fieldWires (f :: fields) = stringWire f.1 :: f.2 :: fieldWires fields := rfl

theorem fieldWires_length (fields : List (List UInt8 × Wire)) :
    (fieldWires fields).length = 2 * fields.length := by
  induction fields with
  | nil => rfl
  | cons f fields ih =>
    rw [fieldWires_cons, List.length_cons, List.length_cons, ih, List.length_cons]
    omega

theorem goodKeys_fieldWires (fields : List (List UInt8 × Wire)) :
    Wire.GoodKeys (fieldWires fields) := by
  induction fields with
  | nil => trivial
  | cons f fields ih => exact ⟨trivial, ih⟩

theorem legal_fieldWires {fields : List (List UInt8 × Wire)}
    (h : ∀ f ∈ fields, f.1.length < 2 ^ 32 ∧ f.2.Legal) : Wire.LegalList (fieldWires fields) := by
  induction fields with
  | nil => trivial
  | cons f fields ih =>
    obtain ⟨hname, hvalue⟩ := h f List.mem_cons_self
    exact ⟨widthOf_fits hname, hvalue, ih fun g hg => h g (List.mem_cons_of_mem _ hg)⟩

theorem Packet.wire_legal (p : Packet) : p.wire.Legal := by
  have hfew := p.few
  have hcount : (toInt p.fields.length).toNat = p.fields.length := by
    unfold toInt
    omega
  refine ⟨widthOf_fits (by omega), ?_, goodKeys_fieldWires _, legal_fieldWires p.legal⟩
  rw [hcount]
  exact fieldWires_length _

/-- What tree `x` in the data at `ofs` was read as, outside keys. -/
structure ReadAs (c : Source) (data : List UInt8) (x : Wire) (v : LuaValue) : Prop where
  read : ∃ ofs r, Wire.Reads c false ofs x v ∧ data.drop ofs = x.bytes ++ r

theorem isNil_of_present {c : Source} {ofs : ℕ} {x : Wire} {v : LuaValue} (h : Present x)
    (hr : Wire.Reads c false ofs x v) : v.isNil = false := by
  cases x with
  | single t =>
    simp only [Wire.Reads] at hr
    exact hr ▸ h
  | scalar s p =>
    simp only [Wire.Reads] at hr
    exact hr ▸ rfl
  | raw w s =>
    simp only [Wire.Reads, Source.string] at hr
    subst hr
    cases c.mb <;> rfl
  | array w n items =>
    obtain ⟨id, vs, rfl, _⟩ := hr
    rfl
  | map w n items =>
    obtain ⟨id, hash, rfl, _⟩ := hr
    rfl

theorem rawequal_string (s s' : List UInt8) :
    (LuaValue.string s).rawequal (.string s') = (s == s') := rfl

theorem readsPairs_fields {c : Source} (mb : BlockId) (hmb : c.mb = some mb) {data : List UInt8}
    {fields : List (List UInt8 × Wire)} {ofs : ℕ} {acc hash : List (LuaValue × LuaValue)}
    {r : List UInt8} (hpresent : ∀ f ∈ fields, Present f.2)
    (hdistinct : (fields.map Prod.fst).Nodup)
    (hnew : ∀ f ∈ fields, ∀ q ∈ acc, q.1.rawequal (.string f.1) = false)
    (hr : Wire.ReadsPairs c ofs acc (fieldWires fields) hash)
    (hdata : data.drop ofs = Wire.bytesList (fieldWires fields) ++ r) :
    ∃ vs, hash = acc ++ (fields.map fun f => LuaValue.string f.1).zip vs ∧
      List.Forall₂ (fun f v => ReadAs c data f.2 v) fields vs := by
  induction fields generalizing ofs acc with
  | nil => exact ⟨[], by simpa [fieldWires, Wire.ReadsPairs] using hr, .nil⟩
  | cons f fields ih =>
    rw [fieldWires_cons] at hr hdata
    obtain ⟨kv, vv, hk, hv, hrest⟩ := hr
    have hkey : kv = .string f.1 := by
      rw [stringWire, Wire.Reads, Source.string, hmb] at hk
      exact hk
    subst hkey
    rw [Wire.bytesList, Wire.bytesList, List.append_assoc, List.append_assoc] at hdata
    have hdata₁ : data.drop (ofs + (stringWire f.1).len) =
        f.2.bytes ++ (Wire.bytesList (fieldWires fields) ++ r) := by
      rw [← List.drop_drop, hdata, Wire.len, List.drop_left]
    have hdata₂ : data.drop (ofs + ((stringWire f.1).len + f.2.len)) =
        Wire.bytesList (fieldWires fields) ++ r := by
      rw [← Nat.add_assoc, ← List.drop_drop, hdata₁, Wire.len, List.drop_left]
    have hnil := isNil_of_present (hpresent f List.mem_cons_self) hv
    rw [setHash_of_new hnil (hnew f List.mem_cons_self)] at hrest
    rw [List.map_cons, List.nodup_cons] at hdistinct
    have hnew' : ∀ g ∈ fields, ∀ q ∈ acc ++ [(LuaValue.string f.1, vv)],
        q.1.rawequal (.string g.1) = false := by
      intro g hg q hq
      rcases List.mem_append.mp hq with hq | hq
      · exact hnew g (List.mem_cons_of_mem _ hg) q hq
      · rw [List.mem_singleton.mp hq, rawequal_string, beq_eq_false_iff_ne]
        rintro heq
        exact hdistinct.1 (heq ▸ List.mem_map_of_mem hg)
    obtain ⟨vs, hvs, hall⟩ := ih (fun g hg => hpresent g (List.mem_cons_of_mem _ hg)) hdistinct.2
      hnew' hrest hdata₂
    refine ⟨vv :: vs, ?_, .cons ⟨_, _, hv, hdata₁⟩ hall⟩
    rw [hvs, List.append_assoc, List.singleton_append, List.map_cons, List.zip_cons_cons]

theorem lookup_fields {c : Source} {data : List UInt8} {fields : List (List UInt8 × Wire)}
    {vs : List LuaValue} (hall : List.Forall₂ (fun f v => ReadAs c data f.2 v) fields vs)
    (name : List UInt8) :
    match fields.lookup name with
    | none => lookup name ((fields.map fun f => LuaValue.string f.1).zip vs) = .nil
    | some x =>
      ReadAs c data x (lookup name ((fields.map fun f => LuaValue.string f.1).zip vs)) := by
  induction hall with
  | nil => rfl
  | @cons f v fields vs hread _ ih =>
    obtain ⟨name', x⟩ := f
    rw [List.map_cons, List.zip_cons_cons, lookup, rawequal_string, List.lookup]
    cases he : name == name' with
    | true =>
      rw [Bool.beq_comm] at he
      simp only [he, if_true]
      exact hread
    | false =>
      rw [Bool.beq_comm] at he
      simp only [he, Bool.false_eq_true, if_false]
      exact ih

/-- A packet as the loops hand it to their callbacks: unpacked, with its length and a
Buffer that starts at it. -/
structure Arrived (p : Packet) (h : Heap) (packet : LuaValue) (len : ℕ) (buf : MemSlice) :
    Prop where
  len_eq : len = p.wire.len
  front : ∃ r, buf.contents h = p.wire.bytes ++ r
  small : buf.untilLen < 2 ^ 31
  fields : ∃ (fill : ℕ) (id : ℕ) (hash : List (LuaValue × LuaValue)), packet = .table id [] hash ∧
    ∀ name : String, match p.field name with
      | none => lookup (ascii name) hash = .nil
      | some x => ReadAs ⟨some buf.mb, buf.slice, fill⟩
          (buf.contents h) x (lookup (ascii name) hash)

namespace Arrived

variable {p : Packet} {h : Heap} {packet : LuaValue} {len : ℕ} {buf : MemSlice}

theorem text (a : Arrived p h packet len buf) {name : String} {s : List UInt8}
    (ht : p.text name = some s) :
    ∃ ms, index packet name = some (.buffer ms) ∧ (s ≠ [] → ms.contents h = s) := by
  obtain ⟨fill, id, hash, rfl, hfields⟩ := a.fields
  have hf := hfields name
  unfold Packet.text at ht
  split at ht
  · rename_i w s' hfield
    obtain rfl := Option.some.inj ht
    rw [hfield] at hf
    obtain ⟨ofs, r, hv, hdata⟩ := hf.read
    simp only [Wire.Reads, Source.string, Bool.false_eq_true, if_false] at hv
    refine ⟨_, congrArg some hv, fun hne => ?_⟩
    have hpos : s'.length ≠ 0 := fun hz => hne (List.eq_nil_of_length_eq_zero hz)
    have hdrop : (buf.contents h).drop (ofs + (1 + w.size)) = s' ++ r := by
      rw [← List.drop_drop, hdata, Wire.bytes, List.append_assoc]
      refine List.drop_left' ?_
      rw [Wire.rawHeader, Width.header_length, Nat.add_comm]
    rw [if_neg hpos]
    exact load_of_drop hdrop
  · cases ht

theorem absent (a : Arrived p h packet len buf) {name : String} (hf : p.field name = none) :
    index packet name = some .nil := by
  obtain ⟨fill, id, hash, rfl, hfields⟩ := a.fields
  have hnone := hfields name
  rw [hf] at hnone
  exact congrArg some hnone

theorem toString_text (a : Arrived p h packet len buf) {name : String} {s : List UInt8}
    (ht : p.text name = some s) (hs : s ≠ []) :
    (index packet name).bind (toString h) = some s := by
  obtain ⟨ms, hi, hc⟩ := a.text ht
  rw [hi, Option.bind_some, toString, hc hs]

end Arrived

theorem arrived_of_got {p : Packet} {h₀ : Heap} {mb : BlockId} {r : Received}
    (g : Got h₀ mb p.wire r) : Arrived p r.heap r.packet r.len r.buf := by
  obtain ⟨rest, hfront⟩ := g.front
  refine ⟨g.len_eq, ⟨rest, hfront⟩, g.small, ?_⟩
  obtain ⟨id, hash, heq, hpairs⟩ := g.reads
  have hpairs' : Wire.ReadsPairs (unpackStart r.heap r.buf).source
      (0 + (1 + (widthOf 16 p.fields.length).size)) [] (fieldWires p.fields) hash := hpairs
  have hdrop : (r.buf.contents r.heap).drop (0 + (1 + (widthOf 16 p.fields.length).size)) =
      Wire.bytesList (fieldWires p.fields) ++ rest := by
    rw [hfront, Packet.wire, Wire.bytes, List.append_assoc]
    refine List.drop_left' ?_
    rw [Wire.mapHeader, Width.header_length, Nat.zero_add, Nat.add_comm]
  obtain ⟨vs, hvs, hall⟩ := readsPairs_fields r.buf.mb rfl p.present p.distinct
    (fun f _ q hq => by cases hq) hpairs' hdrop
  refine ⟨(unpackStart r.heap r.buf).source.fill, id, hash, heq, fun name => ?_⟩
  have hlook := lookup_fields hall (ascii name)
  rw [hvs, List.nil_append]
  exact hlook

def Received.Of (r : Received) (p : Packet) : Prop := Arrived p r.heap r.packet r.len r.buf

def packetBytes (ps : List Packet) : List UInt8 := Wire.bytesList (ps.map Packet.wire)

theorem onRead_whole {σ : Type} {grants : Grants} (process : Process σ) {ps : List Packet}
    (hne : ps ≠ []) (hgrants : ∀ p ∈ ps, grants.All [] p.wire.tables) {h : Heap} {buf : MemSlice}
    (hdata : buf.contents h = packetBytes ps)
    (hsmall : buf.untilLen < 2 ^ 31) :
    ∃ rs, List.Forall₂ (fun p r => Received.Of r p) ps rs ∧
      ∀ s, onRead grants process h buf buf.untilLen s = rs.foldlM (process1 process) s := by
  have hlen := contents_length h buf
  rw [hdata] at hlen
  have hlegal : ∀ x ∈ ps.map Packet.wire, x.Decodable grants := by
    intro x hx
    obtain ⟨p, hp, rfl⟩ := List.mem_map.mp hx
    exact ⟨p.wire_legal, hgrants p hp⟩
  have hne' : ps.map Packet.wire ≠ [] := fun hnil => hne (List.map_eq_nil_iff.mp hnil)
  have hfuel : (Wire.bytesList (ps.map Packet.wire)).length < buf.untilLen + 1 :=
    Nat.lt_succ_of_le (le_of_eq hlen)
  obtain ⟨rs, hrs, hloop⟩ := readLoop_whole process hne' hlegal hfuel hdata hsmall
    (Nat.zero_add buf.untilLen)
  exact ⟨rs, (List.forall₂_map_left_iff.mp hrs).imp fun _ _ g => arrived_of_got g, hloop⟩

end Lev.Ipc
