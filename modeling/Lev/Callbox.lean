import Lev.LuaTable
import Lev.Run

/-! The event emitter of callbox.lua, whose lists of listeners are Lua tables, with whatever
border `#` returns for them, against an emitter that keeps plain lists. -/
namespace Lev.Callbox
open LuaTable Run

/-- A function that is registered: one that was given to `on`, or the `id`th closure that
`once` made around one. -/
inductive Listener
  | plain (callback : ℕ)
  | wrapped (id callback : ℕ)
  deriving DecidableEq, Repr

def Listener.callback : Listener → ℕ
  | plain callback => callback
  | wrapped _ callback => callback

def Listener.isPlain : Listener → Bool
  | plain _ => true
  | wrapped _ _ => false

inductive Op (Name : Type)
  | on (name : Name) (callback : ℕ)
  | once (name : Name) (callback : ℕ)
  | removeListener (name : Name) (callback : Option ℕ)
  | call (name : Name)
  deriving DecidableEq, Repr

variable {Name : Type} [DecidableEq Name]

/-- The object. `onces` counts the closures that were made and `lens` the uses of `#`; the
field `log` is one of ours and has the calls with the listeners they invoked. -/
structure Box (Name : Type) where
  handlers : Name → Option (List (Option Listener))
  onces : ℕ
  lens : ℕ
  log : List (Name × List Listener)

namespace Box

def new : Box Name := ⟨fun _ => none, 0, 0, []⟩

-- the results of `#`, by how often it was used before and on which table
variable (len : ℕ → List (Option Listener) → ℕ)

/-- `callbox:on` of a listener. -/
def on (s : Box Name) (name : Name) (listener : Listener) : Box Name :=
  let t := (s.handlers name).getD []
  { s with
    handlers := Function.update s.handlers name (some (insert t (len s.lens t) listener))
    lens := s.lens + 1 }

def once (s : Box Name) (name : Name) (callback : ℕ) : Box Name :=
  { s with onces := s.onces + 1 }.on len name (.wrapped s.onces callback)

/-- The loop of `removeListener` from `i` down; no callback means all. -/
def removeLoop (callback : Option Listener) : ℕ → List (Option Listener) → List (Option Listener)
  | 0, t => t
  | i + 1, t =>
    removeLoop callback i
      (if get t (i + 1) = callback ∨ callback = none then set t (i + 1) none else t)

def removeListener (s : Box Name) (name : Name) (callback : Option Listener) : Box Name :=
  match s.handlers name with
  | none => s
  | some t =>
    { s with
      handlers := Function.update s.handlers name (some (removeLoop callback (len s.lens t) t))
      lens := s.lens + 1 }

/-- The `ipairs` loop of `call` from `i` on: the listeners it invokes, of which a closure of
`once` first removes itself. The fuel is the size of the table. -/
def invokeLoop (s : Box Name) (name : Name) : ℕ → ℕ → List Listener × Box Name
  | 0, _ => ([], s)
  | fuel + 1, i =>
    match get ((s.handlers name).getD []) i with
    | none => ([], s)
    | some listener =>
      let s := if listener.isPlain then s else s.removeListener len name (some listener)
      let (invoked, s) := invokeLoop s name fuel (i + 1)
      (listener :: invoked, s)

/-- The loop of `call` from `i` down that is to close the holes. -/
def closeLoop : ℕ → ℕ → List (Option Listener) → List (Option Listener) × ℕ
  | 0, lens, t => (t, lens)
  | i + 1, lens, t =>
    if get t (i + 1) = none then closeLoop i (lens + 1) (remove t (len lens t) (i + 1))
    else closeLoop i lens t

/-- `callbox:call`. Where there is no table `missingHandlerType` is for others than the
listeners of the object. -/
def call (s : Box Name) (name : Name) : Box Name :=
  match s.handlers name with
  | none => { s with log := s.log ++ [(name, [])] }
  | some t =>
    let (invoked, s) := s.invokeLoop len name t.length 1
    let t := (s.handlers name).getD []
    let (t, lens) := closeLoop len (len s.lens t) (s.lens + 1) t
    { s with
      handlers := Function.update s.handlers name (some t)
      lens := lens
      log := s.log ++ [(name, invoked)] }

def next (s : Box Name) : Op Name → Box Name
  | .on name callback => s.on len name (.plain callback)
  | .once name callback => s.once len name callback
  | .removeListener name callback => s.removeListener len name (callback.map .plain)
  | .call name => s.call len name

end Box

/-- An emitter as it should be: the registered listeners of a name in their order. -/
structure Emitter (Name : Type) where
  listeners : Name → List Listener
  onces : ℕ
  log : List (Name × List Listener)

namespace Emitter

def new : Emitter Name := ⟨fun _ => [], 0, []⟩

def update (e : Emitter Name) (name : Name) (listeners : List Listener) : Emitter Name :=
  { e with listeners := Function.update e.listeners name listeners }

def next (e : Emitter Name) : Op Name → Emitter Name
  | .on name callback => e.update name (e.listeners name ++ [.plain callback])
  | .once name callback =>
    { e.update name (e.listeners name ++ [.wrapped e.onces callback]) with onces := e.onces + 1 }
  | .removeListener name callback =>
    e.update name ((e.listeners name).filter fun l =>
      decide (callback ≠ none ∧ callback ≠ some l.callback))
  | .call name =>
    { e.update name ((e.listeners name).filter Listener.isPlain) with
      log := e.log ++ [(name, e.listeners name)] }

end Emitter

def registered (ops : List (Op Name)) (name : Name) : List Listener :=
  (exec Emitter.next Emitter.new ops).listeners name

/-- The calls among these operations, with what they invoked. -/
def calls (len : ℕ → List (Option Listener) → ℕ) (ops : List (Op Name)) :
    List (Name × List Listener) :=
  (exec (Box.next len) Box.new ops).log

/-- Each call invokes the registered listeners in their order; a closure of `once` is
invoked at most once; and a callback that was removed and not registered again is not
invoked any more. -/
structure Delivers (len : ℕ → List (Option Listener) → ℕ) (ops : List (Op Name)) : Prop where
  exact : ∀ before name after, ops = before ++ .call name :: after →
    calls len (before ++ [.call name]) = calls len before ++ [(name, registered before name)]
  once : ∀ id callback,
    ((calls len ops).flatMap Prod.snd).count (.wrapped id callback) ≤ 1
  removed : ∀ before name which after callback,
    ops = before ++ .removeListener name which :: after →
    (which = none ∨ which = some callback) →
    .on name callback ∉ after → .once name callback ∉ after →
    ∃ later, calls len ops = calls len before ++ later ∧
      ∀ x ∈ later, x.1 = name → ∀ l ∈ x.2, l.callback ≠ callback

/-- A callback that is removed was not registered with `once`, and nothing else is behind
it; a listener of `once` that is called is the last one. -/
def Allowed (e : Emitter Name) : Op Name → Prop
  | .on _ _ | .once _ _ | .removeListener _ none => True
  | .removeListener name (some callback) =>
    ∀ l ∈ (e.listeners name).dropWhile fun l => decide (l.callback ≠ callback),
      l = .plain callback
  | .call name => ∀ l ∈ (e.listeners name).dropLast, l.isPlain = true

instance (e : Emitter Name) : (op : Op Name) → Decidable (Allowed e op)
  | .on _ _ | .once _ _ | .removeListener _ none => inferInstanceAs (Decidable True)
  | .removeListener _ (some _) | .call _ => inferInstanceAs (Decidable (∀ _ ∈ _, _))

section

variable {len : ℕ → List (Option Listener) → ℕ} {t : List (Option Listener)}
  {ls : List Listener} {s : Box Name} {e : Emitter Name} {name : Name}

/-- What the loop of `removeListener` does to a list behind which there is `rest`. -/
theorem removeLoop_append (callback : Option Listener) (ls : List Listener)
    (rest : List (Option Listener)) :
    Box.removeLoop callback ls.length (ls.map some ++ rest) =
      (ls.map fun l => if some l = callback ∨ callback = none then none else some l) ++ rest := by
  induction ls using List.reverseRecOn generalizing rest with
  | nil => rfl
  | append_singleton ls l ih =>
    have hget : get ((ls ++ [l]).map some ++ rest) (ls.length + 1) = some l := by
      rw [get_map_some (ls ++ [l]) rest (by simp)]
      simp
    have hset : set ((ls ++ [l]).map some ++ rest) (ls.length + 1) none =
        ls.map some ++ none :: rest := by
      simp [LuaTable.set]
    rw [List.length_append, List.length_singleton, Box.removeLoop, hget, hset]
    split
    · rw [ih]
      simp [*]
    · rw [List.map_append, List.append_assoc, List.map_singleton, List.singleton_append, ih]
      simp [*]

theorem dense_removeAll (h : Dense t ls) : Dense (Box.removeLoop none ls.length t) [] := by
  obtain ⟨k, rfl⟩ := h
  refine ⟨ls.length + k, ?_⟩
  rw [removeLoop_append, ← List.replicate_append_replicate]
  simp

theorem dense_removeTail {keep gone : List Listener} {l : Listener} (h : Dense t (keep ++ gone))
    (hkeep : ∀ x ∈ keep, x ≠ l) (hgone : ∀ x ∈ gone, x = l) :
    Dense (Box.removeLoop (some l) (keep ++ gone).length t) keep := by
  obtain ⟨k, rfl⟩ := h
  refine ⟨gone.length + k, ?_⟩
  have hleft : (keep.map fun x => if some x = some l ∨ some l = none then none else some x) =
      keep.map some :=
    List.map_congr_left fun x hx => if_neg (by simpa using hkeep x hx)
  have hright : (gone.map fun x => if some x = some l ∨ some l = none then none else some x) =
      List.replicate gone.length none := by
    rw [List.eq_replicate_iff]
    refine ⟨List.length_map .., fun x hx => ?_⟩
    obtain ⟨y, hy, rfl⟩ := List.mem_map.mp hx
    exact if_pos (.inl (congrArg some (hgone y hy)))
  rw [removeLoop_append, List.map_append, hleft, hright, List.append_assoc,
    List.replicate_append_replicate]

theorem closeLoop_dense (len : ℕ → List (Option Listener) → ℕ) (h : Dense t ls) {n : ℕ}
    (hn : n ≤ ls.length) (lens : ℕ) : Box.closeLoop len n lens t = (t, lens) := by
  induction n with
  | zero => rfl
  | succ n ih =>
    have hsome : get t (n + 1) ≠ none := by
      rw [h.get_lt hn]
      exact Option.some_ne_none _
    rw [Box.closeLoop, if_neg hsome]
    exact ih (by omega)

/-- The object stands for the emitter. -/
structure Refines (s : Box Name) (e : Emitter Name) : Prop where
  tables : ∀ name, Dense ((s.handlers name).getD []) (e.listeners name)
  onces : s.onces = e.onces
  log : s.log = e.log

omit [DecidableEq Name] in
theorem Refines.new : Refines (Box.new : Box Name) Emitter.new := ⟨fun _ => .nil, rfl, rfl⟩

theorem Refines.update (h : Refines s e) (name : Name) {ls : List Listener} (ht : Dense t ls)
    (lens : ℕ) :
    Refines { s with handlers := Function.update s.handlers name (some t), lens := lens }
      (e.update name ls) where
  tables := fun other => by
    by_cases hname : other = name
    · subst hname
      simpa [Emitter.update] using ht
    · simpa [Emitter.update, hname] using h.tables other
  onces := h.onces
  log := h.log

variable (hlen : ∀ k t, Border t (len k t))
include hlen

theorem Refines.on (h : Refines s e) (name : Name) (l : Listener) :
    Refines (s.on len name l) (e.update name (e.listeners name ++ [l])) :=
  h.update name ((h.tables name).insert (hlen _ _) l) _

theorem Refines.removeListener_none (h : Refines s e) (name : Name) :
    Refines (s.removeListener len name none) (e.update name []) := by
  have htable := h.tables name
  rw [Box.removeListener]
  cases ht : s.handlers name with
  | none =>
    refine ⟨fun other => ?_, h.onces, h.log⟩
    by_cases hname : other = name
    · subst hname
      rw [ht]
      simpa [Emitter.update] using Dense.nil
    · simpa [Emitter.update, hname] using h.tables other
  | some t =>
    rw [ht] at htable
    have hall := dense_removeAll htable
    rw [← htable.border (hlen s.lens t)] at hall
    exact h.update name hall _

theorem Refines.removeListener_tail (h : Refines s e) {keep gone : List Listener}
    {l : Listener} (hls : e.listeners name = keep ++ gone) (hkeep : ∀ x ∈ keep, x ≠ l)
    (hgone : ∀ x ∈ gone, x = l) :
    Refines (s.removeListener len name (some l)) (e.update name keep) := by
  have htable := h.tables name
  rw [hls] at htable
  rw [Box.removeListener]
  cases ht : s.handlers name with
  | none =>
    rw [ht] at htable
    have hkeep : keep = [] := (List.append_eq_nil_iff.mp htable.eq_nil).1
    refine ⟨fun other => ?_, h.onces, h.log⟩
    by_cases hname : other = name
    · subst hname
      rw [ht, hkeep]
      simpa [Emitter.update] using Dense.nil
    · simpa [Emitter.update, hname] using h.tables other
  | some t =>
    rw [ht] at htable
    have htail := dense_removeTail htable hkeep hgone
    rw [← htable.border (hlen s.lens t)] at htail
    exact h.update name htail _

omit hlen in
theorem invokeLoop_stop (len : ℕ → List (Option Listener) → ℕ) (h : Refines s e) (name : Name)
    {i : ℕ} (hi : (e.listeners name).length ≤ i) (fuel : ℕ) :
    s.invokeLoop len name fuel (i + 1) = ([], s) := by
  cases fuel with
  | zero => rfl
  | succ fuel => rw [Box.invokeLoop, (h.tables name).get_ge hi]

/-- The listeners from the index on are invoked, and a closure of `once`, if it is the last
one, is gone then. -/
theorem Refines.invoke {done todo : List Listener} {fuel : ℕ} (h : Refines s e)
    (hls : e.listeners name = done ++ todo) (hdone : ∀ l ∈ done, l.isPlain = true)
    (hplain : ∀ l ∈ todo.dropLast, l.isPlain = true) (hfuel : todo.length ≤ fuel) :
    ∃ s', s.invokeLoop len name fuel (done.length + 1) = (todo, s') ∧
      Refines s' (e.update name ((done ++ todo).filter Listener.isPlain)) := by
  induction todo generalizing done fuel with
  | nil =>
    have hsame : e.update name ((done ++ []).filter Listener.isPlain) = e := by
      rw [List.append_nil, List.filter_eq_self.mpr hdone, ← List.append_nil done, ← hls,
        Emitter.update, Function.update_eq_self]
    rw [hsame]
    exact ⟨s, invokeLoop_stop len h name (by simp [hls]) fuel, h⟩
  | cons l todo ih =>
    cases fuel with
    | zero => cases hfuel
    | succ fuel =>
      have hget : get ((s.handlers name).getD []) (done.length + 1) = some l := by
        rw [(h.tables name).get_lt (by simp [hls])]
        simp [hls]
      cases hl : l.isPlain with
      | true =>
        have hdone' : ∀ x ∈ done ++ [l], x.isPlain = true := by
          simpa [or_imp, forall_and, hl] using hdone
        have hplain' : ∀ x ∈ todo.dropLast, x.isPlain = true := by
          intro x hx
          have hne : todo ≠ [] := fun hnil => by
            rw [hnil] at hx
            cases hx
          exact hplain x (by rw [List.dropLast_cons_of_ne_nil hne]; exact .tail _ hx)
        have hls' : e.listeners name = (done ++ [l]) ++ todo := by simpa using hls
        obtain ⟨s', hinvoke, hs'⟩ := ih hls' hdone' hplain' (Nat.le_of_succ_le_succ hfuel)
        rw [List.length_append, List.length_singleton] at hinvoke
        refine ⟨s', ?_, by simpa using hs'⟩
        rw [Box.invokeLoop, hget]
        simp only [hl, if_true, hinvoke]
      | false =>
        have hlast : todo = [] := by
          by_contra hne
          have := hplain l (by rw [List.dropLast_cons_of_ne_nil hne]; exact List.mem_cons_self)
          rw [hl] at this
          cases this
        subst hlast
        have hne : ∀ x ∈ done, x ≠ l := by
          rintro x hx rfl
          rw [hdone x hx] at hl
          cases hl
        have hremoved := h.removeListener_tail hlen hls hne (by simp)
        have hfilter : (done ++ [l]).filter Listener.isPlain = done := by
          rw [List.filter_append, List.filter_eq_self.mpr hdone]
          simp [hl]
        rw [hfilter]
        refine ⟨_, ?_, hremoved⟩
        have hlength : ((e.update name done).listeners name).length ≤ done.length + 1 := by
          simp [Emitter.update]
        have hstop := invokeLoop_stop len hremoved name hlength fuel
        rw [Box.invokeLoop, hget]
        simp only [hl, Bool.false_eq_true, if_false, hstop]

theorem Refines.call (h : Refines s e)
    (hplain : ∀ l ∈ (e.listeners name).dropLast, l.isPlain = true) :
    Refines (s.call len name) (e.next (.call name)) := by
  have htable := h.tables name
  rw [Box.call]
  cases ht : s.handlers name with
  | none =>
    rw [ht] at htable
    have hnil : e.listeners name = [] := htable.eq_nil
    refine ⟨fun other => ?_, h.onces, ?_⟩
    · by_cases hname : other = name
      · subst hname
        simpa [Emitter.next, Emitter.update, hnil, ht] using Dense.nil
      · simpa [Emitter.next, Emitter.update, hname] using h.tables other
    · change _ ++ _ = e.log ++ _
      rw [h.log, hnil]
  | some t =>
    rw [ht, Option.getD_some] at htable
    have hls : e.listeners name = [] ++ e.listeners name := rfl
    obtain ⟨s', hinvoke, hs'⟩ := h.invoke hlen hls (by simp) hplain htable.length_le
    have htable' := hs'.tables name
    have hclose := closeLoop_dense len htable'
      (htable'.border (hlen s'.lens ((s'.handlers name).getD []))).le (s'.lens + 1)
    rw [List.length_nil, Nat.zero_add] at hinvoke
    simp only [hinvoke, hclose]
    have hfinal := hs'.update name htable' (s'.lens + 1)
    refine ⟨fun other => ?_, hs'.onces, ?_⟩
    · simpa [Emitter.next, Emitter.update] using hfinal.tables other
    · change _ ++ _ = e.log ++ _
      rw [hs'.log]
      rfl

theorem Refines.next (h : Refines s e) {op : Op Name} (hop : Allowed e op) :
    Refines (s.next len op) (e.next op) := by
  cases op with
  | on name callback => exact h.on hlen name _
  | once name callback =>
    have hs : Refines { s with onces := s.onces + 1 } { e with onces := e.onces + 1 } :=
      ⟨h.tables, congrArg (· + 1) h.onces, h.log⟩
    have hon := hs.on hlen name (.wrapped s.onces callback)
    rw [h.onces] at hon
    rw [Box.next, Box.once, h.onces]
    exact hon
  | removeListener name callback =>
    cases callback with
    | none =>
      have hnone := h.removeListener_none hlen name
      simpa [Emitter.next, Box.next] using hnone
    | some callback =>
      let p : Listener → Bool := fun l => decide (l.callback ≠ callback)
      have hls := (List.takeWhile_append_dropWhile (p := p) (l := e.listeners name)).symm
      have hp : ∀ l ∈ (e.listeners name).takeWhile p, p l = true := fun l hl =>
        List.mem_takeWhile_imp hl
      have hkeep : ∀ l ∈ (e.listeners name).takeWhile p, l ≠ .plain callback := by
        rintro l hl rfl
        exact absurd (hp _ hl) (by simp [p, Listener.callback])
      have hfilter : e.next (.removeListener name (some callback)) =
          e.update name ((e.listeners name).takeWhile p) := by
        have hfun : (fun l : Listener => decide (some callback ≠ none ∧
            some callback ≠ some l.callback)) = p := by
          funext l
          simp [p, eq_comm]
        have hgone : ((e.listeners name).dropWhile p).filter p = [] := by
          rw [List.filter_eq_nil_iff]
          intro l hl
          rw [hop l hl]
          simp [p, Listener.callback]
        have hall : (e.listeners name).filter p = (e.listeners name).takeWhile p := by
          conv_lhs => rw [hls, List.filter_append, hgone, List.append_nil]
          exact List.filter_eq_self.mpr hp
        rw [Emitter.next, hfun, hall]
      rw [hfilter]
      exact h.removeListener_tail hlen hls hkeep hop
  | call name => exact h.call hlen hop

end

end Lev.Callbox
