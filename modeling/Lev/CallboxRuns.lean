import Lev.Callbox

/-! Runs of the event emitter: what holds of the emitter with plain lists in every run, and
of the object in every run whose operations are allowed. -/
namespace Lev.Callbox
open LuaTable Run

variable {Name : Type} [DecidableEq Name] {len : ℕ → List (Option Listener) → ℕ}
  {s : Box Name} {e : Emitter Name} {name : Name} {ops : List (Op Name)}

def Emitter.invoked (e : Emitter Name) : List Listener := e.log.flatMap Prod.snd

theorem Emitter.listeners_update (name : Name) (ls : List Listener) (n : Name) :
    (e.update name ls).listeners n = if n = name then ls else e.listeners n := by
  rw [Emitter.update]
  exact Function.update_apply _ _ _ _

theorem Emitter.invoked_call (e : Emitter Name) (name : Name) :
    (e.next (.call name)).invoked = e.invoked ++ e.listeners name := by
  simp [Emitter.invoked, Emitter.next, Emitter.update]

/-- What may be of the `id`th closure of `once`: it is not made yet, it is on the list of one
name, or it is on none any more. -/
inductive Stage (e : Emitter Name) (id callback : ℕ) : Prop
  | unmade (made : e.onces ≤ id) (absent : ∀ n, .wrapped id callback ∉ e.listeners n)
      (silent : .wrapped id callback ∉ e.invoked)
  | held (name : Name) (made : id < e.onces)
      (there : (e.listeners name).count (.wrapped id callback) ≤ 1)
      (absent : ∀ n, n ≠ name → .wrapped id callback ∉ e.listeners n)
      (silent : .wrapped id callback ∉ e.invoked)
  | gone (made : id < e.onces) (absent : ∀ n, .wrapped id callback ∉ e.listeners n)
      (count : e.invoked.count (.wrapped id callback) ≤ 1)

variable {id callback : ℕ}

omit [DecidableEq Name] in
theorem Stage.count_le (h : Stage e id callback) :
    e.invoked.count (.wrapped id callback) ≤ 1 := by
  cases h with
  | unmade made absent silent => rw [List.count_eq_zero_of_not_mem silent]; omega
  | held name made there absent silent => rw [List.count_eq_zero_of_not_mem silent]; omega
  | gone made absent count => exact count

theorem Stage.append {l : Listener} (h : Stage e id callback) (hl : l ≠ .wrapped id callback)
    (name : Name) : Stage (e.update name (e.listeners name ++ [l])) id callback := by
  have hmem : ∀ n, .wrapped id callback ∈ (e.update name (e.listeners name ++ [l])).listeners n ↔
      .wrapped id callback ∈ e.listeners n := by
    intro n
    rw [Emitter.listeners_update]
    split
    · next heq => simp [heq, hl.symm]
    · rfl
  have hcount : ∀ n, ((e.update name (e.listeners name ++ [l])).listeners n).count
      (.wrapped id callback) = (e.listeners n).count (.wrapped id callback) := by
    intro n
    rw [Emitter.listeners_update]
    split
    · next heq => simp [heq, List.count_append, hl]
    · rfl
  cases h with
  | unmade made absent silent => exact .unmade made (fun n => (hmem n).not.mpr (absent n)) silent
  | held name' made there absent silent =>
    exact .held name' made ((hcount name').trans_le there)
      (fun n hn => (hmem n).not.mpr (absent n hn)) silent
  | gone made absent count => exact .gone made (fun n => (hmem n).not.mpr (absent n)) count

theorem Stage.sublist {ls : List Listener} (h : Stage e id callback) (name : Name)
    (hls : ls.Sublist (e.listeners name)) : Stage (e.update name ls) id callback := by
  have hsub : ∀ n, ((e.update name ls).listeners n).Sublist (e.listeners n) := by
    intro n
    rw [Emitter.listeners_update]
    split
    · next heq => exact heq ▸ hls
    · exact List.Sublist.refl _
  cases h with
  | unmade made absent silent =>
    exact .unmade made (fun n hn => absent n ((hsub n).mem hn)) silent
  | held name' made there absent silent =>
    exact .held name' made (((hsub name').count_le _).trans there)
      (fun n hne hn => absent n hne ((hsub n).mem hn)) silent
  | gone made absent count => exact .gone made (fun n hn => absent n ((hsub n).mem hn)) count

theorem Stage.once (h : Stage e id callback) (name : Name) (new : ℕ) :
    Stage (e.next (.once name new)) id callback := by
  by_cases hl : Listener.wrapped e.onces new = .wrapped id callback
  · cases hl
    cases h with
    | unmade made absent silent =>
      refine .held name (Nat.lt_succ_self _) ?_ ?_ silent
      · change ((e.update name _).listeners name).count _ ≤ 1
        rw [Emitter.listeners_update, if_pos rfl, List.count_append,
          List.count_eq_zero_of_not_mem (absent name)]
        simp
      · intro n hn
        change _ ∉ (e.update name _).listeners n
        rw [Emitter.listeners_update, if_neg hn]
        exact absent n
    | held name made there absent silent => exact absurd made (Nat.lt_irrefl _)
    | gone made absent count => exact absurd made (Nat.lt_irrefl _)
  · have happend := h.append hl name
    cases happend with
    | unmade made absent silent =>
      obtain heq | hlt := Nat.eq_or_lt_of_le made
      · -- the number went to a closure around another function
        refine .gone (heq ▸ Nat.lt_succ_self _) absent ?_
        exact (List.count_eq_zero_of_not_mem silent).trans_le (Nat.zero_le 1)
      · exact .unmade hlt absent silent
    | held name made there absent silent =>
      exact .held name (Nat.lt_succ_of_lt made) there absent silent
    | gone made absent count => exact .gone (Nat.lt_succ_of_lt made) absent count

theorem Stage.call (h : Stage e id callback) (name : Name) :
    Stage (e.next (.call name)) id callback := by
  have hfilter := h.sublist name (List.filter_sublist (p := Listener.isPlain))
  have hnot : .wrapped id callback ∉ (e.listeners name).filter Listener.isPlain := by
    simp [Listener.isPlain]
  by_cases hl : .wrapped id callback ∈ e.listeners name
  · cases h with
    | unmade made absent silent => exact absurd hl (absent name)
    | held name' made there absent silent =>
      have hname : name = name' := by
        by_contra hne
        exact absent name hne hl
      subst hname
      refine .gone made (fun n => ?_) ?_
      · change _ ∉ (e.update name _).listeners n
        rw [Emitter.listeners_update]
        split
        · exact hnot
        · next hne => exact absent n hne
      · rw [Emitter.invoked_call, List.count_append, List.count_eq_zero_of_not_mem silent]
        omega
    | gone made absent count => exact absurd hl (absent name)
  · have hsilent : ∀ l : List Listener, (l ++ e.listeners name).count (.wrapped id callback) =
        l.count (.wrapped id callback) := fun l => by
      rw [List.count_append, List.count_eq_zero_of_not_mem hl, Nat.add_zero]
    have hmem : .wrapped id callback ∉ e.invoked →
        .wrapped id callback ∉ (e.next (.call name)).invoked := by
      intro hnot
      rw [Emitter.invoked_call, List.mem_append]
      exact fun h => h.elim hnot hl
    cases hfilter with
    | unmade made absent silent => exact .unmade made absent (hmem silent)
    | held name' made there absent silent =>
      exact .held name' made there absent (hmem silent)
    | gone made absent count =>
      refine .gone made absent ?_
      rw [Emitter.invoked_call, hsilent]
      exact count

theorem Stage.next (h : Stage e id callback) (op : Op Name) : Stage (e.next op) id callback := by
  cases op with
  | on name new => exact h.append Listener.noConfusion name
  | once name new => exact h.once name new
  | removeListener name which => exact h.sublist name List.filter_sublist
  | call name => exact h.call name

theorem once_count_le (ops : List (Op Name)) (id callback : ℕ) :
    (exec Emitter.next Emitter.new ops).invoked.count (.wrapped id callback) ≤ 1 := by
  have hstart : Stage (Emitter.new : Emitter Name) id callback :=
    .unmade (Nat.zero_le id) (fun _ => List.not_mem_nil) List.not_mem_nil
  have hkeep : ∀ (e : Emitter Name) op, Stage e id callback → True →
      Stage (e.next op) id callback := fun _ op h _ => h.next op
  have hend := inv_exec hkeep hstart (along_of_mem fun op (_ : op ∈ ops) _ => trivial)
  exact hend.count_le

/-- A callback is not on the list of a name, and was not invoked for it behind `log`. -/
structure Silent (name : Name) (callback : ℕ) (log : List (Name × List Listener))
    (e : Emitter Name) : Prop where
  absent : ∀ l ∈ e.listeners name, l.callback ≠ callback
  silent : ∃ later, e.log = log ++ later ∧
    ∀ x ∈ later, x.1 = name → ∀ l ∈ x.2, l.callback ≠ callback

variable {log : List (Name × List Listener)}

theorem Silent.next (h : Silent name callback log e) {op : Op Name}
    (hon : op ≠ .on name callback) (honce : op ≠ .once name callback) :
    Silent name callback log (e.next op) := by
  cases op with
  | on name' new =>
    refine ⟨?_, h.silent⟩
    rw [Emitter.next, Emitter.listeners_update]
    split
    · next heq =>
      subst heq
      have hnew : new ≠ callback := fun heq => hon (by rw [heq])
      simpa [or_imp, forall_and, Listener.callback, hnew] using h.absent
    · exact h.absent
  | once name' new =>
    refine ⟨?_, h.silent⟩
    change ∀ l ∈ (e.update name' _).listeners name, _
    rw [Emitter.listeners_update]
    split
    · next heq =>
      subst heq
      have hnew : new ≠ callback := fun heq => honce (by rw [heq])
      simpa [or_imp, forall_and, Listener.callback, hnew] using h.absent
    · exact h.absent
  | removeListener name' which =>
    refine ⟨?_, h.silent⟩
    rw [Emitter.next, Emitter.listeners_update]
    split
    · next heq => exact fun l hl => h.absent l (heq ▸ List.mem_of_mem_filter hl)
    · exact h.absent
  | call name' =>
    obtain ⟨later, hlog, hlater⟩ := h.silent
    refine ⟨?_, later ++ [(name', e.listeners name')], ?_, ?_⟩
    · change ∀ l ∈ (e.update name' _).listeners name, _
      rw [Emitter.listeners_update]
      split
      · next heq => exact fun l hl => h.absent l (heq ▸ List.mem_of_mem_filter hl)
      · exact h.absent
    · change e.log ++ _ = _
      rw [hlog, List.append_assoc]
    · intro x hx hname l hl
      obtain hx | hx := List.mem_append.mp hx
      · exact hlater x hx hname l hl
      · obtain rfl := List.mem_singleton.mp hx
        exact h.absent l (hname ▸ hl)

theorem Silent.removed (e : Emitter Name) (name : Name) {which : Option ℕ} {callback : ℕ}
    (hwhich : which = none ∨ which = some callback) :
    Silent name callback e.log (e.next (.removeListener name which)) := by
  refine ⟨fun l hl => ?_, [], (List.append_nil _).symm, fun _ h => by cases h⟩
  rw [Emitter.next, Emitter.listeners_update, if_pos rfl, List.mem_filter] at hl
  obtain ⟨hnone, hother⟩ := of_decide_eq_true hl.2
  obtain rfl | rfl := hwhich
  · exact absurd rfl hnone
  · exact fun heq => hother (congrArg some heq.symm)

theorem refines_exec (hlen : ∀ k t, Border t (len k t)) (h : Refines s e)
    (hops : Along Emitter.next Allowed e ops) :
    Refines (exec (Box.next len) s ops) (exec Emitter.next e ops) := by
  induction ops generalizing s e with
  | nil => exact h
  | cons op ops ih => exact ih (h.next hlen hops.1) hops.2

/-- In every run whose operations are allowed the object delivers, whichever borders `#`
returns. -/
theorem callbox_delivers (hlen : ∀ k t, Border t (len k t)) (ops : List (Op Name))
    (hops : Along Emitter.next Allowed Emitter.new ops) : Delivers len ops where
  exact := by
    rintro before name after rfl
    have happend := along_append.mp hops
    have hbefore := refines_exec hlen Refines.new happend.1
    have hcall := hbefore.next hlen happend.2.1
    rw [calls, exec_append, registered, calls, hbefore.log]
    exact hcall.log
  once := fun id callback => by
    rw [calls, (refines_exec hlen Refines.new hops).log]
    exact once_count_le ops id callback
  removed := by
    rintro before name which after callback rfl hwhich hon honce
    have happend := along_append.mp hops
    have hbefore := refines_exec hlen Refines.new happend.1
    let log := (exec Emitter.next Emitter.new before).log
    have hkeep : ∀ (e : Emitter Name) op, Silent name callback log e →
        (op ≠ .on name callback ∧ op ≠ .once name callback) →
        Silent name callback log (e.next op) := fun _ _ h hop => h.next hop.1 hop.2
    have hsilent := inv_exec hkeep (Silent.removed _ name hwhich)
      (along_of_mem fun op (hop : op ∈ after) _ =>
        ⟨fun heq => hon (heq ▸ hop), fun heq => honce (heq ▸ hop)⟩)
    rw [calls, calls, (refines_exec hlen Refines.new hops).log, hbefore.log, exec_append]
    exact hsilent.silent

def firstBorder (t : List (Option Listener)) : ℕ := t.findIdx Option.isNone

theorem firstBorder_border (t : List (Option Listener)) : Border t (firstBorder t) := by
  constructor
  · cases hn : firstBorder t with
    | zero => exact .inl rfl
    | succ n =>
      have hlt : n < t.findIdx Option.isNone := by
        rw [firstBorder] at hn
        omega
      have hsome := List.not_of_lt_findIdx hlt
      have hlength : n < t.length := hlt.trans_le List.findIdx_le_length
      refine .inr ?_
      rw [LuaTable.get, List.getElem?_eq_getElem hlength]
      intro hnone
      rw [Option.join_some] at hnone
      rw [hnone] at hsome
      cases hsome
  · rw [LuaTable.get]
    rcases Nat.lt_or_ge (firstBorder t) t.length with hlt | hge
    · rw [List.getElem?_eq_getElem hlt, Option.join_some]
      exact Option.isNone_iff_eq_none.mp (List.findIdx_getElem (w := hlt))
    · rw [List.getElem?_eq_none hge]
      rfl

/-- A listener that stays and one of `once` are called twice; the first is removed then. -/
def twoCalls : List (Op Unit) :=
  [.on () 1, .once () 2, .call (), .call (), .removeListener () (some 1), .call ()]

theorem callbox_delivers_twoCalls : Delivers (fun _ => firstBorder) twoCalls :=
  callbox_delivers (fun _ => firstBorder_border) twoCalls (by decide)

def removedFirst : List (Op Unit) := [.on () 1, .on () 2, .removeListener () (some 1), .call ()]

/-- The second one is not invoked. -/
theorem removedFirst_silent : ¬ Delivers (fun _ => firstBorder) removedFirst := by
  intro h
  have hexact := h.exact [.on () 1, .on () 2, .removeListener () (some 1)] () [] rfl
  revert hexact
  decide

end Lev.Callbox
