import Lev.LuaText

/-! The callbacks web.createServer gives to the HTTP parser. The parser reports a text in
one or more fragments, a new one behind each boundary of the reads. -/
namespace Lev.Web
open Lua

/-- `s:lower()` in the C locale -/
def lower (s : List UInt8) : List UInt8 :=
  s.map fun b => if 65 ≤ b ∧ b ≤ 90 then b + 32 else b

abbrev Table := List UInt8 → Option (List UInt8)

variable {U : Type*}

/-- What `onRequest` finds in the request. -/
structure Request (U : Type*) where
  url : Option U
  headers : Table
  upgrade : Bool

/-- The variables the callbacks of a connection share; `nil` is `none`. The field `handed` is
a log of ours, of the requests passed to `onRequest`. -/
structure Conn (U : Type*) where
  currentField : Option (List UInt8)
  headers : Option Table
  url : Option U
  handed : List (Request U)

inductive Callback
  | onMessageBegin
  | onUrl (value : List UInt8)
  | onHeaderField (field : List UInt8)
  | onHeaderValue (value : List UInt8)
  | onHeadersComplete (upgrade : Bool)
  | onBody (chunk : List UInt8)
  | onMessageComplete
  deriving DecidableEq, Repr

/-- `none` is a Lua error. `parseUrl` is `http_parser.parseUrl`, which raises one on what is
no URL. -/
def next (parseUrl : List UInt8 → Option U) (s : Conn U) : Callback → Option (Conn U)
  | .onMessageBegin => some { s with headers := some fun _ => none }
  | .onUrl value => (parseUrl value).map fun url => { s with url := some url }
  | .onHeaderField field => some { s with currentField := some field }
  | .onHeaderValue value =>
    match s.headers, s.currentField with
    | some headers, some field =>
      some { s with headers := some (Function.update headers (lower field) (some value)) }
    | _, _ => none
  | .onHeadersComplete upgrade =>
    s.headers.map fun headers => { s with handed := s.handed ++ [⟨s.url, headers, upgrade⟩] }
  | .onBody _ => some s
  | .onMessageComplete => some s

def run (parseUrl : List UInt8 → Option U) (s : Conn U) (cs : List Callback) : Option (Conn U) :=
  cs.foldlM (next parseUrl) s

/-- A text in fragments. -/
structure Cut where
  fragments : List (List UInt8)
  nonempty : fragments ≠ []

namespace Cut

def text (c : Cut) : List UInt8 := c.fragments.flatten

def last (c : Cut) : List UInt8 := c.fragments.getLast c.nonempty

def whole (s : List UInt8) : Cut := ⟨[s], List.cons_ne_nil _ _⟩

end Cut

/-- The head of a request in fragments: its URL, and the names and values of its headers. -/
structure Head where
  url : Cut
  headers : List (Cut × Cut)
  upgrade : Bool

namespace Head

def unfragmented (r : Head) : Head :=
  ⟨.whole r.url.text, r.headers.map fun (n, v) => (.whole n.text, .whole v.text), r.upgrade⟩

def headerCallbacks (header : Cut × Cut) : List Callback :=
  header.1.fragments.map .onHeaderField ++ header.2.fragments.map .onHeaderValue

def callbacks (r : Head) : List Callback :=
  .onMessageBegin :: r.url.fragments.map .onUrl ++ r.headers.flatMap headerCallbacks ++
    [.onHeadersComplete r.upgrade]

end Head

/-- The table of the names and values that `f` reads off the cuts. -/
def tableOf (f : Cut → List UInt8) (headers : List (Cut × Cut)) : Table :=
  headers.foldl (fun t (n, v) => Function.update t (lower (f n)) (some (f v))) fun _ => none

variable {parseUrl : List UInt8 → Option U} {s : Conn U}

theorem run_append (cs cs' : List Callback) :
    run parseUrl s (cs ++ cs') = (run parseUrl s cs).bind fun s => run parseUrl s cs' := by
  rw [run, List.foldlM_append]
  rfl

theorem run_cons (c : Callback) (cs : List Callback) :
    run parseUrl s (c :: cs) = (next parseUrl s c).bind fun s => run parseUrl s cs := rfl

theorem run_url {fragments : List (List UInt8)} (h : fragments ≠ []) :
    run parseUrl s (fragments.map .onUrl) =
      if ∀ x ∈ fragments, (parseUrl x).isSome then
        some { s with url := parseUrl (fragments.getLast h) }
      else none := by
  induction fragments generalizing s with
  | nil => exact absurd rfl h
  | cons x fragments ih =>
    rw [List.map_cons, run_cons, next]
    cases hx : parseUrl x with
    | none =>
      rw [if_neg]
      · rfl
      · intro hall
        have hsome := hall x List.mem_cons_self
        rw [hx] at hsome
        cases hsome
    | some u =>
      simp only [Option.map_some, Option.bind_some]
      cases fragments with
      | nil =>
        rw [if_pos]
        · rw [List.getLast_singleton, hx]
          rfl
        · intro y hy
          rw [List.mem_singleton.mp hy, hx]
          rfl
      | cons y fragments =>
        rw [ih (List.cons_ne_nil _ _), List.getLast_cons (List.cons_ne_nil _ _)]
        simp only [List.forall_mem_cons, hx, Option.isSome_some, true_and]

theorem run_field {fragments : List (List UInt8)} (h : fragments ≠ []) :
    run parseUrl s (fragments.map .onHeaderField) =
      some { s with currentField := some (fragments.getLast h) } := by
  induction fragments generalizing s with
  | nil => exact absurd rfl h
  | cons x fragments ih =>
    rw [List.map_cons, run_cons, next, Option.bind_some]
    cases fragments with
    | nil => rfl
    | cons y fragments => rw [ih (List.cons_ne_nil _ _), List.getLast_cons (List.cons_ne_nil _ _)]

theorem run_value {fragments : List (List UInt8)} (h : fragments ≠ []) {headers : Table}
    {field : List UInt8} (hh : s.headers = some headers) (hf : s.currentField = some field) :
    run parseUrl s (fragments.map .onHeaderValue) =
      some { s with
        headers := some (Function.update headers (lower field) (some (fragments.getLast h))) } := by
  induction fragments generalizing s headers with
  | nil => exact absurd rfl h
  | cons x fragments ih =>
    have hfirst : next parseUrl s (.onHeaderValue x) =
        some { s with headers := some (Function.update headers (lower field) (some x)) } := by
      rw [next, hh, hf]
    rw [List.map_cons, run_cons, hfirst, Option.bind_some]
    cases fragments with
    | nil => rfl
    | cons y fragments =>
      have hrest := ih (List.cons_ne_nil y fragments)
        (s := { s with headers := some (Function.update headers (lower field) (some x)) }) rfl hf
      rw [hrest, List.getLast_cons (List.cons_ne_nil _ _)]
      simp only [Function.update_idem]

theorem run_header {headers : Table} (hh : s.headers = some headers) (n v : Cut) :
    run parseUrl s (Head.headerCallbacks (n, v)) =
      some { s with
        currentField := some n.last
        headers := some (Function.update headers (lower n.last) (some v.last)) } := by
  rw [Head.headerCallbacks, run_append, run_field n.nonempty, Option.bind_some]
  exact run_value v.nonempty hh rfl

theorem run_headers (parseUrl : List UInt8 → Option U) {s : Conn U}
    (headers : List (Cut × Cut)) {t : Table} (ht : s.headers = some t) :
    ∃ field, run parseUrl s (headers.flatMap Head.headerCallbacks) =
      some { s with
        currentField := field
        headers := some (headers.foldl
          (fun t (n, v) => Function.update t (lower n.last) (some v.last)) t) } := by
  induction headers generalizing s t with
  | nil =>
    refine ⟨s.currentField, ?_⟩
    rw [List.foldl_nil, ← ht]
    rfl
  | cons header headers ih =>
    obtain ⟨n, v⟩ := header
    rw [List.flatMap_cons, run_append, run_header ht, Option.bind_some]
    obtain ⟨field, hrest⟩ := ih (s := { s with
      currentField := some n.last
      headers := some (Function.update t (lower n.last) (some v.last)) }) rfl
    exact ⟨field, hrest⟩

/-- What the callbacks of a request hand to `onRequest`: the parse of the last fragment of
its URL and the table of the last fragments of its headers. -/
theorem handed_eq (parseUrl : List UInt8 → Option U) (s : Conn U) (r : Head) :
    (run parseUrl s r.callbacks).map Conn.handed =
      if ∀ x ∈ r.url.fragments, (parseUrl x).isSome then
        some (s.handed ++ [⟨parseUrl r.url.last, tableOf Cut.last r.headers, r.upgrade⟩])
      else none := by
  rw [Head.callbacks, List.append_assoc, List.cons_append, run_cons, next, Option.bind_some,
    run_append, run_url r.url.nonempty]
  by_cases hurl : ∀ x ∈ r.url.fragments, (parseUrl x).isSome
  · have hrun := run_headers parseUrl r.headers
      (s := { s with headers := some fun _ => none, url := parseUrl r.url.last }) rfl
    obtain ⟨field, hrun⟩ := hrun
    rw [if_pos hurl, if_pos hurl, Option.bind_some, run_append, ← Cut.last, hrun]
    rfl
  · rw [if_neg hurl, if_neg hurl]
    rfl

theorem tableOf_unfragmented (r : Head) :
    tableOf Cut.last r.unfragmented.headers = tableOf Cut.text r.headers := by
  rw [tableOf, tableOf, Head.unfragmented, List.foldl_map]
  rfl

/-- The last fragments alone make the same request: they parse to the same URL, with every
fragment of the URL a URL too, and give the same table; or the URL does not parse, and some
fragment of it does not either. -/
def Head.LastAlone (parseUrl : List UInt8 → Option U) (r : Head) : Prop :=
  match parseUrl r.url.text with
  | none => ∃ x ∈ r.url.fragments, parseUrl x = none
  | some url =>
    (∀ x ∈ r.url.fragments, (parseUrl x).isSome) ∧ parseUrl r.url.last = some url ∧
      tableOf Cut.last r.headers = tableOf Cut.text r.headers

/-- The handler sees what it would have seen of the request in one piece exactly when the
last fragments alone make the same request; as they do where each text comes in one. -/
theorem handed_whole_iff (parseUrl : List UInt8 → Option U) (s : Conn U) (r : Head) :
    (run parseUrl s r.callbacks).map Conn.handed =
      (run parseUrl s r.unfragmented.callbacks).map Conn.handed ↔ r.LastAlone parseUrl := by
  have hwhole : (∀ x ∈ r.unfragmented.url.fragments, (parseUrl x).isSome) ↔
      (parseUrl r.url.text).isSome := List.forall_mem_singleton
  have hlast : r.unfragmented.url.last = r.url.text := rfl
  rw [handed_eq, handed_eq, hlast, tableOf_unfragmented]
  simp only [hwhole]
  unfold Head.LastAlone
  cases hurl : parseUrl r.url.text with
  | none =>
    simp only [Option.isSome_none, Bool.false_eq_true, if_false]
    by_cases hall : ∀ x ∈ r.url.fragments, (parseUrl x).isSome
    · rw [if_pos hall]
      refine ⟨fun h => (by cases h), ?_⟩
      rintro ⟨x, hx, hnone⟩
      have hsome := hall x hx
      rw [hnone] at hsome
      cases hsome
    · rw [if_neg hall]
      push Not at hall
      obtain ⟨x, hx, hnone⟩ := hall
      exact ⟨fun _ => ⟨x, hx, by simpa using hnone⟩, fun _ => rfl⟩
  | some url =>
    simp only [Option.isSome_some, if_true]
    by_cases hall : ∀ x ∈ r.url.fragments, (parseUrl x).isSome
    · rw [if_pos hall]
      constructor
      · intro h
        have hreq := List.append_cancel_left (Option.some.inj h)
        simp only [List.cons.injEq, Request.mk.injEq, and_true] at hreq
        exact ⟨hall, hreq.1, hreq.2.1⟩
      · rintro ⟨_, hu, ht⟩
        rw [hu, ht]
        rfl
    · rw [if_neg hall]
      exact ⟨fun h => (by cases h), fun h => absurd h.1 hall⟩

def freshConn : Conn (List UInt8) := ⟨none, none, none, []⟩

/-- A request whose only header value, `text/html`, comes in two fragments. -/
def splitValue : Head :=
  ⟨.whole (ascii "/"),
    [(.whole (ascii "Accept"), ⟨[ascii "text/", ascii "html"], List.cons_ne_nil _ _⟩)], false⟩

/-- The handler sees the second fragment only. -/
theorem splitValue_differs :
    (run some freshConn splitValue.callbacks).map Conn.handed ≠
      (run some freshConn splitValue.unfragmented.callbacks).map Conn.handed := by
  intro h
  have hvalue := congrArg (Option.map fun rs => rs.map fun r => r.headers (ascii "accept")) h
  exact absurd hvalue (by decide)

end Lev.Web
