import Lev.HttpHead
import Lev.ResponseRuns

/-! What a receiver reads of a response, and what is left with the client when `fin` returns,
for every order of the calls and a client that was used before in any way. -/
namespace Lev.Response
open CInt Slab Memory Buffer Lua HttpChunked TcpWrite

variable {env : Env} {r r' : State}

/-- A response that may begin with `writeHead`. -/
abbrev Head (env : Env) := Option (Buffers env × Status × Option Fields)

def callsOf (head : Head env) (pieces : List (Piece env)) : List (Call env) :=
  (head.map fun x => Call.writeHead x.1 x.2.1 x.2.2).toList ++ pieces.map Call.write

/-- All chunks, that of `fin` at the end. -/
def chunksOf (pieces : List (Piece env)) (last : Last env) : List (Piece env) :=
  pieces ++ last.piece?.toList

/-- What the headers are meant to say. -/
def intendedOf (head : Head env) : Status × Option Fields :=
  head.elim (.number 200, none) Prod.snd

/-- The bytes of the headers; nothing if there is no call before a `fin` without a chunk. -/
def headerOf (head : Head env) (chunks : List (Piece env)) : List UInt8 :=
  if head.isNone && chunks.isEmpty then []
  else headBytes env (intendedOf head).1 (intendedOf head).2

def chunkedOf (head : Head env) : Bool :=
  match head with
  | some (_, _, headers) => !hasLength env headers
  | none => true

def bodyOf (chunked : Bool) (pieces : List (Piece env)) (last : Last env) : List UInt8 :=
  (chunksOf pieces last).flatMap (bodyBytes chunked) ++ if chunked then last.terminator else []

/-- Every scratch Buffer lies inside its block. -/
def insideOf (chunked : Bool) (pieces : List (Piece env)) (last : Last env) : Bool :=
  (chunksOf pieces last).all fun p => p.inside chunked

/-- How often the client is written to before `fin`, if the length is given. -/
def writesOf (head : Head env) (pieces : List (Piece env)) : ℕ :=
  head.elim 0 (fun x => headWrites env x.2.2) + pieces.length

theorem sane_start {client : TcpWrite.Writer} {chunks : List Chunk}
    (h : TcpWrite.Inv client chunks) : (start client).Sane := ⟨chunks, h⟩

theorem run_sent (hr : r.Sane) (hsent : r.headersSent = true) (pieces : List (Piece env))
    (last : Last env) :
    ∃ r', ((pieces.map Call.write).foldlM Call.run r).bind (fun r => last.run r) = some r' ∧
      r'.Sane ∧ r'.bytes = r.bytes ++ bodyOf r.chunkedEncoding pieces last ∧
      r'.view = (if last.writes r.chunkedEncoding then ⟨false, 0⟩
        else r.view.after (pieces.length * bodyWrites r.chunkedEncoding)) ∧
      r'.inside = (r.inside && insideOf r.chunkedEncoding pieces last) := by
  obtain ⟨r₁, hwrites, hdid, hchunked⟩ := writes_spec hr hsent pieces
  obtain ⟨r₂, hfin, hsane, hbytes, hview, hinside⟩ := fin_spec hdid.sane last
  rw [hchunked] at hbytes hview hinside
  refine ⟨r₂, by rw [hwrites]; exact hfin, hsane, ?_, ?_, ?_⟩
  · rw [hbytes, hdid.bytes, hdid.headersSent, List.append_assoc]
    congr 1
    cases last with
    | none b => simp [bodyOf, chunksOf, Last.piece?, Last.bytes]
    | some p =>
      cases r.chunkedEncoding
      · simp [bodyOf, chunksOf, Last.piece?, Last.bytes, bodyBytes]
      · simp [bodyOf, chunksOf, Last.piece?, Last.bytes, openBytes]
  · rw [hview, hdid.view]
  · rw [hinside, hdid.inside, insideOf, chunksOf, List.all_append, Bool.and_assoc]
    cases last with
    | none b => rfl
    | some p => simp [Last.piece?]

theorem run_spec {client : TcpWrite.Writer} {chunks : List Chunk}
    (hclient : TcpWrite.Inv client chunks) (head : Head env) (pieces : List (Piece env))
    (last : Last env) :
    ∃ r, run client (callsOf head pieces) last = some r ∧ r.Sane ∧
      r.bytes = headerOf head (chunksOf pieces last) ++ bodyOf (chunkedOf head) pieces last ∧
      r.view = (if last.writes (chunkedOf head) then ⟨false, 0⟩
        else (start client).view.after (writesOf head pieces)) ∧
      r.inside = insideOf (chunkedOf head) pieces last := by
  have hstart := sane_start hclient
  cases head with
  | some x =>
    obtain ⟨b, status, headers⟩ := x
    obtain ⟨r₁, hhead, hsane, hbytes, hview, hsent, hchunked, hinside, -⟩ :=
      writeHead_spec hstart rfl b.state.heap status headers
    obtain ⟨r₂, hrest, hsane₂, hbytes₂, hview₂, hinside₂⟩ := run_sent hsane hsent pieces last
    have hflag : r₁.chunkedEncoding = !hasLength env headers := hchunked.trans (Bool.true_and _)
    rw [hflag] at hbytes₂ hview₂ hinside₂
    refine ⟨r₂, ?_, hsane₂, ?_, ?_, by rw [hinside₂, hinside]; rfl⟩
    · rw [run, callsOf, Option.map_some, Option.toList_some, List.singleton_append,
        List.foldlM_cons, Call.run, hhead]
      exact hrest
    · rw [hbytes₂, hbytes]
      rfl
    · rw [hview₂, hview, View.after_after]
      cases hwrites : last.writes (!hasLength env headers) with
      | true => rw [chunkedOf, hwrites, if_pos rfl, if_pos rfl]
      | false =>
        have hflat : (!hasLength env headers) = false := by
          cases last with
          | none b => exact hwrites
          | some p => cases hwrites
        rw [chunkedOf, hwrites, hflat, writesOf, bodyWrites, Option.elim_some,
          if_neg Bool.false_ne_true, if_neg Bool.false_ne_true, if_neg Bool.false_ne_true,
          Nat.mul_one]
  | none =>
    have hwrites : last.writes true = true := by
      cases last
      all_goals rfl
    cases pieces with
    | nil =>
      obtain ⟨r, hfin, hsane, hbytes, hview, hinside⟩ := fin_spec hstart last
      refine ⟨r, hfin, hsane, ?_, ?_, ?_⟩
      · rw [hbytes]
        cases last with
        | none b => rfl
        | some p =>
          simp [start, Last.bytes, Last.piece?, openBytes, headerOf, bodyOf, chunkedOf, chunksOf,
            intendedOf]
      · rw [hview]
        exact (if_pos hwrites).trans (if_pos hwrites).symm
      · rw [hinside]
        cases last with
        | none b => rfl
        | some p => simp [start, Last.piece?, insideOf, chunkedOf, chunksOf]
    | cons p pieces =>
      obtain ⟨r₁, s', hwrite, hdid, hchunked, -⟩ := write_spec hstart p
      obtain ⟨r₂, hrest, hsane₂, hbytes₂, hview₂, hinside₂⟩ :=
        run_sent hdid.sane hdid.headersSent pieces last
      rw [hchunked] at hbytes₂ hview₂ hinside₂
      refine ⟨r₂, ?_, hsane₂, ?_, ?_, ?_⟩
      · rw [run, callsOf, Option.map_none, Option.toList_none, List.nil_append, List.map_cons,
          List.foldlM_cons, Call.run, hwrite]
        exact hrest
      · rw [hbytes₂, hdid.bytes]
        simp [start, openBytes, headerOf, bodyOf, chunkedOf, chunksOf, intendedOf]
      · rw [hview₂]
        exact (if_pos hwrites).trans (if_pos hwrites).symm
      · rw [hinside₂, hdid.inside]
        simp [start, insideOf, chunkedOf, chunksOf]

/-- A request over a connection that is closed at its end. -/
def closing : Env := ⟨ascii "Thu, 01 Jan 1970 00:00:00 GMT", false, id, id, 0⟩

/-- `CHUNKED_NO_TRAILER = Buffer:new("0\r\n\r\n")` -/
def trailerState : Buffer.State := next (Buffer.start fun _ _ => 0) (.new (.str lastChunk))

theorem trailerState_sizes (b : BlockId) : (trailerState.heap.blocks b).nbytes < 2 ^ 64 := by
  have hserved : Served (Buffer.start fun _ _ => 0) (.new (.str lastChunk)) := by decide +kernel
  have hfits : Fits (Buffer.start fun _ _ => 0) (.new (.str lastChunk)) := ⟨nofun, trivial⟩
  have hc := contained_step (exact_start _) (contained_start _) hserved hfits
  have hfill := hc.filled b
  have hsize := hc.size_le b
  rw [trailerState]
  omega

def oneBuffer : Buffers closing :=
  ⟨trailerState, trailerState_sizes, ⟨1023, 0, 5⟩, by decide +kernel, rfl⟩

def strPiece (t : List UInt8) (h : t.length < 2 ^ 31) : Piece closing :=
  ⟨oneBuffer, .str t, t, rfl, h⟩

def hello : Piece closing := strPiece (ascii "hello") (by decide)

/-- The `writeHead` a response begins with. -/
def headOf : List (Call env) → Head env
  | .writeHead buffers status headers :: _ => some (buffers, status, headers)
  | _ => none

def piecesOf (calls : List (Call env)) : List (Piece env) := calls.filterMap Call.piece?

theorem writes_of_sent {calls : List (Call env)} (hr : r.Sane) (hsent : r.headersSent = true)
    (hrun : calls.foldlM Call.run r = some r') :
    ∃ pieces : List (Piece env), calls = pieces.map Call.write := by
  induction calls generalizing r with
  | nil => exact ⟨[], rfl⟩
  | cons call calls ih =>
    rw [List.foldlM_cons] at hrun
    cases call with
    | writeHead b status headers =>
      have hnone : Call.run r (.writeHead b status headers) = none := by
        rw [Call.run, writeHead, if_pos hsent]
      rw [hnone] at hrun
      cases hrun
    | write p =>
      obtain ⟨r₁, s', hwrite, hdid, -⟩ := write_spec hr p
      rw [Call.run, hwrite] at hrun
      obtain ⟨pieces, rfl⟩ := ih hdid.sane hdid.headersSent hrun
      exact ⟨p :: pieces, rfl⟩

/-- Calls that raise no error are one `writeHead` at most and then writes. -/
theorem calls_eq {client : TcpWrite.Writer} {chunks : List Chunk}
    (hclient : TcpWrite.Inv client chunks) {calls : List (Call env)} {last : Last env}
    (hrun : run client calls last = some r) : calls = callsOf (headOf calls) (piecesOf calls) := by
  have hpieces : ∀ pieces : List (Piece env), piecesOf (pieces.map Call.write) = pieces := by
    intro pieces
    rw [piecesOf, List.filterMap_map]
    exact List.filterMap_some
  obtain ⟨r₁, hcalls, -⟩ := Option.bind_eq_some_iff.mp hrun
  have hstart := sane_start hclient
  cases calls with
  | nil => rfl
  | cons call calls =>
    rw [List.foldlM_cons] at hcalls
    cases call with
    | writeHead b status headers =>
      obtain ⟨r₂, hhead, hsane, -, -, hsent, -⟩ :=
        writeHead_spec hstart rfl b.state.heap status headers
      rw [Call.run, hhead] at hcalls
      obtain ⟨pieces, rfl⟩ := writes_of_sent hsane hsent hcalls
      have hall : piecesOf (Call.writeHead b status headers :: pieces.map Call.write) = pieces :=
        hpieces pieces
      rw [hall]
      rfl
    | write p =>
      obtain ⟨r₂, s', hwrite, hdid, -⟩ := write_spec hstart p
      rw [Call.run, hwrite] at hcalls
      obtain ⟨pieces, rfl⟩ := writes_of_sent hdid.sane hdid.headersSent hcalls
      have hall : piecesOf (Call.write p :: pieces.map Call.write) = p :: pieces :=
        hpieces (p :: pieces)
      rw [hall]
      rfl

/-- The first line and the header lines, without their ends. -/
def headTexts (env : Env) (intended : Status × Option Fields) : List (List UInt8) :=
  statusText env intended.1 :: (headerFields env intended.2).map (headerText env)

/-- One status line, the header lines, a blank line, and then the body and nothing else; no
byte is left with the client, and no scratch Buffer left its block. -/
structure Protocol (calls : List (Call env)) (last : Last env) (r : State) : Prop where
  order : HttpHead.readHead r.bytes = some (statusText env (intendedOf (headOf calls)).1,
    (headerFields env (intendedOf (headOf calls)).2).map (headerText env),
    bodyOf (chunkedOf (headOf calls)) (piecesOf calls) last)
  released : r.client.wreq = none
  inside : r.inside = true

def Opened (calls : List (Call env)) (last : Last env) : Prop :=
  calls ≠ [] ∨ last.piece?.isSome = true

/-- `fin` writes, or the client was not bottled to begin with, or the writes happen to fill
its requests. -/
def Released (client : TcpWrite.Writer) (calls : List (Call env)) (last : Last env) : Prop :=
  last.piece?.isSome = true ∨ chunkedOf (headOf calls) = true ∨ tcpIsBottled client = false ∨
    bufferMaxChunks ∣ client.pendingCount + writesOf (headOf calls) (piecesOf calls)

theorem headBytes_eq (env : Env) (intended : Status × Option Fields) :
    headBytes env intended.1 intended.2 = HttpHead.head (headTexts env intended) := by
  simp only [headBytes, HttpHead.head, headTexts, statusLine, List.flatMap_cons, List.flatMap_map]
  rfl

/-- A head that is sent is read back exactly if no CRLF is in a line of it. -/
theorem readHead_headBytes (env : Env) (intended : Status × Option Fields) (body : List UInt8) :
    HttpHead.readHead (headBytes env intended.1 intended.2 ++ body) =
        some (statusText env intended.1, (headerFields env intended.2).map (headerText env), body) ↔
      ∀ l ∈ headTexts env intended, ¬ crlf <:+: l := by
  have hne : ∀ l ∈ (headerFields env intended.2).map (headerText env), l ≠ [] := by
    intro l hl
    obtain ⟨field, -, rfl⟩ := List.mem_map.mp hl
    simp [headerText, ascii]
  rw [headBytes_eq]
  exact HttpHead.readHead_iff hne

theorem readHead_terminator (last : Last env) (status : Status) (lines : List (List UInt8))
    (body : List UInt8) :
    HttpHead.readHead last.terminator ≠ some (statusText env status, lines, body) := by
  intro h
  obtain ⟨⟨line, rest⟩, hcut, h⟩ := Option.bind_eq_some_iff.mp h
  obtain ⟨⟨lines', body'⟩, -, heq⟩ := Option.map_eq_some_iff.mp h
  cases heq
  have hsplit := congrArg List.length (HttpHead.cutLine_append hcut)
  have hlength : last.terminator.length = 5 := by
    cases last
    all_goals exact Buffers.terminator_length _ _
  have hstart : (ascii "HTTP/1.1 ").length = 9 := rfl
  simp only [statusText, List.length_append, hlength, hstart] at hsplit
  omega

/-- The headers come first, and are read as they were meant, exactly if some call sends them and
no CRLF is in a line of them. -/
theorem order_iff (calls : List (Call env)) (last : Last env) :
    HttpHead.readHead (headerOf (headOf calls) (chunksOf (piecesOf calls) last) ++
        bodyOf (chunkedOf (headOf calls)) (piecesOf calls) last) =
      some (statusText env (intendedOf (headOf calls)).1,
        (headerFields env (intendedOf (headOf calls)).2).map (headerText env),
        bodyOf (chunkedOf (headOf calls)) (piecesOf calls) last) ↔
      Opened calls last ∧ ∀ l ∈ headTexts env (intendedOf (headOf calls)), ¬ crlf <:+: l := by
  have hopened : Opened calls last ↔
      ((headOf calls).isNone && (chunksOf (piecesOf calls) last).isEmpty) = false := by
    cases calls with
    | nil =>
      cases last with
      | none b =>
        exact iff_of_false (fun h => h.elim (fun h => h rfl) Bool.false_ne_true) nofun
      | some p => exact iff_of_true (.inr rfl) rfl
    | cons call calls =>
      refine iff_of_true (.inl (List.cons_ne_nil call calls)) ?_
      cases call
      all_goals rfl
  rw [hopened, headerOf]
  cases hnone : (headOf calls).isNone && (chunksOf (piecesOf calls) last).isEmpty with
  | false =>
    rw [if_neg Bool.false_ne_true, readHead_headBytes]
    exact (and_iff_right rfl).symm
  | true =>
    refine iff_of_false (fun h => ?_) nofun
    obtain ⟨hhead, hchunks⟩ := Bool.and_eq_true_iff.mp hnone
    rw [Option.isNone_iff_eq_none] at hhead
    rw [List.isEmpty_iff] at hchunks
    have hbody : bodyOf (chunkedOf (headOf calls)) (piecesOf calls) last = last.terminator := by
      rw [hhead, bodyOf, hchunks]
      rfl
    rw [if_pos rfl, hbody] at h
    exact readHead_terminator last _ _ _ h

theorem released_iff (client : TcpWrite.Writer) (calls : List (Call env)) (last : Last env) :
    (if last.writes (chunkedOf (headOf calls)) then (⟨false, 0⟩ : View)
      else (start client).view.after (writesOf (headOf calls) (piecesOf calls))).pending = 0 ↔
      Released client calls last := by
  cases last with
  | some p => exact iff_of_true rfl (.inl rfl)
  | none b =>
    cases hchunked : chunkedOf (headOf calls) with
    | true => exact iff_of_true rfl (.inr (.inl hchunked))
    | false =>
      have hview : (start client).view = ⟨client.bottleMode, client.pendingCount⟩ := rfl
      rw [Last.writes, if_neg Bool.false_ne_true, hview, View.after]
      cases hmode : client.bottleMode with
      | false => exact iff_of_true rfl (.inr (.inr (.inl hmode)))
      | true =>
        rw [Released, tcpIsBottled, hmode, hchunked, if_pos rfl, Nat.dvd_iff_mod_eq_zero]
        simp [Last.piece?]

/-- A response that raises no error keeps to the protocol exactly if its headers are sent
at all, without a CRLF in a line of them, nothing stays with a bottled client, and every
scratch Buffer lies inside its block. -/
theorem protocol_iff {before : List TcpWrite.Op} {client : TcpWrite.Writer}
    (hbefore : TcpWrite.run .fresh before = some client) {calls : List (Call env)}
    {last : Last env} (hrun : run client calls last = some r) :
    Protocol calls last r ↔ Opened calls last ∧
      (∀ l ∈ headTexts env (intendedOf (headOf calls)), ¬ crlf <:+: l) ∧
      Released client calls last ∧
      insideOf (chunkedOf (headOf calls)) (piecesOf calls) last = true := by
  obtain ⟨client', hclient', hinv⟩ := run_inv before inv_fresh
  rw [hbefore, Option.some.injEq] at hclient'
  subst hclient'
  have hcalls := calls_eq hinv hrun
  obtain ⟨r', hrun', hsane, hbytes, hview, hinside⟩ :=
    run_spec hinv (headOf calls) (piecesOf calls) last
  rw [← hcalls, hrun, Option.some.injEq] at hrun'
  subst hrun'
  have horder := order_iff calls last
  rw [← hbytes] at horder
  have hreleased : r.client.wreq = none ↔ Released client calls last := by
    have hpending : r.client.pendingCount = r.view.pending := rfl
    rw [hsane.wreq_eq_none_iff, hpending, hview]
    exact released_iff client calls last
  constructor
  · intro h
    obtain ⟨hopened, hlines⟩ := horder.mp h.order
    exact ⟨hopened, hlines, hreleased.mp h.released, hinside.symm.trans h.inside⟩
  · rintro ⟨hopened, hlines, hleft, hroomy⟩
    exact ⟨horder.mpr ⟨hopened, hlines⟩, hreleased.mpr hleft, hinside.trans hroomy⟩

/-- A chunk and a `fin` without one. -/
theorem protocol_iff_hello :
    ∃ r, run .fresh [.write hello] (.none oneBuffer) = some r ∧
      Protocol [.write hello] (.none oneBuffer) r := by
  obtain ⟨r, hrun⟩ : ∃ r, run .fresh [.write hello] (.none oneBuffer) = some r :=
    Option.isSome_iff_exists.mp (by decide +kernel)
  have hbefore : TcpWrite.run .fresh [] = some .fresh := rfl
  refine ⟨r, hrun, (protocol_iff hbefore hrun).mpr ⟨?_, by decide +kernel, ?_, by decide +kernel⟩⟩
  · exact .inl (List.cons_ne_nil _ _)
  · exact .inr (.inl rfl)

/-- `fin()` as the only call sends the end of a body without any headers; and what
`writeHead` wrote to a bottled client stays there if the length is given and `fin` has no
chunk. -/
theorem fin_breaks :
    (∃ r, run .fresh [] (.none oneBuffer) = some r ∧ ¬ Protocol [] (.none oneBuffer) r) ∧
      ∃ client r, TcpWrite.run .fresh [.bottle] = some client ∧
        run client [.writeHead oneBuffer (.number 204) (some [(ascii "Content-Length", ascii "0")])]
          (.none oneBuffer) = some r ∧ r.client.wreq ≠ none := by
  constructor
  · obtain ⟨r, hrun, hbytes⟩ : ∃ r, run .fresh [] (.none oneBuffer) = some r ∧
        r.bytes = (Last.none oneBuffer).terminator :=
      Option.map_eq_some_iff.mp (by decide +kernel)
    refine ⟨r, hrun, fun hprotocol => ?_⟩
    have horder := hprotocol.order
    rw [hbytes] at horder
    exact readHead_terminator _ _ _ _ horder
  · refine ⟨tcpBottle .fresh, ?_⟩
    obtain ⟨r, hrun, hpending⟩ : ∃ r, run (tcpBottle .fresh) [.writeHead oneBuffer (.number 204)
        (some [(ascii "Content-Length", ascii "0")])] (.none oneBuffer) = some r ∧
        r.client.wreq.isSome = true :=
      Option.map_eq_some_iff.mp (by decide +kernel)
    exact ⟨r, rfl, hrun, Option.isSome_iff_ne_none.mp hpending⟩

end Lev.Response
