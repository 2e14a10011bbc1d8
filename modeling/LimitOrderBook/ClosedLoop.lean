import LimitOrderBook.OrderClient
import LimitOrderBook.Session

/-! # Clients in closed loop

`run_auto`, `run_load` and `run_interactive` of `net/order_client.cpp`: each client draws an
operation, or is told one, writes it to its socket and waits for one report before the next.  Any
number of them run against one poll loop, with whatever other connections there are.

A `Move` is a turn of the poll loop, or a step of one client: it has its next operation, the kernel
takes some bytes of it, or `recv` returns some of the bytes that were sent to it.  Moves come in any
order (`Reachable`); the connections of the clients stand (`Allowed`), which the code has no say in.

Unless own orders are killed, no client is ever dropped, its operations are executed once each and
in order, and its counters are those of the reports it was sent (`closedLoop_inOrder`).  A client
that waits has bytes on their way, and one turn of the loop and one `recv` will do for it
(`closedLoop_answers`). -/

namespace Lob

open Frames

/-! ### A client -/

/-- Where a client is in its loop. -/
inductive Phase where
  | ready
  /-- in `send_all`, with these bytes left -/
  | sending (rest : List UInt8)
  /-- in `read_reports` -/
  | reading
  | failed
deriving DecidableEq, Repr

/-- A client, with the number of operations that were acknowledged; `made` are the operations so far,
which it does not look at. -/
structure LoadClient (σ : Type) where
  mix : AutoMix σ
  phase : Phase := .ready
  frames : FrameBuffer := {}
  tally : Tally := {}
  acked : ℕ := 0
  made : List Request := []

namespace LoadClient

variable {σ : Type}

/-- An operation is encoded, to be sent. -/
def submit (c : LoadClient σ) (req : Request) : LoadClient σ :=
  match req.encode 128 with
  | none => { c with phase := .failed }
  | some bytes => { c with phase := .sending bytes, made := c.made ++ [req] }

/-- `next_op`. -/
def begin (next : σ → UInt64 × σ) (c : LoadClient σ) : LoadClient σ :=
  let (req, mix) := (AutoMix.nextOp next).run c.mix
  submit { c with mix } req

/-- A `::send` that takes `n` of the bytes; behind the last one the reports are counted anew. -/
def write (c : LoadClient σ) (rest : List UInt8) (n : ℕ) : LoadClient σ :=
  if rest.drop n = [] then { c with phase := .reading, tally := { counts := c.tally.counts } }
  else { c with phase := .sending (rest.drop n) }

/-- A `::recv` in the call that waits for one report. -/
def read (c : LoadClient σ) (x : Recv) : LoadClient σ :=
  let (res, _, frames, tally) := readLoop 1 [x] c.frames c.tally
  match res with
  | .saw _ => { c with phase := .ready, frames, tally, acked := c.acked + 1 }
  | .blocked _ => { c with frames, tally }
  | .failed => { c with phase := .failed, frames, tally }

end LoadClient

/-! ### Clients and the loop -/

/-- A client, the bytes on their way to the loop, and how many bytes of its connection it has
received. -/
structure Link (σ : Type) where
  client : LoadClient σ
  up : List UInt8 := []
  heard : ℕ := 0

/-- What was taken from the outbox of a connection. -/
def PollLoop.sentTo (s : PollLoop) (owner : Owner) : List UInt8 :=
  ((s.gateway.conns.find? (Connection.isOf owner)).map Connection.sent).getD []

structure ClosedLoop (σ : Type) where
  loop : PollLoop
  links : Owner → Link σ

inductive Move where
  | turn (it : Iteration)
  | begin (owner : Owner)
  | submit (owner : Owner) (req : Request)
  | write (owner : Owner) (n : ℕ)
  | read (owner : Owner) (n : ℕ)

namespace ClosedLoop

variable {σ : Type}

/-- The bytes on their way to a client. -/
def down (w : ClosedLoop σ) (owner : Owner) : List UInt8 :=
  (w.loop.sentTo owner).drop (w.links owner).heard

def setLink (w : ClosedLoop σ) (owner : Owner) (l : Link σ) : ClosedLoop σ :=
  { w with links := Function.update w.links owner l }

/-- One move.  The turn of a connection receives the first bytes that are on their way. -/
def step (next : σ → UInt64 × σ) (w : ClosedLoop σ) : Move → ClosedLoop σ
  | .turn it =>
      { loop := w.loop.iterate it
        links := fun owner =>
          if owner ∈ w.loop.owners then
            { w.links owner with up := (w.links owner).up.drop (it.ready owner).stream.length }
          else w.links owner }
  | .begin owner => w.setLink owner { w.links owner with client := (w.links owner).client.begin next }
  | .submit owner req =>
      w.setLink owner { w.links owner with client := (w.links owner).client.submit req }
  | .write owner n =>
      match (w.links owner).client.phase with
      | .sending rest => w.setLink owner
          { w.links owner with
            client := (w.links owner).client.write rest n
            up := (w.links owner).up ++ rest.take n }
      | _ => w
  | .read owner n => w.setLink owner
      { w.links owner with
        client := (w.links owner).client.read (.got ((w.down owner).take n))
        heard := (w.links owner).heard + ((w.down owner).take n).length }

/-- What may happen: fewer than `2 ^ 32` clients are accepted, the connections of the clients
`load` stand and carry their bytes in order, and `recv` waits for bytes. -/
def Allowed (load : Owner → Prop) (w : ClosedLoop σ) : Move → Prop
  | .turn it =>
      (PollLoop.accepted w.loop.log).length + (if it.accepts then 1 else 0) < 2 ^ 32 ∧
        ∀ owner, load owner → owner ∈ w.loop.owners →
          (it.ready owner).Stands ∧ (it.ready owner).stream <+: (w.links owner).up
  | .begin owner => load owner ∧ (w.links owner).client.phase = .ready
  | .submit owner req => load owner ∧ (w.links owner).client.phase = .ready ∧ req.InRange
  | .write owner n => load owner ∧ 0 < n ∧ ∃ rest, (w.links owner).client.phase = .sending rest
  | .read owner n => load owner ∧ 0 < n ∧ (w.links owner).client.phase = .reading ∧
      w.down owner ≠ []

def new (p : Params) (mixes : Owner → AutoMix σ) : ClosedLoop σ :=
  { loop := PollLoop.new p, links := fun owner => { client := { mix := mixes owner } } }

/-- Where moves lead, from a new loop and clients that have done nothing. -/
inductive Reachable (next : σ → UInt64 × σ) (p : Params) (load : Owner → Prop)
    (mixes : Owner → AutoMix σ) : ClosedLoop σ → Prop
  | new : Reachable next p load mixes (new p mixes)
  | step {w : ClosedLoop σ} {m : Move} (hw : Reachable next p load mixes w)
      (hm : w.Allowed load m) : Reachable next p load mixes (w.step next m)

end ClosedLoop

/-! ### What client and loop agree on -/

namespace Phase

/-- The bytes that the kernel has not taken yet. -/
def unsent : Phase → List UInt8
  | sending rest => rest
  | _ => []

/-- The operations that are not acknowledged. -/
def busy : Phase → ℕ
  | ready => 0
  | _ => 1

theorem busy_le (phase : Phase) : phase.busy ≤ 1 := by
  cases phase <;> simp [busy]

end Phase

/-- Client and loop are apart by the requests `pending`, which are on their way to the loop, and the
reports `late`, which are on their way back; the client has heard the reports `past`. -/
structure Coupled {σ : Type} (l : Link σ) (x : Session) (pending : List Request)
    (past late : List ExecReportMsg) : Prop where
  made : l.client.made = x.done ++ pending
  inRange : ∀ req ∈ pending, req.InRange
  up : x.buf ++ (l.up ++ l.client.phase.unsent) = pending.flatMap Request.wire
  owed : x.owed = past ++ late
  down : Awaits l.client.frames (x.sent.drop l.heard ++ x.outbox) late
  heard_le : l.heard ≤ x.sent.length
  even : x.done.length = x.owed.length
  one : pending.length + late.length = l.client.phase.busy
  acked : l.client.acked = past.length
  counts : ∀ s, l.client.tally.counts s = (past.map ExecReportMsg.status).count s
  seen : l.client.phase = .reading → l.client.tally.seen = 0
  unsent : ∀ rest, l.client.phase = .sending rest → rest ≠ []
  standing : l.client.phase ≠ .failed

/-- What one `::recv` does to a client that waits. -/
theorem LoadClient.read_got {σ : Type} {c : LoadClient σ} {chunk rest : List UInt8}
    {late : List ExecReportMsg} (hseen : c.tally.seen = 0) (hne : chunk ≠ [])
    (h : Awaits c.frames (chunk ++ rest) late) :
    ∃ (ms ms' : List ExecReportMsg) (frames : FrameBuffer), late = ms ++ ms' ∧
      Awaits frames rest ms' ∧
      c.read (.got chunk) = if ms = [] then { c with frames } else
        { c with
          phase := .ready
          frames := frames
          tally := ms.foldl Tally.add c.tally
          acked := c.acked + 1 } := by
  obtain ⟨ms, ms', frames, hlate, hawaits, hfeed⟩ := h.feed c.tally
  refine ⟨ms, ms', frames, hlate, hawaits, ?_⟩
  have htotal := Tally.seen_foldl ms c.tally
  rw [hseen, Nat.zero_add] at htotal
  simp only [LoadClient.read, readLoop, hseen, Nat.zero_lt_one, if_true, if_neg hne, hfeed, htotal]
  by_cases hms : ms = []
  · subst hms
    rfl
  · have hpos : ¬ ms.length < 1 := by
      have := List.length_pos_of_ne_nil hms
      omega
    rw [if_neg hpos, if_neg hms]

namespace Coupled

variable {σ : Type} {l : Link σ} {x : Session} {pending : List Request}
  {past late : List ExecReportMsg}

theorem new (mix : AutoMix σ) : Coupled { client := { mix } } {} [] [] [] where
  made := rfl
  inRange _ h := nomatch h
  up := rfl
  owed := rfl
  down := .new []
  heard_le := Nat.le_refl 0
  even := rfl
  one := rfl
  acked := rfl
  counts _ := rfl
  seen _ := rfl
  unsent _ h := nomatch h
  standing h := nomatch h

/-- The next operation. -/
theorem submit (h : Coupled l x pending past late) (hready : l.client.phase = .ready)
    {req : Request} (hrange : req.InRange) :
    Coupled { l with client := l.client.submit req } x [req] past [] := by
  have hone := h.one
  rw [hready, Phase.busy, Nat.add_eq_zero_iff, List.length_eq_zero_iff,
    List.length_eq_zero_iff] at hone
  obtain ⟨rfl, rfl⟩ := hone
  have hup := h.up
  rw [hready] at hup
  change x.buf ++ (l.up ++ []) = [] at hup
  rw [List.append_nil, List.append_eq_nil_iff] at hup
  have hsubmit : l.client.submit req =
      { l.client with phase := .sending req.wire, made := l.client.made ++ [req] } := by
    rw [LoadClient.submit, Request.encode_eq]
  rw [hsubmit]
  refine { h with
    made := ?_, inRange := ?_, up := ?_, one := rfl, seen := ?_, unsent := ?_, standing := ?_ }
  · rw [h.made, List.append_nil]
  · intro r hr
    rw [List.mem_singleton.mp hr]
    exact hrange
  · rw [hup.1, hup.2]
    exact (List.append_nil _).symm
  · intro he
    cases he
  · intro rest he
    cases he
    refine List.ne_nil_of_length_pos ?_
    rw [Request.wire, Message.wire, length_frame]
    exact Nat.lt_of_lt_of_le (by decide) (Nat.le_add_right kHeaderLen _)
  · intro he
    cases he

/-- The draws that a client has made do not show. -/
theorem setMix (h : Coupled l x pending past late) (mix : AutoMix σ) :
    Coupled { l with client := { l.client with mix } } x pending past late := { h with }

/-- The kernel takes some bytes. -/
theorem write (h : Coupled l x pending past late) {rest : List UInt8}
    (hsending : l.client.phase = .sending rest) (n : ℕ) :
    Coupled { l with client := l.client.write rest n, up := l.up ++ rest.take n } x pending past
      late := by
  have hup := h.up
  have hone := h.one
  rw [hsending, Phase.unsent] at hup
  rw [hsending] at hone
  unfold LoadClient.write
  split_ifs with hrest
  · refine { h with
      up := ?_, one := hone, seen := fun _ => rfl, unsent := ?_, standing := ?_ }
    · have hall : rest.take n = rest := List.take_of_length_le (List.drop_eq_nil_iff.mp hrest)
      rw [← hup, hall]
      exact congrArg _ (List.append_nil _)
    · exact fun _ he => nomatch he
    · exact fun he => nomatch he
  · refine { h with
      up := ?_, one := hone, seen := ?_, unsent := ?_, standing := ?_ }
    · rw [← hup]
      simp only [Phase.unsent, List.append_assoc, List.take_append_drop]
    · exact fun he => nomatch he
    · intro rest' he
      cases he
      exact hrest
    · exact fun he => nomatch he

/-- What is left after some of what was left is taken. -/
theorem drop_taken {α : Type} (xs : List α) (k n : ℕ) :
    xs.drop (k + ((xs.drop k).take n).length) = (xs.drop k).drop n := by
  rw [← List.drop_drop, List.length_take]
  rcases Nat.le_total n (xs.drop k).length with hle | hle
  · rw [Nat.min_eq_left hle]
  · rw [Nat.min_eq_right hle, List.drop_length, List.drop_of_length_le hle]

/-- `recv` returns some bytes.  If nothing is left in the outbox, and the bytes of a report are
asked for, the call returns. -/
theorem read (h : Coupled l x pending past late) (hreading : l.client.phase = .reading) {n : ℕ}
    (hn : 0 < n) (hdown : x.sent.drop l.heard ≠ []) :
    ∃ past' late', Coupled
        { l with
          client := l.client.read (.got ((x.sent.drop l.heard).take n))
          heard := l.heard + ((x.sent.drop l.heard).take n).length } x pending past' late' ∧
      (x.outbox = [] → 16 ≤ n → late' = [] ∧ past' = past ++ late) := by
  have hone := h.one
  rw [hreading] at hone
  change pending.length + late.length = 1 at hone
  have hne : (x.sent.drop l.heard).take n ≠ [] := by
    rw [Ne, List.take_eq_nil_iff, not_or]
    exact ⟨Nat.ne_of_gt hn, hdown⟩
  have hsplit : x.sent.drop l.heard ++ x.outbox =
      (x.sent.drop l.heard).take n ++ ((x.sent.drop l.heard).drop n ++ x.outbox) := by
    rw [← List.append_assoc, List.take_append_drop]
  have hheard := drop_taken x.sent l.heard n
  have hbefore := h.down
  have hlen := hbefore.length_eq
  rw [hsplit] at hbefore
  obtain ⟨ms, ms', frames, rfl, hawaits, hread⟩ :=
    LoadClient.read_got (h.seen hreading) hne hbefore
  simp only [List.length_append] at hone hlen
  -- a report is 16 bytes
  have hall : x.outbox = [] → 16 ≤ n → ms' = [] := by
    intro hout hn'
    have hrest := hawaits.length_eq
    have hshort := hawaits.length_lt
    rw [hout, List.append_nil, List.length_drop] at hrest
    rw [hout, List.length_nil] at hlen
    exact List.eq_nil_of_length_eq_zero (by omega)
  rw [← hheard] at hawaits
  have hheard_le : l.heard + ((x.sent.drop l.heard).take n).length ≤ x.sent.length := by
    have hle := List.length_take_le n (x.sent.drop l.heard)
    have hdrop : (x.sent.drop l.heard).length = x.sent.length - l.heard := List.length_drop
    have hheard_le := h.heard_le
    rw [List.length_take] at hle ⊢
    omega
  rw [hread]
  by_cases hms : ms = []
  · subst hms
    rw [if_pos rfl]
    refine ⟨past, ms', { h with down := hawaits, heard_le := hheard_le }, fun hout hn' => ?_⟩
    rw [hall hout hn']
    exact ⟨rfl, (List.append_nil past).symm⟩
  · have hpos := List.length_pos_of_ne_nil hms
    have hup := h.up
    rw [hreading] at hup
    rw [if_neg hms]
    refine ⟨past ++ ms, ms', { h with
      up := hup, owed := ?_, down := hawaits, heard_le := hheard_le, one := ?_, acked := ?_,
      counts := ?_, seen := ?_, unsent := ?_, standing := ?_ }, fun hout hn' => ?_⟩
    · rw [List.append_assoc]
      exact h.owed
    · change pending.length + ms'.length = 0
      omega
    · have hacked := h.acked
      rw [List.length_append]
      dsimp only
      omega
    · intro s
      rw [Tally.counts_foldl, h.counts, List.map_append, List.count_append]
    · exact fun he => nomatch he
    · exact fun _ he => nomatch he
    · exact fun he => nomatch he
    · rw [hall hout hn', List.append_nil]
      exact ⟨rfl, rfl⟩

/-- There is room for the reports of what is pending. -/
theorem room (h : Coupled l x pending past late) :
    x.outbox.length + 16 * pending.length ≤ kMaxOutbox := by
  have hlen := h.down.length_eq
  have hone := h.one
  have hbusy := l.client.phase.busy_le
  rw [List.length_append] at hlen
  unfold kMaxOutbox
  omega

/-- The loop executes some of what is pending, and the kernel takes some bytes of the reports. -/
theorem turn {reqs reqs' : List Request} {ms : List ExecReportMsg} {tail more : List UInt8}
    (h : Coupled l x (reqs ++ reqs') past late) (hlen : ms.length = reqs.length)
    (hmore : tail ++ (more ++ l.client.phase.unsent) = reqs'.flatMap Request.wire) (k : ℕ) :
    Coupled { l with up := more } ({ x.execute reqs ms with buf := tail }.flush k) reqs' past
      (late ++ ms) := by
  have heven := h.even
  have hone := h.one
  refine { h with
    made := ?_, inRange := ?_, up := hmore, owed := ?_, down := ?_, heard_le := ?_, even := ?_,
    one := ?_ }
  · rw [h.made, ← List.append_assoc]
    rfl
  · exact fun req hreq => h.inRange req (List.mem_append_right _ hreq)
  · change x.owed ++ ms = _
    rw [h.owed, List.append_assoc]
  · have hdown := h.down.append ms
    change Awaits _ ((x.sent ++ (x.outbox ++ ms.flatMap ExecReportMsg.bytes).take k).drop l.heard ++
      (x.outbox ++ ms.flatMap ExecReportMsg.bytes).drop k) _
    rw [List.drop_append_of_le_length h.heard_le, List.append_assoc, List.take_append_drop,
      ← List.append_assoc]
    exact hdown
  · change l.heard ≤ (x.sent ++ _).length
    have hle := h.heard_le
    rw [List.length_append]
    omega
  · change (x.done ++ reqs).length = (x.owed ++ ms).length
    rw [List.length_append, List.length_append, heven, hlen]
  · rw [List.length_append] at hone ⊢
    change reqs'.length + (late.length + ms.length) = l.client.phase.busy
    omega

end Coupled

/-! ### Moves -/

namespace PollLoop

/-- The loop has this of a client, or has still to accept it. -/
def Keeps (p : Params) (n : ℕ) (owner : Owner) (s : PollLoop) (x : Session) : Prop :=
  Holds p n owner s x ∨ Accounts p n s ∧ owner ∉ accepted s.log ∧ x = {}

variable {p : Params} {n : ℕ} {s : PollLoop} {owner : Owner} {x : Session}

theorem Accounts.length_accepted (h : Accounts p n s) : (accepted s.log).length = n := by
  rw [h.accepted_eq, List.length_map, List.length_range]

theorem Keeps.past (hp : p.Valid) (hn : n < 2 ^ 32) (h : Keeps p n owner s x) :
    Past p owner x s := by
  rcases h with h | ⟨h, howner, rfl⟩
  · exact h.past
  · exact ⟨Gateway.executedFor_of_not_accepted hp (h.nodup hn) howner,
      (Gateway.served_run hp (h.nodup hn)).2 owner howner⟩

theorem Keeps.sentTo (hp : p.Valid) (hn : n < 2 ^ 32) (h : Keeps p n owner s x) :
    s.sentTo owner = x.sent := by
  rcases h with h | ⟨h, howner, rfl⟩
  · have hfind : s.gateway.conns.find? (Connection.isOf owner) = some (x.conn owner) :=
      Connection.find?_of_mem (h.accounts.distinct hp hn) h.conn
    rw [PollLoop.sentTo, hfind]
    rfl
  · have hfind : s.gateway.conns.find? (Connection.isOf owner) = none := by
      refine List.find?_eq_none.mpr fun conn hc ho => howner ?_
      rw [← of_decide_eq_true ho]
      exact mem_accepted hp hn h hc
    rw [PollLoop.sentTo, hfind]
    rfl

end PollLoop

namespace ClosedLoop

open PollLoop (Accounts Holds Keeps accepted)

variable {σ : Type} {next : σ → UInt64 × σ} {p : Params} {load : Owner → Prop}
  {mixes : Owner → AutoMix σ} {w : ClosedLoop σ} {n : ℕ} {owner : Owner}

/-- Client and loop agree, up to what is on its way. -/
def Agrees (p : Params) (n : ℕ) (owner : Owner) (s : PollLoop) (l : Link σ) : Prop :=
  ∃ x pending past late, Keeps p n owner s x ∧ Coupled l x pending past late

/-- **A turn of the loop.** -/
theorem Agrees.turn (hp : p.Valid) (hstp : p.stp ≠ .cancelResting)
    (h : Agrees p n owner w.loop (w.links owner)) {it : Iteration}
    (hn : n + (if it.accepts then 1 else 0) < 2 ^ 32)
    (hstands : owner ∈ w.loop.owners →
      (it.ready owner).Stands ∧ (it.ready owner).stream <+: (w.links owner).up) :
    Agrees p (n + if it.accepts then 1 else 0) owner (w.step next (.turn it)).loop
      ((w.step next (.turn it)).links owner) := by
  obtain ⟨x, pending, past, late, hkeeps, hcoupled⟩ := h
  change Agrees p _ owner (w.loop.iterate it) (if owner ∈ w.loop.owners then _ else _)
  rcases hkeeps with hholds | ⟨haccounts, howner, rfl⟩
  · have hmem : owner ∈ w.loop.owners := List.mem_map_of_mem (f := Connection.owner) hholds.conn
    obtain ⟨hr, more, hmore⟩ := hstands hmem
    have hcut := hcoupled.up
    rw [← hmore, List.append_assoc] at hcut
    obtain ⟨reqs, reqs', ms, tail, k, rfl, hlen, hrest, hnext, -⟩ :=
      hholds.iterate hp hstp hn hr hcoupled.inRange hcut hcoupled.room
    have hdrop : (w.links owner).up.drop (it.ready owner).stream.length = more := by
      rw [← hmore, List.drop_left]
    rw [if_pos hmem, hdrop]
    exact ⟨_, reqs', past, late ++ ms, Or.inl hnext, hcoupled.turn hlen hrest k⟩
  · have hmem : owner ∉ w.loop.owners := by
      intro hmem
      obtain ⟨conn, hc, rfl⟩ := List.mem_map.mp hmem
      exact howner (PollLoop.mem_accepted hp (by omega) haccounts hc)
    rw [if_neg hmem]
    refine ⟨{}, pending, past, late, ?_, hcoupled⟩
    rcases Holds.of_iterate hp haccounts howner hn with hwaits | hjoins
    · exact Or.inr ⟨haccounts.iterate it, hwaits, rfl⟩
    · exact Or.inl hjoins

/-- **Every client and the loop agree**, wherever moves lead. -/
theorem Reachable.agrees (hp : p.Valid) (hstp : p.stp ≠ .cancelResting)
    (h : Reachable next p load mixes w) : ∃ n, n < 2 ^ 32 ∧ Accounts p n w.loop ∧
      ∀ owner, load owner → Agrees p n owner w.loop (w.links owner) := by
  induction h with
  | new =>
      have haccounts : Accounts p 0 (PollLoop.new p) := Accounts.run p []
      have hnone : ∀ owner, owner ∉ accepted (PollLoop.new p).log := fun owner => List.not_mem_nil
      exact ⟨0, by decide, haccounts, fun owner _ =>
        ⟨{}, [], [], [], Or.inr ⟨haccounts, hnone owner, rfl⟩, .new _⟩⟩
  | @step w m hw hm ih =>
      obtain ⟨n, hn, haccounts, hagrees⟩ := ih
      -- a step of one client
      have hlink : ∀ {owner : Owner} {l : Link σ}, Agrees p n owner w.loop l →
          ∀ o, load o → Agrees p n o (w.setLink owner l).loop ((w.setLink owner l).links o) := by
        intro owner l hl o ho
        change Agrees p n o w.loop (Function.update w.links owner l o)
        by_cases he : o = owner
        · rw [he, Function.update_self]
          exact hl
        · rw [Function.update_of_ne he]
          exact hagrees o ho
      cases m with
      | turn it =>
          obtain ⟨hcount, hstands⟩ := hm
          rw [haccounts.length_accepted] at hcount
          exact ⟨_, hcount, haccounts.iterate it, fun o ho =>
            (hagrees o ho).turn hp hstp hcount (hstands o ho)⟩
      | begin owner =>
          obtain ⟨ho, hready⟩ := hm
          obtain ⟨x, pending, past, late, hkeeps, hcoupled⟩ := hagrees owner ho
          have hdrawn := hcoupled.setMix ((AutoMix.nextOp next).run (w.links owner).client.mix).2
          have hnext := hdrawn.submit hready (AutoMix.nextOp_inRange next (w.links owner).client.mix)
          exact ⟨n, hn, haccounts, hlink ⟨x, _, past, [], hkeeps, hnext⟩⟩
      | submit owner req =>
          obtain ⟨ho, hready, hrange⟩ := hm
          obtain ⟨x, pending, past, late, hkeeps, hcoupled⟩ := hagrees owner ho
          have hnext := hcoupled.submit hready hrange
          exact ⟨n, hn, haccounts, hlink ⟨x, [req], past, [], hkeeps, hnext⟩⟩
      | write owner k =>
          obtain ⟨ho, -, rest, hsending⟩ := hm
          obtain ⟨x, pending, past, late, hkeeps, hcoupled⟩ := hagrees owner ho
          have hnext := hlink ⟨x, pending, past, late, hkeeps, hcoupled.write hsending k⟩
          simp only [ClosedLoop.step, hsending]
          exact ⟨n, hn, haccounts, hnext⟩
      | read owner k =>
          obtain ⟨ho, hk, hreading, hdown⟩ := hm
          obtain ⟨x, pending, past, late, hkeeps, hcoupled⟩ := hagrees owner ho
          have hdown_eq : w.down owner = x.sent.drop (w.links owner).heard := by
            rw [down, hkeeps.sentTo hp hn]
          rw [hdown_eq] at hdown
          obtain ⟨past', late', hnext, -⟩ := hcoupled.read hreading hk hdown
          rw [← hdown_eq] at hnext
          exact ⟨n, hn, haccounts, hlink ⟨x, pending, past', late', hkeeps, hnext⟩⟩

/-- What a client in closed loop can rely on: it never fails, its connection lives with one report
in the outbox at most, all its operations but the last have been executed, once each and in order,
each owes one report, the counters are those of the acknowledged reports, and while it waits
something is on its way. -/
structure InOrder (p : Params) (w : ClosedLoop σ) (owner : Owner) : Prop where
  standing : (w.links owner).client.phase ≠ .failed
  kept : owner ∈ accepted w.loop.log → ∃ conn ∈ w.loop.gateway.conns,
    conn.owner = owner ∧ conn.dead = false ∧ conn.outbox.length ≤ 16
  executed : ∃ waiting, waiting.length ≤ 1 ∧
    (w.links owner).client.made = Gateway.executedFor p owner w.loop.log ++ waiting
  reports : (Gateway.owedTo p owner w.loop.log).length =
    (Gateway.executedFor p owner w.loop.log).length
  acked_le : (w.links owner).client.acked ≤ (Gateway.owedTo p owner w.loop.log).length
  acked : (w.links owner).client.made.length =
    (w.links owner).client.acked + (w.links owner).client.phase.busy
  counts : ∀ s, (w.links owner).client.tally.counts s =
    (((Gateway.owedTo p owner w.loop.log).take (w.links owner).client.acked).map
      ExecReportMsg.status).count s
  waits : (w.links owner).client.phase = .reading → (w.links owner).up ≠ [] ∨
    w.down owner ≠ [] ∨ ∃ conn ∈ w.loop.gateway.conns, conn.owner = owner ∧ conn.outbox ≠ []

/-- An unfinished message is no whole one. -/
theorem pending_of_short {tail : List UInt8} {reqs : List Request}
    (hshort : Short kHeaderLen kMaxFrameLen tail) (h : tail = reqs.flatMap Request.wire) :
    reqs = [] := by
  cases reqs with
  | nil => rfl
  | cons req reqs =>
      rw [h] at hshort
      exact absurd hshort (not_short_frame (by decide) req.message.good_body)

theorem Agrees.inOrder (hp : p.Valid) (hn : n < 2 ^ 32)
    (h : Agrees p n owner w.loop (w.links owner)) : InOrder p w owner := by
  obtain ⟨x, pending, past, late, hkeeps, h⟩ := h
  obtain ⟨hdone, howed⟩ := hkeeps.past hp hn
  have hone := h.one
  have hbusy := (w.links owner).client.phase.busy_le
  have heven := h.even
  have hacked := h.acked
  have hreports := congrArg List.length h.owed
  have hmade := congrArg List.length h.made
  have hlen := h.down.length_eq
  rw [List.length_append] at hreports hmade hlen
  refine ⟨h.standing, fun hjoined => ?_, ⟨pending, by omega, by rw [hdone, h.made]⟩, ?_, ?_, by omega,
    fun s => ?_, fun hreading => ?_⟩
  · rcases hkeeps with hholds | ⟨-, howner, -⟩
    · exact ⟨_, hholds.conn, rfl, rfl, by change x.outbox.length ≤ 16; omega⟩
    · exact absurd hjoined howner
  · rw [hdone, howed, heven]
  · rw [howed]
    omega
  · rw [howed, h.counts, h.owed, hacked, List.take_left]
  · rw [hreading] at hone
    change pending.length + late.length = 1 at hone
    have hup := h.up
    rw [hreading] at hup
    change x.buf ++ ((w.links owner).up ++ []) = _ at hup
    rw [List.append_nil] at hup
    have hdown : w.down owner = x.sent.drop (w.links owner).heard := by
      rw [down, hkeeps.sentTo hp hn]
    by_contra hnone
    rw [not_or, not_or, not_not, not_not, hdown] at hnone
    obtain ⟨hup', hdown', hout⟩ := hnone
    rw [hup', List.append_nil] at hup
    have hshort := h.down.length_lt
    rcases hkeeps with hholds | ⟨-, -, rfl⟩
    · have hout' : x.outbox = [] := by
        by_contra hne
        exact hout ⟨_, hholds.conn, rfl, hne⟩
      rw [hdown', hout', List.length_nil] at hlen
      rw [pending_of_short hholds.short hup, List.length_nil] at hone
      omega
    · rw [hdown', List.length_nil] at hlen
      rw [pending_of_short (short_nil (by decide)) hup, List.length_nil] at hone
      have hnil : ([] : List UInt8).length = 0 := rfl
      omega

end ClosedLoop

/-- **No client in closed loop is ever dropped, and each operation is executed once, in order, and
acknowledged by its own report**, whatever the order of moves and whoever else is connected. -/
theorem closedLoop_inOrder {σ : Type} (next : σ → UInt64 × σ) (p : Params) (hp : p.Valid)
    (hstp : p.stp ≠ .cancelResting) (load : Owner → Prop) (mixes : Owner → AutoMix σ)
    (w : ClosedLoop σ) (h : w.Reachable next p load mixes) (owner : Owner) (howner : load owner) :
    w.InOrder p owner := by
  obtain ⟨n, hn, -, hagrees⟩ := h.agrees hp hstp
  exact (hagrees owner howner).inOrder hp hn

/-- A client that is accepted when one byte of its operation is still to be sent. -/
theorem closedLoop_inOrder_small :
    let p : Params := { poolCapacity := 1, bandHi := 9, idMapSlots := 4 }
    let next : UInt64 → UInt64 × UInt64 := fun k => (k, k + 7)
    let w := (((ClosedLoop.new p fun _ => ({ rng := 3 } : AutoMix UInt64)).step next (.begin 1)).step
      next (.write 1 24)).step next (.turn { accepts := true })
    w.InOrder p 1 := by
  intro p next w
  refine closedLoop_inOrder next p ⟨by decide, by decide, by decide, by decide⟩ (by decide) (· = 1)
    (fun _ => { rng := 3 }) w ?_ 1 rfl
  have hnone : ∀ owner, owner ∉ (PollLoop.new p).owners := fun owner => List.not_mem_nil
  exact .step (.step (.step .new ⟨rfl, rfl⟩) ⟨rfl, by decide, _, rfl⟩)
    ⟨by decide +kernel, fun owner _ hmem => absurd hmem (hnone owner)⟩

end Lob
