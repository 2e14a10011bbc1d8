import LimitOrderBook.FrameBuffer
import LimitOrderBook.GatewaySim

/-! # The poll loop

The main loop of `net/gateway.cpp`.  What the kernel answers is an input: which connections are
ready, and what `accept`, `recv` and `send` return (`Iteration`).  A list of answers that runs out
stands for `EAGAIN`.

The loop works on the gateway through `Gateway.step` only, and keeps a `log` of these actions that
it never looks at; a run of the loop is therefore a run of the gateway (`Accounts.run`).  The frame
buffers of the connections are kept by their owners.

`Safe` is the rule by which an invariant is carried through the calls for one connection. -/

namespace Lob

/-- What `::recv` returns; no bytes at all is an orderly close. -/
inductive Recv where
  | got (bytes : List UInt8)
  | again
  | interrupted
  | failed
deriving DecidableEq, Repr

/-- What `::send` returns; the peer takes `n` bytes, or all there are. -/
inductive Sent where
  | took (n : ℕ)
  | again
  | failed
deriving DecidableEq, Repr

/-- What the kernel has for one connection: its `revents`, and the answers to the calls made on
it.  `lastSends` are for the flush of a connection that is removed. -/
structure Ready where
  broken : Bool := false
  readable : Bool := false
  recvs : List Recv := []
  writable : Bool := false
  sends : List Sent := []
  moreSends : List Sent := []
  lastSends : List Sent := []

/-- What the kernel has for one turn of the loop. -/
structure Iteration where
  accepts : Bool := false
  ready : Owner → Ready := fun _ => {}

/-- The connection of `owner` is there, and dead. -/
def Gateway.isDead {B : Type} (g : Gateway B) (owner : Owner) : Bool :=
  (g.conns.find? (Connection.isOf owner)).any Connection.dead

structure PollLoop where
  gateway : Gateway OrderBook
  frames : Owner → FrameBuffer := fun _ => {}
  nextOwner : Owner := 1
  log : List Gateway.Input := []

namespace PollLoop

open Connection

def isDead (s : PollLoop) (owner : Owner) : Bool := s.gateway.isDead owner

def hasOutput (s : PollLoop) (owner : Owner) : Bool :=
  (s.gateway.conns.find? (isOf owner)).any fun c => decide (c.outbox ≠ [])

/-- One action on the gateway. -/
def act (s : PollLoop) (i : Gateway.Input) : PollLoop :=
  { s with gateway := (Gateway.step OrderBook.engine s.gateway i).1, log := s.log ++ [i] }

def setFrames (s : PollLoop) (owner : Owner) (fb : FrameBuffer) : PollLoop :=
  { s with frames := Function.update s.frames owner fb }

def accept (s : PollLoop) : PollLoop :=
  { (s.act (.accept s.nextOwner)).setFrames s.nextOwner {} with nextOwner := s.nextOwner + 1 }

/-! ### One connection -/

/-- `flush_outbox`. -/
def flushOutbox (owner : Owner) : List Sent → PollLoop → PollLoop
  | [], s => s
  | x :: xs, s =>
      if s.hasOutput owner then
        match x with
        | .took n =>
            if 0 < n then flushOutbox owner xs (s.act (.flush owner n)) else s.act (.hangup owner)
        | .again => s
        | .failed => s.act (.hangup owner)
      else s

/-- What is done with the bytes of one `recv`; `false` where it leaves the loop. -/
def feedChunk (s : PollLoop) (owner : Owner) (chunk : List UInt8) : Bool × PollLoop :=
  let (fb, ok, s) :=
    (s.frames owner).feed (fun s body => s.act (.frame owner body)) chunk s
  let s := s.setFrames owner fb
  if ok && !s.isDead owner then (true, s) else (false, s.act (.hangup owner))

/-- Chunk after chunk, until the connection is dead. -/
def feedChunks (owner : Owner) : List (List UInt8) → PollLoop → PollLoop
  | [], s => s
  | chunk :: chunks, s =>
      let (more, s) := s.feedChunk owner chunk
      if more then feedChunks owner chunks s else s

/-- The loop around `recv`. -/
def readLoop (owner : Owner) : List Recv → PollLoop → PollLoop
  | [], s => s
  | .got bytes :: xs, s =>
      if bytes = [] then s.act (.hangup owner)
      else
        let (more, s) := s.feedChunk owner bytes
        if more then readLoop owner xs s else s
  | .again :: _, s => s
  | .interrupted :: xs, s => readLoop owner xs s
  | .failed :: _, s => s.act (.hangup owner)

/-- What a readable connection has sent. -/
def receive (s : PollLoop) (owner : Owner) (r : Ready) : PollLoop :=
  if r.readable then readLoop owner r.recvs s else s

/-- The two flushes: of a writable connection, and of what is left. -/
def send (s : PollLoop) (owner : Owner) (r : Ready) : PollLoop :=
  let s := if !s.isDead owner && r.writable then flushOutbox owner r.sends s else s
  if !s.isDead owner && s.hasOutput owner then flushOutbox owner r.moreSends s else s

/-- The turn of one connection. -/
def service (s : PollLoop) (owner : Owner) (r : Ready) : PollLoop :=
  if r.broken then s.act (.hangup owner) else (s.receive owner r).send owner r

/-- A connection is removed if it is dead. -/
def reap (s : PollLoop) (owner : Owner) (r : Ready) : PollLoop :=
  if s.isDead owner then
    ((flushOutbox owner r.lastSends s).act (.disconnect owner)).act (.erase owner)
  else s

/-! ### The loop -/

def owners (s : PollLoop) : List Owner := s.gateway.conns.map Connection.owner

/-- A connection that waits at the listener is accepted. -/
def welcome (s : PollLoop) (it : Iteration) : PollLoop := if it.accepts then s.accept else s

def serviceAll (it : Iteration) (owners : List Owner) (s : PollLoop) : PollLoop :=
  owners.foldl (fun s owner => s.service owner (it.ready owner)) s

/-- The connections that existed when `poll` ran have had their turn. -/
def serviced (s : PollLoop) (it : Iteration) : PollLoop := serviceAll it s.owners (s.welcome it)

def reapAll (it : Iteration) (owners : List Owner) (s : PollLoop) : PollLoop :=
  owners.foldl (fun s owner => s.reap owner (it.ready owner)) s

/-- One turn of the loop; the dead connections are removed, from the last on. -/
def iterate (s : PollLoop) (it : Iteration) : PollLoop :=
  let s := s.serviced it
  reapAll it s.owners.reverse s

def new (p : Params) : PollLoop := { gateway := Gateway.new p }

/-- The loop after some turns. -/
def run (p : Params) (its : List Iteration) : PollLoop := its.foldl iterate (new p)

/-! ### Invariants -/

/-- The loop of `flush_outbox` flushes and, at an error, hangs up. -/
theorem inv_flushOutbox {owner : Owner} {Inv : PollLoop → Prop}
    (hflush : ∀ {s} n, Inv s → Inv (s.act (.flush owner n)))
    (hhangup : ∀ {s}, Inv s → Inv (s.act (.hangup owner))) (xs : List Sent) {s : PollLoop}
    (hs : Inv s) : Inv (flushOutbox owner xs s) := by
  induction xs generalizing s with
  | nil => exact hs
  | cons x xs ih =>
      unfold flushOutbox
      split_ifs
      · cases x with
        | took n =>
            simp only
            split_ifs
            · exact ih (hflush n hs)
            · exact hhangup hs
        | again => exact hs
        | failed => exact hhangup hs
      · exact hs

/-- What the calls for the connection of `owner` keep. -/
structure Safe (owner : Owner) (Inv : PollLoop → Prop) : Prop where
  frame : ∀ {s} body, Inv s → Inv (s.act (.frame owner body))
  flush : ∀ {s} n, Inv s → Inv (s.act (.flush owner n))
  hangup : ∀ {s}, Inv s → Inv (s.act (.hangup owner))
  setFrames : ∀ {s} fb, Inv s → Inv (s.setFrames owner fb)

namespace Safe

variable {owner : Owner} {Inv : PollLoop → Prop} {s : PollLoop}

theorem flushOutbox (h : Safe owner Inv) (xs : List Sent) (hs : Inv s) :
    Inv (flushOutbox owner xs s) := inv_flushOutbox h.flush h.hangup xs hs

theorem feedChunk (h : Safe owner Inv) (chunk : List UInt8) (hs : Inv s) :
    Inv (s.feedChunk owner chunk).2 := by
  obtain ⟨bodies, hsunk⟩ := FrameBuffer.feed_sunk (fun s body => s.act (.frame owner body))
    (s.frames owner) chunk s
  have hfed : Inv (bodies.foldl (fun s body => s.act (.frame owner body)) s) :=
    List.foldlRecOn bodies _ hs fun s hs body _ => h.frame body hs
  rw [← hsunk] at hfed
  unfold PollLoop.feedChunk
  simp only
  split_ifs
  · exact h.setFrames _ hfed
  · exact h.hangup (h.setFrames _ hfed)

theorem readLoop (h : Safe owner Inv) (xs : List Recv) (hs : Inv s) :
    Inv (readLoop owner xs s) := by
  induction xs generalizing s with
  | nil => exact hs
  | cons x xs ih =>
      cases x with
      | got bytes =>
          simp only [PollLoop.readLoop]
          split_ifs
          · exact h.hangup hs
          · exact ih (h.feedChunk bytes hs)
          · exact h.feedChunk bytes hs
      | again => exact hs
      | interrupted => exact ih hs
      | failed => exact h.hangup hs

theorem receive (h : Safe owner Inv) (r : Ready) (hs : Inv s) : Inv (s.receive owner r) := by
  unfold PollLoop.receive
  split_ifs
  · exact h.readLoop _ hs
  · exact hs

theorem send (h : Safe owner Inv) (r : Ready) (hs : Inv s) : Inv (s.send owner r) := by
  have hfirst : Inv (if !s.isDead owner && r.writable then
      PollLoop.flushOutbox owner r.sends s else s) := by
    split_ifs
    · exact h.flushOutbox _ hs
    · exact hs
  simp only [PollLoop.send]
  generalize (if !s.isDead owner && r.writable then
    PollLoop.flushOutbox owner r.sends s else s) = s' at hfirst ⊢
  split_ifs
  · exact h.flushOutbox _ hfirst
  · exact hfirst

theorem service (h : Safe owner Inv) (r : Ready) (hs : Inv s) : Inv (s.service owner r) := by
  unfold PollLoop.service
  split_ifs
  · exact h.hangup hs
  · exact h.send r (h.receive r hs)

end Safe

/-! ### The log -/

/-- The connections that were accepted, in order. -/
def accepted (log : List Gateway.Input) : List Owner :=
  log.filterMap fun
    | .accept owner => some owner
    | _ => none

theorem accepted_append (log log' : List Gateway.Input) :
    accepted (log ++ log') = accepted log ++ accepted log' := List.filterMap_append ..

/-- After `n` accepts: the gateway is where its log leads, and owners are numbers from `1` on. -/
structure Accounts (p : Params) (n : ℕ) (s : PollLoop) : Prop where
  gateway_eq : s.gateway = Gateway.run p s.log
  next : s.nextOwner = UInt32.ofNat (n + 1)
  accepted_eq : accepted s.log = (List.range n).map fun k => UInt32.ofNat (k + 1)

namespace Accounts

variable {p : Params} {n : ℕ} {s : PollLoop}

theorem gateway_act (h : s.gateway = Gateway.run p s.log) (i : Gateway.Input) :
    (s.act i).gateway = Gateway.run p (s.act i).log := by
  simp only [act, Gateway.run, Transition.finalState_append]
  rw [h]
  rfl

theorem act (h : Accounts p n s) {i : Gateway.Input} (hi : accepted [i] = []) :
    Accounts p n (s.act i) where
  gateway_eq := gateway_act h.gateway_eq i
  next := h.next
  accepted_eq := by rw [PollLoop.act, accepted_append, hi, List.append_nil, h.accepted_eq]

theorem safe (owner : Owner) : Safe owner (Accounts p n) where
  frame _ h := h.act rfl
  flush _ h := h.act rfl
  hangup h := h.act rfl
  setFrames _ h := ⟨h.gateway_eq, h.next, h.accepted_eq⟩

theorem accept (h : Accounts p n s) : Accounts p (n + 1) s.accept where
  gateway_eq := gateway_act h.gateway_eq _
  next := by
    have hnext : s.accept.nextOwner = s.nextOwner + 1 := rfl
    rw [hnext, h.next, UInt32.ofNat_add (n + 1) 1]
    rfl
  accepted_eq := by
    have hlog : s.accept.log = s.log ++ [.accept s.nextOwner] := rfl
    rw [hlog, accepted_append, h.accepted_eq, h.next, List.range_succ, List.map_append]
    rfl

theorem reap (h : Accounts p n s) (owner : Owner) (r : Ready) : Accounts p n (s.reap owner r) := by
  unfold PollLoop.reap
  split_ifs
  · exact (((safe owner).flushOutbox _ h).act rfl).act rfl
  · exact h

theorem welcome (h : Accounts p n s) (it : Iteration) :
    Accounts p (n + if it.accepts then 1 else 0) (s.welcome it) := by
  unfold PollLoop.welcome
  split_ifs
  · exact h.accept
  · exact h

theorem iterate (h : Accounts p n s) (it : Iteration) :
    Accounts p (n + if it.accepts then 1 else 0) (s.iterate it) := by
  have hserved : Accounts p (n + if it.accepts then 1 else 0) (s.serviced it) :=
    List.foldlRecOn _ _ (h.welcome it) fun _ h owner _ => (safe owner).service _ h
  exact List.foldlRecOn _ _ hserved fun _ h owner _ => h.reap owner _

theorem run (p : Params) (its : List Iteration) :
    Accounts p (its.countP Iteration.accepts) (PollLoop.run p its) := by
  induction its using List.reverseRecOn with
  | nil => exact ⟨rfl, rfl, rfl⟩
  | append_singleton its it ih =>
      have hstep := ih.iterate it
      rw [List.countP_append, List.countP_singleton]
      simp only [PollLoop.run, List.foldl_append, List.foldl_cons, List.foldl_nil] at hstep ⊢
      exact hstep

/-- Fewer than `2 ^ 32` connections have different owners. -/
theorem nodup (h : Accounts p n s) (hn : n < 2 ^ 32) : (accepted s.log).Nodup := by
  rw [h.accepted_eq]
  refine List.Nodup.map_on ?_ List.nodup_range
  intro k hk k' hk' he
  rw [List.mem_range] at hk hk'
  have hnat := congrArg UInt32.toNat he
  simp only [UInt32.toNat_ofNat'] at hnat
  omega

end Accounts

end PollLoop

end Lob
