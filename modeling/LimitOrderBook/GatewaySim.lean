import LimitOrderBook.Gateway

/-! # The gateway on a flat book

A gateway reads its engine through the return values, the tapes and the snapshots only.  Engines
that answer alike therefore make gateways that differ in their book only (`Sim.step`), and a run
of the gateway is one of the gateway on the flat book: same ids, same connections, same datagrams,
same reports (`run_sim`). -/

namespace Lob

/-- Engines whose related books answer alike. -/
structure Engine.Sim {B B' : Type} (R : B → B' → Prop) (E : Engine B) (E' : Engine B') : Prop where
  call : ∀ {b b'}, R b b' → ∀ op,
    (E.call b op).2 = (E'.call b' op).2 ∧ R (E.call b op).1 (E'.call b' op).1
  topLevels : ∀ {b b'}, R b b' → E.topLevels b = E'.topLevels b'

theorem OrderBook.engine_call (b : OrderBook) (op : Op) : OrderBook.engine.call b op = b.call op := by
  cases op <;> rfl

theorem Flat.engine_call (c : Config) (F : Flat) (op : Op) :
    (Flat.engine c).call F op = F.call c op := by
  cases op <;> rfl

/-- The final engine answers as the flat book does. -/
theorem OrderBook.engine_sim (c : Config) :
    Engine.Sim (Book.Repr c) OrderBook.engine (Flat.engine c) where
  call h op := by
    rw [OrderBook.engine_call, Flat.engine_call]
    exact h.call op
  topLevels h := by
    funext s n
    exact h.topLevels s n

namespace Gateway

variable {B B' : Type} {R : B → B' → Prop} {E : Engine B} {E' : Engine B'} {g : Gateway B}
  {g' : Gateway B'}

/-- Gateways that differ in their book only. -/
structure Sim (R : B → B' → Prop) (g : Gateway B) (g' : Gateway B') : Prop where
  book : R g.book g'.book
  feed : g.feed = g'.feed
  conns : g.conns = g'.conns

namespace Sim

theorem called (h : Sim R g g') {b : B} {b' : B'} (hb : R b b') (tape : List Event) :
    Sim R (g.called b tape) (g'.called b' tape) where
  book := hb
  feed := by simp only [Gateway.called, h.feed, h.conns]
  conns := by simp only [Gateway.called, h.feed, h.conns]

theorem withOrders (h : Sim R g g') (f : OrderIds → OrderIds) :
    Sim R (g.withOrders f) (g'.withOrders f) :=
  ⟨h.book, by simp only [Gateway.withOrders, h.feed], h.conns⟩

theorem onConn (h : Sim R g g') (owner : Owner) (f : Connection → Connection) :
    Sim R (g.onConn owner f) (g'.onConn owner f) :=
  ⟨h.book, h.feed, by simp only [Gateway.onConn, h.conns]⟩

theorem prepared (h : Sim R g g') (owner : Owner) (req : Request) :
    Sim R (g.prepared owner req) (g'.prepared owner req) :=
  ⟨h.book, by simp only [Gateway.prepared, h.feed], h.conns⟩

variable (hE : Engine.Sim R E E')

include hE

theorem publish (h : Sim R g g') : Sim R (g.publish E) (g'.publish E') :=
  ⟨h.book, by simp only [Gateway.publish, h.feed, hE.topLevels h.book], h.conns⟩

theorem asked (h : Sim R g g') (owner : Owner) (req : Request) :
    (g.asked E owner req).2 = (g'.asked E' owner req).2 ∧
      R (g.asked E owner req).1 (g'.asked E' owner req).1 := by
  simp only [Gateway.asked, h.feed]
  cases req.op owner (g'.feed.orders.idOf owner req) with
  | none => exact ⟨rfl, h.book⟩
  | some op => exact hE.call h.book op

theorem serve (h : Sim R g g') (owner : Owner) (req : Request) :
    (serve E g owner req).2 = (Gateway.serve E' g' owner req).2 ∧
      Sim R (Gateway.serve E g owner req).1 (Gateway.serve E' g' owner req).1 := by
  obtain ⟨hans, hbook⟩ := h.asked hE owner req
  simp only [serve_eq, hans, h.feed]
  exact ⟨trivial, ((h.prepared owner req).called hbook _).withOrders _⟩

theorem handleFrame (h : Sim R g g') (owner : Owner) (body : List UInt8) :
    (handleFrame E g owner body).2 = (Gateway.handleFrame E' g' owner body).2 ∧
      Sim R (Gateway.handleFrame E g owner body).1 (Gateway.handleFrame E' g' owner body).1 := by
  unfold Gateway.handleFrame
  rw [h.conns]
  cases g'.conns.find? (Connection.isOf owner) with
  | none => exact ⟨rfl, h⟩
  | some c =>
      by_cases hdead : c.dead = true
      · simp only [if_pos hdead]
        exact ⟨trivial, h⟩
      · simp only [if_neg hdead]
        cases decodeRequest body with
        | none => exact ⟨rfl, h.onConn owner _⟩
        | some req =>
            obtain ⟨hrep, hg⟩ := h.serve hE owner req
            refine ⟨congrArg some hrep, ?_⟩
            simp only [hrep]
            exact (hg.onConn owner _).publish hE

theorem cancelAll (h : Sim R g g') (ids : List OrderId) :
    Sim R (g.cancelAll E ids) (g'.cancelAll E' ids) := by
  induction ids generalizing g g' with
  | nil => exact h
  | cons id ids ih =>
      refine ih (Sim.withOrders ?_ _)
      exact ⟨(hE.call h.book (.cancel id)).2, h.feed, h.conns⟩

theorem cancelOnDisconnect (h : Sim R g g') (owner : Owner) :
    Sim R (g.cancelOnDisconnect E owner) (g'.cancelOnDisconnect E' owner) := by
  have hall := h.cancelAll hE (g'.feed.orders.ownedBy owner)
  simp only [Gateway.cancelOnDisconnect, h.feed]
  split_ifs
  · exact hall
  · exact hall.publish hE

theorem step (h : Sim R g g') (i : Input) :
    (step E g i).2 = (Gateway.step E' g' i).2 ∧
      Sim R (Gateway.step E g i).1 (Gateway.step E' g' i).1 := by
  cases i with
  | accept owner => exact ⟨rfl, h.book, h.feed, by simp only [Gateway.step, h.conns]⟩
  | frame owner body => exact h.handleFrame hE owner body
  | flush owner n => exact ⟨rfl, h.onConn owner _⟩
  | hangup owner => exact ⟨rfl, h.onConn owner _⟩
  | disconnect owner => exact ⟨rfl, h.cancelOnDisconnect hE owner⟩
  | erase owner => exact ⟨rfl, h.book, h.feed, by simp only [Gateway.step, h.conns]⟩

end Sim

/-! ### Runs -/

/-- The gateway on a fresh engine, before the first connection. -/
def new (p : Params) : Gateway OrderBook := { book := OrderBook.new p }

/-- The gateway after a run. -/
def run (p : Params) (inputs : List Input) : Gateway OrderBook :=
  Transition.finalState (step OrderBook.engine) (new p) inputs

/-- The same run on the flat book. -/
def runFlat (c : Config) (inputs : List Input) : Gateway Flat :=
  Transition.finalState (step (Flat.engine c)) { book := {} } inputs

/-- **A run of the gateway is one of the gateway on the flat book.** -/
theorem run_sim {p : Params} (hp : p.Valid) (inputs : List Input) :
    Sim (Book.Repr p.config) (run p inputs) (runFlat p.config inputs) :=
  (Transition.outputs_eq_of_sim (P := fun _ _ => True) (R := Sim (Book.Repr p.config))
    (fun _ _ i h _ => h.step (OrderBook.engine_sim p.config) i)
    ⟨OrderBook.new_repr hp, rfl, rfl⟩ (Transition.along_of_forall _ fun _ _ => trivial)).2

end Gateway

end Lob
