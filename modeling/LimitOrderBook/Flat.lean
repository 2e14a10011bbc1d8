import LimitOrderBook.Types
import LimitOrderBook.KeyedQueue

/-! # The flat book

What a matching engine is for, stated without its data structures: a side of the book is one
list of resting orders, best price first and in order of arrival within a price.  An incoming
order walks the opposite list from the front (`walk`); what is left of it joins its own list
behind every order of its price or a better one (`KeyedQueue.enqueue`).

`Flat.call` is the whole public interface on flat books.  `Flat.WF` is their invariant: both
lists are ordered, identifiers are nonzero and distinct, quantities nonzero, prices in the band,
and no bid reaches an ask; every call preserves it (`Flat.WF.call`). -/

namespace Lob

open KeyedQueue

structure Resting where
  id : OrderId
  price : Int
  qty : Qty
  owner : Owner
deriving DecidableEq, Repr

/-- A book as two queues of resting orders. -/
structure Flat where
  bids : List Resting := []
  asks : List Resting := []
deriving DecidableEq, Repr

/-- The parameters of an engine that its answers depend on. -/
structure Config where
  stp : Stp
  inBand : Int → Bool
  protection : Int := 0

/-! ### The walk -/

/-- What a walk leaves: the queue, the open quantity, whether it was stopped, and its tape. -/
structure Walk where
  queue : List Resting
  remaining : Qty
  stopped : Bool
  tape : List Event
deriving DecidableEq, Repr

/-- Must self-trade prevention keep a taker of this owner from trading with `r`? -/
def Resting.Own (stp : Stp) (owner : Owner) (r : Resting) : Prop :=
  stp ≠ .none ∧ owner ≠ 0 ∧ r.owner = owner

instance (stp : Stp) (owner : Owner) (r : Resting) : Decidable (r.Own stp owner) :=
  inferInstanceAs (Decidable (_ ∧ _ ∧ _))

/-- A taker of side `s`, bounded by `limit`, walks the queue `q` of the other side. -/
def walk (stp : Stp) (s : Side) (taker : OrderId) (limit : Int) (owner : Owner) :
    List Resting → Qty → Walk
  | [], remaining => ⟨[], remaining, false, []⟩
  | r :: q, remaining =>
      if remaining = 0 ∨ crosses s r.price limit = false then ⟨r :: q, remaining, false, []⟩
      else if r.Own stp owner then
        if stp = .rejectIncoming then ⟨r :: q, remaining, true, []⟩
        else
          let w := walk stp s taker limit owner q remaining
          { w with tape := .cancel r.id r.owner :: w.tape }
      else
        let take := min r.qty remaining
        let w := walk stp s taker limit owner q (remaining - take)
        { w with
          queue := if r.qty = take then w.queue else { r with qty := r.qty - take } :: w.queue
          tape := .trade taker r.id r.price take :: w.tape }

/-! ### Fill-or-kill -/

section fillable

variable (s : Side) (px : Int) (qty : Qty)

/-- The sum over crossing levels, compared with `qty` at the end of each level. -/
def sumReaches : UInt64 → List Resting → Bool
  | avail, [] => decide (qty.toUInt64 ≤ avail)
  | avail, r :: q =>
      if crosses s r.price px then
        let avail := avail + r.qty.toUInt64
        if (q.head?.map Resting.price) = some r.price then sumReaches avail q
        else if qty.toUInt64 ≤ avail then true
        else sumReaches avail q
      else decide (qty.toUInt64 ≤ avail)

/-- The sum over the crossing orders of others; an own order is skipped or blocks. -/
def othersReach (stp : Stp) (owner : Owner) : UInt64 → List Resting → Bool
  | avail, [] => decide (qty.toUInt64 ≤ avail)
  | avail, r :: q =>
      if crosses s r.price px then
        if owner ≠ 0 ∧ r.owner = owner then
          if stp = .rejectIncoming then false else othersReach stp owner avail q
        else
          let avail := avail + r.qty.toUInt64
          if qty.toUInt64 ≤ avail then true else othersReach stp owner avail q
      else decide (qty.toUInt64 ≤ avail)

/-- Can `qty` be filled from the queue `q`? -/
def fillable (stp : Stp) (owner : Owner) (q : List Resting) : Bool :=
  if stp = .none then sumReaches s px qty 0 q else othersReach s px qty stp owner 0 q

end fillable

namespace Flat

/-! ### Operations -/

def side (F : Flat) : Side → List Resting
  | .bid => F.bids
  | .ask => F.asks

def withSide (F : Flat) (s : Side) (q : List Resting) : Flat :=
  match s with
  | .bid => { F with bids := q }
  | .ask => { F with asks := q }

/-- Every resting order. -/
def all (F : Flat) : List Resting := F.bids ++ F.asks

def ids (F : Flat) : List OrderId := F.all.map Resting.id

def find? (F : Flat) (id : OrderId) : Option (Side × Resting) :=
  match F.bids.find? (fun r => decide (r.id = id)) with
  | some r => some (.bid, r)
  | none => (F.asks.find? (fun r => decide (r.id = id))).map (fun r => (.ask, r))

def remove (F : Flat) (id : OrderId) : Flat :=
  { bids := F.bids.filter (fun r => decide (r.id ≠ id))
    asks := F.asks.filter (fun r => decide (r.id ≠ id)) }

/-- Set the quantity of an order, in place. -/
def amend (F : Flat) (id : OrderId) (qty : Qty) : Flat :=
  { bids := F.bids.map (fun r => if r.id = id then { r with qty := qty } else r)
    asks := F.asks.map (fun r => if r.id = id then { r with qty := qty } else r) }

/-- A new order joins its side. -/
def rest (F : Flat) (s : Side) (r : Resting) : Flat :=
  F.withSide s (enqueue (better s) Resting.price r (F.side s))

def execute (c : Config) (F : Flat) (s : Side) (id : OrderId) (px : Int) (qty : Qty) (tif : Tif)
    (owner : Owner) : Flat × SubmitResult × List Event :=
  if tif = .fok ∧ fillable s px qty c.stp owner (F.side s.opp) = false then
    (F, { filled := 0, rested := false, rejected := true }, [])
  else
    let w := walk c.stp s id px owner (F.side s.opp) qty
    let filled := qty - w.remaining
    let F := F.withSide s.opp w.queue
    if w.stopped then
      (F, { filled := filled, rested := false, rejected := decide (filled = 0) }, w.tape)
    else if w.remaining ≠ 0 ∧ tif = .gtc then
      (F.rest s ⟨id, px, w.remaining, owner⟩,
        { filled := filled, rested := true, rejected := false }, w.tape)
    else (F, { filled := filled, rested := false, rejected := false }, w.tape)

def submitLimit (c : Config) (F : Flat) (id : OrderId) (s : Side) (px : Int) (qty : Qty)
    (tif : Tif) (owner : Owner) : Flat × SubmitResult × List Event :=
  if id = 0 ∨ qty = 0 ∨ c.inBand px = false ∨ id ∈ F.ids then
    (F, { filled := 0, rested := false, rejected := true }, [])
  else F.execute c s id px qty tif owner

/-- The price bound of a market order, if it has one. -/
def marketLimit (c : Config) (F : Flat) (s : Side) : Option Int :=
  if 0 < c.protection then
    (F.side s.opp).head?.map fun r =>
      match s with
      | .bid => wrapPrice (r.price + c.protection)
      | .ask => wrapPrice (r.price - c.protection)
  else some s.marketPrice

def submitMarket (c : Config) (F : Flat) (id : OrderId) (s : Side) (qty : Qty) (owner : Owner) :
    Flat × Qty × List Event :=
  if id = 0 ∨ qty = 0 ∨ id ∈ F.ids then (F, 0, [])
  else match F.marketLimit c s with
    | none => (F, 0, [])
    | some limit =>
        let w := walk c.stp s id limit owner (F.side s.opp) qty
        (F.withSide s.opp w.queue, qty - w.remaining, w.tape)

def cancel (F : Flat) (id : OrderId) : Flat × Bool :=
  if id ∈ F.ids then (F.remove id, true) else (F, false)

def modify (c : Config) (F : Flat) (id : OrderId) (newPx : Int) (newQty : Qty) :
    Flat × ModifyResult × List Event :=
  match F.find? id with
  | none => (F, { ok := false, filled := 0, rested := false, found := false }, [])
  | some (s, r) =>
      if newQty = 0 ∨ c.inBand newPx = false then
        (F, { ok := false, filled := 0, rested := false, found := true }, [])
      else if newPx = r.price ∧ newQty ≤ r.qty then
        (F.amend id newQty, { ok := true, filled := 0, rested := true, found := true }, [])
      else
        let (F, r, tape) := (F.remove id).execute c s id newPx newQty .gtc r.owner
        (F, { ok := true, filled := r.filled, rested := r.rested, found := true }, tape)

def call (c : Config) (F : Flat) : Op → Flat × Answer
  | .submitLimit id s px qty tif owner =>
      let (F, r, tape) := F.submitLimit c id s px qty tif owner
      (F, .submit r, tape)
  | .submitMarket id s qty owner =>
      let (F, filled, tape) := F.submitMarket c id s qty owner
      (F, .market filled, tape)
  | .cancel id =>
      let (F, ok) := F.cancel id
      (F, .cancel ok, [])
  | .modify id newPx newQty =>
      let (F, r, tape) := F.modify c id newPx newQty
      (F, .modify r, tape)

/-! ### Sides -/

section sides

variable {F : Flat} {s t : Side} {q : List Resting}

@[simp] theorem side_withSide_self : (F.withSide s q).side s = q := by cases s <;> rfl

@[simp] theorem side_withSide_opp : (F.withSide s.opp q).side s = F.side s := by cases s <;> rfl

@[simp] theorem side_opp_withSide : (F.withSide s q).side s.opp = F.side s.opp := by
  cases s <;> rfl

theorem side_withSide : (F.withSide s q).side t = if t = s then q else F.side t := by
  cases s <;> cases t <;> rfl

theorem ext_side {F G : Flat} (h : ∀ s, F.side s = G.side s) : F = G := by
  have h1 := h .bid
  have h2 := h .ask
  cases F; cases G
  simp only [side] at h1 h2
  rw [h1, h2]

theorem withSide_side (F : Flat) (s : Side) : F.withSide s (F.side s) = F := by cases s <;> rfl

@[simp] theorem side_remove {id : OrderId} :
    (F.remove id).side s = (F.side s).filter (fun r => decide (r.id ≠ id)) := by
  cases s <;> rfl

@[simp] theorem side_amend {id : OrderId} {n : Qty} : (F.amend id n).side s =
    (F.side s).map (fun r => if r.id = id then { r with qty := n } else r) := by
  cases s <;> rfl

theorem mem_all {r : Resting} : r ∈ F.all ↔ ∃ s, r ∈ F.side s := by
  constructor
  · intro h
    rcases List.mem_append.mp h with h | h
    · exact ⟨.bid, h⟩
    · exact ⟨.ask, h⟩
  · rintro ⟨s, h⟩
    cases s with
    | bid => exact List.mem_append_left _ h
    | ask => exact List.mem_append_right _ h

theorem mem_ids {id : OrderId} : id ∈ F.ids ↔ ∃ s, ∃ r ∈ F.side s, r.id = id := by
  simp only [ids, List.mem_map, mem_all]
  constructor
  · rintro ⟨r, ⟨s, hr⟩, h⟩
    exact ⟨s, r, hr, h⟩
  · rintro ⟨s, r, hr, h⟩
    exact ⟨r, ⟨s, hr⟩, h⟩

/-- The ids of a book, one side first. -/
theorem ids_perm (F : Flat) (s : Side) :
    F.ids.Perm ((F.side s).map Resting.id ++ (F.side s.opp).map Resting.id) := by
  cases s with
  | bid => simp [ids, all, side, Side.opp]
  | ask =>
      simp only [ids, all, side, Side.opp, List.map_append]
      exact List.perm_append_comm

end sides

end Flat

end Lob
