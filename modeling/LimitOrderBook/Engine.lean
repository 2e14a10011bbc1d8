import LimitOrderBook.Store

/-! # The matching engines

The code of `include/lob/order_book.hpp`, over arbitrary parts: the ladder `L`, the index `I`
and the allocator `P`.  The engines `v4` and `v5` share its loops and differ in the validation
of their arguments (`V4`); `v1` has a fill loop of its own (`V1`).

A level in the source is edited through a reference; here the loop on a level carries it as a
value, which is stored back where the source lets go of the reference.  Loops carry a fuel
argument; the number of resting orders always suffices, and the refinement proofs show that no
loop ends by running out of it. -/

namespace Lob

/-- The members of an engine; `protection` stays `0` in the engines without it. -/
structure Book (L I P : Type) where
  bids : L
  asks : L
  orders : I
  stp : Stp
  pool : P
  protection : Int := 0

namespace Book

variable {L I P : Type}

def ladder (b : Book L I P) : Side → L
  | .bid => b.bids
  | .ask => b.asks

def withLadder (b : Book L I P) (s : Side) (l : L) : Book L I P :=
  match s with
  | .bid => { b with bids := l }
  | .ask => { b with asks := l }

section parts

variable {A : Type} [Ladder L A] [Index I A] [Allocator P A (Order A)]

/-! ### Queues -/

/-- `unlink(lvl, o)`: the neighbours are joined, the totals reduced. -/
def unlink (p : P) (lvl : Level A) (a : A) : P × Level A :=
  let o := Allocator.deref p a
  let (p, lvl) := match o.prev with
    | some b => (Allocator.write p b { Allocator.deref p b with next := o.next }, lvl)
    | none => (p, { lvl with head := o.next })
  let (p, lvl) := match o.next with
    | some b => (Allocator.write p b { Allocator.deref p b with prev := o.prev }, lvl)
    | none => (p, { lvl with tail := o.prev })
  (p, { lvl with totalQty := lvl.totalQty - o.qty.toUInt64, count := lvl.count - 1 })

/-- What `rest` does to the level of an order at `a`. -/
def pushLevel (a : A) (qty : Qty) (lvl : Level A) : Level A :=
  { lvl with
    head := if lvl.tail.isSome then lvl.head else some a
    tail := some a
    totalQty := lvl.totalQty + qty.toUInt64
    count := lvl.count + 1 }

/-- `if (lvl.tail) lvl.tail->next = o;` -/
def linkTail (p : P) (tail : Option A) (a : A) : P :=
  match tail with
  | some t => Allocator.write p t { Allocator.deref p t with next := some a }
  | none => p

def rest (b : Book L I P) (s : Side) (id : OrderId) (px : Int) (qty : Qty) (owner : Owner) :
    Book L I P :=
  let lvl := Ladder.level (b.ladder s) px
  let (a, p) := Allocator.create b.pool
    { qty := qty, owner := owner, next := none, id := id, price := px, prev := lvl.tail,
      level := ⟨s, px⟩, side := s }
  let p := linkTail p lvl.tail a
  { b with pool := p, orders := Index.insert b.orders id a }.withLadder s
    (Ladder.link s (b.ladder s) px (pushLevel a qty))

def removeFromBook (b : Book L I P) (a : A) : Book L I P :=
  let o := Allocator.deref b.pool a
  let l := b.ladder o.level.side
  let (p, lvl) := unlink b.pool (Ladder.level l o.level.price) a
  let b := { b with pool := p }.withLadder o.level.side (Ladder.setLevel l o.level.price lvl)
  if lvl.head.isNone then
    b.withLadder o.side (Ladder.emptied o.side (b.ladder o.side) lvl.price lvl.price)
  else b

/-! ### Matching -/

/-- The variables of `match` while it works on one level; `qty` is `remaining`, or `filled` in
`v1`. -/
structure Fill (A I P : Type) where
  pool : P
  orders : I
  lvl : Level A
  qty : Qty
  stopped : Bool
  tape : List Event

namespace Fill

/-- `on_cancel` or `on_trade`. -/
def emit (w : Fill A I P) (e : Event) : Fill A I P := { w with tape := w.tape ++ [e] }

/-- `orders_.erase(o->id); unlink(lvl, o); pool_.destroy(o);` -/
def drop (w : Fill A I P) (a : A) : Fill A I P :=
  let (p, lvl) := unlink w.pool w.lvl a
  { w with
    orders := Index.erase w.orders (Allocator.deref w.pool a).id
    pool := Allocator.destroy p a
    lvl := lvl }

/-- `o->qty -= take; lvl.total_qty -= take;` -/
def reduce (w : Fill A I P) (a : A) (take : Qty) : Fill A I P :=
  let o := Allocator.deref w.pool a
  { w with
    pool := Allocator.write w.pool a { o with qty := o.qty - take }
    lvl := { w.lvl with totalQty := w.lvl.totalQty - take.toUInt64 } }

end Fill

/-- The inner loop of `match`, from the order `o` on. -/
def fillLevel (stp : Stp) (stpOn : Bool) (taker : OrderId) (owner : Owner) :
    ℕ → Option A → Fill A I P → Fill A I P
  | 0, _, w => w
  | _ + 1, none, w => w
  | n + 1, some a, w =>
      let o := Allocator.deref w.pool a
      if stpOn = true ∧ owner ≠ 0 ∧ o.owner = owner then
        if stp = .rejectIncoming then { w with stopped := true }
        else fillLevel stp stpOn taker owner n o.next ((w.emit (.cancel o.id o.owner)).drop a)
      else if w.qty < o.qty then
        let w := (w.reduce a w.qty).emit (.trade taker o.id w.lvl.price w.qty)
        { w with qty := 0 }
      else
        let w := { w with qty := w.qty - o.qty }
        let w := (w.emit (.trade taker o.id w.lvl.price o.qty)).drop a
        if w.qty = 0 then w else fillLevel stp stpOn taker owner n o.next w

/-- The variables of `match` between levels; `qty` as in `Fill`. -/
structure Sweep (B : Type) where
  book : B
  qty : Qty
  stopped : Bool
  tape : List Event

/-- What `match` leaves: `MatchOutcome`, with the book and the tape. -/
structure Matched (B : Type) where
  book : B
  filled : Qty
  stpStopped : Bool
  tape : List Event

/-- The end of an outer iteration: `lvl` is back in the book, and off the ladder if empty. -/
def settle (b : Book L I P) (s : Side) (best : Int) (w : Fill A I P) : Book L I P :=
  let l := Ladder.setLevel (b.ladder s) best w.lvl
  let l := if w.lvl.head.isNone then Ladder.emptied s l best w.lvl.price else l
  { b with pool := w.pool, orders := w.orders }.withLadder s l

/-- The outer loop of `match`, for a taker of side `s`. -/
def matchLevels (stpOn : Bool) (s : Side) (taker : OrderId) (limit : Int) (owner : Owner) :
    ℕ → Book L I P → Qty → Sweep (Book L I P)
  | 0, b, remaining => ⟨b, remaining, false, []⟩
  | n + 1, b, remaining =>
      if remaining = 0 then ⟨b, remaining, false, []⟩
      else match Ladder.best? s.opp (b.ladder s.opp) with
        | none => ⟨b, remaining, false, []⟩
        | some best =>
            if crosses s best limit then
              let lvl := Ladder.level (b.ladder s.opp) best
              let w := fillLevel b.stp stpOn taker owner (Index.size b.orders + 1) lvl.head
                ⟨b.pool, b.orders, lvl, remaining, false, []⟩
              let b := b.settle s.opp best w
              if w.stopped then ⟨b, w.qty, true, w.tape⟩
              else
                let m := matchLevels stpOn s taker limit owner n b w.qty
                { m with tape := w.tape ++ m.tape }
            else ⟨b, remaining, false, []⟩

/-- `match<S, StpOn>`. -/
def matchOrders (b : Book L I P) (stpOn : Bool) (s : Side) (taker : OrderId) (limit : Int)
    (want : Qty) (owner : Owner) : Matched (Book L I P) :=
  let m := matchLevels stpOn s taker limit owner (Index.size b.orders + 1) b want
  ⟨m.book, want - m.qty, m.stopped, m.tape⟩

/-! ### Fill-or-kill -/

/-- The walk over one level with self-trade prevention on: an early `return` is an error. -/
def fokOrders (b : Book L I P) (qty : Qty) (owner : Owner) :
    ℕ → Option A → UInt64 → Except Bool UInt64
  | 0, _, avail => .ok avail
  | _ + 1, none, avail => .ok avail
  | n + 1, some a, avail =>
      let o := Allocator.deref b.pool a
      if owner ≠ 0 ∧ o.owner = owner then
        if b.stp = .rejectIncoming then .error false
        else fokOrders b qty owner n o.next avail
      else
        let avail := avail + o.qty.toUInt64
        if qty.toUInt64 ≤ avail then .error true else fokOrders b qty owner n o.next avail

/-- The walk over the levels, at the price `lvlPx`. -/
def fokLevels (b : Book L I P) (stpOn : Bool) (s : Side) (px : Int) (qty : Qty) (owner : Owner) :
    ℕ → Option Int → UInt64 → Bool
  | 0, _, avail => decide (qty.toUInt64 ≤ avail)
  | _ + 1, none, avail => decide (qty.toUInt64 ≤ avail)
  | n + 1, some lvlPx, avail =>
      if crosses s lvlPx px then
        let lvl := Ladder.level (b.ladder s.opp) lvlPx
        let avail? := if stpOn then fokOrders b qty owner (Index.size b.orders + 1) lvl.head avail
          else .ok (avail + lvl.totalQty)
        match avail? with
        | .error fillable => fillable
        | .ok avail =>
            if qty.toUInt64 ≤ avail then true
            else fokLevels b stpOn s px qty owner n
              (Ladder.worse? s.opp (b.ladder s.opp) lvlPx) avail
      else decide (qty.toUInt64 ≤ avail)

def fokFillable (b : Book L I P) (stpOn : Bool) (s : Side) (px : Int) (qty : Qty)
    (owner : Owner) : Bool :=
  fokLevels b stpOn s px qty owner (Index.size b.orders + 1)
    (Ladder.best? s.opp (b.ladder s.opp)) 0

/-! ### Public operations -/

/-- The answer to a request that fails validation. -/
def rejection : SubmitResult := { filled := 0, rested := false, rejected := true }

def execute (b : Book L I P) (s : Side) (id : OrderId) (px : Int) (qty : Qty) (tif : Tif)
    (owner : Owner) : Book L I P × SubmitResult × List Event :=
  let stpOn := decide (b.stp ≠ .none)
  if tif = .fok ∧ b.fokFillable stpOn s px qty owner = false then (b, rejection, [])
  else
    let m := b.matchOrders stpOn s id px qty owner
    if m.stpStopped then
      (m.book, { filled := m.filled, rested := false, rejected := decide (m.filled = 0) }, m.tape)
    else if m.filled < qty ∧ tif = .gtc then
      (m.book.rest s id px (qty - m.filled) owner,
        { filled := m.filled, rested := true, rejected := false }, m.tape)
    else (m.book, { filled := m.filled, rested := false, rejected := false }, m.tape)

def submitLimit (b : Book L I P) (id : OrderId) (s : Side) (px : Int) (qty : Qty) (tif : Tif)
    (owner : Owner) : Book L I P × SubmitResult × List Event :=
  if id = 0 ∨ qty = 0 ∨ Ladder.inBand b.bids px = false then (b, rejection, [])
  else if (Index.find b.orders id).isSome then (b, rejection, [])
  else b.execute s id px qty tif owner

/-- The price bound of a market order; `none` rejects it for want of a reference price. -/
def marketLimit (b : Book L I P) (s : Side) : Option Int :=
  if 0 < b.protection then
    (Ladder.best? s.opp (b.ladder s.opp)).map fun ref =>
      match s with
      | .bid => wrapPrice (ref + b.protection)
      | .ask => wrapPrice (ref - b.protection)
  else some s.marketPrice

def submitMarket (b : Book L I P) (id : OrderId) (s : Side) (qty : Qty) (owner : Owner) :
    Book L I P × Qty × List Event :=
  if id = 0 ∨ qty = 0 ∨ (Index.find b.orders id).isSome then (b, 0, [])
  else match b.marketLimit s with
    | none => (b, 0, [])
    | some limit =>
        let m := b.matchOrders (decide (b.stp ≠ .none)) s id limit qty owner
        (m.book, m.filled, m.tape)

/-- The order at `a` leaves the index, the book and the pool. -/
def eraseOrder (b : Book L I P) (id : OrderId) (a : A) : Book L I P :=
  let b := { b with orders := Index.erase b.orders id }.removeFromBook a
  { b with pool := Allocator.destroy b.pool a }

def cancel (b : Book L I P) (id : OrderId) : Book L I P × Bool :=
  match Index.find b.orders id with
  | none => (b, false)
  | some a => (b.eraseOrder id a, true)

/-- The in-place amend: only the level's total and the order's quantity change. -/
def amend (b : Book L I P) (a : A) (newQty : Qty) : Book L I P :=
  let o := Allocator.deref b.pool a
  let l := b.ladder o.level.side
  let lvl := Ladder.level l o.level.price
  { b with pool := Allocator.write b.pool a { o with qty := newQty } }.withLadder o.level.side
    (Ladder.setLevel l o.level.price
      { lvl with totalQty := lvl.totalQty - (o.qty - newQty).toUInt64 })

/-- `modify`, over the `submit_limit` of the engine. -/
def modifyWith (submit : Book L I P → OrderId → Side → Int → Qty → Tif → Owner →
    Book L I P × SubmitResult × List Event)
    (b : Book L I P) (id : OrderId) (newPx : Int) (newQty : Qty) :
    Book L I P × ModifyResult × List Event :=
  match Index.find b.orders id with
  | none => (b, { ok := false, filled := 0, rested := false, found := false }, [])
  | some a =>
      if newQty = 0 ∨ Ladder.inBand b.bids newPx = false then
        (b, { ok := false, filled := 0, rested := false, found := true }, [])
      else
        let o := Allocator.deref b.pool a
        if newPx = o.price ∧ newQty ≤ o.qty then
          (b.amend a newQty, { ok := true, filled := 0, rested := true, found := true }, [])
        else
          let (b, r, tape) := submit (b.eraseOrder id a) id o.side newPx newQty .gtc o.owner
          (b, { ok := true, filled := r.filled, rested := r.rested, found := true }, tape)

def modify (b : Book L I P) : OrderId → Int → Qty → Book L I P × ModifyResult × List Event :=
  modifyWith submitLimit b

/-- One call of the public interface, over the submit functions of the engine. -/
def callWith (submitLimit : Book L I P → OrderId → Side → Int → Qty → Tif → Owner →
      Book L I P × SubmitResult × List Event)
    (submitMarket : Book L I P → OrderId → Side → Qty → Owner → Book L I P × Qty × List Event)
    (b : Book L I P) : Op → Book L I P × Answer
  | .submitLimit id s px qty tif owner =>
      let (b, r, tape) := submitLimit b id s px qty tif owner
      (b, .submit r, tape)
  | .submitMarket id s qty owner =>
      let (b, filled, tape) := submitMarket b id s qty owner
      (b, .market filled, tape)
  | .cancel id =>
      let (b, ok) := b.cancel id
      (b, .cancel ok, [])
  | .modify id newPx newQty =>
      let (b, r, tape) := modifyWith submitLimit b id newPx newQty
      (b, .modify r, tape)

def call (b : Book L I P) : Op → Book L I P × Answer := callWith submitLimit submitMarket b

/-! ### Observers -/

/-- `best_bid()` and `best_ask()`. -/
def best (b : Book L I P) (s : Side) : Int := (Ladder.best? s (b.ladder s)).getD kNoPrice

def qtyAt (b : Book L I P) (s : Side) (px : Int) : UInt64 :=
  if Ladder.inBand b.bids px then (Ladder.level (b.ladder s) px).totalQty else 0

def ordersAt (b : Book L I P) (s : Side) (px : Int) : UInt32 :=
  if Ladder.inBand b.bids px then (Ladder.level (b.ladder s) px).count else 0

def restingOrders (b : Book L I P) : ℕ := Index.size b.orders

/-- The loop of `top_levels`, with room for `n` more levels. -/
def topLevelsFrom (b : Book L I P) (s : Side) : ℕ → Option Int → List (Int × UInt64)
  | 0, _ => []
  | _ + 1, none => []
  | n + 1, some px =>
      (px, (Ladder.level (b.ladder s) px).totalQty) ::
        topLevelsFrom b s n (Ladder.worse? s (b.ladder s) px)

def topLevels (b : Book L I P) (s : Side) (n : ℕ) : List (Int × UInt64) :=
  topLevelsFrom b s n (Ladder.best? s (b.ladder s))

/-! ### The engines `v4` and `v5`

Neither reserves id `0` nor caps market orders; `v4` accepts every positive price, `v5` those of
its band. -/

namespace V4

def submitLimit (b : Book L I P) (id : OrderId) (s : Side) (px : Int) (qty : Qty) (tif : Tif)
    (owner : Owner) : Book L I P × SubmitResult × List Event :=
  if qty = 0 ∨ Ladder.inBand b.bids px = false then (b, rejection, [])
  else if (Index.find b.orders id).isSome then (b, rejection, [])
  else b.execute s id px qty tif owner

def submitMarket (b : Book L I P) (id : OrderId) (s : Side) (qty : Qty) (owner : Owner) :
    Book L I P × Qty × List Event :=
  if qty = 0 ∨ (Index.find b.orders id).isSome then (b, 0, [])
  else
    let m := b.matchOrders (decide (b.stp ≠ .none)) s id s.marketPrice qty owner
    (m.book, m.filled, m.tape)

def call (b : Book L I P) : Op → Book L I P × Answer := callWith submitLimit submitMarket b

end V4

/-! ### The engine `v1`

Its fill loop counts `filled` up to `want`, takes the smaller of the two quantities, and unlinks
a maker once nothing of it is left. -/

namespace V1

/-- The inner loop of `match`. -/
def fillLevel (stp : Stp) (taker : OrderId) (want : Qty) (owner : Owner) :
    ℕ → Option A → Fill A I P → Fill A I P
  | 0, _, w => w
  | _ + 1, none, w => w
  | n + 1, some a, w =>
      if w.qty < want then
        let o := Allocator.deref w.pool a
        if owner ≠ 0 ∧ o.owner = owner ∧ stp ≠ .none then
          if stp = .rejectIncoming then { w with stopped := true }
          else fillLevel stp taker want owner n o.next ((w.emit (.cancel o.id o.owner)).drop a)
        else
          let take := if o.qty < want - w.qty then o.qty else want - w.qty
          let w := { w.reduce a take with qty := w.qty + take }
          let w := w.emit (.trade taker o.id w.lvl.price take)
          let w := if o.qty - take = 0 then w.drop a else w
          fillLevel stp taker want owner n o.next w
      else w

/-- The outer loop of `match`. -/
def matchLevels (s : Side) (taker : OrderId) (limit : Int) (want : Qty) (owner : Owner) :
    ℕ → Book L I P → Qty → Sweep (Book L I P)
  | 0, b, filled => ⟨b, filled, false, []⟩
  | n + 1, b, filled =>
      if filled < want then
        match Ladder.best? s.opp (b.ladder s.opp) with
        | none => ⟨b, filled, false, []⟩
        | some best =>
            if crosses s best limit then
              let lvl := Ladder.level (b.ladder s.opp) best
              let w := fillLevel b.stp taker want owner (Index.size b.orders + 1) lvl.head
                ⟨b.pool, b.orders, lvl, filled, false, []⟩
              let b := b.settle s.opp best w
              if w.stopped then ⟨b, w.qty, true, w.tape⟩
              else
                let m := matchLevels s taker limit want owner n b w.qty
                { m with tape := w.tape ++ m.tape }
            else ⟨b, filled, false, []⟩
      else ⟨b, filled, false, []⟩

def matchOrders (b : Book L I P) (s : Side) (taker : OrderId) (limit : Int) (want : Qty)
    (owner : Owner) : Matched (Book L I P) :=
  let m := matchLevels s taker limit want owner (Index.size b.orders + 1) b 0
  ⟨m.book, m.qty, m.stopped, m.tape⟩

/-- The test of the policy is made per level here. -/
def fokFillable (b : Book L I P) : Side → Int → Qty → Owner → Bool :=
  Book.fokFillable b (decide (b.stp ≠ .none))

def execute (b : Book L I P) (s : Side) (id : OrderId) (px : Int) (qty : Qty) (tif : Tif)
    (owner : Owner) : Book L I P × SubmitResult × List Event :=
  if tif = .fok ∧ fokFillable b s px qty owner = false then (b, rejection, [])
  else
    let m := matchOrders b s id px qty owner
    let rem := qty - m.filled
    if m.stpStopped then
      (m.book, { filled := m.filled, rested := false, rejected := decide (m.filled = 0) }, m.tape)
    else if 0 < rem ∧ tif = .gtc then
      (m.book.rest s id px rem owner,
        { filled := m.filled, rested := true, rejected := false }, m.tape)
    else (m.book, { filled := m.filled, rested := false, rejected := false }, m.tape)

def submitLimit (b : Book L I P) (id : OrderId) (s : Side) (px : Int) (qty : Qty) (tif : Tif)
    (owner : Owner) : Book L I P × SubmitResult × List Event :=
  if qty = 0 ∨ Ladder.inBand b.bids px = false then (b, rejection, [])
  else if (Index.find b.orders id).isSome then (b, rejection, [])
  else execute b s id px qty tif owner

def submitMarket (b : Book L I P) (id : OrderId) (s : Side) (qty : Qty) (owner : Owner) :
    Book L I P × Qty × List Event :=
  if qty = 0 ∨ (Index.find b.orders id).isSome then (b, 0, [])
  else
    let m := matchOrders b s id s.marketPrice qty owner
    (m.book, m.filled, m.tape)

def call (b : Book L I P) : Op → Book L I P × Answer := callWith submitLimit submitMarket b

end V1

end parts

end Book

end Lob
