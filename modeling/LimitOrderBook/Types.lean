import Mathlib.Algebra.Group.Int.Defs
import Mathlib.Algebra.GroupWithZero.Nat
import Mathlib.Data.List.Basic
import Mathlib.Data.List.Pairwise
import Mathlib.Order.Defs.Unbundled
import Mathlib.Tactic.Common

/-! # Vocabulary of the matching engine

The types of `include/lob/types.hpp`.  Identifiers, owners and quantities keep their machine
widths (`OrderId` is 64 bits, `Owner` and `Qty` are 32); a `Price` is an `Int` number of
ticks, and the one place where its 64-bit range matters (the protection bound of a market
order) wraps explicitly.

The listener of an engine is an event sink: it is called back during matching and the engine
never reads it.  A call therefore returns the events it emitted, in order, and a listener is a
fold over them. -/

namespace Lob

abbrev Qty := UInt32
abbrev OrderId := UInt64
abbrev Owner := UInt32

inductive Side where
  | bid
  | ask
deriving DecidableEq, Repr, Inhabited

inductive Tif where
  | gtc
  | ioc
  | fok
deriving DecidableEq, Repr, Inhabited

inductive Stp where
  | none
  | cancelResting
  | rejectIncoming
deriving DecidableEq, Repr, Inhabited

/-- `best_bid()` and `best_ask()` on an empty side. -/
def kNoPrice : Int := 0
def kMaxPrice : Int := 2 ^ 63 - 1
def kMinPrice : Int := -2 ^ 63

/-- Two's-complement reading of an integer in the 64-bit range of `Price`. -/
def wrapPrice (x : Int) : Int := Int.bmod x (2 ^ 64)

theorem wrapPrice_eq {x : Int} (hlo : -2 ^ 63 ≤ x) (hhi : x < 2 ^ 63) : wrapPrice x = x :=
  Int.bmod_eq_of_le (by omega) (by omega)

structure SubmitResult where
  filled : Qty
  rested : Bool
  rejected : Bool
deriving DecidableEq, Repr, Inhabited

structure ModifyResult where
  ok : Bool
  filled : Qty
  rested : Bool
  found : Bool
deriving DecidableEq, Repr, Inhabited

/-- One callback of the listener: `on_trade` or `on_cancel`. -/
inductive Event where
  | trade (taker maker : OrderId) (px : Int) (qty : Qty)
  | cancel (id : OrderId) (owner : Owner)
deriving DecidableEq, Repr

/-- The four public operations, with their arguments. -/
inductive Op where
  | submitLimit (id : OrderId) (side : Side) (px : Int) (qty : Qty) (tif : Tif) (owner : Owner)
  | submitMarket (id : OrderId) (side : Side) (qty : Qty) (owner : Owner)
  | cancel (id : OrderId)
  | modify (id : OrderId) (newPx : Int) (newQty : Qty)
deriving DecidableEq, Repr

/-- The id under which an operation brings in an order is not `0`. -/
def Op.NamesOrder : Op → Prop
  | .submitLimit id .. => id ≠ 0
  | .submitMarket id .. => id ≠ 0
  | .cancel _ => True
  | .modify .. => True

instance : DecidablePred Op.NamesOrder := fun op =>
  match op with
  | .submitLimit id .. => inferInstanceAs (Decidable (id ≠ 0))
  | .submitMarket id .. => inferInstanceAs (Decidable (id ≠ 0))
  | .cancel _ => inferInstanceAs (Decidable True)
  | .modify .. => inferInstanceAs (Decidable True)

/-- The id of an operation. -/
def Op.id : Op → OrderId
  | .submitLimit id .. => id
  | .submitMarket id .. => id
  | .cancel id => id
  | .modify id .. => id

/-- The id under which an operation brings in an order. -/
def Op.newId? : Op → Option OrderId
  | .submitLimit id .. => some id
  | .submitMarket id .. => some id
  | .cancel _ => none
  | .modify .. => none

/-- The price under which an operation enters the book. -/
def Op.price? : Op → Option Int
  | .submitLimit _ _ px .. => some px
  | .submitMarket .. => none
  | .cancel _ => none
  | .modify _ px _ => some px

/-- What a public operation returns. -/
inductive Reply where
  | submit (r : SubmitResult)
  | market (filled : Qty)
  | cancel (ok : Bool)
  | modify (r : ModifyResult)
deriving DecidableEq, Repr

/-- The answer to one call: its return value and its tape. -/
abbrev Answer := Reply × List Event

namespace Side

def opp : Side → Side
  | bid => ask
  | ask => bid

/-- The most aggressive limit of a side: a market order is a limit order at this price. -/
def marketPrice : Side → Int
  | bid => kMaxPrice
  | ask => kMinPrice

@[simp] theorem opp_opp (s : Side) : s.opp.opp = s := by cases s <;> rfl

@[simp] theorem opp_ne (s : Side) : s.opp ≠ s := by cases s <;> decide

@[simp] theorem ne_opp (s : Side) : s ≠ s.opp := by cases s <;> decide

theorem eq_or_eq_opp (s t : Side) : t = s ∨ t = s.opp := by cases s <;> cases t <;> decide

end Side

/-- Is `a` strictly better than `b` on side `s`: higher for bids, lower for asks. -/
def better (s : Side) (a b : Int) : Prop :=
  match s with
  | .bid => b < a
  | .ask => a < b

instance (s : Side) : DecidableRel (better s) := fun a b => by
  cases s <;> unfold better <;> infer_instance

instance (s : Side) : IsStrictTotalOrder Int (better s) where
  irrefl a := by cases s <;> simp [better]
  trans a b c h₁ h₂ := by cases s <;> simp only [better] at * <;> omega
  trichotomous a b h₁ h₂ := by cases s <;> simp only [better] at * <;> omega

/-- Does a resting level at `bookPx` cross an incoming order of side `s` limited at
`limitPx`? -/
def crosses (s : Side) (bookPx limitPx : Int) : Bool :=
  match s with
  | .bid => decide (bookPx ≤ limitPx)
  | .ask => decide (limitPx ≤ bookPx)

/-- A price no worse than a crossing one crosses too. -/
theorem crosses_of_not_better {s : Side} {p q l : Int} (hp : crosses s p l = true)
    (hq : ¬ better s.opp p q) : crosses s q l = true := by
  cases s <;> simp only [crosses, better, Side.opp, decide_eq_true_eq] at * <;> omega

end Lob
