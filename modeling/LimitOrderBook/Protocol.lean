import LimitOrderBook.Types
import LimitOrderBook.Wire

/-! # The wire protocol

The messages of `net/protocol.hpp`.  A frame is a 16-bit length, a type byte and a payload of
little-endian fields; the length counts the type byte and the payload.  A price is a 64-bit
two's-complement field.

`encodeFrame` gives the bytes of a frame, or `none` where the source returns `0` because the
buffer is too small.  The decoders read a body, which starts at the type byte, and refuse it when
a field is cut off, an enumeration is out of range or bytes are left over. -/

namespace Lob

open Wire

inductive MsgType where
  | newOrder
  | cancel
  | modify
  | market
  | execReport
  | trade
  | book
deriving DecidableEq, Repr

structure NewOrderMsg where
  id : OrderId
  px : Int
  qty : Qty
  side : Side
  tif : Tif
deriving DecidableEq, Repr

structure CancelMsg where
  id : OrderId
deriving DecidableEq, Repr

structure ModifyMsg where
  id : OrderId
  newPx : Int
  newQty : Qty
deriving DecidableEq, Repr

structure MarketMsg where
  id : OrderId
  qty : Qty
  side : Side
deriving DecidableEq, Repr

inductive ExecStatus where
  | accepted
  | filled
  | partialRest
  | partialDone
  | rejected
  | canceled
  | replaced
  | unknown
deriving DecidableEq, Repr

structure ExecReportMsg where
  id : OrderId
  filled : Qty
  status : ExecStatus
deriving DecidableEq, Repr

structure TradeMsg where
  seq : UInt64
  px : Int
  qty : Qty
  takerSide : Side
deriving DecidableEq, Repr

def kBookDepth : ℕ := 5

/-- The levels of a side, each a price and a quantity. -/
structure BookMsg where
  seq : UInt64
  bids : Vector (Int × UInt64) kBookDepth
  asks : Vector (Int × UInt64) kBookDepth
deriving DecidableEq, Repr

/-! ### Enumerations -/

def MsgType.code : MsgType → UInt8
  | newOrder => 1
  | cancel => 2
  | modify => 3
  | market => 4
  | execReport => 16
  | trade => 32
  | book => 33

def Side.code : Side → UInt8
  | .bid => 0
  | .ask => 1

def Tif.code : Tif → UInt8
  | .gtc => 0
  | .ioc => 1
  | .fok => 2

def ExecStatus.code : ExecStatus → UInt8
  | accepted => 0
  | filled => 1
  | partialRest => 2
  | partialDone => 3
  | rejected => 4
  | canceled => 5
  | replaced => 6
  | unknown => 7

/-- The member of `all` with the given code. -/
def ofCode? {α : Type} (all : List α) (code : α → UInt8) (b : UInt8) : Option α :=
  all.find? fun a => decide (code a = b)

/-! ### Encoding -/

def putU8 (x : UInt8) : List UInt8 := bytes 1 x.toNat

def putU32 (x : UInt32) : List UInt8 := bytes 4 x.toNat

def putU64 (x : UInt64) : List UInt8 := bytes 8 x.toNat

def putPrice (x : Int) : List UInt8 := bytes 8 (x % 2 ^ 64).toNat

/-- A frame, in a buffer of `cap` bytes. -/
def encodeFrame (cap : ℕ) (t : MsgType) (payload : List UInt8) : Option (List UInt8) :=
  let frame := bytes 2 (1 + payload.length) ++ (putU8 t.code ++ payload)
  if frame.length ≤ cap then some frame else none

def NewOrderMsg.encode (cap : ℕ) (m : NewOrderMsg) : Option (List UInt8) :=
  encodeFrame cap .newOrder
    (putU64 m.id ++ putPrice m.px ++ putU32 m.qty ++ putU8 m.side.code ++ putU8 m.tif.code)

def CancelMsg.encode (cap : ℕ) (m : CancelMsg) : Option (List UInt8) :=
  encodeFrame cap .cancel (putU64 m.id)

def ModifyMsg.encode (cap : ℕ) (m : ModifyMsg) : Option (List UInt8) :=
  encodeFrame cap .modify (putU64 m.id ++ putPrice m.newPx ++ putU32 m.newQty)

def MarketMsg.encode (cap : ℕ) (m : MarketMsg) : Option (List UInt8) :=
  encodeFrame cap .market (putU64 m.id ++ putU32 m.qty ++ putU8 m.side.code)

def ExecReportMsg.encode (cap : ℕ) (m : ExecReportMsg) : Option (List UInt8) :=
  encodeFrame cap .execReport (putU64 m.id ++ putU32 m.filled ++ putU8 m.status.code)

def TradeMsg.encode (cap : ℕ) (m : TradeMsg) : Option (List UInt8) :=
  encodeFrame cap .trade (putU64 m.seq ++ putPrice m.px ++ putU32 m.qty ++ putU8 m.takerSide.code)

def BookMsg.encode (cap : ℕ) (m : BookMsg) : Option (List UInt8) :=
  encodeFrame cap .book (putU64 m.seq ++
    (m.bids.toList ++ m.asks.toList).flatMap fun l => putPrice l.1 ++ putU64 l.2)

/-! ### Decoding -/

def getU8 : Reader UInt8 := UInt8.ofNat <$> Reader.field 1

def getU32 : Reader UInt32 := UInt32.ofNat <$> Reader.field 4

def getU64 : Reader UInt64 := UInt64.ofNat <$> Reader.field 8

def getPrice : Reader Int := (fun n => wrapPrice n) <$> Reader.field 8

/-- One byte that must be the code of a member of `all`. -/
def getEnum {α : Type} (all : List α) (code : α → UInt8) : Reader α := do
  let b ← getU8
  StateT.lift (ofCode? all code b)

def getSide : Reader Side := getEnum [.bid, .ask] Side.code

def getTif : Reader Tif := getEnum [.gtc, .ioc, .fok] Tif.code

def getStatus : Reader ExecStatus :=
  getEnum [.accepted, .filled, .partialRest, .partialDone, .rejected, .canceled, .replaced, .unknown]
    ExecStatus.code

def peekType (body : List UInt8) : Option UInt8 := body.head?

/-- The payload must parse, with no byte left over. -/
def decodeBody {α : Type} (parse : Reader α) (body : List UInt8) : Option α := do
  let (m, rest) ← parse (body.drop 1)
  if rest = [] then some m else none

def decodeNewOrder : List UInt8 → Option NewOrderMsg :=
  decodeBody do
    let id ← getU64
    let px ← getPrice
    let qty ← getU32
    let side ← getSide
    let tif ← getTif
    return ⟨id, px, qty, side, tif⟩

def decodeCancel : List UInt8 → Option CancelMsg :=
  decodeBody do
    let id ← getU64
    return ⟨id⟩

def decodeModify : List UInt8 → Option ModifyMsg :=
  decodeBody do
    let id ← getU64
    let newPx ← getPrice
    let newQty ← getU32
    return ⟨id, newPx, newQty⟩

def decodeMarket : List UInt8 → Option MarketMsg :=
  decodeBody do
    let id ← getU64
    let qty ← getU32
    let side ← getSide
    return ⟨id, qty, side⟩

def decodeExecReport : List UInt8 → Option ExecReportMsg :=
  decodeBody do
    let id ← getU64
    let filled ← getU32
    let status ← getStatus
    return ⟨id, filled, status⟩

def decodeTrade : List UInt8 → Option TradeMsg :=
  decodeBody do
    let seq ← getU64
    let px ← getPrice
    let qty ← getU32
    let takerSide ← getSide
    return ⟨seq, px, qty, takerSide⟩

/-- The loop over the levels of a side. -/
def getLevels : (n : ℕ) → Reader (Vector (Int × UInt64) n)
  | 0 => return #v[]
  | n + 1 => do
      let levels ← getLevels n
      let px ← getPrice
      let qty ← getU64
      return levels.push (px, qty)

def decodeBook : List UInt8 → Option BookMsg :=
  decodeBody do
    let seq ← getU64
    let bids ← getLevels kBookDepth
    let asks ← getLevels kBookDepth
    return ⟨seq, bids, asks⟩

/-! ### What a client may send -/

/-- A message from a client. -/
inductive Request where
  | newOrder (m : NewOrderMsg)
  | market (m : MarketMsg)
  | cancel (m : CancelMsg)
  | modify (m : ModifyMsg)
deriving DecidableEq, Repr

/-- The decoder that `handle_frame` picks by the type byte; `none` where it drops the
connection. -/
def decodeRequest (body : List UInt8) : Option Request := do
  match ← ofCode? [MsgType.newOrder, .market, .cancel, .modify] MsgType.code (← peekType body) with
  | .newOrder => Request.newOrder <$> decodeNewOrder body
  | .market => Request.market <$> decodeMarket body
  | .cancel => Request.cancel <$> decodeCancel body
  | .modify => Request.modify <$> decodeModify body
  | _ => none

namespace Request

/-- The client id of a request. -/
def id : Request → OrderId
  | newOrder m => m.id
  | market m => m.id
  | cancel m => m.id
  | modify m => m.id

def rename (f : OrderId → OrderId) : Request → Request
  | newOrder m => newOrder { m with id := f m.id }
  | market m => market { m with id := f m.id }
  | cancel m => cancel { m with id := f m.id }
  | modify m => modify { m with id := f m.id }

end Request

def ExecReportMsg.rename (f : OrderId → OrderId) (m : ExecReportMsg) : ExecReportMsg :=
  { m with id := f m.id }

/-- A body with the id of its message, which follows the type byte, renamed. -/
def renameBody (f : OrderId → OrderId) (body : List UInt8) : List UInt8 :=
  match getU64 (body.drop 1) with
  | some (id, rest) => body.take 1 ++ (putU64 (f id) ++ rest)
  | none => body

/-! ### Renaming the id of a message -/

theorem getU64_putU64 (x : UInt64) (bs : List UInt8) : getU64 (putU64 x ++ bs) = some (x, bs) := by
  have hlt : x.toNat < 256 ^ 8 := by
    have := x.toNat_lt
    omega
  have h : Reader.field 8 (putU64 x ++ bs) = some (x.toNat, bs) := Reader.field_bytes hlt bs
  simp only [getU64, Functor.map, StateT.map, h, Option.bind_eq_bind, Option.bind_some,
    UInt64.ofNat_toNat]
  rfl

section decodeBody

variable {α : Type}

theorem decodeBody_getU64 (k : OrderId → Reader α) (b : UInt8) (bs : List UInt8) :
    decodeBody (getU64 >>= k) (b :: bs) =
      (getU64 bs).bind fun x => decodeBody (k x.1) (b :: x.2) := by
  simp only [decodeBody, List.drop_succ_cons, List.drop_zero, bind, StateT.bind, Option.bind_assoc]

theorem decodeBody_map (g : α → α) (parse : Reader α) (body : List UInt8) :
    decodeBody (g <$> parse) body = (decodeBody parse body).map g := by
  simp only [decodeBody, Functor.map, StateT.map, Option.bind_eq_bind]
  rcases parse (body.drop 1) with _ | ⟨m, _ | ⟨c, bs⟩⟩ <;> rfl

theorem renameBody_cons (f : OrderId → OrderId) (b : UInt8) (bs : List UInt8) :
    renameBody f (b :: bs) = b :: match getU64 bs with
      | some (id, rest) => putU64 (f id) ++ rest
      | none => bs := by
  simp only [renameBody, List.drop_succ_cons, List.drop_zero]
  cases getU64 bs <;> rfl

/-- A decoder that reads the id first and only passes it on. -/
theorem decodeBody_rename {k : OrderId → Reader α} {f : OrderId → OrderId} {g : α → α}
    (hk : ∀ id, k (f id) = g <$> k id) (b : UInt8) (bs : List UInt8) :
    decodeBody (getU64 >>= k) (renameBody f (b :: bs)) =
      (decodeBody (getU64 >>= k) (b :: bs)).map g := by
  rw [renameBody_cons, decodeBody_getU64, decodeBody_getU64]
  cases hget : getU64 bs with
  | none => rw [hget]; rfl
  | some x =>
      simp only [getU64_putU64, Option.bind_some]
      rw [hk, decodeBody_map]

end decodeBody

/-- A decoder sees the renamed id, and no other change. -/
theorem decodeRequest_rename (f : OrderId → OrderId) (body : List UInt8) :
    decodeRequest (renameBody f body) = (decodeRequest body).map (Request.rename f) := by
  cases body with
  | nil => rfl
  | cons b bs =>
      have hnew : decodeNewOrder (renameBody f (b :: bs)) =
          (decodeNewOrder (b :: bs)).map fun m => { m with id := f m.id } :=
        decodeBody_rename (fun id => by simp only [map_bind, map_pure]) b bs
      have hmarket : decodeMarket (renameBody f (b :: bs)) =
          (decodeMarket (b :: bs)).map fun m => { m with id := f m.id } :=
        decodeBody_rename (fun id => by simp only [map_bind, map_pure]) b bs
      have hcancel : decodeCancel (renameBody f (b :: bs)) =
          (decodeCancel (b :: bs)).map fun m => { m with id := f m.id } :=
        decodeBody_rename (fun id => by simp only [map_pure]) b bs
      have hmodify : decodeModify (renameBody f (b :: bs)) =
          (decodeModify (b :: bs)).map fun m => { m with id := f m.id } :=
        decodeBody_rename (fun id => by simp only [map_bind, map_pure]) b bs
      have hpeek : peekType (renameBody f (b :: bs)) = some b := by
        rw [renameBody_cons]
        rfl
      have hpeek' : peekType (b :: bs) = some b := rfl
      simp only [decodeRequest, hpeek, hpeek', hnew, hmarket, hcancel, hmodify,
        Option.bind_eq_bind, Option.bind_some]
      cases ofCode? [MsgType.newOrder, .market, .cancel, .modify] MsgType.code b with
      | none => rfl
      | some t =>
          cases t with
          | newOrder => cases decodeNewOrder (b :: bs) <;> rfl
          | market => cases decodeMarket (b :: bs) <;> rfl
          | cancel => cases decodeCancel (b :: bs) <;> rfl
          | modify => cases decodeModify (b :: bs) <;> rfl
          | execReport => rfl
          | trade => rfl
          | book => rfl

/-! ### Execution reports -/

/-- The bytes of a report; a buffer of 64 bytes holds them. -/
def ExecReportMsg.bytes (m : ExecReportMsg) : List UInt8 :=
  Wire.bytes 2 14 ++ (putU8 MsgType.execReport.code ++
    (putU64 m.id ++ putU32 m.filled ++ putU8 m.status.code))

@[simp] theorem ExecReportMsg.length_bytes (m : ExecReportMsg) : m.bytes.length = 16 := by
  simp [ExecReportMsg.bytes, putU8, putU64, putU32]

theorem ExecReportMsg.encode_eq (m : ExecReportMsg) : m.encode 64 = some m.bytes := by
  have hlen : (putU64 m.id ++ putU32 m.filled ++ putU8 m.status.code).length = 13 := by
    simp [putU8, putU64, putU32]
  have hle : m.bytes.length ≤ 64 := by
    rw [m.length_bytes]
    decide
  rw [ExecReportMsg.encode, encodeFrame, hlen]
  exact if_pos hle

end Lob
