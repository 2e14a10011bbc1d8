import Mathlib.Data.List.Forall2
import LimitOrderBook.FrameBuffer
import LimitOrderBook.Protocol

/-! # Messages in memory and on the stream

The encoders of `net/protocol.hpp` as they run: a `Writer` puts one field after the other into the
memory behind a pointer, skips a field that would not fit, and `finish` patches the length in front.
They write what the list encoders of `Protocol` give, return `0` exactly when a frame does not fit,
and leave every byte from the capacity on alone (`encodeFrameTo_spec`).

Each decoder takes the fields in the order in which the encoder of its message puts them
(`Message.decodes`), so a stream of frames comes out of a `FrameBuffer` as the messages that went
in, however it is cut (`roundTrip`). -/

namespace Lob

open Wire Frames Reader

/-! ### Writing -/

structure Writer where
  mem : ℕ → UInt8
  cap : ℕ
  pos : ℕ := 0

namespace Writer

def put (w : Writer) (field : List UInt8) : Writer :=
  { w with
    mem := if w.pos + field.length ≤ w.cap then store w.mem w.pos field else w.mem
    pos := w.pos + field.length }

def ok (w : Writer) : Bool := decide (w.pos ≤ w.cap)

end Writer

/-- The memory, and the size of the frame. -/
def finish (w : Writer) (bodyStart : ℕ) : (ℕ → UInt8) × ℕ :=
  if w.ok then (store w.mem 0 (bytes 2 (w.pos - bodyStart)), w.pos) else (w.mem, 0)

def encodeFrameTo (mem : ℕ → UInt8) (cap : ℕ) (t : MsgType) (fill : Writer → Writer) :
    (ℕ → UInt8) × ℕ :=
  let w : Writer := { mem := mem, cap := cap }
  finish (fill ((w.put (bytes 2 0)).put (putU8 t.code))) kHeaderLen

section encoders

variable (mem : ℕ → UInt8) (cap : ℕ)

def NewOrderMsg.encodeTo (m : NewOrderMsg) : (ℕ → UInt8) × ℕ :=
  encodeFrameTo mem cap .newOrder fun w =>
    ((((w.put (putU64 m.id)).put (putPrice m.px)).put (putU32 m.qty)).put
      (putU8 m.side.code)).put (putU8 m.tif.code)

def CancelMsg.encodeTo (m : CancelMsg) : (ℕ → UInt8) × ℕ :=
  encodeFrameTo mem cap .cancel fun w => w.put (putU64 m.id)

def ModifyMsg.encodeTo (m : ModifyMsg) : (ℕ → UInt8) × ℕ :=
  encodeFrameTo mem cap .modify fun w =>
    ((w.put (putU64 m.id)).put (putPrice m.newPx)).put (putU32 m.newQty)

def MarketMsg.encodeTo (m : MarketMsg) : (ℕ → UInt8) × ℕ :=
  encodeFrameTo mem cap .market fun w =>
    ((w.put (putU64 m.id)).put (putU32 m.qty)).put (putU8 m.side.code)

def ExecReportMsg.encodeTo (m : ExecReportMsg) : (ℕ → UInt8) × ℕ :=
  encodeFrameTo mem cap .execReport fun w =>
    ((w.put (putU64 m.id)).put (putU32 m.filled)).put (putU8 m.status.code)

def TradeMsg.encodeTo (m : TradeMsg) : (ℕ → UInt8) × ℕ :=
  encodeFrameTo mem cap .trade fun w =>
    (((w.put (putU64 m.seq)).put (putPrice m.px)).put (putU32 m.qty)).put (putU8 m.takerSide.code)

/-- The loop over the levels of a side. -/
def putLevels (w : Writer) (levels : List (Int × UInt64)) : Writer :=
  levels.foldl (fun w l => (w.put (putPrice l.1)).put (putU64 l.2)) w

def BookMsg.encodeTo (m : BookMsg) : (ℕ → UInt8) × ℕ :=
  encodeFrameTo mem cap .book fun w =>
    putLevels (putLevels (w.put (putU64 m.seq)) m.bids.toList) m.asks.toList

end encoders

/-! ### What is written -/

/-- A piece of an encoder writes the given bytes where they fit, and nothing at or beyond the
capacity. -/
structure Writes (fill : Writer → Writer) (payload : List UInt8) : Prop where
  pos : ∀ w, (fill w).pos = w.pos + payload.length
  cap : ∀ w, (fill w).cap = w.cap
  beyond : ∀ w i, w.cap ≤ i → (fill w).mem i = w.mem i
  before : ∀ w i, i < w.pos → (fill w).mem i = w.mem i
  written : ∀ w, w.pos + payload.length ≤ w.cap →
    load (fill w).mem w.pos payload.length = payload

namespace Writes

variable {f g : Writer → Writer} {p q : List UInt8}

theorem id : Writes (fun w => w) [] :=
  ⟨fun _ => rfl, fun _ => rfl, fun _ _ _ => rfl, fun _ _ _ => rfl, fun _ _ => rfl⟩

theorem comp (hf : Writes f p) (hg : Writes g q) : Writes (fun w => g (f w)) (p ++ q) where
  pos w := by rw [hg.pos, hf.pos, List.length_append, Nat.add_assoc]
  cap w := by rw [hg.cap, hf.cap]
  beyond w i hi := by rw [hg.beyond _ i (by rw [hf.cap]; exact hi), hf.beyond w i hi]
  before w i hi := by rw [hg.before _ i (by rw [hf.pos]; omega), hf.before w i hi]
  written w hle := by
    rw [List.length_append] at hle ⊢
    have hfirst : load (g (f w)).mem w.pos p.length = load (f w).mem w.pos p.length :=
      load_congr fun i hi => hg.before _ _ (by rw [hf.pos]; omega)
    rw [load_add, hfirst, hf.written w (by omega), ← hf.pos w,
      hg.written _ (by rw [hf.pos, hf.cap]; omega)]

theorem put (field : List UInt8) : Writes (fun w => w.put field) field where
  pos _ := rfl
  cap _ := rfl
  beyond w i hi := by
    unfold Writer.put
    simp only
    split_ifs with h
    · exact store_of_le (by omega)
    · rfl
  before w i hi := by
    unfold Writer.put
    simp only
    split_ifs
    · exact store_of_lt hi
    · rfl
  written w hle := by
    unfold Writer.put
    simp only [if_pos hle]
    exact load_store

theorem putLevels : ∀ levels : List (Int × UInt64), Writes (fun w => putLevels w levels)
    (levels.flatMap fun l => putPrice l.1 ++ putU64 l.2)
  | [] => .id
  | l :: levels => ((put (putPrice l.1)).comp (put (putU64 l.2))).comp (putLevels levels)

end Writes

/-- **An encoder writes the frame or returns `0`**, and never writes at or beyond the capacity. -/
theorem encodeFrameTo_spec {fill : Writer → Writer} {payload : List UInt8}
    (h : Writes fill payload) (mem : ℕ → UInt8) (cap : ℕ) (t : MsgType) :
    (∀ i, cap ≤ i → (encodeFrameTo mem cap t fill).1 i = mem i) ∧
      load (encodeFrameTo mem cap t fill).1 0 (encodeFrameTo mem cap t fill).2 =
        (encodeFrame cap t payload).getD [] := by
  have hall := ((Writes.put (bytes 2 0)).comp (.put (putU8 t.code))).comp h
  have hw := hall.written { mem := mem, cap := cap }
  have hpos := hall.pos { mem := mem, cap := cap }
  have hcap := hall.cap { mem := mem, cap := cap }
  have hbeyond := hall.beyond { mem := mem, cap := cap }
  simp only [List.length_append, length_bytes, putU8, Nat.zero_add] at hw hpos hcap hbeyond
  have hlen : (bytes 2 (1 + payload.length) ++ (putU8 t.code ++ payload)).length =
      2 + 1 + payload.length := by
    rw [List.length_append, List.length_append, length_bytes, putU8, length_bytes, Nat.add_assoc]
  unfold encodeFrameTo encodeFrame finish Writer.ok
  simp only [putU8, hpos, hcap] at hlen ⊢
  by_cases hfits : 2 + 1 + payload.length ≤ cap
  · simp only [decide_eq_true hfits, if_true, hlen, if_pos hfits, Option.getD_some]
    constructor
    · intro i hi
      rw [store_of_le (by rw [length_bytes]; omega)]
      exact hbeyond i hi
    · -- the length is patched in front of what is there already
      have hhead : 2 + 1 + payload.length - kHeaderLen = 1 + payload.length := by
        unfold kHeaderLen
        omega
      have hbody := hw hfits
      rw [Nat.add_assoc, load_add, List.append_assoc] at hbody
      have hbody' := (List.append_inj hbody (by simp [load])).2
      rw [hhead, Nat.add_assoc, load_add]
      refine congrArg₂ (· ++ ·) load_store ?_
      · rw [← hbody']
        exact load_congr fun i hi => store_of_le (by rw [length_bytes]; omega)
  · simp only [decide_eq_false hfits, hlen, if_neg hfits]
    exact ⟨hbeyond, rfl⟩

/-! ### What is read back -/

section fields

theorem reads_u8 (x : UInt8) : Reads getU8 (putU8 x) x := by
  have h := (Reads.field (w := 1) (n := x.toNat) x.toNat_lt).map (f := UInt8.ofNat)
  rwa [UInt8.ofNat_toNat] at h

theorem reads_u32 (x : UInt32) : Reads getU32 (putU32 x) x := by
  have h := (Reads.field (w := 4) (n := x.toNat) x.toNat_lt).map (f := UInt32.ofNat)
  rwa [UInt32.ofNat_toNat] at h

theorem reads_u64 (x : UInt64) : Reads getU64 (putU64 x) x := getU64_putU64 x

/-- A price of the 64-bit range. -/
def IsPrice (px : Int) : Prop := -2 ^ 63 ≤ px ∧ px < 2 ^ 63

theorem wrapPrice_emod {px : Int} (h : IsPrice px) :
    wrapPrice ((px % 2 ^ 64).toNat : ℕ) = px := by
  obtain ⟨h1, h2⟩ := h
  have hmod : (px % 2 ^ 64).bmod (2 ^ 64) = px.bmod (2 ^ 64) := Int.emod_bmod px (2 ^ 64)
  rw [wrapPrice, Int.toNat_of_nonneg (by omega), hmod]
  exact Int.bmod_eq_of_le (by omega) (by omega)

theorem reads_price {px : Int} (h : IsPrice px) : Reads getPrice (putPrice px) px := by
  have hlt : (px % 2 ^ 64).toNat < 256 ^ 8 := by omega
  have hread := ((Reads.field hlt).last (f := fun n : ℕ => (n : Int))).map (f := wrapPrice)
  rw [wrapPrice_emod h] at hread
  exact hread

theorem reads_enum {α : Type} {all : List α} {code : α → UInt8} {a : α}
    (h : ofCode? all code (code a) = some a) : Reads (getEnum all code) (putU8 (code a)) a := by
  intro bs
  have hread := reads_u8 (code a) bs
  simp only [getEnum, Bind.bind, StateT.bind, hread, Option.bind_some, StateT.lift, h]
  rfl

theorem reads_side (s : Side) : Reads getSide (putU8 s.code) s :=
  reads_enum (by cases s <;> rfl)

theorem reads_tif (t : Tif) : Reads getTif (putU8 t.code) t :=
  reads_enum (by cases t <;> rfl)

theorem reads_status (t : ExecStatus) : Reads getStatus (putU8 t.code) t :=
  reads_enum (by cases t <;> rfl)

theorem reads_levels : ∀ {n : ℕ} (v : Vector (Int × UInt64) n), (∀ l ∈ v, IsPrice l.1) →
    Reads (getLevels n) (v.toList.flatMap fun l => putPrice l.1 ++ putU64 l.2) v
  | 0, v, _ => by
      obtain rfl : v = #v[] := Vector.eq_empty
      exact .pure _
  | n + 1, v, hv => by
      obtain ⟨w, l, rfl⟩ : ∃ w l, v = Vector.push w l := Vector.exists_push
      have hw := reads_levels w fun l' hl' => hv l' (Vector.mem_push_of_mem l hl')
      have hl := hv l Vector.mem_push_self
      rw [Vector.toList_push, List.flatMap_append]
      exact hw.bind ((reads_price hl).bind ((reads_u64 l.2).bind (.pure _)))

/-- A body that holds exactly what the decoder takes. -/
theorem decodeBody_reads {α : Type} {parse : Reader α} {payload : List UInt8} {m : α}
    (h : Reads parse payload m) (b : UInt8) : decodeBody parse (b :: payload) = some m := by
  have hread := h []
  rw [List.append_nil] at hread
  simp only [decodeBody, List.drop_succ_cons, List.drop_zero, hread, Option.bind_eq_bind,
    Option.bind_some, if_true]

end fields

/-! ### Messages -/

/-- A message of any of the seven types. -/
inductive Message where
  | newOrder (m : NewOrderMsg)
  | cancel (m : CancelMsg)
  | modify (m : ModifyMsg)
  | market (m : MarketMsg)
  | execReport (m : ExecReportMsg)
  | trade (m : TradeMsg)
  | book (m : BookMsg)

namespace Message

def type : Message → MsgType
  | newOrder _ => .newOrder
  | cancel _ => .cancel
  | modify _ => .modify
  | market _ => .market
  | execReport _ => .execReport
  | trade _ => .trade
  | book _ => .book

def encodeTo (mem : ℕ → UInt8) (cap : ℕ) : Message → (ℕ → UInt8) × ℕ
  | newOrder m => m.encodeTo mem cap
  | cancel m => m.encodeTo mem cap
  | modify m => m.encodeTo mem cap
  | market m => m.encodeTo mem cap
  | execReport m => m.encodeTo mem cap
  | trade m => m.encodeTo mem cap
  | book m => m.encodeTo mem cap

/-- The decoder of its type returns the message. -/
def Decodes (body : List UInt8) : Message → Prop
  | newOrder m => decodeNewOrder body = some m
  | cancel m => decodeCancel body = some m
  | modify m => decodeModify body = some m
  | market m => decodeMarket body = some m
  | execReport m => decodeExecReport body = some m
  | trade m => decodeTrade body = some m
  | book m => decodeBook body = some m

/-- Its prices are in the 64-bit range. -/
def InRange : Message → Prop
  | newOrder m => IsPrice m.px
  | modify m => IsPrice m.newPx
  | trade m => IsPrice m.px
  | book m => ∀ l ∈ m.bids.toList ++ m.asks.toList, IsPrice l.1
  | _ => True

/-- The fields, in the order of the wire. -/
def payload : Message → List UInt8
  | newOrder m => putU64 m.id ++ putPrice m.px ++ putU32 m.qty ++ putU8 m.side.code ++
      putU8 m.tif.code
  | cancel m => putU64 m.id
  | modify m => putU64 m.id ++ putPrice m.newPx ++ putU32 m.newQty
  | market m => putU64 m.id ++ putU32 m.qty ++ putU8 m.side.code
  | execReport m => putU64 m.id ++ putU32 m.filled ++ putU8 m.status.code
  | trade m => putU64 m.seq ++ putPrice m.px ++ putU32 m.qty ++ putU8 m.takerSide.code
  | book m => putU64 m.seq ++
      (m.bids.toList ++ m.asks.toList).flatMap fun l => putPrice l.1 ++ putU64 l.2

/-- What follows the length prefix. -/
def body (m : Message) : List UInt8 := m.type.code :: m.payload

/-- The bytes on the wire. -/
def wire (m : Message) : List UInt8 := frame kHeaderLen m.body

/-- The size of a frame, with its prefix. -/
def frameSize : Message → ℕ
  | newOrder _ => 25
  | cancel _ => 11
  | modify _ => 23
  | market _ => 16
  | execReport _ => 16
  | trade _ => 24
  | book _ => 171

theorem frameSize_le (m : Message) : m.frameSize ≤ 171 := by
  cases m <;> simp [frameSize]

theorem length_flatMap_levels (levels : List (Int × UInt64)) :
    (levels.flatMap fun l => putPrice l.1 ++ putU64 l.2).length = 16 * levels.length := by
  induction levels with
  | nil => rfl
  | cons l levels ih =>
      rw [List.flatMap_cons, List.length_append, ih]
      simp only [putPrice, putU64, List.length_append, length_bytes, List.length_cons]
      omega

theorem length_wire (m : Message) : m.wire.length = m.frameSize := by
  rw [wire, length_frame, body, List.length_cons]
  cases m with
  | book m =>
      have hbids : m.bids.toList.length = 5 := m.bids.length_toList
      have hasks : m.asks.toList.length = 5 := m.asks.length_toList
      rw [payload, List.length_append, length_flatMap_levels, List.length_append, hbids, hasks,
        putU64, length_bytes]
      rfl
  | _ => simp [payload, putU64, putU32, putU8, putPrice, kHeaderLen, frameSize]

theorem good_body (m : Message) : Good kMaxFrameLen m.body := by
  have hlen := m.length_wire
  rw [wire, length_frame] at hlen
  have hsize := m.frameSize_le
  unfold kHeaderLen at hlen
  unfold kMaxFrameLen
  exact ⟨Nat.succ_pos _, by omega⟩

/-- A frame of the list encoders is the one on the wire. -/
theorem encodeFrame_eq (m : Message) (cap : ℕ) :
    encodeFrame cap m.type m.payload = if m.frameSize ≤ cap then some m.wire else none := by
  have hcode : putU8 m.type.code = [m.type.code] := by
    cases m <;> rfl
  have hframe : bytes 2 (1 + m.payload.length) ++ (putU8 m.type.code ++ m.payload) = m.wire := by
    rw [hcode, wire, frame, body, List.length_cons, Nat.add_comm]
    rfl
  simp only [encodeFrame, hframe, length_wire]

/-- **What an encoder does to memory.** -/
theorem encodeTo_spec (m : Message) (mem : ℕ → UInt8) (cap : ℕ) :
    (∀ i, cap ≤ i → (m.encodeTo mem cap).1 i = mem i) ∧
      load (m.encodeTo mem cap).1 0 (m.encodeTo mem cap).2 =
        if m.frameSize ≤ cap then m.wire else [] := by
  have hspec : ∀ fill : Writer → Writer, Writes fill m.payload →
      m.encodeTo mem cap = encodeFrameTo mem cap m.type fill →
      (∀ i, cap ≤ i → (m.encodeTo mem cap).1 i = mem i) ∧
        load (m.encodeTo mem cap).1 0 (m.encodeTo mem cap).2 =
          if m.frameSize ≤ cap then m.wire else [] := by
    intro fill hfill heq
    have h := encodeFrameTo_spec hfill mem cap m.type
    rw [← heq, encodeFrame_eq] at h
    refine ⟨h.1, h.2.trans ?_⟩
    split_ifs <;> rfl
  cases m with
  | newOrder m =>
      exact hspec _ (((((Writes.put _).comp (.put _)).comp (.put _)).comp (.put _)).comp (.put _)) rfl
  | cancel m => exact hspec _ (.put _) rfl
  | modify m => exact hspec _ (((Writes.put _).comp (.put _)).comp (.put _)) rfl
  | market m => exact hspec _ (((Writes.put _).comp (.put _)).comp (.put _)) rfl
  | execReport m => exact hspec _ (((Writes.put _).comp (.put _)).comp (.put _)) rfl
  | trade m => exact hspec _ ((((Writes.put _).comp (.put _)).comp (.put _)).comp (.put _)) rfl
  | book m =>
      have h := ((Writes.put (putU64 m.seq)).comp (.putLevels m.bids.toList)).comp
        (.putLevels m.asks.toList)
      rw [List.append_assoc, ← List.flatMap_append] at h
      exact hspec _ h rfl

theorem peekType_body (m : Message) : peekType m.body = some m.type.code := rfl

/-- **The decoder of a type takes its fields in the order of the encoder.** -/
theorem decodes (m : Message) (h : m.InRange) : m.Decodes m.body := by
  cases m with
  | newOrder m =>
      refine decodeBody_reads (?_ : Reads _ (newOrder m).payload m) _
      simp only [payload, List.append_assoc]
      exact (reads_u64 m.id).bind ((reads_price h).bind ((reads_u32 m.qty).bind
        ((reads_side m.side).bind (reads_tif m.tif).last)))
  | cancel m => exact decodeBody_reads (reads_u64 m.id).last _
  | modify m =>
      refine decodeBody_reads (?_ : Reads _ (modify m).payload m) _
      simp only [payload, List.append_assoc]
      exact (reads_u64 m.id).bind ((reads_price h).bind (reads_u32 m.newQty).last)
  | market m =>
      refine decodeBody_reads (?_ : Reads _ (market m).payload m) _
      simp only [payload, List.append_assoc]
      exact (reads_u64 m.id).bind ((reads_u32 m.qty).bind (reads_side m.side).last)
  | execReport m =>
      refine decodeBody_reads (?_ : Reads _ (execReport m).payload m) _
      simp only [payload, List.append_assoc]
      exact (reads_u64 m.id).bind ((reads_u32 m.filled).bind (reads_status m.status).last)
  | trade m =>
      refine decodeBody_reads (?_ : Reads _ (trade m).payload m) _
      simp only [payload, List.append_assoc]
      exact (reads_u64 m.seq).bind ((reads_price h).bind ((reads_u32 m.qty).bind
        (reads_side m.takerSide).last))
  | book m =>
      have hbids := reads_levels m.bids fun l hl =>
        h l (List.mem_append_left _ (Vector.mem_toList_iff.mpr hl))
      have hasks := reads_levels m.asks fun l hl =>
        h l (List.mem_append_right _ (Vector.mem_toList_iff.mpr hl))
      refine decodeBody_reads (?_ : Reads _ (book m).payload m) _
      simp only [payload, List.flatMap_append]
      exact (reads_u64 m.seq).bind (hbids.bind hasks.last)

end Message

/-! ### Whole streams -/

/-- A message encoded into a buffer of `cap` bytes. -/
structure Sending where
  msg : Message
  mem : ℕ → UInt8
  cap : ℕ

/-- The bytes that the encoder reports as written. -/
def Sending.bytes (x : Sending) : List UInt8 :=
  let (mem, n) := x.msg.encodeTo x.mem x.cap
  load mem 0 n

theorem Sending.bytes_eq {x : Sending} (h : x.msg.frameSize ≤ x.cap) : x.bytes = x.msg.wire :=
  (x.msg.encodeTo_spec x.mem x.cap).2.trans (if_pos h)

/-- The number that an encoder returns. -/
theorem Message.encodeTo_size (m : Message) (mem : ℕ → UInt8) (cap : ℕ) :
    (m.encodeTo mem cap).2 = if m.frameSize ≤ cap then m.frameSize else 0 := by
  have hlen := congrArg List.length (m.encodeTo_spec mem cap).2
  rw [load, List.length_map, List.length_range] at hlen
  rw [hlen]
  split_ifs
  · exact m.length_wire
  · rfl

/-- A sink that keeps every body. -/
def keep (bodies : List (List UInt8)) (body : List UInt8) : List (List UInt8) := bodies ++ [body]

theorem foldl_keep (bodies acc : List (List UInt8)) : bodies.foldl keep acc = acc ++ bodies := by
  induction bodies generalizing acc with
  | nil => exact (List.append_nil acc).symm
  | cons body bodies ih => rw [List.foldl_cons, ih, keep, List.append_assoc, List.singleton_append]

/-- **Every message comes back**, in order and field for field, through buffers that hold its frame
and a stream in any chunks; a buffer that is too small gives `0`, and no byte at or beyond the
capacity is written. -/
theorem roundTrip :
    (∀ (xs : List Sending) (chunks : List (List UInt8)),
      (∀ x ∈ xs, x.msg.InRange ∧ x.msg.frameSize ≤ x.cap) →
      chunks.flatten = xs.flatMap Sending.bytes →
      ∃ fb bodies, FrameBuffer.feedAll keep {} chunks [] = (fb, true, bodies) ∧
        List.Forall₂ (fun x body => peekType body = some x.msg.type.code ∧ x.msg.Decodes body)
          xs bodies) ∧
    (∀ (m : Message) (mem : ℕ → UInt8) (cap : ℕ), cap < m.frameSize →
      (m.encodeTo mem cap).2 = 0) ∧
    ∀ (m : Message) (mem : ℕ → UInt8) (cap i : ℕ), cap ≤ i → (m.encodeTo mem cap).1 i = mem i := by
  refine ⟨fun xs chunks hxs hchunks => ?_, fun m mem cap h => ?_,
    fun m mem cap i h => (m.encodeTo_spec mem cap).1 i h⟩
  · have hstream : chunks.flatten = (xs.map fun x => x.msg.body).flatMap (frame kHeaderLen) := by
      rw [hchunks, List.flatMap_map]
      exact List.flatMap_congr fun x hx => Sending.bytes_eq (hxs x hx).2
    have hgood : ∀ b ∈ xs.map fun x => x.msg.body, Good kMaxFrameLen b := by
      intro b hb
      obtain ⟨x, -, rfl⟩ := List.mem_map.mp hb
      exact x.msg.good_body
    obtain ⟨bodies, tail, hfed⟩ := FrameBuffer.feedAll_fed keep chunks [] []
      (short_nil (by decide))
    have hsplit := hfed.splits
    rw [List.nil_append, hstream] at hsplit
    obtain ⟨hbodies, htail⟩ := hsplit.unique (by decide) (Splits.of_frames (by decide) hgood)
    have hok : (FrameBuffer.feedAll keep {} chunks []).2.1 = true := by
      rcases hfed.outcome with ⟨hok, -⟩ | ⟨-, hbad, -⟩
      · exact hok
      · rw [htail] at hbad
        exact absurd (short_nil (by decide)) fun h => not_bad_short hbad h
    have hsunk : (FrameBuffer.feedAll keep {} chunks []).2.2 = xs.map fun x => x.msg.body := by
      rw [← hbodies]
      exact hfed.sunk.trans (foldl_keep bodies [])
    refine ⟨(FrameBuffer.feedAll keep {} chunks []).1, xs.map fun x => x.msg.body,
      Prod.ext rfl (Prod.ext hok hsunk), ?_⟩
    rw [List.forall₂_map_right_iff, List.forall₂_same]
    intro x hx
    exact ⟨x.msg.peekType_body, x.msg.decodes (hxs x hx).1⟩
  · rw [m.encodeTo_size, if_neg (by omega)]

/-- Two messages, the second in a buffer of exactly its size, cut inside a header. -/
theorem roundTrip_small :
    ∃ fb bodies, FrameBuffer.feedAll keep {}
      [[23], [0, 1, 7, 0, 0, 0, 0, 0, 0, 0, 255, 255, 255, 255, 255, 255, 255, 255, 9],
        [0, 0, 0, 1, 2, 9, 0, 2], [8, 0, 0, 0, 0, 0, 0, 0]] [] = (fb, true, bodies) ∧
      List.Forall₂ (fun (x : Sending) body =>
          peekType body = some x.msg.type.code ∧ x.msg.Decodes body)
        [⟨.newOrder ⟨7, -1, 9, .ask, .fok⟩, fun _ => 0, 64⟩, ⟨.cancel ⟨8⟩, fun _ => 1, 11⟩]
        bodies :=
  roundTrip.1 _ _ (by simp [Message.InRange, IsPrice, Message.frameSize]) (by decide +kernel)

end Lob
