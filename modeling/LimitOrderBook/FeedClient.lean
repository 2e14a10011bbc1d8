import LimitOrderBook.Decoders
import LimitOrderBook.Feed
import LimitOrderBook.Numbering

/-! # The feed client

The subscriber of `net/feed_client.cpp`.  Each datagram is one frame of the feed or it is bad; of
the messages it keeps the number of the last one, how many there were of each kind, the top of the
last snapshot, and how often a number did not follow on the one before (`gaps`).

Whatever comes out of the network, the counters are those of the datagrams that a publisher can have
sent (`counted_run`).  Of the feed of a gateway, with datagrams lost on the way, `gaps` is the number
of holes in what is heard (`gaps_run`), and once the last datagram is heard the client shows the top
of the engine's book (`top_run`). -/

namespace Lob

open Wire Frames Numbering

/-- What `::recvfrom` returns. -/
inductive RecvFrom where
  | got (datagram : List UInt8)
  | again
  | failed
deriving DecidableEq, Repr

structure FeedClient where
  lastSeq : UInt64 := 0
  gaps : ℕ := 0
  trades : ℕ := 0
  books : ℕ := 0
  bad : ℕ := 0
  lastBid : Int := 0
  lastAsk : Int := 0
  msgs : ℕ := 0
deriving DecidableEq, Repr

namespace FeedClient

/-- The message of a datagram, which is cut off behind the 2048 bytes of the buffer. -/
def parse (datagram : List UInt8) : Option FeedMsg :=
  let buf := datagram.take 2048
  if buf.length < kHeaderLen + 1 then none
  else
    let len := front kHeaderLen buf
    if len = 0 ∨ kMaxFrameLen < len ∨ buf.length ≠ kHeaderLen + len then none
    else do
      let body := buf.drop kHeaderLen
      let type ← peekType body
      if type = MsgType.trade.code then FeedMsg.trade <$> decodeTrade body
      else if type = MsgType.book.code then FeedMsg.book <$> decodeBook body
      else none

/-- The best price of a side of a snapshot. -/
def top (levels : Vector (Int × UInt64) kBookDepth) : Int := (levels.get ⟨0, by decide⟩).1

def tally (c : FeedClient) : FeedMsg → FeedClient
  | .trade _ => { c with trades := c.trades + 1 }
  | .book m => { c with lastBid := top m.bids, lastAsk := top m.asks, books := c.books + 1 }

def hear (c : FeedClient) (m : FeedMsg) : FeedClient :=
  let c := c.tally m
  let c := if c.lastSeq ≠ 0 ∧ m.seq ≠ c.lastSeq + 1 then { c with gaps := c.gaps + 1 } else c
  { c with lastSeq := m.seq, msgs := c.msgs + 1 }

/-- One datagram. -/
def receive (c : FeedClient) (datagram : List UInt8) : FeedClient :=
  match parse datagram with
  | none => { c with bad := c.bad + 1 }
  | some m => c.hear m

/-- The loop, up to the `maxMsgs`-th message if that is not `0`. -/
def run (maxMsgs : ℕ) : List RecvFrom → FeedClient → FeedClient
  | [], c => c
  | x :: xs, c =>
      if maxMsgs = 0 ∨ c.msgs < maxMsgs then
        match x with
        | .got datagram => run maxMsgs xs (c.receive datagram)
        | .again => run maxMsgs xs c
        | .failed => c
      else c

/-- The datagrams that arrive before the socket fails. -/
def received : List RecvFrom → List (List UInt8)
  | [] => []
  | .got datagram :: xs => datagram :: received xs
  | .again :: xs => received xs
  | .failed :: _ => []

/-! ### What is accepted -/

theorem take_wire (m : Message) : m.wire.take 2048 = m.wire := by
  apply List.take_of_length_le
  have hlen := m.length_wire
  have hsize := m.frameSize_le
  omega

/-- A datagram that passes the checks of its length is one frame, and was received in full. -/
theorem eq_frame_of_checked {d : List UInt8} (hlen : ¬ (d.take 2048).length < kHeaderLen + 1)
    (hframe : ¬ (front kHeaderLen (d.take 2048) = 0 ∨ kMaxFrameLen < front kHeaderLen (d.take 2048) ∨
      (d.take 2048).length ≠ kHeaderLen + front kHeaderLen (d.take 2048))) :
    d.take 2048 = d ∧ d = frame kHeaderLen (d.drop kHeaderLen) := by
  rw [not_or, not_or, not_not] at hframe
  obtain ⟨hpos, hle, hsize⟩ := hframe
  unfold kMaxFrameLen at hle
  unfold kHeaderLen at hlen hsize hpos hle
  have hall : d.take 2048 = d := by
    apply List.take_of_length_le
    rw [List.length_take] at hsize
    omega
  rw [hall] at hlen hsize hpos hle
  have hbad : ¬ Bad 2 kMaxFrameLen d := by
    rintro ⟨-, hbad⟩
    unfold kMaxFrameLen at hbad
    omega
  have hshort : ¬ Short 2 kMaxFrameLen d := by
    unfold Short
    omega
  obtain ⟨-, hd⟩ := eq_frame_append hbad hshort
  have hwhole : (d.drop 2).take (front 2 d) = d.drop 2 := by
    apply List.take_of_length_le
    rw [List.length_drop]
    omega
  have hrest : d.drop (2 + front 2 d) = [] := by
    apply List.drop_eq_nil_of_le
    omega
  rw [hwhole, hrest, List.append_nil] at hd
  exact ⟨hall, hd⟩

theorem wire_of_parse {d : List UInt8} {m : FeedMsg} (h : parse d = some m) :
    d = m.message.wire ∧ m.message.InRange := by
  simp only [parse] at h
  split_ifs at h with hlen hframe
  obtain ⟨hall, hd⟩ := eq_frame_of_checked hlen hframe
  rw [hall] at h
  obtain ⟨type, htype, hm⟩ := Option.bind_eq_some_iff.mp h
  cases hbody : d.drop kHeaderLen with
  | nil =>
      rw [hbody] at htype
      cases htype
  | cons b bs =>
      rw [hbody] at hd hm htype
      obtain rfl : b = type := Option.some.inj htype
      have hfound : ∀ m : Message, b = m.type.code → m.Decodes (b :: bs) →
          d = m.wire ∧ m.InRange := by
        intro m hb hdecodes
        obtain ⟨hrange, hbs⟩ := Message.decodes_iff.mp hdecodes
        refine ⟨?_, hrange⟩
        rw [hd, hb, hbs]
        rfl
      split_ifs at hm with htrade hbook
      · obtain ⟨t, ht, rfl⟩ := Option.map_eq_some_iff.mp hm
        exact hfound (.trade t) htrade ht
      · obtain ⟨t, ht, rfl⟩ := Option.map_eq_some_iff.mp hm
        exact hfound (.book t) hbook ht

theorem parse_wire {m : FeedMsg} (hrange : m.message.InRange) : parse m.message.wire = some m := by
  have hlen := m.message.length_wire
  have hgood := m.message.good_body
  have hfront : front kHeaderLen m.message.wire = m.message.body.length := by
    have h := front_frame (w := kHeaderLen) (by decide) hgood []
    rwa [List.append_nil] at h
  have hwire : m.message.wire.length = kHeaderLen + m.message.body.length := length_frame _ _
  have hdrop : m.message.wire.drop kHeaderLen = m.message.body :=
    List.drop_left' (length_bytes _ _)
  have hdecodes := m.message.decodes hrange
  simp only [parse, take_wire, hfront, hwire, hdrop]
  rw [if_neg (by have := hgood.1; omega), if_neg (by have := hgood.1; have := hgood.2; omega)]
  cases m with
  | trade t =>
      have hdecode : decodeTrade (Message.trade t).body = some t := hdecodes
      simp only [FeedMsg.message, Message.peekType_body, Option.bind_eq_bind, Option.bind_some,
        Message.type, if_true, hdecode]
      rfl
  | book t =>
      have hdecode : decodeBook (Message.book t).body = some t := hdecodes
      have hne : MsgType.book.code ≠ MsgType.trade.code := by decide
      simp only [FeedMsg.message, Message.peekType_body, Option.bind_eq_bind, Option.bind_some,
        Message.type, if_neg hne, if_true, hdecode]
      rfl

/-- **A datagram is accepted if and only if it is the frame of a message of the feed.** -/
theorem parse_eq_some_iff {d : List UInt8} {m : FeedMsg} :
    parse d = some m ↔ d = m.message.wire ∧ m.message.InRange := by
  constructor
  · exact wire_of_parse
  · rintro ⟨rfl, hrange⟩
    exact parse_wire hrange

/-- The messages of some datagrams. -/
def heard (ds : List (List UInt8)) : List FeedMsg := ds.filterMap parse

/-- A message passes without a gap: it is the first one, or the next. -/
def Follows (a b : UInt64) : Prop := a = 0 ∨ b = a + 1

instance : DecidableRel Follows := fun _ _ => inferInstanceAs (Decidable (_ ∨ _))

/-- The counters are those of the datagrams. -/
structure Counted (c : FeedClient) (ds : List (List UInt8)) : Prop where
  msgs : c.msgs = (heard ds).length
  bad : c.bad + c.msgs = ds.length
  trades : c.trades = ((heard ds).filterMap FeedMsg.trade?).length
  books : c.books = ((heard ds).filterMap FeedMsg.book?).length
  gaps : c.gaps = breaks Follows ((heard ds).map FeedMsg.seq)
  lastSeq : c.lastSeq = (((heard ds).map FeedMsg.seq).getLast?).getD 0
  lastBid : c.lastBid =
    (((heard ds).filterMap FeedMsg.book?).getLast?.map fun m => top m.bids).getD kNoPrice
  lastAsk : c.lastAsk =
    (((heard ds).filterMap FeedMsg.book?).getLast?.map fun m => top m.asks).getD kNoPrice

theorem follows_iff (l : List UInt64) (b : UInt64) :
    follows Follows l b ↔ Follows (l.getLast?.getD 0) b := by
  unfold follows
  cases l.getLast? with
  | none => simp [Follows]
  | some a => simp

theorem gaps_hear (c : FeedClient) (m : FeedMsg) :
    (c.hear m).gaps = c.gaps + if Follows c.lastSeq m.seq then 0 else 1 := by
  have htally : (c.tally m).gaps = c.gaps ∧ (c.tally m).lastSeq = c.lastSeq := by
    cases m <;> exact ⟨rfl, rfl⟩
  by_cases hfollows : Follows c.lastSeq m.seq
  · have hno : ¬ (c.lastSeq ≠ 0 ∧ m.seq ≠ c.lastSeq + 1) := by
      rintro ⟨h0, hnext⟩
      exact hfollows.elim h0 hnext
    simp only [hear, htally.2, if_neg hno, if_pos hfollows]
    exact htally.1
  · have hgap : c.lastSeq ≠ 0 ∧ m.seq ≠ c.lastSeq + 1 := not_or.mp hfollows
    simp only [hear, htally.2, if_pos hgap, if_neg hfollows]
    exact congrArg (· + 1) htally.1

/-- Hearing a message leaves what `tally` has set. -/
theorem hear_tally (c : FeedClient) (m : FeedMsg) :
    (c.hear m).trades = (c.tally m).trades ∧ (c.hear m).books = (c.tally m).books ∧
      (c.hear m).bad = c.bad ∧ (c.hear m).lastBid = (c.tally m).lastBid ∧
      (c.hear m).lastAsk = (c.tally m).lastAsk ∧ (c.hear m).msgs = c.msgs + 1 := by
  simp only [hear]
  cases m <;> split_ifs <;> exact ⟨rfl, rfl, rfl, rfl, rfl, rfl⟩

namespace Counted

variable {c : FeedClient} {ds : List (List UInt8)}

theorem new : Counted {} [] := ⟨rfl, rfl, rfl, rfl, rfl, rfl, rfl, rfl⟩

/-- A datagram that is no message of the feed. -/
theorem receive_none (h : Counted c ds) {d : List UInt8} (hd : parse d = none) :
    Counted { c with bad := c.bad + 1 } (ds ++ [d]) := by
  have hheard : heard (ds ++ [d]) = heard ds := by
    rw [heard, List.filterMap_append, List.filterMap_cons_none hd, List.filterMap_nil,
      List.append_nil, heard]
  have hbad : c.bad + 1 + c.msgs = (ds ++ [d]).length := by
    rw [List.length_append, List.length_singleton, ← h.bad]
    omega
  exact
    { msgs := hheard ▸ h.msgs
      bad := hbad
      trades := hheard ▸ h.trades
      books := hheard ▸ h.books
      gaps := hheard ▸ h.gaps
      lastSeq := hheard ▸ h.lastSeq
      lastBid := hheard ▸ h.lastBid
      lastAsk := hheard ▸ h.lastAsk }

/-- A message of the feed. -/
theorem receive_some (h : Counted c ds) {d : List UInt8} {m : FeedMsg} (hd : parse d = some m) :
    Counted (c.hear m) (ds ++ [d]) := by
  have hheard : heard (ds ++ [d]) = heard ds ++ [m] := by
    rw [heard, List.filterMap_append, List.filterMap_cons_some hd, List.filterMap_nil, heard]
  have hseqs : (heard (ds ++ [d])).map FeedMsg.seq = (heard ds).map FeedMsg.seq ++ [m.seq] := by
    rw [hheard, List.map_append, List.map_singleton]
  obtain ⟨htrades, hbooks, hbad, hbid, hask, hmsgs⟩ := c.hear_tally m
  refine ⟨?_, ?_, ?_, ?_, ?_, ?_, ?_, ?_⟩
  · rw [hmsgs, h.msgs, hheard, List.length_append, List.length_singleton]
  · rw [hmsgs, hbad, List.length_append, List.length_singleton, ← h.bad, Nat.add_assoc]
  · rw [htrades, hheard, List.filterMap_append, List.length_append]
    cases m with
    | trade t => exact congrArg (· + 1) h.trades
    | book t => exact h.trades
  · rw [hbooks, hheard, List.filterMap_append, List.length_append]
    cases m with
    | trade t => exact h.books
    | book t => exact congrArg (· + 1) h.books
  · rw [gaps_hear, hseqs, breaks_concat, h.gaps, h.lastSeq]
    simp only [follows_iff]
  · rw [hseqs, List.getLast?_concat]
    rfl
  · rw [hbid, hheard, List.filterMap_append]
    cases m with
    | trade t => exact h.lastBid.trans (by simp [FeedMsg.book?])
    | book t => simp [FeedMsg.book?, tally]
  · rw [hask, hheard, List.filterMap_append]
    cases m with
    | trade t => exact h.lastAsk.trans (by simp [FeedMsg.book?])
    | book t => simp [FeedMsg.book?, tally]

/-- **One datagram.** -/
theorem receive (h : Counted c ds) (d : List UInt8) : Counted (c.receive d) (ds ++ [d]) := by
  unfold FeedClient.receive
  cases hd : parse d with
  | none => exact h.receive_none hd
  | some m => exact h.receive_some hd

/-- **The loop** counts the datagrams up to where it stops. -/
theorem run {maxMsgs : ℕ} (hmax : maxMsgs = 0 ∨ c.msgs ≤ maxMsgs) (xs : List RecvFrom)
    (h : Counted c ds) : ∃ more, more <+: received xs ∧ Counted (run maxMsgs xs c) (ds ++ more) ∧
      (maxMsgs = 0 ∨ (run maxMsgs xs c).msgs ≤ maxMsgs) ∧
      (more = received xs ∨ maxMsgs ≠ 0 ∧ (run maxMsgs xs c).msgs = maxMsgs) := by
  have hstay : Counted c (ds ++ []) := by rwa [List.append_nil]
  induction xs generalizing c ds with
  | nil => exact ⟨[], List.prefix_rfl, hstay, hmax, Or.inl rfl⟩
  | cons x xs ih =>
      unfold FeedClient.run
      split_ifs with hgo
      · cases x with
        | got d =>
            have hmsgs : maxMsgs = 0 ∨ (c.receive d).msgs ≤ maxMsgs := by
              unfold FeedClient.receive
              cases parse d with
              | none => exact hmax
              | some m =>
                  have hheard := (c.hear_tally m).2.2.2.2.2
                  dsimp only
                  omega
            have hd := h.receive d
            obtain ⟨more, hpre, hcounted, hle, hstop⟩ := ih hmsgs hd (by rwa [List.append_nil])
            rw [List.append_assoc] at hcounted
            refine ⟨d :: more, ?_, hcounted, hle, hstop.imp_left fun he => ?_⟩
            · exact (List.prefix_cons_inj d).mpr hpre
            · rw [he]
              rfl
        | again => exact ih hmax h hstay
        | failed => exact ⟨[], List.prefix_rfl, hstay, hmax, Or.inl rfl⟩
      · refine ⟨[], List.nil_prefix, hstay, hmax, Or.inr ?_⟩
        omega

end Counted

/-- **Whatever the network delivers**, the client counts the messages of the feed among the
datagrams, up to the `maxMsgs`-th one, and the others as bad; there is a gap at each message that
does not follow on the one before it. -/
theorem counted_run (maxMsgs : ℕ) (xs : List RecvFrom) :
    (∀ d m, parse d = some m ↔ d = m.message.wire ∧ m.message.InRange) ∧
    ∃ ds, ds <+: received xs ∧ Counted (run maxMsgs xs {}) ds ∧
      (maxMsgs = 0 ∨ (run maxMsgs xs {}).msgs ≤ maxMsgs) ∧
      (ds = received xs ∨ maxMsgs ≠ 0 ∧ (run maxMsgs xs {}).msgs = maxMsgs) := by
  refine ⟨fun d m => parse_eq_some_iff, ?_⟩
  have hmax : maxMsgs = 0 ∨ ({} : FeedClient).msgs ≤ maxMsgs := Or.inr (Nat.zero_le _)
  have hrun := Counted.new.run hmax xs
  simpa only [List.nil_append] using hrun

/-! ### The feed of a gateway -/

theorem heard_wires {msgs : List FeedMsg} (hrange : ∀ m ∈ msgs, m.message.InRange) :
    heard (msgs.map fun m => m.message.wire) = msgs := by
  rw [heard, List.filterMap_map]
  refine (List.filterMap_congr fun m hm => ?_).trans (List.filterMap_some ..)
  exact parse_wire (hrange m hm)

/-- What is heard of a feed of which datagrams are lost. -/
theorem heard_sublist {msgs : List FeedMsg} (hrange : ∀ m ∈ msgs, m.message.InRange)
    {ds : List (List UInt8)} (hds : ds.Sublist (msgs.map fun m => m.message.wire)) :
    (heard ds).Sublist msgs ∧ ds = (heard ds).map fun m => m.message.wire := by
  obtain ⟨ms, hms, rfl⟩ := List.sublist_map_iff.mp hds
  rw [heard_wires fun m hm => hrange m (hms.subset hm)]
  exact ⟨hms, rfl⟩

/-- The numbers of a publisher that has not run out of them. -/
theorem numbered {feed : FeedPublisher} {msgs : List FeedMsg} (h : feed.Published msgs)
    (hlen : msgs.length < 2 ^ 64) :
    msgs.map (fun m => m.seq.toNat) = List.range' 1 msgs.length := by
  have hseqs := congrArg (List.map UInt64.toNat) h.seqs
  rw [List.map_map, List.map_map] at hseqs
  refine hseqs.trans ((List.map_congr_left fun k hk => ?_).trans (List.map_id _))
  obtain ⟨-, hk⟩ := List.mem_range'_1.mp hk
  have hlt : k < 2 ^ 64 := by omega
  exact UInt64.toNat_ofNat_of_lt' hlt

/-- While the numbers last, the next one is one more. -/
theorem follows_iff_next {a b : UInt64} {n : ℕ} (hn : n < 2 ^ 64) (ha : a.toNat ∈ List.range' 1 n)
    (hb : b.toNat ∈ List.range' 1 n) : Follows a b ↔ b.toNat = a.toNat + 1 := by
  obtain ⟨ha1, ha2⟩ := List.mem_range'_1.mp ha
  obtain ⟨hb1, hb2⟩ := List.mem_range'_1.mp hb
  have h0 : a ≠ 0 := by
    rintro rfl
    exact absurd ha1 (by decide)
  have hadd : (a + 1).toNat = (a.toNat + 1) % 2 ^ 64 := UInt64.toNat_add a 1
  rw [Follows, or_iff_right h0, ← UInt64.toNat_inj, hadd]
  omega

/-- **On the feed of a gateway, with datagrams lost on the way**, nothing is bad, and each gap is a
hole: a message, not the first, whose predecessor was lost.  There is none exactly if what is heard
is one piece of the feed. -/
theorem gaps_run (p : Params) (hp : p.Valid) (hmax : p.bandHi ≤ kMaxPrice)
    (inputs : List Gateway.Input)
    (hlen : (Gateway.run p inputs).feed.datagrams.length < 2 ^ 64) (xs : List RecvFrom)
    (hxs : (received xs).Sublist (Gateway.run p inputs).feed.datagrams) :
    (run 0 xs {}).bad = 0 ∧ (run 0 xs {}).msgs = (received xs).length ∧
      (run 0 xs {}).gaps = ((heard (received xs)).tail.countP fun m =>
        decide (∀ m' ∈ heard (received xs), m.seq.toNat ≠ m'.seq.toNat + 1)) ∧
      ((run 0 xs {}).gaps = 0 ↔ received xs <:+: (Gateway.run p inputs).feed.datagrams) := by
  obtain ⟨msgs, h⟩ := Gateway.faithful_run hp inputs
  have hrange := h.inRange hmax
  rw [h.published.datagrams] at hlen hxs ⊢
  rw [List.length_map] at hlen
  obtain ⟨hsub, hwires⟩ := heard_sublist hrange hxs
  have hnumbered := numbered h.published hlen
  obtain ⟨ds, -, hcounted, -, hall⟩ := (counted_run 0 xs).2
  obtain rfl : ds = received xs := hall.resolve_right fun hstop => hstop.1 rfl
  have hall : (received xs).length = (heard (received xs)).length := by
    conv_lhs => rw [hwires]
    exact List.length_map _
  have hmem : ∀ m ∈ heard (received xs), m.seq.toNat ∈ List.range' 1 msgs.length := by
    intro m hm
    rw [← hnumbered]
    exact List.mem_map_of_mem (hsub.subset hm)
  have hbreaks : (run 0 xs {}).gaps =
      breaks (fun a b : FeedMsg => b.seq.toNat = a.seq.toNat + 1) (heard (received xs)) := by
    rw [hcounted.gaps, breaks_map]
    exact breaks_congr fun a ha b hb => follows_iff_next hlen (hmem a ha) (hmem b hb)
  have hbad := hcounted.bad
  have hmsgs := hcounted.msgs
  refine ⟨by omega, by omega, ?_, ?_⟩
  · rw [hbreaks]
    exact breaks_eq_countP (f := fun m : FeedMsg => m.seq.toNat)
      (pairwise_of_sublist hnumbered hsub)
  · rw [hbreaks, breaks_eq_zero_iff,
      ← infix_iff_isChain (f := fun m : FeedMsg => m.seq.toNat) hnumbered hsub]
    constructor
    · intro hinfix
      rw [hwires]
      exact hinfix.map _
    · intro hinfix
      rw [← heard_wires hrange]
      exact hinfix.filterMap parse

/-- Of three datagrams, the one in the middle is lost. -/
theorem gaps_run_small :
    let p : Params := { poolCapacity := 1, bandHi := 9, idMapSlots := 4 }
    let inputs : List Gateway.Input := [.accept 1,
      .send 1 (NewOrderMsg.encode 64 ⟨7, 5, 3, .bid, .gtc⟩),
      .send 1 (NewOrderMsg.encode 64 ⟨8, 6, 4, .ask, .gtc⟩), .send 1 (CancelMsg.encode 64 ⟨7⟩)]
    let xs := ((Gateway.run p inputs).feed.datagrams.eraseIdx 1).map RecvFrom.got
    (run 0 xs {}).bad = 0 ∧ (run 0 xs {}).gaps = 1 := by
  intro p inputs xs
  obtain ⟨hbad, -, hgaps, -⟩ := gaps_run p ⟨by decide, by decide, by decide, by decide⟩ (by decide)
    inputs (by decide +kernel) xs (by decide +kernel)
  exact ⟨hbad, hgaps.trans (by decide +kernel)⟩

/-- The last datagram of a feed is a snapshot. -/
theorem datagrams_run (p : Params) (inputs : List Gateway.Input) :
    (Gateway.run p inputs).feed.datagrams = [] ∨
      ∃ front m, (Gateway.run p inputs).feed.datagrams = front ++ [(Message.book m).wire] := by
  have hpublish : ∀ g : Gateway OrderBook, ∃ front m,
      (g.publish OrderBook.engine).feed.datagrams = front ++ [(Message.book m).wire] := by
    intro g
    simp only [Gateway.publish, FeedPublisher.publishBook, BookMsg.encode_eq,
      FeedPublisher.sendDatagram]
    exact ⟨_, _, rfl⟩
  induction inputs using List.reverseRecOn with
  | nil => exact Or.inl rfl
  | append_singleton inputs i ih =>
      rw [Gateway.run_append]
      cases i with
      | accept owner => exact ih
      | flush owner n => exact ih
      | hangup owner => exact ih
      | erase owner => exact ih
      | frame owner body =>
          cases hreq : (Gateway.run p inputs).request? owner body with
          | none =>
              have hfeed := (Gateway.handleFrame_of_none hreq).2
              rw [Gateway.step, hfeed]
              exact ih
          | some req =>
              rw [Gateway.step, Gateway.handleFrame_of_request _ hreq]
              exact Or.inr (hpublish _)
      | disconnect owner =>
          simp only [Gateway.step, Gateway.cancelOnDisconnect]
          split_ifs
          · rw [Gateway.feed_cancelAll]
            exact ih
          · exact Or.inr (hpublish _)

/-- The first level of a message has the best price. -/
theorem top_padded (b : OrderBook) (s : Side) :
    top (FeedPublisher.padded (b.topLevels s kBookDepth)) = b.best s := by
  have hget : top (FeedPublisher.padded (b.topLevels s kBookDepth)) =
      ((b.topLevels s kBookDepth)[0]?.getD (kNoPrice, 0)).1 :=
    congrArg Prod.fst (Vector.getElem_ofFn _)
  rw [hget, Book.topLevels, Book.best]
  cases Ladder.best? s (b.ladder s) <;> rfl

/-- A message with the frame of a snapshot is a snapshot. -/
theorem book_of_wire {m : FeedMsg} {b : BookMsg} (h : m.message.wire = (Message.book b).wire) :
    ∃ b', m = .book b' := by
  have hbody := congrArg (List.drop kHeaderLen) h
  rw [Message.wire, Message.wire, frame, frame, List.drop_left' (length_bytes _ _),
    List.drop_left' (length_bytes _ _)] at hbody
  have hcode := (List.cons.inj hbody).1
  cases m with
  | trade t => exact absurd hcode (by decide : MsgType.trade.code ≠ MsgType.book.code)
  | book b' => exact ⟨b', rfl⟩

/-- **Once the last datagram of the feed is heard, the client shows the top of the book.** -/
theorem top_run (p : Params) (hp : p.Valid) (hmax : p.bandHi ≤ kMaxPrice)
    (inputs : List Gateway.Input)
    (hlen : (Gateway.run p inputs).feed.datagrams.length < 2 ^ 64) (xs : List RecvFrom)
    (hxs : (received xs).Sublist (Gateway.run p inputs).feed.datagrams)
    (hlast : ∀ d ∈ (Gateway.run p inputs).feed.datagrams.getLast?, d ∈ received xs) :
    (run 0 xs {}).lastBid = (Gateway.run p inputs).book.best .bid ∧
      (run 0 xs {}).lastAsk = (Gateway.run p inputs).book.best .ask := by
  obtain ⟨msgs, h⟩ := Gateway.faithful_run hp inputs
  have hrange := h.inRange hmax
  have hsnapshot := datagrams_run p inputs
  rw [h.published.datagrams] at hlen hxs hlast hsnapshot
  rw [List.length_map] at hlen
  obtain ⟨hsub, hwires⟩ := heard_sublist hrange hxs
  obtain ⟨ds, -, hcounted, -, hall⟩ := (counted_run 0 xs).2
  obtain rfl : ds = received xs := hall.resolve_right fun hstop => hstop.1 rfl
  rw [hcounted.lastBid, hcounted.lastAsk]
  rcases hsnapshot with hnil | ⟨front, b, hb⟩
  · -- nothing was sent, and the book is the new one
    have hmsgs : msgs = [] := List.map_eq_nil_iff.mp hnil
    subst hmsgs
    have hheard : heard (received xs) = [] := List.eq_nil_of_sublist_nil hsub
    rw [hheard, h.silent rfl]
    exact ⟨rfl, rfl⟩
  · obtain ⟨msgs', rest, rfl, hfront, hrest⟩ := List.map_eq_append_iff.mp hb
    obtain ⟨x, rest', rfl, hx, hrest'⟩ := List.map_eq_cons_iff.mp hrest
    rw [List.map_eq_nil_iff] at hrest'
    subst hrest'
    obtain ⟨m, rfl⟩ := book_of_wire hx
    have hmem : FeedMsg.book m ∈ heard (received xs) := by
      refine List.mem_filterMap.mpr ⟨(FeedMsg.book m).message.wire, ?_, ?_⟩
      · apply hlast
        rw [List.map_append, List.map_singleton, List.getLast?_concat]
        rfl
      · exact parse_wire (hrange _ (by simp))
    have hnew : FeedMsg.book m ∉ msgs' := by
      have hsorted := pairwise_of_sublist (numbered h.published hlen) (List.Sublist.refl _)
      intro hin
      have hlt := (List.pairwise_append.mp hsorted).2.2 _ hin _ List.mem_cons_self
      exact Nat.lt_irrefl _ hlt
    obtain ⟨l, hl⟩ : ∃ l, heard (received xs) = l ++ [.book m] := by
      rcases List.sublist_append_iff.mp hsub with ⟨l, l', hheard, hl, hl'⟩
      rcases List.sublist_singleton.mp hl' with rfl | rfl
      · rw [List.append_nil] at hheard
        exact absurd (hl.subset (hheard ▸ hmem)) hnew
      · exact ⟨l, hheard⟩
    have hbook : ((heard (received xs)).filterMap FeedMsg.book?).getLast? = some m := by
      rw [hl, List.filterMap_append]
      exact List.getLast?_concat
    have hshown : ((msgs' ++ [FeedMsg.book m]).filterMap FeedMsg.book?).getLast? = some m := by
      rw [List.filterMap_append]
      exact List.getLast?_concat
    obtain ⟨hbids, hasks⟩ := h.last m hshown
    rw [hbook]
    simp only [Option.map_some, Option.getD_some, hbids, hasks, top_padded, and_self]

/-- A bid rests, and an ask that is heard of alone. -/
theorem top_run_small :
    let p : Params := { poolCapacity := 1, bandHi := 9, idMapSlots := 4 }
    let inputs : List Gateway.Input := [.accept 1,
      .send 1 (NewOrderMsg.encode 64 ⟨7, 5, 3, .bid, .gtc⟩),
      .send 1 (NewOrderMsg.encode 64 ⟨8, 6, 4, .ask, .gtc⟩)]
    let xs := ((Gateway.run p inputs).feed.datagrams.drop 1).map RecvFrom.got
    (run 0 xs {}).lastBid = (Gateway.run p inputs).book.best .bid ∧
      (run 0 xs {}).lastAsk = (Gateway.run p inputs).book.best .ask :=
  top_run _ ⟨by decide, by decide, by decide, by decide⟩ (by decide) _ (by decide +kernel) _
    (by decide +kernel) (by decide +kernel)

end FeedClient

end Lob
