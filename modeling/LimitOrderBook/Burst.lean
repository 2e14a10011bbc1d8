import LimitOrderBook.Orphans
import LimitOrderBook.Stream

/-! # Bursts

A client that takes everything it is sent, and sends nothing but client messages, is dropped if and
only if one turn of the poll loop executes more of its messages than there is room for their reports
(`Paced`): the loop reads until `EAGAIN` and flushes afterwards, and an outbox holds 4096 reports.

Between turns such a client is `Idle`: alive, with an empty outbox and an unfinished frame at most.
Its own turn keeps it so if the reports of the turn fit (`Idle.turn`) and kills it otherwise
(`Idle.turn_full`); the turns and removals of the others do not touch it. -/

namespace Lob

open Frames

/-! ### An outbox that overflows -/

namespace Gateway

open Connection

variable {c : Config} {g : Gateway OrderBook} {owner : Owner} {conn : Connection}
  {pre post : List Connection}

/-- Messages whose reports do not fit kill the connection. -/
theorem foldl_sink_full (reqs : List Request) (hrange : ∀ req ∈ reqs, req.InRange) (h : Reached c g)
    (hfound : Found owner g.conns pre conn post) (halone : ∀ x ∈ post, x.owner ≠ owner)
    (hlive : conn.dead = false) (hcap : conn.outbox.length ≤ kMaxOutbox)
    (hfull : kMaxOutbox < conn.outbox.length + 16 * (owedAll owner g reqs).length) :
    ((reqs.map fun req => req.message.body).foldl (sink owner) g).isDead owner = true := by
  induction reqs generalizing g conn with
  | nil =>
      simp only [owedAll, List.length_nil] at hfull
      omega
  | cons req reqs ih =>
      rw [owedAll, List.length_append] at hfull
      obtain ⟨hsink, hreached, hfound'⟩ := sink_message h hfound hlive
        (hrange req List.mem_cons_self) fun _ => halone
      have hsent := sendAll_eq conn (g.owed OrderBook.engine owner req)
      rw [List.map_cons, List.foldl_cons, hsink]
      by_cases hfits : (g.owed OrderBook.engine owner req).length ≤ conn.room
      · rw [List.take_of_length_le hfits] at hsent
        have hlen : (conn.sendAll (g.owed OrderBook.engine owner req)).outbox.length =
            conn.outbox.length + 16 * (g.owed OrderBook.engine owner req).length := by
          rw [hsent, List.length_append, length_flatMap_bytes]
        have hlive' : (conn.sendAll (g.owed OrderBook.engine owner req)).dead = false := by
          rw [hsent, hlive]
          simpa using hfits
        unfold room at hfits
        exact ih (fun r hr => hrange r (List.mem_cons_of_mem _ hr)) hreached hfound' hlive'
          (by omega) (by omega)
      · have hdead : (g.execute OrderBook.engine owner req).isDead owner = true := by
          rw [isDead, hfound'.find?, Option.any_some, hsent]
          simp only [hlive, Bool.false_or, decide_eq_true_eq]
          omega
        rw [foldl_sink_of_dead hdead]
        exact hdead

end Gateway

/-! ### A dead connection -/

namespace Gateway

open Connection
open PollLoop (accepted accepted_append)

variable {p : Params} {owner : Owner} {log : List Input}

/-- The connection of `owner` is dead or gone. -/
def Lost (p : Params) (owner : Owner) (log : List Input) : Prop :=
  owner ∈ accepted log ∧ ∀ conn ∈ (run p log).conns, conn.owner = owner → conn.dead = true

theorem dead_effect {g : Gateway OrderBook} {conn : Connection} (h : conn.dead = true) (i : Input) :
    (g.effect i conn).dead = true := by
  cases i <;> simp only [effect]
  case frame o body =>
      rw [if_neg (by simp [h])]
      exact h
  case flush o n =>
      split_ifs
      · exact h
      · exact h
  case hangup o =>
      split_ifs
      · rfl
      · exact h
  all_goals exact h

/-- **No connection comes back to life.** -/
theorem Lost.append (hp : p.Valid) (more : List Input) (hnd : (accepted (log ++ more)).Nodup)
    (h : Lost p owner log) : Lost p owner (log ++ more) := by
  induction more using List.reverseRecOn with
  | nil =>
      rw [List.append_nil]
      exact h
  | append_singleton more i ih =>
      rw [← List.append_assoc] at hnd ⊢
      rw [accepted_append] at hnd
      have hnd' := List.Nodup.of_append_left hnd
      obtain ⟨hmem, hdead⟩ := ih hnd'
      refine ⟨?_, fun conn hc ho => ?_⟩
      · rw [accepted_append]
        exact List.mem_append_left _ hmem
      · have hdistinct := (owners_sublist hp hnd').nodup hnd'
        rw [run_append, conns_step (reached_run hp _) hdistinct] at hc
        have hmap : ∀ conn ∈ (run p (log ++ more)).conns.map ((run p (log ++ more)).effect i),
            conn.owner = owner → conn.dead = true := by
          intro conn hc ho
          obtain ⟨x, hx, rfl⟩ := List.mem_map.mp hc
          rw [owner_effect] at ho
          exact dead_effect (hdead x hx ho) i
        cases i with
        | accept o =>
            rcases List.mem_append.mp hc with hc | hc
            · exact hdead conn hc ho
            · obtain rfl := List.mem_singleton.mp hc
              exact absurd ho.symm ((List.nodup_append.mp hnd).2.2 owner hmem o List.mem_cons_self)
        | erase o => exact hdead conn (List.mem_of_mem_eraseP hc) ho
        | frame => exact hmap conn hc ho
        | flush => exact hmap conn hc ho
        | hangup => exact hmap conn hc ho
        | disconnect => exact hmap conn hc ho

theorem lost_of_isDead (hp : p.Valid) (hnd : (accepted log).Nodup)
    (h : (run p log).isDead owner = true) : Lost p owner log := by
  obtain ⟨conn, hfind, hdead⟩ := (Option.any_eq_true _ _).mp h
  have hsub := owners_sublist hp hnd
  have hc := List.mem_of_find?_eq_some hfind
  have hof : isOf owner conn = true := List.find?_some hfind
  obtain rfl : conn.owner = owner := of_decide_eq_true hof
  refine ⟨hsub.subset (List.mem_map_of_mem hc), fun x hx ho => ?_⟩
  have hfind' := find?_of_mem (hsub.nodup hnd) hx
  rw [ho, hfind] at hfind'
  rw [← Option.some.inj hfind']
  exact hdead

/-- A dead connection stays dead while its outbox is flushed. -/
theorem isDead_onConn {g : Gateway OrderBook} {f : Connection → Connection}
    (howner : ∀ conn, (f conn).owner = conn.owner) (hf : ∀ conn, conn.dead = true → (f conn).dead = true)
    (h : g.isDead owner = true) : (g.onConn owner f).isDead owner = true := by
  obtain ⟨conn, hfind, hdead⟩ := (Option.any_eq_true _ _).mp h
  obtain ⟨pre, post, hfound⟩ := found_of_find? hfind
  have hconns : (g.onConn owner f).conns = pre ++ f conn :: post := hfound.onFirst f
  rw [isDead, hconns, (hfound.replace (howner conn)).find?]
  exact hf conn hdead

end Gateway

/-! ### The bytes of a client -/

/-- The front of a stream of messages splits into messages and an unfinished one. -/
theorem splits_messages {stream tail : List UInt8} {bodies : List (List UInt8)}
    {reqs : List Request} (hrange : ∀ req ∈ reqs, req.InRange)
    (hstream : stream <+: reqs.flatMap Request.wire) (hsplit : Deframes stream bodies tail) :
    Short kHeaderLen kMaxFrameLen tail ∧ ∃ reqs₁ : List Request,
      bodies = reqs₁.map (fun req => req.message.body) ∧ ∀ req ∈ reqs₁, req.InRange := by
  obtain ⟨more, hmore⟩ := hstream
  have hwhole : Deframes (stream ++ more) (reqs.map fun req => req.message.body) [] := by
    rw [hmore, flatMap_wire]
    refine .of_frames (by decide) fun b hb => ?_
    obtain ⟨req, -, rfl⟩ := List.mem_map.mp hb
    exact req.message.good_body
  rcases hsplit.tail with hbad | hshort
  · -- a bad length would stay in front of the rest
    have htail := ((hsplit.append_bad hbad more).unique (by decide) hwhole).2
    have hlen := hbad.1
    rw [(List.append_eq_nil_iff.mp htail).1] at hlen
    exact absurd hlen (by decide)
  · obtain ⟨bodies', tail', hsplit'⟩ := exists_splits kHeaderLen kMaxFrameLen (tail ++ more)
    have hbodies := ((hsplit.append_short hsplit').unique (by decide) hwhole).1
    obtain ⟨reqs₁, reqs₂, rfl, hreqs₁, -⟩ := List.map_eq_append_iff.mp hbodies.symm
    exact ⟨hshort, reqs₁, hreqs₁.symm, fun req hreq => hrange req (List.mem_append_left _ hreq)⟩

/-- More bytes of a stream of messages complete further messages. -/
theorem splits_more {past buf more : List UInt8} {bodies : List (List UInt8)} {reqs : List Request}
    (hrange : ∀ req ∈ reqs, req.InRange) (hsplit : Deframes past bodies buf)
    (hstream : past ++ more <+: reqs.flatMap Request.wire) : ∃ (reqs' : List Request) (tail : List UInt8),
      (∀ req ∈ reqs', req.InRange) ∧ Short kHeaderLen kMaxFrameLen tail ∧
      Deframes (buf ++ more) (reqs'.map fun req => req.message.body) tail ∧
      Deframes (past ++ more) (bodies ++ reqs'.map fun req => req.message.body) tail := by
  obtain ⟨bodies', tail, hsplit'⟩ := exists_splits kHeaderLen kMaxFrameLen (buf ++ more)
  have hwhole := hsplit.append_short hsplit'
  obtain ⟨htail, reqs₁, hreqs₁, hrange₁⟩ := splits_messages hrange hstream hwhole
  obtain ⟨reqs₀, reqs', rfl, -, rfl⟩ := List.map_eq_append_iff.mp hreqs₁.symm
  exact ⟨reqs', tail, fun req hreq => hrange₁ req (List.mem_append_right _ hreq), htail, hsplit',
    hwhole⟩

/-- The bytes of one answer. -/
def Recv.chunk : Recv → List (List UInt8)
  | .got bytes => [bytes]
  | _ => []

namespace Ready

variable (r : Ready)

/-- What `recv` returns in a turn, until it reports `EAGAIN`. -/
def chunks : List (List UInt8) :=
  if r.readable then (r.recvs.takeWhile fun x => decide (x ≠ .again)).flatMap Recv.chunk else []

/-- The bytes that arrive in a turn. -/
def stream : List UInt8 := r.chunks.flatten

/-- The peer takes every byte offered, and neither fails nor closes. -/
structure Prompt : Prop where
  unbroken : r.broken = false
  recvs : ∀ x ∈ r.recvs, x ≠ .failed ∧ x ≠ .got []
  sends : ∃ n xs, r.sends = .took n :: xs ∧ kMaxOutbox ≤ n
  moreSends : ∃ n xs, r.moreSends = .took n :: xs ∧ kMaxOutbox ≤ n

end Ready

namespace PollLoop

open Connection
open Gateway (Reached sink executeAll owedAll)

variable {p : Params} {n : ℕ} {s : PollLoop} {owner o : Owner} {buf : List UInt8} {r : Ready}

theorem readLoop_eq (xs : List Recv) (h : ∀ x ∈ xs, x ≠ .failed ∧ x ≠ .got []) (s : PollLoop) :
    readLoop owner xs s =
      feedChunks owner ((xs.takeWhile fun x => decide (x ≠ .again)).flatMap Recv.chunk) s := by
  induction xs generalizing s with
  | nil => rfl
  | cons x xs ih =>
      have hxs : ∀ x ∈ xs, x ≠ .failed ∧ x ≠ .got [] := fun y hy => h y (List.mem_cons_of_mem x hy)
      obtain ⟨hfailed, hclosed⟩ := h x List.mem_cons_self
      cases x with
      | got bytes =>
          have hne : bytes ≠ [] := fun he => hclosed (congrArg Recv.got he)
          rw [List.takeWhile_cons_of_pos (by simp), List.flatMap_cons, Recv.chunk,
            List.singleton_append, feedChunks_cons, readLoop, if_neg hne]
          dsimp only
          rw [ih hxs]
      | again =>
          rw [List.takeWhile_cons_of_neg (by simp)]
          rfl
      | interrupted =>
          have hnone : Recv.interrupted.chunk = [] := rfl
          rw [List.takeWhile_cons_of_pos (by simp), List.flatMap_cons, hnone, List.nil_append,
            readLoop, ih hxs]
      | failed => exact absurd rfl hfailed

theorem receive_eq (h : r.Prompt) (s : PollLoop) :
    s.receive owner r = feedChunks owner r.chunks s := by
  unfold receive Ready.chunks
  split_ifs
  · exact readLoop_eq _ h.recvs s
  · rfl

/-! ### Between turns -/

/-- A client that lives, with nothing to send and the bytes `buf` of an unfinished frame. -/
structure Idle (p : Params) (n : ℕ) (owner : Owner) (s : PollLoop) (buf : List UInt8) : Prop where
  accounts : Accounts p n s
  conn : ∃ conn ∈ s.gateway.conns, conn.owner = owner ∧ conn.dead = false ∧ conn.outbox = []
  frames : s.frames owner = ⟨buf, false⟩
  short : Short kHeaderLen kMaxFrameLen buf

/-- `s'` has the connection of `owner` as `s` has it. -/
structure SameConn (owner : Owner) (s s' : PollLoop) : Prop where
  conn : ∀ conn ∈ s.gateway.conns, conn.owner = owner → conn ∈ s'.gateway.conns
  frames : s'.frames owner = s.frames owner

theorem SameConn.trans {s' s'' : PollLoop} (h : SameConn owner s s') (h' : SameConn owner s' s'') :
    SameConn owner s s'' :=
  ⟨fun conn hc ho => h'.conn conn (h.conn conn hc ho) ho, h'.frames.trans h.frames⟩

theorem Idle.of_same {n' : ℕ} {s' : PollLoop} (h : Idle p n owner s buf)
    (haccounts : Accounts p n' s') (hsame : SameConn owner s s') : Idle p n' owner s' buf := by
  obtain ⟨conn, hc, ho, hlive, hout⟩ := h.conn
  exact ⟨haccounts, ⟨conn, hsame.conn conn hc ho, ho, hlive, hout⟩, hsame.frames.trans h.frames,
    h.short⟩

/-- The loop accepts another client. -/
theorem SameConn.accept (hn : n + 1 < 2 ^ 32) (h : Accounts p n s)
    (howner : owner ∈ accepted s.log) : SameConn owner s s.accept := by
  have hnd := h.accept.nodup hn
  have hlog : s.accept.log = s.log ++ [.accept s.nextOwner] := rfl
  rw [hlog, accepted_append] at hnd
  have hne : owner ≠ s.nextOwner :=
    (List.nodup_append.mp hnd).2.2 owner howner s.nextOwner List.mem_cons_self
  exact ⟨fun conn hc _ => List.mem_append_left _ hc, Function.update_of_ne hne _ _⟩

/-- An action for another connection. -/
theorem SameConn.act {i : Gateway.Input}
    (hconns : (s.act i).gateway.conns = s.gateway.conns.map (s.gateway.effect i))
    (hother : ∀ conn : Connection, conn.owner = owner → s.gateway.effect i conn = conn) :
    SameConn owner s (s.act i) := by
  refine ⟨fun conn hc ho => ?_, rfl⟩
  rw [hconns, ← hother conn ho]
  exact List.mem_map_of_mem hc

section others

variable (hp : p.Valid) (hn : n < 2 ^ 32)

include hp hn

theorem mem_accepted (h : Accounts p n s) {conn : Connection} (hc : conn ∈ s.gateway.conns) :
    conn.owner ∈ accepted s.log := by
  rw [h.gateway_eq] at hc
  exact (Gateway.owners_sublist hp (h.nodup hn)).subset (List.mem_map_of_mem hc)

/-- The calls for another connection. -/
theorem SameConn.safe (s₀ : PollLoop) (hne : owner ≠ o) :
    Safe o (fun s => Accounts p n s ∧ SameConn owner s₀ s) where
  frame body h := by
    refine ⟨h.1.act rfl, h.2.trans (SameConn.act (Gateway.conns_step (h.1.reached hp)
      (h.1.distinct hp hn) _) fun conn ho => if_neg fun hc => hne (ho.symm.trans hc.1))⟩
  flush k h := by
    refine ⟨h.1.act rfl, h.2.trans (SameConn.act (Gateway.conns_step (h.1.reached hp)
      (h.1.distinct hp hn) _) fun conn ho => if_neg fun hc => hne (ho.symm.trans hc))⟩
  hangup h := by
    refine ⟨h.1.act rfl, h.2.trans (SameConn.act (Gateway.conns_step (h.1.reached hp)
      (h.1.distinct hp hn) _) fun conn ho => if_neg fun hc => hne (ho.symm.trans hc))⟩
  setFrames fb h :=
    ⟨(Accounts.safe o).setFrames fb h.1, h.2.trans ⟨fun _ hc _ => hc, Function.update_of_ne hne _ _⟩⟩

/-- The turn of another connection. -/
theorem SameConn.service (h : Accounts p n s) (hne : owner ≠ o) (r : Ready) :
    SameConn owner s (s.service o r) :=
  ((SameConn.safe hp hn s hne).service r ⟨h, fun _ hc _ => hc, rfl⟩).2

/-- The removal of another connection. -/
theorem SameConn.reap (h : Accounts p n s) (hne : owner ≠ o) (r : Ready) :
    SameConn owner s (s.reap o r) := by
  by_cases hdead : s.isDead o = true
  · have hremoval := h.removal hp hn (r := r) hdead
    refine ⟨fun conn hc ho => ?_, ?_⟩
    · rw [hremoval.conns]
      exact List.mem_filter.mpr ⟨hc, decide_eq_true (ho ▸ hne)⟩
    · have hframes : (flushOutbox o r.lastSends s).frames = s.frames :=
        @inv_flushOutbox o (fun s' => s'.frames = s.frames) (fun _ h => h) (fun h => h) _ _ rfl
      rw [PollLoop.reap, if_pos hdead]
      exact congrFun hframes owner
  · rw [PollLoop.reap, if_neg hdead]
    exact ⟨fun _ hc _ => hc, rfl⟩

/-! ### The turn of a client -/

theorem isDead_of_mem (h : Accounts p n s) {conn : Connection} (hc : conn ∈ s.gateway.conns) :
    s.isDead conn.owner = conn.dead := by
  rw [isDead, Gateway.isDead, find?_of_mem (h.distinct hp hn) hc, Option.any_some]

theorem hasOutput_of_mem (h : Accounts p n s) {conn : Connection} (hc : conn ∈ s.gateway.conns) :
    s.hasOutput conn.owner = decide (conn.outbox ≠ []) := by
  rw [hasOutput, find?_of_mem (h.distinct hp hn) hc, Option.any_some]

/-- **A peer that takes everything leaves nothing in the outbox.** -/
theorem flushOutbox_whole (h : Accounts p n s) {conn : Connection} (hc : conn ∈ s.gateway.conns)
    (hlive : conn.dead = false) {k : ℕ} (hk : kMaxOutbox ≤ k) (hcap : conn.outbox.length ≤ kMaxOutbox)
    (xs : List Sent) :
    Accounts p n (flushOutbox conn.owner (.took k :: xs) s) ∧
      (∃ conn' ∈ (flushOutbox conn.owner (.took k :: xs) s).gateway.conns,
        conn'.owner = conn.owner ∧ conn'.dead = false ∧ conn'.outbox = []) ∧
      (flushOutbox conn.owner (.took k :: xs) s).frames = s.frames := by
  have hpos : 0 < k := Nat.lt_of_lt_of_le (by decide) hk
  have hnone : ∀ (xs : List Sent) (s : PollLoop) (o : Owner), s.hasOutput o = false →
      flushOutbox o xs s = s := by
    intro xs s o ho
    cases xs with
    | nil => rfl
    | cons x xs => simp only [flushOutbox, ho, Bool.false_eq_true, if_false]
  by_cases hout : conn.outbox = []
  · have hno : s.hasOutput conn.owner = false := by
      rw [hasOutput_of_mem hp hn h hc]
      simpa using hout
    rw [hnone _ _ _ hno]
    exact ⟨h, ⟨conn, hc, rfl, hlive, hout⟩, rfl⟩
  · have hyes : s.hasOutput conn.owner = true := by
      rw [hasOutput_of_mem hp hn h hc]
      exact decide_eq_true hout
    have hact : Accounts p n (s.act (.flush conn.owner k)) := h.act rfl
    have hempty : (conn.flush k).outbox = [] := List.drop_of_length_le (hcap.trans hk)
    have hmem : conn.flush k ∈ (s.act (.flush conn.owner k)).gateway.conns := by
      have hconns := Gateway.conns_step (h.reached hp) (h.distinct hp hn) (.flush conn.owner k)
      have heffect : s.gateway.effect (.flush conn.owner k) conn = conn.flush k := if_pos rfl
      rw [PollLoop.act, hconns, ← heffect]
      exact List.mem_map_of_mem hc
    have hno : (s.act (.flush conn.owner k)).hasOutput conn.owner = false := by
      have hflushed : _ = decide ((conn.flush k).outbox ≠ []) := hasOutput_of_mem hp hn hact hmem
      rw [hempty] at hflushed
      exact hflushed.trans (by simp)
    have hflush : flushOutbox conn.owner (.took k :: xs) s = s.act (.flush conn.owner k) := by
      simp only [flushOutbox, hyes, hpos, if_true]
      exact hnone _ _ _ hno
    rw [hflush]
    exact ⟨hact, ⟨conn.flush k, hmem, rfl, hlive, hempty⟩, rfl⟩

/-- After the flushes of its turn the client is idle. -/
theorem Idle.send (h : Accounts p n s) {conn : Connection} (hc : conn ∈ s.gateway.conns)
    (hlive : conn.dead = false) (hcap : conn.outbox.length ≤ kMaxOutbox)
    (hframes : s.frames conn.owner = ⟨buf, false⟩) (hshort : Short kHeaderLen kMaxFrameLen buf)
    (hr : r.Prompt) : Idle p n conn.owner (s.send conn.owner r) buf := by
  have hdead : s.isDead conn.owner = false := (isDead_of_mem hp hn h hc).trans hlive
  obtain ⟨k, xs, hsends, hk⟩ := hr.sends
  obtain ⟨k', xs', hmore, hk'⟩ := hr.moreSends
  cases hw : r.writable with
  | true =>
      obtain ⟨haccounts, ⟨conn', hc', ho', hlive', hout'⟩, hframes'⟩ :=
        flushOutbox_whole hp hn h hc hlive hk hcap xs
      rw [← hsends] at haccounts hc' hframes'
      have hno : (flushOutbox conn.owner r.sends s).hasOutput conn.owner = false := by
        have hsent := hasOutput_of_mem hp hn haccounts hc'
        rw [ho', hout'] at hsent
        exact hsent.trans (by simp)
      have hsend : s.send conn.owner r = flushOutbox conn.owner r.sends s := by
        simp only [PollLoop.send, hdead, hw, hno, Bool.not_false, Bool.and_true, Bool.and_false,
          if_true, Bool.false_eq_true, if_false]
      rw [hsend]
      exact ⟨haccounts, ⟨conn', hc', ho', hlive', hout'⟩, (congrFun hframes' _).trans hframes, hshort⟩
  | false =>
      have hsend : s.send conn.owner r =
          if s.hasOutput conn.owner then flushOutbox conn.owner r.moreSends s else s := by
        simp only [PollLoop.send, hdead, hw, Bool.not_false, Bool.and_false, Bool.true_and,
          Bool.false_eq_true, if_false]
      rw [hsend]
      split_ifs with hout
      · obtain ⟨haccounts, hconn, hframes'⟩ := flushOutbox_whole hp hn h hc hlive hk' hcap xs'
        rw [← hmore] at haccounts hconn hframes'
        exact ⟨haccounts, hconn, (congrFun hframes' _).trans hframes, hshort⟩
      · rw [hasOutput_of_mem hp hn h hc] at hout
        exact ⟨h, ⟨conn, hc, rfl, hlive, by simpa using hout⟩, hframes, hshort⟩

omit hp hn in
/-- What the reading of its turn does to an idle client. -/
theorem Idle.receive (h : Idle p n owner s buf) (hr : r.Prompt) {reqs : List Request}
    {tail : List UInt8}
    (hsplit : Deframes (buf ++ r.stream) (reqs.map fun req => req.message.body) tail)
    (htail : Short kHeaderLen kMaxFrameLen tail) :
    Accounts p n (s.receive owner r) ∧
      (s.receive owner r).gateway =
        (reqs.map fun req => req.message.body).foldl (sink owner) s.gateway ∧
      ((s.receive owner r).isDead owner = false →
        (s.receive owner r).frames owner = ⟨tail, false⟩) := by
  have hgood : ¬ Bad kHeaderLen kMaxFrameLen tail := fun hbad => not_bad_short hbad htail
  obtain ⟨bodies, tail', hsplit', hgateway, -, hframes⟩ :=
    feedChunks_bodies owner r.chunks buf s h.frames h.short
  obtain ⟨rfl, rfl⟩ := hsplit'.unique (by decide) hsplit
  specialize hgateway hgood
  have haccounts := (Accounts.safe owner).receive r h.accounts
  rw [receive_eq hr] at haccounts ⊢
  refine ⟨haccounts, hgateway, fun hlive => hframes hgood ?_⟩
  rw [← hgateway]
  exact hlive

/-- **A turn whose reports fit leaves the client idle.** -/
theorem Idle.turn (h : Idle p n owner s buf) (hr : r.Prompt) {reqs : List Request}
    {tail : List UInt8} (hrange : ∀ req ∈ reqs, req.InRange)
    (hsplit : Deframes (buf ++ r.stream) (reqs.map fun req => req.message.body) tail)
    (htail : Short kHeaderLen kMaxFrameLen tail)
    (hfits : (owedAll owner s.gateway reqs).length ≤ 4096) :
    Idle p n owner (s.service owner r) tail := by
  obtain ⟨haccounts, hgateway, hframes⟩ := h.receive hr hsplit htail
  obtain ⟨conn, hc, ho, hlive, hout⟩ := h.conn
  have hfind := find?_of_mem (h.accounts.distinct hp hn) hc
  rw [ho] at hfind
  have hroom : conn.outbox.length + 16 * (owedAll owner s.gateway reqs).length ≤ kMaxOutbox := by
    rw [hout, List.length_nil]
    unfold kMaxOutbox
    omega
  obtain ⟨hall, hfind', hlive'⟩ :=
    Gateway.foldl_sink reqs hrange (h.accounts.reached hp) hfind hlive hroom
  rw [hall] at hgateway
  have hc' := List.mem_of_find?_eq_some hfind'
  rw [← hgateway] at hc'
  have ho' : (conn.sendAll (owedAll owner s.gateway reqs)).owner = owner :=
    (owner_sendAll _ _).trans ho
  have hcap : (conn.sendAll (owedAll owner s.gateway reqs)).outbox.length ≤ kMaxOutbox := by
    have htake := List.length_take_le conn.room (owedAll owner s.gateway reqs)
    rw [sendAll_eq]
    simp only [List.length_append, length_flatMap_bytes, List.length_take]
    omega
  have hservice : s.service owner r = (s.receive owner r).send owner r := by
    rw [service, hr.unbroken]
    rfl
  have hdead := isDead_of_mem hp hn haccounts hc'
  rw [ho', hlive'] at hdead
  have hidle := Idle.send hp hn haccounts hc' hlive' hcap (by rw [ho']; exact hframes hdead) htail hr
  rw [ho'] at hidle
  rw [hservice]
  exact hidle

/-- **A turn whose reports do not fit kills it.** -/
theorem Idle.turn_full (h : Idle p n owner s buf) (hr : r.Prompt) {reqs : List Request}
    {tail : List UInt8} (hrange : ∀ req ∈ reqs, req.InRange)
    (hsplit : Deframes (buf ++ r.stream) (reqs.map fun req => req.message.body) tail)
    (htail : Short kHeaderLen kMaxFrameLen tail)
    (hfull : 4096 < (owedAll owner s.gateway reqs).length) :
    (s.service owner r).isDead owner = true := by
  obtain ⟨-, hgateway, -⟩ := h.receive hr hsplit htail
  obtain ⟨conn, hc, ho, hlive, hout⟩ := h.conn
  have hdistinct := h.accounts.distinct hp hn
  have hfind := find?_of_mem hdistinct hc
  rw [ho] at hfind
  obtain ⟨pre, post, hfound⟩ := found_of_find? hfind
  have hdead : (s.receive owner r).isDead owner = true := by
    rw [isDead, hgateway]
    refine Gateway.foldl_sink_full reqs hrange (h.accounts.reached hp) hfound (hfound.alone hdistinct) hlive
      ?_ ?_
    · rw [hout]
      exact Nat.zero_le _
    · rw [hout, List.length_nil]
      unfold kMaxOutbox
      omega
  have hservice : s.service owner r = s.receive owner r := by
    rw [service, hr.unbroken]
    simp only [PollLoop.send, hdead, Bool.not_true, Bool.false_and, Bool.false_eq_true, if_false]
  rw [hservice]
  exact hdead

/-! ### A turn of the loop -/

theorem Idle.serviceAll (h : Idle p n owner s buf) (it : Iteration) (owners : List Owner)
    (howner : owner ∉ owners) : Idle p n owner (serviceAll it owners s) buf := by
  induction owners generalizing s with
  | nil => exact h
  | cons o owners ih =>
      rw [List.mem_cons, not_or] at howner
      refine ih (h.of_same ?_ (SameConn.service hp hn h.accounts howner.1 _)) howner.2
      exact (Accounts.safe o).service _ h.accounts

theorem Idle.isDead (h : Idle p n owner s buf) : s.isDead owner = false := by
  obtain ⟨conn, hc, rfl, hlive, -⟩ := h.conn
  exact (isDead_of_mem hp hn h.accounts hc).trans hlive

theorem Idle.reapAll (h : Idle p n owner s buf) (it : Iteration) (owners : List Owner) :
    Idle p n owner (reapAll it owners s) buf := by
  induction owners generalizing s with
  | nil => exact h
  | cons o owners ih =>
      refine ih ?_
      by_cases ho : owner = o
      · subst ho
        have hreap : s.reap owner (it.ready owner) = s := by
          rw [PollLoop.reap, h.isDead hp hn]
          rfl
        show Idle p n owner (s.reap owner (it.ready owner)) buf
        rw [hreap]
        exact h
      · exact h.of_same (h.accounts.reap o _) (SameConn.reap hp hn h.accounts ho _)

theorem Idle.mem_owners (h : Idle p n owner s buf) : ∃ before after,
    s.owners = before ++ owner :: after ∧ owner ∉ before ∧ owner ∉ after := by
  obtain ⟨conn, hc, rfl, -⟩ := h.conn
  obtain ⟨before, after, hsplit⟩ := List.append_of_mem (List.mem_map_of_mem (f := Connection.owner) hc)
  have hnd : s.owners.Nodup := h.accounts.distinct hp hn
  refine ⟨before, after, hsplit, ?_⟩
  rw [show s.owners = before ++ conn.owner :: after from hsplit, List.nodup_append] at hnd
  exact ⟨fun hb => hnd.2.2 _ hb _ List.mem_cons_self rfl, (List.nodup_cons.mp hnd.2.1).1⟩

end others

/-- The messages that the bytes of a turn complete are owed no more reports than an outbox holds. -/
def PacedTurn (owner : Owner) (s : PollLoop) (r : Ready) : Prop :=
  ∀ reqs rest, Longest ((s.frames owner).buf ++ r.stream) reqs rest →
    (owedAll owner s.gateway reqs).length ≤ 4096

/-- After the turns `pre` of the loop, every turn of the client in `post` is such a turn. -/
def Paced (p : Params) (owner : Owner) (pre post : List Iteration) : Prop :=
  ∀ post₁ it post₂, post = post₁ ++ it :: post₂ →
    ∀ before after, (run p (pre ++ post₁)).owners = before ++ owner :: after →
      PacedTurn owner (serviceAll it before ((run p (pre ++ post₁)).welcome it)) (it.ready owner)

/-! ### Logs -/

/-- The log of `s` starts with `log`. -/
theorem safe_log (o : Owner) (log : List Gateway.Input) : Safe o fun s => log <+: s.log where
  frame _ h := h.trans (List.prefix_append _ _)
  flush _ h := h.trans (List.prefix_append _ _)
  hangup h := h.trans (List.prefix_append _ _)
  setFrames _ h := h

theorem log_serviceAll (it : Iteration) (owners : List Owner) (s : PollLoop) :
    s.log <+: (serviceAll it owners s).log :=
  List.foldlRecOn (motive := fun s' : PollLoop => s.log <+: s'.log) owners _ List.prefix_rfl
    fun _ h o _ => (safe_log o s.log).service _ h

theorem log_reapAll (it : Iteration) (owners : List Owner) (s : PollLoop) :
    s.log <+: (reapAll it owners s).log := by
  refine List.foldlRecOn (motive := fun s' : PollLoop => s.log <+: s'.log) owners _ List.prefix_rfl
    fun s' h o _ => ?_
  unfold PollLoop.reap
  split_ifs
  · have hflush := (safe_log o s.log).flushOutbox (it.ready o).lastSends h
    exact (hflush.trans (List.prefix_append _ _)).trans (List.prefix_append _ _)
  · exact h

theorem log_iterate (s : PollLoop) (it : Iteration) : s.log <+: (s.iterate it).log := by
  have hwelcome : s.log <+: (s.welcome it).log := by
    unfold welcome
    split_ifs
    · exact List.prefix_append _ _
    · exact List.prefix_rfl
  exact (hwelcome.trans (log_serviceAll it s.owners _)).trans (log_reapAll it _ _)

theorem log_run (p : Params) (its more : List Iteration) :
    (run p its).log <+: (run p (its ++ more)).log := by
  induction more using List.reverseRecOn with
  | nil => rw [List.append_nil]
  | append_singleton more it ih =>
      rw [← List.append_assoc, run_append]
      exact ih.trans (log_iterate _ it)

/-- Whoever is disconnected was dead. -/
def DropsDead (p : Params) (s : PollLoop) : Prop :=
  ∀ log o, log ++ [.disconnect o] <+: s.log → (Gateway.run p log).isDead o = true

theorem DropsDead.act (h : DropsDead p s) {i : Gateway.Input}
    (hi : ∀ o, i = .disconnect o → (Gateway.run p s.log).isDead o = true) :
    DropsDead p (s.act i) := by
  intro log o hlog
  rcases List.prefix_concat_iff.mp hlog with heq | hlog
  · obtain ⟨rfl, hlast⟩ := List.append_inj' heq rfl
    exact hi o (List.cons.inj hlast).1.symm
  · exact h log o hlog

theorem DropsDead.safe (o : Owner) : Safe o (DropsDead p) where
  frame _ h := h.act fun _ he => nomatch he
  flush _ h := h.act fun _ he => nomatch he
  hangup h := h.act fun _ he => nomatch he
  setFrames _ h := h

theorem DropsDead.reap (h : DropsDead p s) (haccounts : Accounts p n s) (o : Owner) (r : Ready) :
    DropsDead p (s.reap o r) := by
  unfold PollLoop.reap
  split_ifs with hdead
  · have hflushed := (Accounts.safe o).flushOutbox r.lastSends haccounts
    have hstill : (flushOutbox o r.lastSends s).isDead o = true :=
      @inv_flushOutbox o (fun s => s.isDead o = true)
        (fun _ h => Gateway.isDead_onConn (fun _ => rfl) (fun _ h => h) h)
        (fun h => Gateway.isDead_onConn (fun _ => rfl) (fun _ _ => rfl) h) _ _ hdead
    refine (((DropsDead.safe o).flushOutbox _ h).act fun o' he => ?_).act fun _ he => nomatch he
    cases he
    rw [← hflushed.gateway_eq]
    exact hstill
  · exact h

theorem dropsDead_run (p : Params) (its : List Iteration) : DropsDead p (run p its) := by
  induction its using List.reverseRecOn with
  | nil =>
      intro log o hlog
      have hnil := List.prefix_nil.mp hlog
      exact absurd hnil (List.append_ne_nil_of_right_ne_nil _ (List.cons_ne_nil _ _))
  | append_singleton its it ih =>
      have haccounts := (Accounts.run p its).welcome it
      have hwelcome : DropsDead p ((run p its).welcome it) := by
        unfold welcome
        split_ifs
        · exact ih.act fun _ he => nomatch he
        · exact ih
      have hserved := List.foldlRecOn (motive := fun s => Accounts p _ s ∧ DropsDead p s)
        (run p its).owners _ ⟨haccounts, hwelcome⟩
        fun _ h o _ => ⟨(Accounts.safe o).service (it.ready o) h.1,
          (DropsDead.safe o).service (it.ready o) h.2⟩
      rw [run_append]
      exact (List.foldlRecOn (motive := fun s => Accounts p _ s ∧ DropsDead p s) _ _ hserved
        fun _ h o _ => ⟨h.1.reap o (it.ready o), h.2.reap h.1 o (it.ready o)⟩).2

/-! ### Runs -/

/-- The turn of a client whose bytes complete the messages `reqs`. -/
theorem pacedTurn_iff (hbuf : s.frames owner = ⟨buf, false⟩) {reqs : List Request}
    {tail : List UInt8} (hrange : ∀ req ∈ reqs, req.InRange)
    (hsplit : Deframes (buf ++ r.stream) (reqs.map fun req => req.message.body) tail) :
    PacedTurn owner s r ↔ (owedAll owner s.gateway reqs).length ≤ 4096 := by
  have hall : reqs.map (fun req => req.message.body) =
      reqs.map (fun req => req.message.body) ++ [] := (List.append_nil _).symm
  have hlongest := longest_of_bodies hsplit hall hrange fun _ hb => nomatch hb
  unfold PacedTurn
  rw [hbuf]
  constructor
  · exact fun h => h reqs _ hlongest
  · intro h reqs' rest' hlongest'
    rw [hlongest'.unique hlongest]
    exact h

section runs

variable (hp : p.Valid)

include hp

/-- An idle client when its turn comes. -/
theorem Idle.atTurn (h : Idle p n owner s buf) {it : Iteration}
    (hn : n + (if it.accepts then 1 else 0) < 2 ^ 32) {before : List Owner} (hbefore : owner ∉ before) :
    Idle p (n + if it.accepts then 1 else 0) owner (PollLoop.serviceAll it before (s.welcome it))
      buf := by
  have hwelcome : SameConn owner s (s.welcome it) := by
    unfold welcome
    split_ifs with hacc
    · obtain ⟨conn, hc, rfl, -⟩ := h.conn
      rw [if_pos hacc] at hn
      exact SameConn.accept hn h.accounts (mem_accepted hp (by omega) h.accounts hc)
    · exact ⟨fun _ hc _ => hc, rfl⟩
  exact (h.of_same (h.accounts.welcome it) hwelcome).serviceAll hp hn it before hbefore

/-- An idle client whose turn is paced is idle at the next boundary. -/
theorem Idle.iterate (h : Idle p n owner s buf) {it : Iteration}
    (hn : n + (if it.accepts then 1 else 0) < 2 ^ 32) (hr : (it.ready owner).Prompt)
    {reqs : List Request} {tail : List UInt8} (hrange : ∀ req ∈ reqs, req.InRange)
    (hsplit : Deframes (buf ++ (it.ready owner).stream) (reqs.map fun req => req.message.body) tail)
    (htail : Short kHeaderLen kMaxFrameLen tail)
    (hpaced : ∀ before after, s.owners = before ++ owner :: after →
      PacedTurn owner (PollLoop.serviceAll it before (s.welcome it)) (it.ready owner)) :
    Idle p (n + if it.accepts then 1 else 0) owner (s.iterate it) tail := by
  obtain ⟨before, after, howners, hbefore, hafter⟩ := h.mem_owners hp (by omega)
  have hturn := h.atTurn hp hn hbefore
  have hfits := (pacedTurn_iff hturn.frames hrange hsplit).mp (hpaced before after howners)
  have hserved := (hturn.turn hp hn hr hrange hsplit htail hfits).serviceAll hp hn it after hafter
  have hall : s.serviced it = PollLoop.serviceAll it after ((PollLoop.serviceAll it before
      (s.welcome it)).service owner (it.ready owner)) := by
    simp only [serviced, howners, PollLoop.serviceAll, List.foldl_append, List.foldl_cons]
  rw [← hall] at hserved
  exact hserved.reapAll hp hn it _

/-- An idle client whose turn is not paced is dead at some point. -/
theorem Idle.iterate_full (h : Idle p n owner s buf) {it : Iteration}
    (hn : n + (if it.accepts then 1 else 0) < 2 ^ 32) (hr : (it.ready owner).Prompt)
    {reqs : List Request} {tail : List UInt8} (hrange : ∀ req ∈ reqs, req.InRange)
    (hsplit : Deframes (buf ++ (it.ready owner).stream) (reqs.map fun req => req.message.body) tail)
    (htail : Short kHeaderLen kMaxFrameLen tail) {before after : List Owner}
    (howners : s.owners = before ++ owner :: after)
    (hfull : ¬ PacedTurn owner (PollLoop.serviceAll it before (s.welcome it)) (it.ready owner)) :
    ∃ log, log <+: (s.iterate it).log ∧ (Gateway.run p log).isDead owner = true := by
  have hnd : s.owners.Nodup := h.accounts.distinct hp (by omega)
  have hbefore : owner ∉ before := fun hb => by
    rw [howners] at hnd
    exact (List.nodup_append.mp hnd).2.2 _ hb _ List.mem_cons_self rfl
  have hturn := h.atTurn hp hn hbefore
  rw [pacedTurn_iff hturn.frames hrange hsplit, Nat.not_le] at hfull
  have hdead := hturn.turn_full hp hn hr hrange hsplit htail hfull
  have haccounts := (Accounts.safe owner).service (it.ready owner) hturn.accounts
  refine ⟨((PollLoop.serviceAll it before (s.welcome it)).service owner (it.ready owner)).log, ?_, ?_⟩
  · have hall : s.serviced it = PollLoop.serviceAll it after ((PollLoop.serviceAll it before
        (s.welcome it)).service owner (it.ready owner)) := by
      simp only [serviced, howners, PollLoop.serviceAll, List.foldl_append, List.foldl_cons]
    have hafter := log_serviceAll it after ((PollLoop.serviceAll it before
      (s.welcome it)).service owner (it.ready owner))
    rw [← hall] at hafter
    exact hafter.trans (log_reapAll it _ _)
  · rw [← haccounts.gateway_eq]
    exact hdead

/-- A client that has just been accepted is idle. -/
theorem idle_accept (h : Accounts p n s) (hn : n + 1 < 2 ^ 32) {it : Iteration}
    (hacc : it.accepts = true) : Idle p (n + 1) s.nextOwner (s.iterate it) [] := by
  have hnd := h.accept.nodup hn
  have hlog : s.accept.log = s.log ++ [.accept s.nextOwner] := rfl
  rw [hlog, accepted_append] at hnd
  have hnew : s.nextOwner ∉ s.owners := by
    intro hmem
    obtain ⟨conn, hc, ho⟩ := List.mem_map.mp hmem
    have hold := mem_accepted hp (by omega) h hc
    exact (List.nodup_append.mp hnd).2.2 _ hold _ List.mem_cons_self ho
  have hidle : Idle p (n + 1) s.nextOwner s.accept [] :=
    ⟨h.accept, ⟨{ owner := s.nextOwner }, List.mem_append_right _ List.mem_cons_self, rfl, rfl, rfl⟩,
      Function.update_self .., short_nil (by decide)⟩
  have hserved := hidle.serviceAll hp hn it s.owners hnew
  have hwelcome : s.welcome it = s.accept := if_pos hacc
  rw [← hwelcome] at hserved
  exact hserved.reapAll hp hn it _

/-- An idle client was never dead. -/
theorem Idle.never_dead (h : Idle p n owner s buf) (hn : n < 2 ^ 32) {log : List Gateway.Input}
    (hlog : log <+: s.log) : (Gateway.run p log).isDead owner = false := by
  by_contra hdead
  rw [Bool.not_eq_false] at hdead
  obtain ⟨more, hmore⟩ := hlog
  have hnd := h.accounts.nodup hn
  rw [← hmore] at hnd
  have hnd' : (accepted log).Nodup := by
    rw [accepted_append] at hnd
    exact List.Nodup.of_append_left hnd
  have hlost := (Gateway.lost_of_isDead hp hnd' hdead).append hp more hnd
  rw [hmore] at hlost
  obtain ⟨conn, hc, ho, hlive, -⟩ := h.conn
  rw [h.accounts.gateway_eq] at hc
  rw [hlost.2 conn hc ho] at hlive
  cases hlive

omit hp in
theorem paced_concat {pre post : List Iteration} {it : Iteration} :
    Paced p owner pre (post ++ [it]) ↔ Paced p owner pre post ∧
      ∀ before after, (run p (pre ++ post)).owners = before ++ owner :: after →
        PacedTurn owner (PollLoop.serviceAll it before ((run p (pre ++ post)).welcome it))
          (it.ready owner) := by
  constructor
  · intro h
    refine ⟨fun post₁ it₁ post₂ he => h post₁ it₁ (post₂ ++ [it]) (by simp [he]), ?_⟩
    exact h post it [] rfl
  · rintro ⟨h, hlast⟩ post₁ it₁ post₂ he
    rcases List.eq_nil_or_concat post₂ with rfl | ⟨post₃, it₃, rfl⟩
    · obtain ⟨rfl, hit⟩ := List.append_inj' he rfl
      obtain rfl := (List.cons.inj hit).1
      exact hlast
    · have he' : post ++ [it] = (post₁ ++ it₁ :: post₃) ++ [it₃] := by simp [he]
      exact h post₁ it₁ post₃ (List.append_inj' he' rfl).1

variable {pre : List Iteration} {it₀ : Iteration} (hacc : it₀.accepts = true) {reqs : List Request}
  (hrange : ∀ req ∈ reqs, req.InRange)

include hacc hrange

/-- **A paced client is idle at every boundary.** -/
theorem idle_run (howner : owner = UInt32.ofNat (pre.countP Iteration.accepts + 1))
    (post : List Iteration) (hcount : (pre ++ [it₀] ++ post).countP Iteration.accepts < 2 ^ 32)
    (hprompt : ∀ it ∈ post, (it.ready owner).Prompt)
    (hstream : post.flatMap (fun it => (it.ready owner).stream) <+: reqs.flatMap Request.wire)
    (hpaced : Paced p owner (pre ++ [it₀]) post) :
    ∃ buf bodies, Idle p ((pre ++ [it₀] ++ post).countP Iteration.accepts) owner
        (run p (pre ++ [it₀] ++ post)) buf ∧
      Deframes (post.flatMap fun it => (it.ready owner).stream) bodies buf := by
  induction post using List.reverseRecOn with
  | nil =>
      have haccounts := Accounts.run p pre
      have hn : pre.countP Iteration.accepts + 1 < 2 ^ 32 := by
        simpa [List.countP_append, List.countP_singleton, hacc] using hcount
      refine ⟨[], [], ?_, .nil (Or.inr (short_nil (by decide)))⟩
      have hidle := idle_accept hp haccounts hn hacc
      rw [haccounts.next, ← howner, ← run_append] at hidle
      simpa [List.countP_append, List.countP_singleton, hacc] using hidle
  | append_singleton post it ih =>
      obtain ⟨hpast, hturn⟩ := paced_concat.mp hpaced
      rw [← List.append_assoc, List.countP_append, List.countP_singleton] at hcount ⊢
      rw [List.flatMap_append, List.flatMap_singleton] at hstream ⊢
      obtain ⟨buf, bodies, hidle, hsplit⟩ := ih (by omega)
        (fun it hit => hprompt it (List.mem_append_left _ hit))
        ((List.prefix_append _ _).trans hstream) hpast
      obtain ⟨reqs', tail, hrange', htail, hsplit', hwhole⟩ := splits_more hrange hsplit hstream
      have hr := hprompt it (List.mem_append_right _ List.mem_cons_self)
      have hidle' := hidle.iterate hp hcount hr hrange' hsplit' htail hturn
      rw [← run_append] at hidle'
      exact ⟨tail, _, hidle', hwhole⟩

/-- **A client that is never dead is paced.** -/
theorem paced_of_never_dead (howner : owner = UInt32.ofNat (pre.countP Iteration.accepts + 1))
    (post : List Iteration) (hcount : (pre ++ [it₀] ++ post).countP Iteration.accepts < 2 ^ 32)
    (hprompt : ∀ it ∈ post, (it.ready owner).Prompt)
    (hstream : post.flatMap (fun it => (it.ready owner).stream) <+: reqs.flatMap Request.wire)
    (hlive : ∀ log, log <+: (run p (pre ++ [it₀] ++ post)).log →
      (Gateway.run p log).isDead owner = false) : Paced p owner (pre ++ [it₀]) post := by
  induction post using List.reverseRecOn with
  | nil =>
      intro post₁ it post₂ he
      exact absurd he.symm (List.append_ne_nil_of_right_ne_nil _ (List.cons_ne_nil _ _))
  | append_singleton post it ih =>
      have hlog := log_run p (pre ++ [it₀] ++ post) [it]
      rw [← List.append_assoc] at hcount hlive
      rw [List.countP_append, List.countP_singleton] at hcount
      rw [List.flatMap_append, List.flatMap_singleton] at hstream
      have hpast : Paced p owner (pre ++ [it₀]) post := ih (by omega)
        (fun it hit => hprompt it (List.mem_append_left _ hit))
        ((List.prefix_append _ _).trans hstream) fun log h => hlive log (h.trans hlog)
      refine paced_concat.mpr ⟨hpast, fun before after howners => ?_⟩
      by_contra hfull
      obtain ⟨buf, bodies, hidle, hsplit⟩ := idle_run hp hacc hrange howner post (by omega)
        (fun it hit => hprompt it (List.mem_append_left _ hit))
        ((List.prefix_append _ _).trans hstream) hpast
      obtain ⟨reqs', tail, hrange', htail, hsplit', -⟩ := splits_more hrange hsplit hstream
      have hr := hprompt it (List.mem_append_right _ List.mem_cons_self)
      obtain ⟨log, hdead, hlost⟩ :=
        hidle.iterate_full hp hcount hr hrange' hsplit' htail howners hfull
      rw [← run_append] at hdead
      rw [hlive log hdead] at hlost
      cases hlost

end runs

/-- **A client that takes everything is dropped for a full outbox only after a turn with more than
4096 reports.**  The client is the one accepted in the turn `it₀`. -/
theorem neverFull_iff (p : Params) (hp : p.Valid) (pre : List Iteration) (it₀ : Iteration)
    (post : List Iteration) (hacc : it₀.accepts = true)
    (hcount : (pre ++ [it₀] ++ post).countP Iteration.accepts < 2 ^ 32) (owner : Owner)
    (howner : owner = UInt32.ofNat (pre.countP Iteration.accepts + 1))
    (hprompt : ∀ it ∈ post, (it.ready owner).Prompt) (reqs : List Request)
    (hrange : ∀ req ∈ reqs, req.InRange)
    (hstream : post.flatMap (fun it => (it.ready owner).stream) <+: reqs.flatMap Request.wire) :
    ((∀ log, log <+: (run p (pre ++ [it₀] ++ post)).log →
        (Gateway.run p log).isDead owner = false) ∧
      .disconnect owner ∉ (run p (pre ++ [it₀] ++ post)).log) ↔
    Paced p owner (pre ++ [it₀]) post := by
  constructor
  · rintro ⟨hlive, -⟩
    exact paced_of_never_dead hp hacc hrange howner post hcount hprompt hstream hlive
  · intro hpaced
    obtain ⟨buf, bodies, hidle, -⟩ :=
      idle_run hp hacc hrange howner post hcount hprompt hstream hpaced
    refine ⟨fun log hlog => hidle.never_dead hp hcount hlog, fun hmem => ?_⟩
    obtain ⟨log, more, hlog⟩ := List.append_of_mem hmem
    have hpre : log ++ [.disconnect owner] <+: (run p (pre ++ [it₀] ++ post)).log :=
      ⟨more, by rw [hlog, List.append_assoc]; rfl⟩
    have hdead := dropsDead_run p _ log owner hpre
    rw [hidle.never_dead hp hcount ((List.prefix_append _ _).trans hpre)] at hdead
    cases hdead

/-- A client that sends one cancel. -/
theorem neverFull_iff_small :
    let p : Params := { stp := .none, poolCapacity := 1, bandHi := 9, idMapSlots := 4 }
    let it₀ : Iteration := { accepts := true }
    let it : Iteration := { ready := fun _ =>
      { readable := true
        recvs := [.got (Request.cancel ⟨7⟩).wire]
        sends := [.took kMaxOutbox]
        moreSends := [.took kMaxOutbox] } }
    ((∀ log, log <+: (run p ([] ++ [it₀] ++ [it])).log → (Gateway.run p log).isDead 1 = false) ∧
      .disconnect 1 ∉ (run p ([] ++ [it₀] ++ [it])).log) ↔ Paced p 1 ([] ++ [it₀]) [it] := by
  refine neverFull_iff _ ⟨by decide, by decide, by decide, by decide⟩ [] _ _ rfl (by decide) 1 rfl ?_
    [.cancel ⟨7⟩] ?_ List.prefix_rfl
  · intro it hit
    obtain rfl := List.mem_singleton.mp hit
    refine ⟨rfl, fun x hx => ?_, ⟨_, _, rfl, Nat.le_refl _⟩, ⟨_, _, rfl, Nat.le_refl _⟩⟩
    obtain rfl := List.mem_singleton.mp hx
    exact ⟨by simp, by decide⟩
  · intro req hreq
    obtain rfl := List.mem_singleton.mp hreq
    trivial

/-! ### A burst -/

/-- Every message is owed its own report. -/
theorem length_owedAll (owner : Owner) (g : Gateway OrderBook) (reqs : List Request) :
    reqs.length ≤ (owedAll owner g reqs).length := by
  induction reqs generalizing g with
  | nil => exact Nat.zero_le _
  | cons req reqs ih =>
      have hrest := ih (g.execute OrderBook.engine owner req)
      have hown : 1 ≤ (g.owed OrderBook.engine owner req).length := by
        rw [Gateway.owed, List.length_append, List.length_singleton]
        exact Nat.le_add_left _ _
      rw [owedAll, List.length_append, List.length_cons]
      omega

theorem stream_map_got (r : Ready) (chunks : List (List UInt8)) (hread : r.readable = true)
    (hrecvs : r.recvs = chunks.map .got) : r.stream = chunks.flatten := by
  have hall : (chunks.map Recv.got).takeWhile (fun x => decide (x ≠ .again)) = chunks.map .got := by
    refine List.takeWhile_eq_self_iff.mpr fun x hx => ?_
    obtain ⟨chunk, -, rfl⟩ := List.mem_map.mp hx
    simp
  rw [Ready.stream, Ready.chunks, if_pos hread, hrecvs, hall, List.flatMap_map]
  exact congrArg List.flatten (List.flatMap_singleton' chunks)

/-- The first client of a loop sends more than 4096 messages at once. -/
theorem burst_kills (hp : p.Valid) {it : Iteration} (hacc : it.accepts = false)
    (hr : (it.ready 1).Prompt) {reqs : List Request} (hrange : ∀ req ∈ reqs, req.InRange)
    (hstream : (it.ready 1).stream = reqs.flatMap Request.wire) (hmany : 4096 < reqs.length) :
    ∃ log, log <+: (run p [{ accepts := true }, it]).log ∧ (Gateway.run p log).isDead 1 = true := by
  have hsplit : Deframes ([] ++ (it.ready 1).stream) (reqs.map fun req => req.message.body) [] := by
    rw [List.nil_append, hstream, flatMap_wire]
    refine .of_frames (by decide) fun b hb => ?_
    obtain ⟨req, -, rfl⟩ := List.mem_map.mp hb
    exact req.message.good_body
  have hn : 1 + (if it.accepts then 1 else 0) < 2 ^ 32 := by
    rw [hacc]
    decide
  have hidle : Idle p 1 1 (run p [{ accepts := true }]) [] :=
    idle_accept hp (Accounts.run p []) (by decide) rfl
  obtain ⟨before, after, howners, hbefore, -⟩ := hidle.mem_owners hp (by decide)
  have hturn := hidle.atTurn hp hn hbefore
  have hfull : ¬ PacedTurn 1
      (PollLoop.serviceAll it before ((run p [{ accepts := true }]).welcome it)) (it.ready 1) := by
    rw [pacedTurn_iff hturn.frames hrange hsplit, Nat.not_le]
    exact Nat.lt_of_lt_of_le hmany (length_owedAll _ _ reqs)
  exact hidle.iterate_full hp hn hr hrange hsplit (short_nil (by decide)) howners hfull

/-- **A client that takes every byte it is offered is dropped** after 4097 cancels in one turn. -/
theorem dropped_by_burst :
    let p : Params := { stp := .none, poolCapacity := 1, bandHi := 9, idMapSlots := 4 }
    let reqs : List Request := List.replicate 4097 (.cancel ⟨7⟩)
    let it : Iteration := { ready := fun _ =>
      { readable := true
        recvs := (reqs.map Request.wire).map .got
        sends := [.took kMaxOutbox]
        moreSends := [.took kMaxOutbox] } }
    (it.ready 1).Prompt ∧ (it.ready 1).stream = reqs.flatMap Request.wire ∧
      ∃ log, log <+: (run p [{ accepts := true }, it]).log ∧ (Gateway.run p log).isDead 1 = true := by
  intro p reqs it
  have hone : ∀ req ∈ reqs, req = .cancel ⟨7⟩ := fun req hreq => List.eq_of_mem_replicate hreq
  have hlen : reqs.length = 4097 := List.length_replicate
  have hrecvs : (it.ready 1).recvs = (reqs.map Request.wire).map .got := rfl
  clear_value reqs
  have hr : (it.ready 1).Prompt := by
    refine ⟨rfl, fun x hx => ?_, ⟨_, _, rfl, Nat.le_refl _⟩, ⟨_, _, rfl, Nat.le_refl _⟩⟩
    rw [hrecvs] at hx
    obtain ⟨bytes, hbytes, rfl⟩ := List.mem_map.mp hx
    obtain ⟨req, hreq, rfl⟩ := List.mem_map.mp hbytes
    rw [hone req hreq]
    exact ⟨by simp, by decide⟩
  have hstream : (it.ready 1).stream = reqs.flatMap Request.wire := stream_map_got _ _ rfl hrecvs
  refine ⟨hr, hstream, burst_kills ⟨by decide, by decide, by decide, by decide⟩ rfl hr ?_ hstream ?_⟩
  · intro req hreq
    rw [hone req hreq]
    trivial
  · rw [hlen]
    decide

end PollLoop

end Lob
