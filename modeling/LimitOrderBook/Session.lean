import LimitOrderBook.Burst

/-! # The session of a client

What the poll loop has of one client: the bytes of an unfinished message, the outbox and what was
taken from it, the requests executed for the client and the reports owed to it (`Session`).

A turn of the loop in which the connection stands executes the messages that the bytes of the turn
complete, one after another, and leaves in the outbox what the kernel did not take
(`Holds.iterate`); the frames, turns and removals of others leave the session alone.  Unless own
orders are killed, every request owes one report (`owed_one`). -/

namespace Lob

open Frames

/-! ### What is executed -/

namespace Gateway

section executed

/-- The requests that an action executes for a client. -/
def executedBy (g : Gateway OrderBook) (owner : Owner) : Input → List Request
  | .frame o body => if o = owner then (g.request? o body).toList else []
  | _ => []

/-- The requests executed for a client over a run. -/
def executedFor (p : Params) (owner : Owner) (log : List Input) : List Request :=
  Transition.record (step OrderBook.engine) (fun done g i _ => done ++ executedBy g owner i) []
    (new p) log

variable {p : Params} {owner : Owner} {log : List Input} {i : Input}

theorem executedFor_append (owner : Owner) (log : List Input) (i : Input) :
    executedFor p owner (log ++ [i]) = executedFor p owner log ++ executedBy (run p log) owner i :=
  Transition.record_append _ _ _ _

/-- Only its own frames are executed for a client, and only they owe it anything. -/
theorem executedFor_other (hi : ∀ body, i ≠ .frame owner body) :
    executedFor p owner (log ++ [i]) = executedFor p owner log ∧
      owedTo p owner (log ++ [i]) = owedTo p owner log := by
  rw [executedFor_append, owedTo_append]
  cases i with
  | frame o body =>
      have hne : o ≠ owner := fun h => hi body (by rw [h])
      rw [executedBy, owedBy, if_neg hne, if_neg hne, List.append_nil, List.append_nil]
      exact ⟨rfl, rfl⟩
  | _ => exact ⟨List.append_nil _, List.append_nil _⟩

/-- A frame that is a request. -/
theorem executedFor_frame {body : List UInt8} {req : Request}
    (h : (run p log).request? owner body = some req) :
    executedFor p owner (log ++ [.frame owner body]) = executedFor p owner log ++ [req] ∧
      owedTo p owner (log ++ [.frame owner body]) =
        owedTo p owner log ++ (run p log).owed OrderBook.engine owner req := by
  rw [executedFor_append, owedTo_append, executedBy, owedBy, if_pos rfl, if_pos rfl, h]
  exact ⟨rfl, rfl⟩

/-- A client that was never accepted has nothing executed. -/
theorem executedFor_of_not_accepted (hp : p.Valid) (hnd : (PollLoop.accepted log).Nodup)
    (howner : owner ∉ PollLoop.accepted log) : executedFor p owner log = [] := by
  induction log using List.reverseRecOn with
  | nil => rfl
  | append_singleton log i ih =>
      rw [PollLoop.accepted_append] at hnd howner
      rw [List.mem_append, not_or] at howner
      have hnd' := List.Nodup.of_append_left hnd
      rw [executedFor_append, ih hnd' howner.1]
      cases i with
      | frame o body =>
          rw [executedBy]
          split_ifs with ho
          · subst ho
            have hfind : (run p log).conns.find? (Connection.isOf o) = none := by
              refine List.find?_eq_none.mpr fun x hx he => howner.1 ?_
              rw [← of_decide_eq_true he]
              exact (owners_sublist hp hnd').subset (List.mem_map_of_mem hx)
            rw [request?, hfind]
            rfl
          · rfl
      | _ => rfl

end executed

/-- **Unless own orders are killed, a request owes one report.** -/
theorem Reached.owed_one {c : Config} {g : Gateway OrderBook} (h : Reached c g)
    (hstp : c.stp ≠ .cancelResting) (owner : Owner) (req : Request) :
    ∃ m, g.owed OrderBook.engine owner req = [m] := by
  obtain ⟨g', hsim, hkept⟩ := h
  have hkills : kills (g.asked OrderBook.engine owner req).2.2 = [] := by
    refine List.filterMap_eq_nil_iff.mpr fun e he => ?_
    rw [(hsim.asked (OrderBook.engine_sim c) owner req).1] at he
    cases e with
    | trade => rfl
    | cancel id o =>
        obtain ⟨op, t, -, hsend, -, hask⟩ := hkept.sends he
        rw [hask] at he
        obtain ⟨t₁, t₂, htape⟩ := List.append_of_mem he
        obtain ⟨r, q, -, -, hmeets⟩ :=
          walk_event _ _ (Flat.side_nodup (hsend.book_wf hkept.wf).nodup t.side.opp) htape
        cases hmeets with
        | kill hown hcancel => exact absurd hcancel hstp
  exact ⟨_, by rw [owed, hkills]; rfl⟩

end Gateway

/-! ### One client -/

/-- What the loop has of a client. -/
structure Session where
  buf : List UInt8 := []
  outbox : List UInt8 := []
  sent : List UInt8 := []
  done : List Request := []
  owed : List ExecReportMsg := []

/-- The connection of a session. -/
def Session.conn (x : Session) (owner : Owner) : Connection :=
  { owner := owner, outbox := x.outbox, sent := x.sent }

namespace Session

/-- A `::send` that takes `k` bytes. -/
def flush (x : Session) (k : ℕ) : Session :=
  { x with outbox := x.outbox.drop k, sent := x.sent ++ x.outbox.take k }

/-- Requests executed, and their reports in the outbox. -/
def execute (x : Session) (reqs : List Request) (ms : List ExecReportMsg) : Session :=
  { x with
    outbox := x.outbox ++ ms.flatMap ExecReportMsg.bytes
    done := x.done ++ reqs
    owed := x.owed ++ ms }

theorem flush_zero (x : Session) : x.flush 0 = x := by
  rw [flush, List.take_zero, List.append_nil, List.drop_zero]

theorem flush_flush (x : Session) (k k' : ℕ) : (x.flush k).flush k' = x.flush (k + k') := by
  simp only [flush, List.drop_drop, List.append_assoc, List.take_add]

theorem execute_nil (x : Session) : x.execute [] [] = x := by
  simp only [execute, List.flatMap_nil, List.append_nil]

theorem execute_execute (x : Session) (reqs reqs' : List Request) (ms ms' : List ExecReportMsg) :
    (x.execute reqs ms).execute reqs' ms' = x.execute (reqs ++ reqs') (ms ++ ms') := by
  simp only [execute, List.flatMap_append, List.append_assoc]

end Session

/-- The kernel reports no error on the connection and takes something whenever it takes anything,
and the peer does not close it. -/
structure Ready.Stands (r : Ready) : Prop where
  unbroken : r.broken = false
  recvs : ∀ x ∈ r.recvs, x ≠ .failed ∧ x ≠ .got []
  sends : ∀ x ∈ r.sends ++ r.moreSends, x ≠ .failed ∧ x ≠ .took 0

namespace PollLoop

open Connection
open Gateway (executedFor owedTo)

variable {p : Params} {n : ℕ} {s : PollLoop} {owner o : Owner} {r : Ready}

/-- The loop has a live connection of the client, and this of it. -/
structure Holds (p : Params) (n : ℕ) (owner : Owner) (s : PollLoop) (x : Session) : Prop where
  accounts : Accounts p n s
  conn : x.conn owner ∈ s.gateway.conns
  frames : s.frames owner = ⟨x.buf, false⟩
  short : Short kHeaderLen kMaxFrameLen x.buf
  done : executedFor p owner s.log = x.done
  owed : owedTo p owner s.log = x.owed

/-- Nothing is executed for `owner` but what was. -/
def Past (p : Params) (owner : Owner) (x : Session) (s : PollLoop) : Prop :=
  executedFor p owner s.log = x.done ∧ owedTo p owner s.log = x.owed

theorem Past.act {x : Session} (h : Past p owner x s) {i : Gateway.Input}
    (hi : ∀ body, i ≠ .frame owner body) : Past p owner x (s.act i) := by
  obtain ⟨hdone, howed⟩ := @Gateway.executedFor_other p owner s.log i hi
  exact ⟨hdone.trans h.1, howed.trans h.2⟩

/-- The calls for another connection. -/
theorem Past.safe (x : Session) (hne : owner ≠ o) : Safe o (Past p owner x) where
  frame _ h := h.act fun _ he => hne (Gateway.Input.frame.inj he).1.symm
  flush _ h := h.act fun _ he => nomatch he
  hangup h := h.act fun _ he => nomatch he
  setFrames _ h := h

theorem Past.reap {x : Session} (h : Past p owner x s) (hne : owner ≠ o) (r : Ready) :
    Past p owner x (s.reap o r) := by
  unfold PollLoop.reap
  split_ifs
  · have hgone : Past p owner x ((PollLoop.flushOutbox o r.lastSends s).act (.disconnect o)) :=
      ((Past.safe x hne).flushOutbox _ h).act fun _ he => nomatch he
    exact hgone.act fun _ he => nomatch he
  · exact h

theorem Past.welcome {x : Session} (h : Past p owner x s) (it : Iteration) :
    Past p owner x (s.welcome it) := by
  unfold PollLoop.welcome
  split_ifs
  · exact h.act fun _ he => nomatch he
  · exact h

namespace Holds

variable {x : Session}

theorem past (h : Holds p n owner s x) : Past p owner x s := ⟨h.done, h.owed⟩

theorem of_same {n' : ℕ} {s' : PollLoop} (h : Holds p n owner s x) (haccounts : Accounts p n' s')
    (hsame : SameConn owner s s') (hpast : Past p owner x s') : Holds p n' owner s' x :=
  ⟨haccounts, hsame.conn _ h.conn rfl, hsame.frames.trans h.frames, h.short, hpast.1, hpast.2⟩

section turns

variable (hp : p.Valid) (hn : n < 2 ^ 32)

include hp hn

theorem isDead (h : Holds p n owner s x) : s.isDead owner = false :=
  isDead_of_mem hp hn h.accounts h.conn

theorem hasOutput (h : Holds p n owner s x) : s.hasOutput owner = decide (x.outbox ≠ []) :=
  hasOutput_of_mem hp hn h.accounts h.conn

/-- A flush takes bytes from the front of the outbox. -/
theorem flush (h : Holds p n owner s x) (k : ℕ) :
    Holds p n owner (s.act (.flush owner k)) (x.flush k) := by
  have hpast : Past p owner x (s.act (.flush owner k)) := h.past.act fun _ he => nomatch he
  have hconns := Gateway.conns_step (h.accounts.reached hp) (h.accounts.distinct hp hn)
    (.flush owner k)
  have heffect : s.gateway.effect (.flush owner k) (x.conn owner) = (x.flush k).conn owner :=
    if_pos rfl
  refine ⟨h.accounts.act rfl, ?_, h.frames, h.short, hpast.1, hpast.2⟩
  rw [PollLoop.act, hconns, ← heffect]
  exact List.mem_map_of_mem h.conn

/-- **Whatever the kernel takes**, the rest stays in the outbox. -/
theorem flushOutbox (xs : List Sent) (hxs : ∀ x ∈ xs, x ≠ .failed ∧ x ≠ .took 0)
    (h : Holds p n owner s x) : ∃ k, Holds p n owner (PollLoop.flushOutbox owner xs s) (x.flush k) := by
  induction xs generalizing s x with
  | nil => exact ⟨0, by rwa [Session.flush_zero]⟩
  | cons y xs ih =>
      obtain ⟨hfailed, hzero⟩ := hxs y List.mem_cons_self
      unfold PollLoop.flushOutbox
      split_ifs
      · cases y with
        | took k =>
            have hpos : 0 < k := Nat.pos_of_ne_zero fun hk => hzero (by rw [hk])
            obtain ⟨k', hrest⟩ := ih (fun y hy => hxs y (List.mem_cons_of_mem _ hy)) (h.flush hp hn k)
            rw [Session.flush_flush] at hrest
            simp only [if_pos hpos]
            exact ⟨k + k', hrest⟩
        | again => exact ⟨0, by rwa [Session.flush_zero]⟩
        | failed => exact absurd rfl hfailed
      · exact ⟨0, by rwa [Session.flush_zero]⟩

/-- The two flushes of a turn. -/
theorem send (h : Holds p n owner s x) (hr : r.Stands) :
    ∃ k, Holds p n owner (s.send owner r) (x.flush k) := by
  have hsends : ∀ x ∈ r.sends, x ≠ .failed ∧ x ≠ .took 0 := fun x hx =>
    hr.sends x (List.mem_append_left _ hx)
  have hmore : ∀ x ∈ r.moreSends, x ≠ .failed ∧ x ≠ .took 0 := fun x hx =>
    hr.sends x (List.mem_append_right _ hx)
  have hfirst : ∃ k, Holds p n owner (if !s.isDead owner && r.writable then
      PollLoop.flushOutbox owner r.sends s else s) (x.flush k) := by
    split_ifs
    · exact h.flushOutbox hp hn _ hsends
    · exact ⟨0, by rwa [Session.flush_zero]⟩
  obtain ⟨k, hfirst⟩ := hfirst
  unfold PollLoop.send
  generalize (if !s.isDead owner && r.writable then
    PollLoop.flushOutbox owner r.sends s else s) = s' at hfirst ⊢
  dsimp only
  split_ifs
  · obtain ⟨k', hsecond⟩ := hfirst.flushOutbox hp hn _ hmore
    rw [Session.flush_flush] at hsecond
    exact ⟨k + k', hsecond⟩
  · exact ⟨k, hfirst⟩

/-- A peer that takes everything leaves nothing in the outbox. -/
theorem send_prompt (h : Holds p n owner s x) (hcap : x.outbox.length ≤ kMaxOutbox) (hr : r.Prompt)
    {x' : Session} (h' : Holds p n owner (s.send owner r) x') : x'.outbox = [] := by
  have hidle : Idle p n owner (s.send owner r) x.buf :=
    Idle.send hp hn h.accounts h.conn rfl hcap h.frames h.short hr
  obtain ⟨conn, hc, ho, -, hout⟩ := hidle.conn
  have hdistinct := h'.accounts.distinct hp hn
  have hfind := find?_of_mem hdistinct hc
  have hfind' : _ = some (x'.conn owner) := find?_of_mem hdistinct h'.conn
  rw [ho] at hfind
  rw [← hout, Option.some.inj (hfind.symm.trans hfind')]
  rfl

/-- A message is executed, if there is room for its report. -/
theorem frame (hstp : p.stp ≠ .cancelResting) (h : Holds p n owner s x) {req : Request}
    (hrange : req.InRange) (hroom : x.outbox.length + 16 ≤ kMaxOutbox) :
    ∃ m, Holds p n owner (s.act (.frame owner req.message.body)) (x.execute [req] [m]) := by
  have hreached := h.accounts.reached hp
  obtain ⟨m, howed⟩ := hreached.owed_one hstp owner req
  have hfind : s.gateway.conns.find? (isOf owner) = some (x.conn owner) :=
    find?_of_mem (h.accounts.distinct hp hn) h.conn
  have hrequest : s.gateway.request? owner req.message.body = some req := by
    simp [Gateway.request?, hfind, Session.conn, decode_body hrange]
  have hconns := Gateway.conns_step hreached (h.accounts.distinct hp hn)
    (.frame owner req.message.body)
  have heffect : s.gateway.effect (.frame owner req.message.body) (x.conn owner) =
      (x.execute [req] [m]).conn owner := by
    have hfits : [m].length ≤ (x.conn owner).room := by
      change 1 ≤ (kMaxOutbox - x.outbox.length) / 16
      omega
    have hsent := sendAll_eq (x.conn owner) [m]
    rw [List.take_of_length_le hfits, decide_eq_false (Nat.not_lt.mpr hfits)] at hsent
    rw [Gateway.effect, if_pos ⟨rfl, rfl⟩, decode_body hrange]
    exact (congrArg _ howed).trans hsent
  have hhistory := Gateway.executedFor_frame (h.accounts.gateway_eq ▸ hrequest)
  rw [h.done, h.owed, ← h.accounts.gateway_eq, howed] at hhistory
  refine ⟨m, h.accounts.act rfl, ?_, h.frames, h.short, hhistory.1, hhistory.2⟩
  rw [PollLoop.act, hconns, ← heffect]
  exact List.mem_map_of_mem h.conn

/-- **Messages are executed one after another**, and each has its report. -/
theorem frames_all (hstp : p.stp ≠ .cancelResting) (reqs : List Request)
    (hrange : ∀ req ∈ reqs, req.InRange) (h : Holds p n owner s x)
    (hroom : x.outbox.length + 16 * reqs.length ≤ kMaxOutbox) :
    ∃ ms, ms.length = reqs.length ∧ Holds p n owner ((reqs.map fun req => req.message.body).foldl
      (fun s body => s.act (.frame owner body)) s) (x.execute reqs ms) := by
  induction reqs generalizing s x with
  | nil => exact ⟨[], rfl, by rwa [Session.execute_nil]⟩
  | cons req reqs ih =>
      rw [List.length_cons] at hroom
      obtain ⟨m, hone⟩ := h.frame hp hn hstp (hrange req List.mem_cons_self) (by omega)
      have hrange' : ∀ r ∈ reqs, r.InRange := fun r hr => hrange r (List.mem_cons_of_mem _ hr)
      have hroom' : (x.execute [req] [m]).outbox.length + 16 * reqs.length ≤ kMaxOutbox := by
        simp only [Session.execute, List.length_append, length_flatMap_bytes, List.length_singleton]
        omega
      obtain ⟨ms, hlen, hrest⟩ := ih hrange' hone hroom'
      rw [Session.execute_execute] at hrest
      exact ⟨m :: ms, congrArg Nat.succ hlen, hrest⟩

omit hp hn in
theorem setFrames (h : Holds p n owner s x) {tail : List UInt8}
    (htail : Short kHeaderLen kMaxFrameLen tail) :
    Holds p n owner (s.setFrames owner ⟨tail, false⟩) { x with buf := tail } :=
  ⟨(Accounts.safe owner).setFrames _ h.accounts, h.conn, Function.update_self .., htail, h.done,
    h.owed⟩

/-- **However the bytes are cut**, the messages that they complete are executed. -/
theorem feedChunks (hstp : p.stp ≠ .cancelResting) (chunks : List (List UInt8))
    {rest : List UInt8} {reqs : List Request} (hrange : ∀ req ∈ reqs, req.InRange)
    (hcut : x.buf ++ (chunks.flatten ++ rest) = reqs.flatMap Request.wire)
    (hroom : x.outbox.length + 16 * reqs.length ≤ kMaxOutbox) (h : Holds p n owner s x) :
    ∃ (reqs₁ reqs₂ : List Request) (ms : List ExecReportMsg) (tail : List UInt8),
      reqs = reqs₁ ++ reqs₂ ∧ ms.length = reqs₁.length ∧ tail ++ rest = reqs₂.flatMap Request.wire ∧
        Holds p n owner (PollLoop.feedChunks owner chunks s)
          { x.execute reqs₁ ms with buf := tail } := by
  induction chunks generalizing s x reqs with
  | nil =>
      refine ⟨[], reqs, [], x.buf, rfl, rfl, hcut, ?_⟩
      rw [Session.execute_nil]
      exact h
  | cons chunk chunks ih =>
      rw [List.flatten_cons, List.append_assoc, flatMap_wire] at hcut
      have hgood : ∀ b ∈ reqs.map fun req => req.message.body, Good kMaxFrameLen b := by
        intro b hb
        obtain ⟨req, -, rfl⟩ := List.mem_map.mp hb
        exact req.message.good_body
      obtain ⟨front, back, tail, hbodies, htail, hmore, hfeed⟩ :=
        FrameBuffer.feed_cut (fun s body => s.act (.frame owner body)) h.short hgood hcut s
      obtain ⟨reqs₁, reqs', rfl, rfl, rfl⟩ := List.map_eq_append_iff.mp hbodies
      rw [List.length_append] at hroom
      have hrange₁ : ∀ req ∈ reqs₁, req.InRange := fun r hr => hrange r (List.mem_append_left _ hr)
      obtain ⟨ms, hlen, hfirst⟩ := h.frames_all hp hn hstp reqs₁ hrange₁ (by omega)
      -- the client lives, and the next chunk is fed
      have hheld := hfirst.setFrames htail
      have hdead := hfirst.isDead hp hn
      have hchunk := feedChunk_eq s owner chunk
      rw [h.frames, hfeed] at hchunk
      simp only [hdead, Bool.not_false, Bool.and_self, if_true] at hchunk
      rw [← flatMap_wire] at hmore
      have hroom' : ({ x.execute reqs₁ ms with buf := tail } : Session).outbox.length +
          16 * reqs'.length ≤ kMaxOutbox := by
        simp only [Session.execute, List.length_append, length_flatMap_bytes]
        omega
      obtain ⟨reqs₂, reqs₃, ms', tail', rfl, hlen', hrest, hlast⟩ :=
        ih (fun r hr => hrange r (List.mem_append_right _ hr)) hmore hroom' hheld
      refine ⟨reqs₁ ++ reqs₂, reqs₃, ms ++ ms', tail', (List.append_assoc _ _ _).symm, ?_, hrest, ?_⟩
      · rw [List.length_append, List.length_append, hlen, hlen']
      · rw [feedChunks_cons, hchunk]
        rw [← Session.execute_execute]
        exact hlast

/-- **The turn of a client** whose connection stands, of which the outbox may keep some reports. -/
theorem service (hstp : p.stp ≠ .cancelResting) (hr : r.Stands) {rest : List UInt8}
    {reqs : List Request} (hrange : ∀ req ∈ reqs, req.InRange)
    (hcut : x.buf ++ (r.stream ++ rest) = reqs.flatMap Request.wire)
    (hroom : x.outbox.length + 16 * reqs.length ≤ kMaxOutbox) (h : Holds p n owner s x) :
    ∃ (reqs₁ reqs₂ : List Request) (ms : List ExecReportMsg) (tail : List UInt8) (k : ℕ),
      reqs = reqs₁ ++ reqs₂ ∧ ms.length = reqs₁.length ∧ tail ++ rest = reqs₂.flatMap Request.wire ∧
        Holds p n owner (s.service owner r) ({ x.execute reqs₁ ms with buf := tail }.flush k) ∧
          (r.Prompt → ({ x.execute reqs₁ ms with buf := tail }.flush k).outbox = []) := by
  have hreceive : s.receive owner r = PollLoop.feedChunks owner r.chunks s := by
    unfold PollLoop.receive Ready.chunks
    split_ifs
    · exact readLoop_eq _ hr.recvs s
    · rfl
  have hservice : s.service owner r = (PollLoop.feedChunks owner r.chunks s).send owner r := by
    rw [PollLoop.service, hr.unbroken, hreceive]
    rfl
  obtain ⟨reqs₁, reqs₂, ms, tail, hreqs, hlen, hmore, hheld⟩ :=
    h.feedChunks hp hn hstp r.chunks hrange hcut hroom
  obtain ⟨k, hsent⟩ := hheld.send hp hn hr
  refine ⟨reqs₁, reqs₂, ms, tail, k, hreqs, hlen, hmore, hservice ▸ hsent, fun hprompt => ?_⟩
  have hcap : ({ x.execute reqs₁ ms with buf := tail } : Session).outbox.length ≤ kMaxOutbox := by
    rw [hreqs, List.length_append] at hroom
    simp only [Session.execute, List.length_append, length_flatMap_bytes]
    omega
  exact hheld.send_prompt hp hn hcap hprompt hsent

/-! ### A turn of the loop -/

/-- The turns of others. -/
theorem serviceAll (h : Holds p n owner s x) (it : Iteration) (owners : List Owner)
    (howner : owner ∉ owners) : Holds p n owner (PollLoop.serviceAll it owners s) x := by
  induction owners generalizing s with
  | nil => exact h
  | cons o owners ih =>
      rw [List.mem_cons, not_or] at howner
      refine ih (h.of_same ?_ (SameConn.service hp hn h.accounts howner.1 _) ?_) howner.2
      · exact (Accounts.safe o).service _ h.accounts
      · exact (Past.safe x howner.1).service _ h.past

/-- Removals are of others. -/
theorem reapAll (h : Holds p n owner s x) (it : Iteration) (owners : List Owner) :
    Holds p n owner (PollLoop.reapAll it owners s) x := by
  induction owners generalizing s with
  | nil => exact h
  | cons o owners ih =>
      refine ih ?_
      by_cases ho : owner = o
      · subst ho
        have hreap : s.reap owner (it.ready owner) = s := by
          rw [PollLoop.reap, h.isDead hp hn]
          rfl
        show Holds p n owner (s.reap owner (it.ready owner)) x
        rw [hreap]
        exact h
      · exact h.of_same (h.accounts.reap o _) (SameConn.reap hp hn h.accounts ho _)
          (h.past.reap ho _)

theorem mem_owners (h : Holds p n owner s x) : ∃ before after,
    s.owners = before ++ owner :: after ∧ owner ∉ before ∧ owner ∉ after := by
  obtain ⟨before, after, hsplit⟩ :=
    List.append_of_mem (List.mem_map_of_mem (f := Connection.owner) h.conn)
  change s.owners = before ++ owner :: after at hsplit
  have hnd : s.owners.Nodup := h.accounts.distinct hp hn
  rw [hsplit, List.nodup_append] at hnd
  exact ⟨before, after, hsplit, fun hb => hnd.2.2 _ hb _ List.mem_cons_self rfl,
    (List.nodup_cons.mp hnd.2.1).1⟩

end turns

/-- **A turn of the loop**, for a client whose connection stands. -/
theorem iterate (hp : p.Valid) (hstp : p.stp ≠ .cancelResting) (h : Holds p n owner s x)
    {it : Iteration} (hn : n + (if it.accepts then 1 else 0) < 2 ^ 32)
    (hr : (it.ready owner).Stands) {rest : List UInt8} {reqs : List Request}
    (hrange : ∀ req ∈ reqs, req.InRange)
    (hcut : x.buf ++ ((it.ready owner).stream ++ rest) = reqs.flatMap Request.wire)
    (hroom : x.outbox.length + 16 * reqs.length ≤ kMaxOutbox) :
    ∃ (reqs₁ reqs₂ : List Request) (ms : List ExecReportMsg) (tail : List UInt8) (k : ℕ),
      reqs = reqs₁ ++ reqs₂ ∧ ms.length = reqs₁.length ∧ tail ++ rest = reqs₂.flatMap Request.wire ∧
        Holds p (n + if it.accepts then 1 else 0) owner (s.iterate it)
          ({ x.execute reqs₁ ms with buf := tail }.flush k) ∧
        ((it.ready owner).Prompt →
          ({ x.execute reqs₁ ms with buf := tail }.flush k).outbox = []) := by
  obtain ⟨before, after, howners, hbefore, hafter⟩ := h.mem_owners hp (by omega)
  have hwelcome : SameConn owner s (s.welcome it) := by
    unfold PollLoop.welcome
    split_ifs with hacc
    · rw [if_pos hacc] at hn
      exact SameConn.accept hn h.accounts (mem_accepted hp (by omega) h.accounts h.conn)
    · exact ⟨fun _ hc _ => hc, rfl⟩
  have hturn := (h.of_same (h.accounts.welcome it) hwelcome (h.past.welcome it)).serviceAll hp hn it
    before hbefore
  obtain ⟨reqs₁, reqs₂, ms, tail, k, hreqs, hlen, hmore, hserved, hprompt⟩ :=
    hturn.service hp hn hstp hr hrange hcut hroom
  refine ⟨reqs₁, reqs₂, ms, tail, k, hreqs, hlen, hmore, ?_, hprompt⟩
  have hall : s.serviced it = PollLoop.serviceAll it after ((PollLoop.serviceAll it before
      (s.welcome it)).service owner (it.ready owner)) := by
    simp only [serviced, howners, PollLoop.serviceAll, List.foldl_append, List.foldl_cons]
  have hserved' := hserved.serviceAll hp hn it after hafter
  rw [← hall] at hserved'
  exact hserved'.reapAll hp hn it _

end Holds

/-- A client that has not been accepted yet is, or is still waiting. -/
theorem Holds.of_iterate (hp : p.Valid) (h : Accounts p n s) (howner : owner ∉ accepted s.log)
    {it : Iteration} (hn : n + (if it.accepts then 1 else 0) < 2 ^ 32) :
    owner ∉ accepted (s.iterate it).log ∨
      Holds p (n + if it.accepts then 1 else 0) owner (s.iterate it) {} := by
  have hwelcome := h.welcome it
  have hlog : accepted (s.iterate it).log = accepted (s.welcome it).log := by
    rw [(h.iterate it).accepted_eq, hwelcome.accepted_eq]
  rw [hlog]
  by_cases hjoins : owner ∈ accepted (s.welcome it).log
  · right
    have hnd : (accepted s.log).Nodup := h.nodup (by omega)
    have hpast : Past p owner {} s := by
      refine ⟨Gateway.executedFor_of_not_accepted hp hnd howner, ?_⟩
      exact (Gateway.served_run hp hnd).2 owner howner
    have hnew : it.accepts = true ∧ owner = s.nextOwner := by
      unfold PollLoop.welcome at hjoins
      split_ifs at hjoins with hacc
      · have haccept : accepted s.accept.log = accepted s.log ++ [s.nextOwner] := accepted_append _ _
        rw [haccept, List.mem_append] at hjoins
        exact ⟨hacc, List.mem_singleton.mp (hjoins.resolve_left howner)⟩
      · exact absurd hjoins howner
    obtain ⟨hacc, rfl⟩ := hnew
    have hheld : Holds p (n + if it.accepts then 1 else 0) s.nextOwner (s.welcome it) {} := by
      have hgone := hpast.welcome it
      have hjoin : s.welcome it = s.accept := if_pos hacc
      rw [hjoin] at hwelcome hgone ⊢
      exact ⟨hwelcome, List.mem_append_right _ List.mem_cons_self, Function.update_self ..,
        short_nil (by decide), hgone.1, hgone.2⟩
    have howners : s.nextOwner ∉ s.owners := by
      intro hmem
      obtain ⟨conn, hc, ho⟩ := List.mem_map.mp hmem
      exact howner (ho ▸ mem_accepted hp (by omega) h hc)
    exact (hheld.serviceAll hp hn it s.owners howners).reapAll hp hn it _
  · exact Or.inl hjoins

end PollLoop

end Lob
