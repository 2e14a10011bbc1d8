import LimitOrderBook.Delivery

/-! # No orphan orders

Every resting order belongs to a connection (`PollLoop.Housed`): only the sender of a frame gains
orders by it, and a connection is removed after its orders.  A removal takes exactly the orders of
its owner off the book and nothing else (`Removal`), and at the end of a turn of the poll loop no
dead connection is left.

Hence at every boundary between two turns each resting order has the owner of exactly one
connection, which lives (`noOrphans_run`). -/

namespace Lob

/-! ### Owners on the book -/

namespace Flat

variable {c : Config} {F G : Flat} {op : Op} {t : Taker} {owner : Owner}

/-- An order of this owner rests. -/
def Owns (F : Flat) (owner : Owner) : Prop := ∃ s, ∃ r ∈ F.side s, r.owner = owner

theorem Owns.of_keys (hkeys : ∀ s, ((G.side s).map Resting.key).Sublist ((F.side s).map Resting.key))
    (h : G.Owns owner) : F.Owns owner := by
  obtain ⟨s, r, hr, rfl⟩ := h
  obtain ⟨r₀, hr₀, -, -, howner⟩ := mem_of_keys (hkeys s) hr
  exact ⟨s, r₀, hr₀, howner⟩

theorem Owns.of_remove {id : OrderId} (h : (F.remove id).Owns owner) : F.Owns owner := by
  refine h.of_keys fun s => ?_
  rw [side_remove]
  exact (List.filter_sublist).map _

/-- After a call rest orders of the owners from before, and of the one who sent an order. -/
theorem owns_call (hF : F.WF c) (h : (F.call c op).1.Owns owner) :
    F.Owns owner ∨ ∃ t, F.Sends c op t ∧ t.owner = owner := by
  have hout := F.call_outcome c op
  generalize F.call c op = x at hout h
  cases hout with
  | refused => exact Or.inl h
  | cancelled => exact Or.inl h.of_remove
  | amended =>
      refine Or.inl (h.of_keys fun s => ?_)
      rw [side_amend, keys_amend]
  | @matched op t hsend =>
      have hbook : t.book.Owns owner → F.Owns owner := by
        cases hsend with
        | limit => exact id
        | market => exact id
        | modify => exact Owns.of_remove
      have hswept : (t.swept c.stp).Owns owner → F.Owns owner := by
        rw [Taker.swept_eq (hsend.book_wf hF).nodup]
        refine fun h => hbook (h.of_keys fun s => ?_)
        rw [side_replay]
        exact keys_replay _ _
      simp only [Taker.after] at h
      split_ifs at h
      · obtain ⟨s, r, hr, rfl⟩ := h
        rcases mem_rest.mp hr with ⟨-, rfl⟩ | hr
        · exact Or.inr ⟨t, hsend, rfl⟩
        · exact Or.inl (hswept ⟨s, r, hr, rfl⟩)
      · exact Or.inl (hswept h)

end Flat

namespace Gateway

open Connection

section flat

variable {c : Config} {g : Gateway Flat} {owner o : Owner}

theorem side_cancelAll (ids : List OrderId) (s : Side) :
    (g.cancelAll (Flat.engine c) ids).book.side s =
      (g.book.side s).filter fun r => decide (r.id ∉ ids) := by
  induction ids generalizing g with
  | nil => simp [cancelAll]
  | cons id ids ih =>
      rw [cancelAll, List.foldl_cons, ← cancelAll, ih]
      show ((g.book.cancel id).1.side s).filter _ = _
      rw [Flat.cancel_eq, Flat.side_remove, List.filter_filter]
      refine List.filter_congr fun r _ => ?_
      by_cases hid : r.id = id <;> simp [hid]

namespace Kept

/-- The engine ids of a client are those of its orders. -/
theorem mem_ownedBy (h : Kept c g) {s : Side} {r : Resting} (hr : r ∈ g.book.side s) :
    r.id ∈ g.feed.orders.ownedBy owner ↔ r.owner = owner := by
  have hfind : g.book.find? r.id = some (s, r) := (Flat.find?_iff h.wf.nodup).mpr ⟨hr, rfl⟩
  obtain ⟨client, hl⟩ := h.shows_.live_of_find? hfind
  rw [OrderIds.mem_ownedBy]
  constructor
  · rintro ⟨k, hk⟩
    obtain ⟨l, hl', rfl, -⟩ := (h.shows_.inverse _ _ _).mp hk
    obtain rfl := Option.some.inj (hl.symm.trans hl')
    rfl
  · rintro rfl
    exact ⟨client, (h.shows_.inverse _ _ _).mpr ⟨_, hl, rfl, rfl⟩⟩

/-- **A disconnect takes the orders of its owner off the book**, and no other. -/
theorem side_disconnect (h : Kept c g) (owner : Owner) (s : Side) :
    (g.cancelOnDisconnect (Flat.engine c) owner).book.side s =
      (g.book.side s).filter fun r => decide (r.owner ≠ owner) := by
  have hall : (g.cancelOnDisconnect (Flat.engine c) owner).book.side s =
      (g.book.side s).filter fun r => decide (r.id ∉ g.feed.orders.ownedBy owner) := by
    rw [← side_cancelAll (c := c)]
    simp only [Gateway.cancelOnDisconnect]
    split_ifs <;> rfl
  rw [hall]
  exact List.filter_congr fun r hr => by simp [h.mem_ownedBy hr]

theorem owns_serve (h : Kept c g) {req : Request}
    (ho : (Gateway.serve (Flat.engine c) g owner req).1.book.Owns o) : g.book.Owns o ∨ o = owner := by
  rw [serve_eq] at ho
  change (g.asked (Flat.engine c) owner req).1.Owns o at ho
  unfold asked at ho
  cases hop : req.op owner (g.feed.orders.idOf owner req) with
  | none =>
      rw [hop] at ho
      exact Or.inl ho
  | some op =>
      rw [hop, Engine.ask, Flat.engine_call] at ho
      rcases Flat.owns_call h.wf ho with ho | ⟨t, hsend, rfl⟩
      · exact Or.inl ho
      · exact Or.inr (h.taker_owner hop hsend)

end Kept

end flat

/-- Every resting order belongs to a connection. -/
def Housed (g : Gateway OrderBook) : Prop :=
  ∀ s, ∀ r ∈ g.book.flat.side s, r.owner ∈ g.conns.map Connection.owner

namespace Reached

variable {c : Config} {g : Gateway OrderBook} {owner : Owner}

theorem side_disconnect (h : Reached c g) (owner : Owner) (s : Side) :
    (g.cancelOnDisconnect OrderBook.engine owner).book.flat.side s =
      (g.book.flat.side s).filter fun r => decide (r.owner ≠ owner) := by
  obtain ⟨g', hsim, hkept⟩ := h
  rw [OrderBook.flat_eq hsim.book, ← hkept.side_disconnect owner s]
  exact congrArg (fun F => F.side s)
    (OrderBook.flat_eq (hsim.cancelOnDisconnect (OrderBook.engine_sim c) owner).book)

/-- A frame brings orders of its sender only, and the sender is connected. -/
theorem owner_handleFrame (h : Reached c g) {body : List UInt8} {s : Side} {r : Resting}
    (hr : r ∈ (handleFrame OrderBook.engine g owner body).1.book.flat.side s) :
    (∃ s, ∃ r₀ ∈ g.book.flat.side s, r₀.owner = r.owner) ∨
      r.owner ∈ g.conns.map Connection.owner := by
  obtain ⟨g', hsim, hkept⟩ := h
  have hflat := OrderBook.flat_eq hsim.book
  obtain ⟨-, hframe⟩ := hsim.handleFrame (OrderBook.engine_sim c) owner body
  rw [OrderBook.flat_eq hframe.book] at hr
  rw [hflat, hsim.conns]
  unfold handleFrame at hr
  cases hfind : g'.conns.find? (isOf owner) with
  | none =>
      rw [hfind] at hr
      exact Or.inl ⟨s, r, hr, rfl⟩
  | some conn =>
      simp only [hfind] at hr
      split_ifs at hr
      · exact Or.inl ⟨s, r, hr, rfl⟩
      · cases hreq : decodeRequest body with
        | none =>
            simp only [hreq] at hr
            exact Or.inl ⟨s, r, hr, rfl⟩
        | some req =>
            simp only [hreq] at hr
            rcases hkept.owns_serve ⟨s, r, hr, rfl⟩ with hown | hown
            · exact Or.inl hown
            · have hof : isOf owner conn = true := List.find?_some hfind
              have hconn : conn.owner = owner := of_decide_eq_true hof
              rw [hown, ← hconn]
              exact Or.inr (List.mem_map_of_mem (List.mem_of_find?_eq_some hfind))

end Reached

end Gateway

/-! ### Removals -/

namespace Connection

variable {conns : List Connection}

theorem eraseP_isOf (hnd : (conns.map Connection.owner).Nodup) (owner : Owner) :
    conns.eraseP (isOf owner) = conns.filter fun c => decide (c.owner ≠ owner) := by
  induction conns with
  | nil => rfl
  | cons c conns ih =>
      rw [List.map_cons, List.nodup_cons] at hnd
      by_cases hc : c.owner = owner
      · rw [List.eraseP_cons_of_pos (by simp [isOf, hc]), List.filter_cons_of_neg (by simp [hc])]
        refine (List.filter_eq_self.mpr fun x hx => ?_).symm
        have hne : x.owner ≠ owner := fun he => hnd.1 (hc ▸ he ▸ List.mem_map_of_mem hx)
        simp [hne]
      · rw [List.eraseP_cons_of_neg (by simp [isOf, hc]), List.filter_cons_of_pos (by simp [hc]),
          ih hnd.2]

/-- The connection of an owner is the only one. -/
theorem filter_isOf (hnd : (conns.map Connection.owner).Nodup) {c : Connection} (hc : c ∈ conns) :
    conns.filter (isOf c.owner) = [c] := by
  induction conns with
  | nil => cases hc
  | cons x conns ih =>
      rw [List.map_cons, List.nodup_cons] at hnd
      rcases List.mem_cons.mp hc with rfl | hc
      · have hnone : conns.filter (isOf c.owner) = [] := by
          refine List.filter_eq_nil_iff.mpr fun y hy he => hnd.1 ?_
          rw [← show y.owner = c.owner from of_decide_eq_true he]
          exact List.mem_map_of_mem hy
        rw [List.filter_cons_of_pos (by simp [isOf]), hnone]
      · have hne : x.owner ≠ c.owner := fun he => hnd.1 (he ▸ List.mem_map_of_mem hc)
        rw [List.filter_cons_of_neg (by simp [isOf, hne]), ih hnd.2 hc]

/-- What is done to the connection of an owner does not concern the others. -/
theorem filter_onFirst {f : Connection → Connection} (hf : ∀ c, (f c).owner = c.owner)
    (owner : Owner) (conns : List Connection) :
    (onFirst (isOf owner) f conns).filter (fun c => decide (c.owner ≠ owner)) =
      conns.filter fun c => decide (c.owner ≠ owner) := by
  induction conns with
  | nil => rfl
  | cons c conns ih =>
      by_cases hc : c.owner = owner
      · rw [onFirst, if_pos (show isOf owner c = true from decide_eq_true hc),
          List.filter_cons_of_neg (by simp [hf, hc]), List.filter_cons_of_neg (by simp [hc])]
      · rw [onFirst, if_neg (by simp [isOf, hc]), List.filter_cons_of_pos (by simp [hc]),
          List.filter_cons_of_pos (by simp [hc]), ih]

end Connection

namespace PollLoop

open Connection
open Gateway (Reached conns_step reached_run owners_sublist)

variable {p : Params} {n : ℕ} {s : PollLoop} {owner : Owner}

/-- What the removal of a connection does: the orders of its owner and the connection itself are
gone, and all else is as it was. -/
structure Removal (owner : Owner) (s s' : PollLoop) : Prop where
  orders : ∀ t, s'.gateway.book.flat.side t =
    (s.gateway.book.flat.side t).filter fun r => decide (r.owner ≠ owner)
  conns : s'.gateway.conns = s.gateway.conns.filter fun c => decide (c.owner ≠ owner)

/-- The last flush leaves the book and the other connections as they are. -/
theorem flushOutbox_frame (owner : Owner) (xs : List Sent) (s : PollLoop) :
    (flushOutbox owner xs s).gateway.book = s.gateway.book ∧
      (flushOutbox owner xs s).gateway.conns.filter (fun c => decide (c.owner ≠ owner)) =
        s.gateway.conns.filter fun c => decide (c.owner ≠ owner) := by
  refine @inv_flushOutbox owner (fun s' => s'.gateway.book = s.gateway.book ∧
    s'.gateway.conns.filter (fun c => decide (c.owner ≠ owner)) =
      s.gateway.conns.filter fun c => decide (c.owner ≠ owner)) ?_ ?_ xs s ⟨rfl, rfl⟩
  · rintro s' k ⟨hbook, hconns⟩
    refine ⟨hbook, Eq.trans ?_ hconns⟩
    exact filter_onFirst (f := fun c => c.flush k) (fun _ => rfl) owner s'.gateway.conns
  · rintro s' ⟨hbook, hconns⟩
    refine ⟨hbook, Eq.trans ?_ hconns⟩
    exact filter_onFirst (f := fun c => { c with dead := true }) (fun _ => rfl) owner s'.gateway.conns

section accounts

variable (hp : p.Valid) (hn : n < 2 ^ 32)

include hp

theorem Accounts.reached (h : Accounts p n s) : Reached p.config s.gateway := by
  rw [h.gateway_eq]
  exact reached_run hp s.log

include hn

theorem Accounts.distinct (h : Accounts p n s) :
    (s.gateway.conns.map Connection.owner).Nodup := by
  rw [h.gateway_eq]
  exact (owners_sublist hp (h.nodup hn)).nodup (h.nodup hn)

/-- **Each removal takes exactly the orders of its owner**, and leaves the others alone. -/
theorem Accounts.removal (h : Accounts p n s) {r : Ready} (hdead : s.isDead owner = true) :
    Removal owner s (s.reap owner r) := by
  obtain ⟨hbook, hconns⟩ := flushOutbox_frame owner r.lastSends s
  have hflushed := (Accounts.safe owner).flushOutbox r.lastSends h
  have hleft := hflushed.act (i := .disconnect owner) rfl
  have hself : ((flushOutbox owner r.lastSends s).act (.disconnect owner)).gateway.conns =
      (flushOutbox owner r.lastSends s).gateway.conns :=
    (conns_step (hflushed.reached hp) (hflushed.distinct hp hn) (.disconnect owner)).trans
      (List.map_id _)
  rw [PollLoop.reap, if_pos hdead]
  refine ⟨fun t => ?_, ?_⟩
  · rw [← hbook]
    exact (hflushed.reached hp).side_disconnect owner t
  · rw [← hconns, ← hself]
    exact eraseP_isOf (hleft.distinct hp hn) owner

end accounts

/-! ### Turns -/

/-- Owners differ, and every order has a connection. -/
structure Sound (p : Params) (n : ℕ) (s : PollLoop) : Prop where
  accounts : Accounts p n s
  housed : s.gateway.Housed

namespace Sound

/-- An action for one connection. -/
theorem act (h : Sound p n s) {i : Gateway.Input} (hi : accepted [i] = [])
    (hconns : (s.act i).gateway.conns = s.gateway.conns.map (s.gateway.effect i))
    (horders : ∀ t, ∀ r ∈ (s.act i).gateway.book.flat.side t,
      (∃ t, ∃ r₀ ∈ s.gateway.book.flat.side t, r₀.owner = r.owner) ∨
        r.owner ∈ s.gateway.conns.map Connection.owner) : Sound p n (s.act i) := by
  refine ⟨h.accounts.act hi, fun t r hr => ?_⟩
  have howners : (s.act i).gateway.conns.map Connection.owner =
      s.gateway.conns.map Connection.owner := by
    rw [hconns, List.map_map]
    exact List.map_congr_left fun c _ => Gateway.owner_effect i c
  rw [howners]
  rcases horders t r hr with ⟨t, r₀, hr₀, howner⟩ | howner
  · exact howner ▸ h.housed t r₀ hr₀
  · exact howner

theorem accept (h : Sound p n s) : Sound p (n + 1) s.accept := by
  refine ⟨h.accounts.accept, fun t r hr => ?_⟩
  have hconns : s.accept.gateway.conns = s.gateway.conns ++ [{ owner := s.nextOwner }] := rfl
  rw [hconns, List.map_append]
  exact List.mem_append_left _ (h.housed t r hr)

section sound

variable (hp : p.Valid) (hn : n < 2 ^ 32)

include hp hn

theorem safe (owner : Owner) : Safe owner (Sound p n) where
  frame body h := by
    have hreached := h.accounts.reached hp
    exact h.act rfl (conns_step hreached (h.accounts.distinct hp hn) _)
      fun t r hr => hreached.owner_handleFrame hr
  flush k h := by
    exact h.act rfl (conns_step (h.accounts.reached hp) (h.accounts.distinct hp hn) _)
      fun t r hr => Or.inl ⟨t, r, hr, rfl⟩
  hangup h := by
    exact h.act rfl (conns_step (h.accounts.reached hp) (h.accounts.distinct hp hn) _)
      fun t r hr => Or.inl ⟨t, r, hr, rfl⟩
  setFrames _ h := ⟨(Accounts.safe owner).setFrames _ h.accounts, h.housed⟩

theorem reap (h : Sound p n s) (owner : Owner) (r : Ready) : Sound p n (s.reap owner r) := by
  refine ⟨h.accounts.reap owner r, ?_⟩
  by_cases hdead : s.isDead owner = true
  · have hremoval := h.accounts.removal hp hn (r := r) hdead
    intro t x hx
    rw [hremoval.orders, List.mem_filter] at hx
    obtain ⟨c, hc, howner⟩ := List.mem_map.mp (h.housed t x hx.1)
    have hother : x.owner ≠ owner := of_decide_eq_true hx.2
    rw [hremoval.conns, ← howner]
    refine List.mem_map_of_mem (List.mem_filter.mpr ⟨hc, ?_⟩)
    exact decide_eq_true (howner ▸ hother)
  · rw [PollLoop.reap, if_neg hdead]
    exact h.housed

/-- The dead connections among those looked at are gone, and no other is. -/
theorem live_reapAll (it : Iteration) (owners : List Owner) (h : Sound p n s) :
    Sound p n (reapAll it owners s) ∧ ∀ c ∈ (reapAll it owners s).gateway.conns,
      c ∈ s.gateway.conns ∧ (c.owner ∈ owners → c.dead = false) := by
  induction owners generalizing s with
  | nil => exact ⟨h, fun c hc => ⟨hc, fun hmem => nomatch hmem⟩⟩
  | cons owner owners ih =>
      obtain ⟨hsound, hlive⟩ := ih (h.reap hp hn owner (it.ready owner))
      refine ⟨hsound, fun c hc => ?_⟩
      obtain ⟨hc', hrest⟩ := hlive c hc
      by_cases hdead : s.isDead owner = true
      · rw [(h.accounts.removal hp hn hdead).conns, List.mem_filter] at hc'
        have hother : c.owner ≠ owner := of_decide_eq_true hc'.2
        refine ⟨hc'.1, fun hmem => hrest ?_⟩
        exact (List.mem_cons.mp hmem).resolve_left hother
      · rw [PollLoop.reap, if_neg hdead] at hc'
        refine ⟨hc', fun hmem => ?_⟩
        rcases List.mem_cons.mp hmem with rfl | hmem
        · have hfind := find?_of_mem (h.accounts.distinct hp hn) hc'
          simpa [isDead, Gateway.isDead, hfind] using hdead
        · exact hrest hmem

end sound

/-- The connections have had their turn. -/
theorem serviced (hp : p.Valid) (it : Iteration)
    (hacc : n + (if it.accepts then 1 else 0) < 2 ^ 32) (h : Sound p n s) :
    Sound p (n + if it.accepts then 1 else 0) (s.serviced it) := by
  have hwelcome : Sound p (n + if it.accepts then 1 else 0) (s.welcome it) := by
    unfold welcome
    split_ifs
    · exact h.accept
    · exact h
  exact List.foldlRecOn _ _ hwelcome fun _ h owner _ => (safe hp hacc owner).service _ h

end Sound

theorem run_append (p : Params) (its : List Iteration) (it : Iteration) :
    run p (its ++ [it]) = (run p its).iterate it := by
  simp only [run, List.foldl_append, List.foldl_cons, List.foldl_nil]

/-- At a boundary every order has a connection, and every connection lives. -/
theorem sound_run (hp : p.Valid) (its : List Iteration)
    (hacc : its.countP Iteration.accepts < 2 ^ 32) :
    Sound p (its.countP Iteration.accepts) (run p its) ∧
      ∀ c ∈ (run p its).gateway.conns, c.dead = false := by
  induction its using List.reverseRecOn with
  | nil =>
      have hnone : ∀ c ∈ (run p []).gateway.conns, c.dead = false := fun c hc => nomatch hc
      refine ⟨⟨Accounts.run p [], fun t r hr => ?_⟩, hnone⟩
      have hflat : (run p []).gateway.book.flat = {} := OrderBook.flat_eq (OrderBook.new_repr hp)
      rw [hflat] at hr
      cases t <;> cases hr
  | append_singleton its it ih =>
      rw [List.countP_append, List.countP_singleton] at hacc ⊢
      obtain ⟨hsound, -⟩ := ih (by omega)
      have hserved := hsound.serviced hp it hacc
      obtain ⟨hsound', hlive⟩ := hserved.live_reapAll hp hacc it
        ((run p its).serviced it).owners.reverse
      rw [run_append]
      refine ⟨hsound', fun c hc => ?_⟩
      obtain ⟨hmem, hdead⟩ := hlive c hc
      exact hdead (List.mem_reverse.mpr (List.mem_map_of_mem hmem))

/-- **No orphan orders.**  At every boundary each resting order has the owner of exactly one
connection, and that one lives; and each removal of a turn takes the orders of its owner off the
book and leaves all other orders and connections as they are. -/
theorem noOrphans_run (p : Params) (hp : p.Valid) (its : List Iteration)
    (hacc : its.countP Iteration.accepts < 2 ^ 32) :
    (∀ t, ∀ r ∈ (run p its).gateway.book.flat.side t, ∃ c : Connection,
      (run p its).gateway.conns.filter (isOf r.owner) = [c] ∧ c.dead = false) ∧
    ∀ pre it post, its = pre ++ it :: post →
      let s := (run p pre).serviced it
      ∀ before owner after, s.owners.reverse = before ++ owner :: after →
        (reapAll it before s).isDead owner = true →
        Removal owner (reapAll it before s) ((reapAll it before s).reap owner (it.ready owner)) := by
  refine ⟨fun t r hr => ?_, ?_⟩
  · obtain ⟨hsound, hlive⟩ := sound_run hp its hacc
    obtain ⟨c, hc, howner⟩ := List.mem_map.mp (hsound.housed t r hr)
    rw [← howner]
    exact ⟨c, filter_isOf (hsound.accounts.distinct hp hacc) hc, hlive c hc⟩
  · rintro pre it post rfl s before owner after - hdead
    have hpre : pre.countP Iteration.accepts + (if it.accepts then 1 else 0) < 2 ^ 32 := by
      rw [List.countP_append, List.countP_cons] at hacc
      omega
    have hsound := ((sound_run hp pre (by omega)).1.serviced hp it hpre).live_reapAll hp hpre it before
    exact hsound.1.accounts.removal hp hpre hdead

/-- Two clients: one breaks off while its order rests, the other one's order stays. -/
theorem noOrphans_run_small :
    let p : Params := { stp := .none, poolCapacity := 1, bandHi := 9, idMapSlots := 4 }
    let its : List Iteration := [{ accepts := true }, { accepts := true },
      { ready := fun owner =>
          { readable := true
            recvs := [.got ((NewOrderMsg.encode 64 ⟨7, 5, 3, .ask, .gtc⟩).getD [])]
            moreSends := if owner = 1 then [.failed] else [.took 16] } }]
    (∀ t, ∀ r ∈ (run p its).gateway.book.flat.side t, ∃ c : Connection,
      (run p its).gateway.conns.filter (isOf r.owner) = [c] ∧ c.dead = false) ∧
    ∀ pre it post, its = pre ++ it :: post →
      let s := (run p pre).serviced it
      ∀ before owner after, s.owners.reverse = before ++ owner :: after →
        (reapAll it before s).isDead owner = true →
        Removal owner (reapAll it before s) ((reapAll it before s).reap owner (it.ready owner)) :=
  noOrphans_run _ ⟨by decide, by decide, by decide, by decide⟩ _ (by decide)

end PollLoop

end Lob
