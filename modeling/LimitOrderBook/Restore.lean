import LimitOrderBook.Slices
import LimitOrderBook.Versions

/-! # A book is its queues

Nothing of an engine's past shows but its queues: not the orders that are gone, not the slots of the
pool they left, not the layout of the id map.  Any book is therefore brought back by submitting its
resting orders, best first, to a fresh engine, whatever its capacities and its band, as long as it
holds their prices (`restore_run`). -/

namespace Lob

open KeyedQueue

/-- The call that brings an order to a book. -/
def Resting.submit (s : Side) (r : Resting) : Op := .submitLimit r.id s r.price r.qty .gtc r.owner

/-- The answer to an order that comes to rest untouched. -/
def restedWhole : Answer := (.submit { filled := 0, rested := true, rejected := false }, [])

namespace Flat

/-- The calls that bring the orders of a book to a fresh one. -/
def submits (F : Flat) : List Op :=
  F.bids.map (Resting.submit .bid) ++ F.asks.map (Resting.submit .ask)

variable {c : Config} {F : Flat} {s : Side} {r : Resting}

theorem rest_last (h : ∀ b ∈ F.side s, ¬ better s r.price b.price) :
    F.rest s r = F.withSide s (F.side s ++ [r]) := by
  have hlast : enqueue (better s) Resting.price r (F.side s ++ []) = F.side s ++ [r] :=
    enqueue_append h []
  rw [List.append_nil] at hlast
  rw [rest, hlast]

/-- An order that crosses nothing comes to rest. -/
theorem call_submit (hid : r.id ≠ 0) (hnew : r.id ∉ F.ids) (hqty : r.qty ≠ 0)
    (hpx : c.inBand r.price = true)
    (hclear : ∀ b ∈ F.side s.opp, crosses s b.price r.price = false) :
    F.call c (r.submit s) = (F.rest s r, restedWhole) := by
  simp [Resting.submit, call, submitLimit, execute, hid, hnew, hqty, hpx, walk_clear hclear,
    withSide_side, restedWhole]

/-- The orders of one side, brought to a book one after the other. -/
theorem submit_side (c : Config) (s : Side) : ∀ (q : List Resting) (F : Flat),
    (∀ r ∈ q, r.id ≠ 0 ∧ r.qty ≠ 0 ∧ c.inBand r.price = true ∧
      ∀ b ∈ F.side s.opp, crosses s b.price r.price = false) →
    Ordered (better s) Resting.price (F.side s ++ q) → (F.ids ++ q.map Resting.id).Nodup →
    Transition.finalState (call c) F (q.map (Resting.submit s)) = F.withSide s (F.side s ++ q) ∧
      ∀ a ∈ Transition.outputs (call c) F (q.map (Resting.submit s)), a = restedWhole
  | [], F, _, _, _ => by simp [Transition.finalState, Transition.outputs, withSide_side]
  | r :: q, F, hq, hord, hnd => by
      obtain ⟨hid, hqty, hpx, hclear⟩ := hq r List.mem_cons_self
      have hnew : r.id ∉ F.ids := fun hm =>
        (List.nodup_append.mp hnd).2.2 _ hm _ List.mem_cons_self rfl
      have hlast : ∀ b ∈ F.side s, ¬ better s r.price b.price :=
        fun b hb => (List.pairwise_append.mp hord).2.2 b hb r List.mem_cons_self
      have hcall := call_submit hid hnew hqty hpx hclear
      rw [rest_last hlast] at hcall
      have hq' : ∀ r' ∈ q, r'.id ≠ 0 ∧ r'.qty ≠ 0 ∧ c.inBand r'.price = true ∧
          ∀ b ∈ (F.withSide s (F.side s ++ [r])).side s.opp, crosses s b.price r'.price = false := by
        intro r' hr'
        rw [side_opp_withSide]
        exact hq r' (List.mem_cons_of_mem _ hr')
      have hord' : Ordered (better s) Resting.price
          ((F.withSide s (F.side s ++ [r])).side s ++ q) := by
        rw [side_withSide_self, List.append_assoc]
        exact hord
      have hnd' : ((F.withSide s (F.side s ++ [r])).ids ++ q.map Resting.id).Nodup := by
        rw [← rest_last hlast]
        refine ((ids_rest.append_right _).nodup_iff).mpr ?_
        exact List.perm_middle.nodup_iff.mp hnd
      obtain ⟨hstate, houts⟩ := submit_side c s q _ hq' hord' hnd'
      simp only [List.map_cons, Transition.finalState, Transition.outputs, hcall]
      rw [side_withSide_self, List.append_assoc] at hstate
      refine ⟨hstate.trans (by cases s <;> rfl), fun a ha => ?_⟩
      rcases List.mem_cons.mp ha with rfl | ha
      · rfl
      · exact houts a ha

/-- **Its orders bring a book back.** -/
theorem submit_all (hF : F.WF c) (c' : Config)
    (hband : ∀ r ∈ F.all, c'.inBand r.price = true) :
    Transition.finalState (call c') {} F.submits = F ∧
      ∀ a ∈ Transition.outputs (call c') {} F.submits, a = restedWhole := by
  have hids := hF.nodup
  rw [ids_eq] at hids
  obtain ⟨hbids, hbout⟩ := submit_side c' .bid F.bids {}
    (fun r hr => ⟨hF.id_ne .bid r hr, hF.qty_ne .bid r hr, hband r (mem_all.mpr ⟨.bid, hr⟩),
      fun b hb => by cases hb⟩)
    (hF.ordered .bid) (List.nodup_append.mp hids).1
  have hstate : Transition.finalState (call c') {} (F.bids.map (Resting.submit .bid)) =
      { bids := F.bids } := hbids
  have hclear : ∀ r ∈ F.asks, ∀ b ∈ F.bids, crosses .ask b.price r.price = false := by
    intro r hr b hb
    have hlt := hF.uncrossed b hb r hr
    exact decide_eq_false (by omega)
  obtain ⟨hasks, haout⟩ := submit_side c' .ask F.asks { bids := F.bids }
    (fun r hr => ⟨hF.id_ne .ask r hr, hF.qty_ne .ask r hr, hband r (mem_all.mpr ⟨.ask, hr⟩),
      hclear r hr⟩)
    (hF.ordered .ask) (by simpa [ids, all] using hids)
  rw [submits, Transition.finalState_append, Transition.outputs_append, hstate]
  refine ⟨hasks, fun a ha => ?_⟩
  rcases List.mem_append.mp ha with ha | ha
  · exact hbout a ha
  · exact haout a ha

/-- Bands show in the prices of operations only, along a run as in one call. -/
theorem run_congr (c c' : Config) (hstp : c'.stp = c.stp) (hprot : c'.protection = c.protection)
    {ops : List Op} (hband : ∀ op ∈ ops, ∀ px ∈ op.price?, c'.inBand px = c.inBand px) (F : Flat) :
    Transition.outputs (call c') F ops = Transition.outputs (call c) F ops ∧
      Transition.finalState (call c') F ops = Transition.finalState (call c) F ops := by
  refine Transition.run_eq_of_along (Transition.along_of_split fun pre op post he => ?_)
  have hop : op ∈ ops := he ▸ List.mem_append_right _ List.mem_cons_self
  exact call_congr c' c hstp hprot (hband op hop) _

end Flat

/-- **A book is its queues**: brought from any book to a fresh engine of any sizes, the resting
orders come to rest untouched, and from then on both engines answer alike and keep the same queues,
whatever is asked of them. -/
theorem OrderBook.restore_run (p p' : Params) (hp : p.Valid) (hp' : p'.Valid) (hstp : p'.stp = p.stp)
    (hprot : p'.protection = p.protection) (ops : List Op)
    (hband : ∀ r ∈ (run p ops).flat.all, p'.inBand r.price = true) :
    (∀ a ∈ answers p' (run p ops).flat.submits, a = restedWhole) ∧
      ∀ more, (∀ op ∈ more, ∀ px ∈ op.price?, p'.inBand px = p.inBand px) →
        Transition.outputs Book.call (run p' (run p ops).flat.submits) more =
            Transition.outputs Book.call (run p ops) more ∧
          flat (Transition.finalState Book.call (run p' (run p ops).flat.submits) more) =
            flat (Transition.finalState Book.call (run p ops) more) := by
  have hrepr := (run_repr hp ops).2
  rw [flat_eq hrepr] at hband ⊢
  generalize Transition.finalState (Flat.call p.config) {} ops = F at hrepr hband ⊢
  obtain ⟨hans, hrepr'⟩ := run_repr hp' F.submits
  obtain ⟨hstate, houts⟩ := Flat.submit_all hrepr.wf p'.config hband
  rw [hstate] at hrepr'
  refine ⟨fun a ha => houts a (hans ▸ ha), fun more hmore => ?_⟩
  obtain ⟨houts₁, hafter₁⟩ := hrepr.run more
  obtain ⟨houts₂, hafter₂⟩ := hrepr'.run more
  obtain ⟨houts₃, hafter₃⟩ := F.run_congr p.config p'.config hstp hprot hmore
  rw [houts₁, houts₂, flat_eq hafter₁, flat_eq hafter₂]
  exact ⟨houts₃, hafter₃⟩

/-- After a reprice, a partial fill and a cancel, to a smaller engine. -/
theorem OrderBook.restore_run_small :
    Transition.outputs Book.call
        (OrderBook.run { bandLo := 3, bandHi := 8, poolCapacity := 1, idMapSlots := 1 }
          [.submitLimit 4 .bid 4 3 .gtc 8, .submitLimit 2 .ask 6 2 .gtc 7,
            .submitLimit 1 .ask 6 5 .gtc 7])
        [.submitMarket 9 .bid 3 7, .modify 1 4 2] =
      Transition.outputs Book.call (OrderBook.run { bandHi := 9, idMapSlots := 4 }
        [.submitLimit 1 .ask 5 5 .gtc 7, .submitLimit 2 .ask 6 3 .gtc 7, .submitLimit 3 .bid 4 1 .gtc 7,
          .submitLimit 4 .bid 4 3 .gtc 8, .modify 1 6 5, .submitMarket 5 .bid 1 7, .cancel 3])
        [.submitMarket 9 .bid 3 7, .modify 1 4 2] := by
  have h := OrderBook.restore_run { bandHi := 9, idMapSlots := 4 }
    { bandLo := 3, bandHi := 8, poolCapacity := 1, idMapSlots := 1 }
    ⟨by decide, by decide, by decide, by decide⟩ ⟨by decide, by decide, by decide, by decide⟩ rfl rfl
    [.submitLimit 1 .ask 5 5 .gtc 7, .submitLimit 2 .ask 6 3 .gtc 7, .submitLimit 3 .bid 4 1 .gtc 7,
      .submitLimit 4 .bid 4 3 .gtc 8, .modify 1 6 5, .submitMarket 5 .bid 1 7, .cancel 3]
    (by decide +kernel)
  have hflat : (OrderBook.run { bandHi := 9, idMapSlots := 4 }
      [.submitLimit 1 .ask 5 5 .gtc 7, .submitLimit 2 .ask 6 3 .gtc 7, .submitLimit 3 .bid 4 1 .gtc 7,
        .submitLimit 4 .bid 4 3 .gtc 8, .modify 1 6 5, .submitMarket 5 .bid 1 7, .cancel 3]).flat =
      { bids := [⟨4, 4, 3, 8⟩], asks := [⟨2, 6, 2, 7⟩, ⟨1, 6, 5, 7⟩] } := by decide +kernel
  rw [hflat] at h
  exact (h.2 [.submitMarket 9 .bid 3 7, .modify 1 4 2] (by decide)).1

end Lob
