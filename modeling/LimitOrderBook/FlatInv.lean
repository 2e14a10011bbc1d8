import LimitOrderBook.Flat
import Mathlib.Data.List.Nodup

/-! # The flat book, over whole runs

The walk only removes orders from the front of a queue and reduces the one it stops at
(`walk_keys`, `walk_qty_ne`); it ends with nothing left to trade unless it was stopped
(`walk_end`).  With this the invariant `Flat.WF` is preserved by every call (`Flat.WF.call`). -/

namespace Lob

open KeyedQueue

/-- What never changes while an order rests. -/
def Resting.key (r : Resting) : OrderId × Int × Owner := (r.id, r.price, r.owner)

theorem UInt32.sub_ne_zero {a b : UInt32} (h : a ≠ b) : a - b ≠ 0 := by
  intro h0
  exact h (by rw [← UInt32.sub_add_cancel a b, h0, UInt32.zero_add])

theorem sub_add_eq_sub_sub (a b c : UInt32) : a - b + c = a - (b - c) := by
  rw [UInt32.sub_eq_add_neg a (b - c), UInt32.neg_sub, UInt32.sub_eq_add_neg, UInt32.sub_eq_add_neg,
    UInt32.add_assoc, UInt32.add_comm (-b)]

theorem sub_sub_self (a b : UInt32) : a - (a - b) = b := by
  rw [UInt32.sub_eq_add_neg, UInt32.neg_sub, UInt32.add_comm, UInt32.sub_add_cancel]

/-- What is filled falls short of what was wanted exactly when something stays open. -/
theorem filled_lt_iff {want n : UInt32} (hle : n ≤ want) : want - n < want ↔ n ≠ 0 := by
  rw [UInt32.lt_iff_toNat_lt, UInt32.toNat_sub_of_le _ _ hle, Ne, ← UInt32.toNat_inj]
  have : n.toNat ≤ want.toNat := hle
  have h0 : (0 : UInt32).toNat = 0 := rfl
  omega

theorem pos_iff {n : UInt32} : 0 < n ↔ n ≠ 0 := by
  rw [UInt32.lt_iff_toNat_lt, Ne, ← UInt32.toNat_inj]
  have h0 : (0 : UInt32).toNat = 0 := rfl
  omega

/-! Queues whose orders differ in quantity only, but for orders that left. -/

section keys

variable {q q' : List Resting}

theorem mem_of_keys (hk : (q'.map Resting.key).Sublist (q.map Resting.key)) {r : Resting}
    (hr : r ∈ q') : ∃ r₀ ∈ q, r₀.id = r.id ∧ r₀.price = r.price ∧ r₀.owner = r.owner := by
  obtain ⟨r₀, hr₀, hkey⟩ := List.mem_map.mp (hk.subset (List.mem_map_of_mem hr))
  exact ⟨r₀, hr₀, congrArg Prod.fst hkey, congrArg (fun k => k.2.1) hkey,
    congrArg (fun k => k.2.2) hkey⟩

theorem pairwise_of_keys {R : OrderId × Int × Owner → OrderId × Int × Owner → Prop}
    (hk : (q'.map Resting.key).Sublist (q.map Resting.key))
    (h : q.Pairwise fun r r' => R r.key r'.key) : q'.Pairwise fun r r' => R r.key r'.key :=
  List.pairwise_map.mp ((List.pairwise_map.mpr h).sublist hk)

theorem ids_of_keys (hk : (q'.map Resting.key).Sublist (q.map Resting.key)) :
    (q'.map Resting.id).Sublist (q.map Resting.id) := by
  have hids := hk.map Prod.fst
  rwa [List.map_map, List.map_map] at hids

theorem keys_amend (q : List Resting) (id : OrderId) (n : Qty) :
    (q.map fun r => if r.id = id then { r with qty := n } else r).map Resting.key =
      q.map Resting.key := by
  rw [List.map_map]
  refine List.map_congr_left fun r _ => ?_
  simp only [Function.comp_apply]
  split_ifs <;> rfl

end keys

section walk

variable {stp : Stp} {s : Side} {taker : OrderId} {limit : Int} {owner : Owner}

@[simp] theorem walk_zero (q : List Resting) :
    walk stp s taker limit owner q 0 = ⟨q, 0, false, []⟩ := by
  cases q <;> simp [walk]

theorem min_eq_of_le {a b : UInt32} (h : a ≤ b) : min a b = a := if_pos h

theorem min_eq_of_lt {a b : UInt32} (h : b < a) : min a b = b :=
  if_neg (by rw [UInt32.le_iff_toNat_le]; rw [UInt32.lt_iff_toNat_lt] at h; omega)

/-! The five ways a walk deals with the order at its front. -/

section front

variable {r : Resting} {q : List Resting} {n : Qty}

theorem walk_stop (h : n = 0 ∨ crosses s r.price limit = false) :
    walk stp s taker limit owner (r :: q) n = ⟨r :: q, n, false, []⟩ := by
  rw [walk, if_pos h]

theorem walk_block (h : ¬ (n = 0 ∨ crosses s r.price limit = false)) (ho : r.Own stp owner)
    (hs : stp = .rejectIncoming) :
    walk stp s taker limit owner (r :: q) n = ⟨r :: q, n, true, []⟩ := by
  rw [walk, if_neg h, if_pos ho, if_pos hs]

theorem walk_kill (h : ¬ (n = 0 ∨ crosses s r.price limit = false)) (ho : r.Own stp owner)
    (hs : stp ≠ .rejectIncoming) :
    walk stp s taker limit owner (r :: q) n =
      { walk stp s taker limit owner q n with
        tape := .cancel r.id r.owner :: (walk stp s taker limit owner q n).tape } := by
  rw [walk, if_neg h, if_pos ho, if_neg hs]

theorem walk_part (h : ¬ (n = 0 ∨ crosses s r.price limit = false)) (ho : ¬ r.Own stp owner)
    (hlt : n < r.qty) :
    walk stp s taker limit owner (r :: q) n =
      ⟨{ r with qty := r.qty - n } :: q, 0, false, [.trade taker r.id r.price n]⟩ := by
  have hne : ¬ r.qty = n := by
    rintro rfl
    rw [UInt32.lt_iff_toNat_lt] at hlt
    omega
  rw [walk, if_neg h, if_neg ho]
  simp only [min_eq_of_lt hlt, hne, if_false, UInt32.sub_self, walk_zero]

theorem walk_full (h : ¬ (n = 0 ∨ crosses s r.price limit = false)) (ho : ¬ r.Own stp owner)
    (hle : r.qty ≤ n) :
    walk stp s taker limit owner (r :: q) n =
      { walk stp s taker limit owner q (n - r.qty) with
        tape := .trade taker r.id r.price r.qty ::
          (walk stp s taker limit owner q (n - r.qty)).tape } := by
  rw [walk, if_neg h, if_neg ho]
  simp only [min_eq_of_le hle, if_true]

variable (r q n) in
/-- To prove something of a walk, prove it of each of these. -/
theorem walk_cases (P : Walk → Prop)
    (stop : n = 0 ∨ crosses s r.price limit = false → P ⟨r :: q, n, false, []⟩)
    (block : n ≠ 0 → crosses s r.price limit = true → r.Own stp owner → stp = .rejectIncoming →
      P ⟨r :: q, n, true, []⟩)
    (kill : n ≠ 0 → crosses s r.price limit = true → r.Own stp owner → stp = .cancelResting →
      P { walk stp s taker limit owner q n with
        tape := .cancel r.id r.owner :: (walk stp s taker limit owner q n).tape })
    (part : n ≠ 0 → crosses s r.price limit = true → ¬ r.Own stp owner → n < r.qty →
      P ⟨{ r with qty := r.qty - n } :: q, 0, false, [.trade taker r.id r.price n]⟩)
    (full : n ≠ 0 → crosses s r.price limit = true → ¬ r.Own stp owner → r.qty ≤ n →
      P { walk stp s taker limit owner q (n - r.qty) with
        tape := .trade taker r.id r.price r.qty ::
          (walk stp s taker limit owner q (n - r.qty)).tape }) :
    P (walk stp s taker limit owner (r :: q) n) := by
  by_cases h : n = 0 ∨ crosses s r.price limit = false
  · rw [walk_stop h]
    exact stop h
  · obtain ⟨hn, hc⟩ : n ≠ 0 ∧ crosses s r.price limit = true := by
      rwa [not_or, Bool.not_eq_false] at h
    by_cases ho : r.Own stp owner
    · by_cases hs : stp = .rejectIncoming
      · rw [walk_block h ho hs]
        exact block hn hc ho hs
      · rw [walk_kill h ho hs]
        refine kill hn hc ho ?_
        cases stp with
        | none => exact absurd rfl ho.1
        | cancelResting => rfl
        | rejectIncoming => exact absurd rfl hs
    · rcases Nat.lt_or_ge n.toNat r.qty.toNat with hlt | hle
      · rw [walk_part h ho hlt]
        exact part hn hc ho hlt
      · rw [walk_full h ho hle]
        exact full hn hc ho hle

end front

/-- A walk that meets no crossing order. -/
theorem walk_clear {q : List Resting} {n : Qty} (h : ∀ r ∈ q, crosses s r.price limit = false) :
    walk stp s taker limit owner q n = ⟨q, n, false, []⟩ := by
  cases q with
  | nil => rfl
  | cons r q => exact walk_stop (Or.inr (h r List.mem_cons_self))

theorem walk_remaining_le : ∀ (q : List Resting) (n : Qty),
    (walk stp s taker limit owner q n).remaining ≤ n
  | [], n => by rw [UInt32.le_iff_toNat_le]; rfl
  | r :: q, n => by
      refine walk_cases r q n (fun w => w.remaining ≤ n) ?_ ?_ ?_ ?_ ?_
      · intro _; rw [UInt32.le_iff_toNat_le]
      · intro _ _ _ _; rw [UInt32.le_iff_toNat_le]
      · intro _ _ _ _; exact walk_remaining_le q n
      · intro _ _ _ _; rw [UInt32.le_iff_toNat_le]; exact Nat.zero_le _
      · intro _ _ _ hle
        have ih := walk_remaining_le q (n - r.qty)
        rw [UInt32.le_iff_toNat_le] at ih hle ⊢
        rw [UInt32.toNat_sub_of_le _ _ hle] at ih
        exact ih.trans (Nat.sub_le _ _)

/-- What is left of a queue, up to quantities, is an end of it. -/
theorem walk_keys : ∀ (q : List Resting) (n : Qty),
    ((walk stp s taker limit owner q n).queue.map Resting.key) <:+ (q.map Resting.key)
  | [], _ => List.suffix_rfl
  | r :: q, n => by
      refine walk_cases r q n (fun w => (w.queue.map Resting.key) <:+ ((r :: q).map Resting.key))
        ?_ ?_ ?_ ?_ ?_
      · intro _; exact List.suffix_rfl
      · intro _ _ _ _; exact List.suffix_rfl
      · intro _ _ _ _; exact (walk_keys q n).trans (List.suffix_cons _ _)
      · intro _ _ _ _; exact List.suffix_rfl
      · intro _ _ _ _; exact (walk_keys q (n - r.qty)).trans (List.suffix_cons _ _)

theorem walk_qty_ne : ∀ (q : List Resting) (n : Qty), (∀ r ∈ q, r.qty ≠ 0) →
    ∀ r ∈ (walk stp s taker limit owner q n).queue, r.qty ≠ 0
  | [], _, _ => by intro r hr; cases hr
  | r :: q, n, hq => by
      have htail : ∀ r' ∈ q, r'.qty ≠ 0 := fun r' h => hq r' (List.mem_cons_of_mem _ h)
      refine walk_cases r q n (fun w => ∀ r' ∈ w.queue, r'.qty ≠ 0) ?_ ?_ ?_ ?_ ?_
      · intro _; exact hq
      · intro _ _ _ _; exact hq
      · intro _ _ _ _; exact walk_qty_ne q n htail
      · intro _ _ _ hlt r' hr'
        rcases List.mem_cons.mp hr' with rfl | hr'
        · refine UInt32.sub_ne_zero ?_
          intro he
          rw [he, UInt32.lt_iff_toNat_lt] at hlt
          exact Nat.lt_irrefl _ hlt
        · exact htail r' hr'
      · intro _ _ _ _; exact walk_qty_ne q (n - r.qty) htail

/-- An unstopped walk ends for want of quantity or for want of a crossing order. -/
theorem walk_end : ∀ (q : List Resting) (n : Qty),
    (walk stp s taker limit owner q n).stopped = false →
    (walk stp s taker limit owner q n).remaining ≠ 0 →
    ∀ r ∈ (walk stp s taker limit owner q n).queue.head?, crosses s r.price limit = false
  | [], _ => by intro _ _ r hr; cases hr
  | r :: q, n => by
      refine walk_cases r q n (fun w => w.stopped = false → w.remaining ≠ 0 →
        ∀ r' ∈ w.queue.head?, crosses s r'.price limit = false) ?_ ?_ ?_ ?_ ?_
      · intro h _ hn r' hr'
        cases hr'
        exact h.resolve_left hn
      · intro _ _ _ _ h; cases h
      · intro _ _ _ _; exact walk_end q n
      · intro _ _ _ _ _ h; exact absurd rfl h
      · intro _ _ _ _; exact walk_end q (n - r.qty)

/-- A stopped walk has an own order at its front. -/
theorem walk_stopped : ∀ (q : List Resting) (n : Qty),
    (walk stp s taker limit owner q n).stopped = true → stp = .rejectIncoming ∧
      ∃ r ∈ (walk stp s taker limit owner q n).queue.head?, r.Own stp owner ∧
        crosses s r.price limit = true
  | [], _ => by intro h; cases h
  | r :: q, n => by
      refine walk_cases r q n (fun w => w.stopped = true → stp = .rejectIncoming ∧
        ∃ r' ∈ w.queue.head?, r'.Own stp owner ∧ crosses s r'.price limit = true) ?_ ?_ ?_ ?_ ?_
      · intro _ h; cases h
      · intro _ hc ho hs _; exact ⟨hs, r, rfl, ho, hc⟩
      · intro _ _ _ _; exact walk_stopped q n
      · intro _ _ _ _ h; cases h
      · intro _ _ _ _; exact walk_stopped q (n - r.qty)

theorem walk_stopped_ne_nil {q : List Resting} {n : Qty}
    (hs : (walk stp s taker limit owner q n).stopped = true) :
    (walk stp s taker limit owner q n).queue ≠ [] := by
  obtain ⟨-, r, hr, -⟩ := walk_stopped q n hs
  intro hnil
  rw [hnil] at hr
  cases hr

/-- How a walk over one crossing level ends. -/
theorem walk_level {px : Int} {q : List Resting} {n : Qty} (hcross : crosses s px limit = true)
    (hw : ∀ r ∈ (walk stp s taker limit owner q n).queue, r.price = px) :
    (walk stp s taker limit owner q n).queue = [] ∨
      (walk stp s taker limit owner q n).stopped = true ∨
      (walk stp s taker limit owner q n).remaining = 0 := by
  by_contra hc
  simp only [not_or, Bool.not_eq_true] at hc
  obtain ⟨hne, hs, hn⟩ := hc
  cases hq : (walk stp s taker limit owner q n).queue with
  | nil => exact hne hq
  | cons r q' =>
      have hr := walk_end q n hs hn r (by rw [hq]; rfl)
      rw [hw r (by rw [hq]; exact List.mem_cons_self), hcross] at hr
      cases hr

/-- A walk over two queues in a row. -/
theorem walk_append (q₂ : List Resting) : ∀ (q₁ : List Resting) (n : Qty),
    walk stp s taker limit owner (q₁ ++ q₂) n =
      let w := walk stp s taker limit owner q₁ n
      if w.queue = [] then
        { walk stp s taker limit owner q₂ w.remaining with
          tape := w.tape ++ (walk stp s taker limit owner q₂ w.remaining).tape }
      else { w with queue := w.queue ++ q₂ }
  | [], n => by simp [walk]
  | r :: q₁, n => by
      have ih := walk_append q₂ q₁
      simp only at ih ⊢
      rw [List.cons_append]
      by_cases h : n = 0 ∨ crosses s r.price limit = false
      · rw [walk_stop h, walk_stop h]
        simp
      · by_cases ho : r.Own stp owner
        · by_cases hs : stp = .rejectIncoming
          · rw [walk_block h ho hs, walk_block h ho hs]
            simp
          · rw [walk_kill h ho hs, walk_kill h ho hs, ih]
            split_ifs <;> rfl
        · rcases Nat.lt_or_ge n.toNat r.qty.toNat with hlt | hle
          · rw [walk_part h ho hlt, walk_part h ho hlt]
            simp
          · rw [walk_full h ho hle, walk_full h ho hle, ih]
            split_ifs <;> rfl

end walk

namespace Flat

/-! ### The invariant -/

/-- What every engine keeps, whichever ids it accepts. -/
structure Orderly (c : Config) (F : Flat) : Prop where
  ordered : ∀ s, Ordered (better s) Resting.price (F.side s)
  nodup : F.ids.Nodup
  qty_ne : ∀ s, ∀ r ∈ F.side s, r.qty ≠ 0
  band : ∀ s, ∀ r ∈ F.side s, c.inBand r.price = true
  uncrossed : ∀ r ∈ F.bids, ∀ r' ∈ F.asks, r.price < r'.price

structure WF (c : Config) (F : Flat) : Prop extends Orderly c F where
  id_ne : ∀ s, ∀ r ∈ F.side s, r.id ≠ 0

theorem ids_eq (F : Flat) : F.ids = F.bids.map Resting.id ++ F.asks.map Resting.id :=
  List.map_append

theorem empty_wf (c : Config) : ({} : Flat).WF c where
  ordered s := by cases s <;> exact Ordered.nil
  nodup := List.nodup_nil
  id_ne s r hr := by cases s <;> cases hr
  qty_ne s r hr := by cases s <;> cases hr
  band s r hr := by cases s <;> cases hr
  uncrossed r hr := by cases hr

variable {c : Config} {F G : Flat}

/-- The ids of orders that were there before. -/
theorem mem_ids_of_keys
    (hkeys : ∀ s, ((G.side s).map Resting.key).Sublist ((F.side s).map Resting.key))
    {k : OrderId} (hk : k ∈ G.ids) : k ∈ F.ids := by
  obtain ⟨s, r, hr, rfl⟩ := mem_ids.mp hk
  obtain ⟨r₀, hr₀, hid, -⟩ := mem_of_keys (hkeys s) hr
  exact mem_ids.mpr ⟨s, r₀, hr₀, hid⟩

theorem keys_remove (id : OrderId) (s : Side) :
    (((F.remove id).side s).map Resting.key).Sublist ((F.side s).map Resting.key) := by
  rw [side_remove]
  exact (List.filter_sublist).map _

theorem keys_side_amend (id : OrderId) (n : Qty) (s : Side) :
    (((F.amend id n).side s).map Resting.key).Sublist ((F.side s).map Resting.key) := by
  rw [side_amend, keys_amend]

theorem keys_walk (stp : Stp) (s : Side) (taker : OrderId) (limit : Int) (owner : Owner) (n : Qty)
    (t : Side) : (((F.withSide s.opp (walk stp s taker limit owner (F.side s.opp) n).queue).side
      t).map Resting.key).Sublist ((F.side t).map Resting.key) := by
  rw [side_withSide]
  split_ifs with ht
  · subst ht
    exact (walk_keys (F.side s.opp) n).sublist
  · exact List.Sublist.refl _

namespace Orderly

/-- Orders leave and quantities change: only the quantities need a check. -/
theorem of_keys (h : F.Orderly c)
    (hkeys : ∀ s, ((G.side s).map Resting.key).Sublist ((F.side s).map Resting.key))
    (hqty : ∀ s, ∀ r ∈ G.side s, r.qty ≠ 0) : G.Orderly c := by
  refine { ordered := ?_, nodup := ?_, qty_ne := hqty, band := ?_, uncrossed := ?_ }
  · intro s
    exact pairwise_of_keys (R := fun k k' => ¬ better s k'.2.1 k.2.1) (hkeys s) (h.ordered s)
  · rw [ids_eq]
    refine List.Nodup.sublist ((ids_of_keys (hkeys .bid)).append (ids_of_keys (hkeys .ask))) ?_
    have := h.nodup
    rwa [ids_eq] at this
  · intro s r hr
    obtain ⟨r₀, hr₀, -, hpx, -⟩ := mem_of_keys (hkeys s) hr
    exact hpx ▸ h.band s r₀ hr₀
  · intro r hr r' hr'
    obtain ⟨b, hb, -, hbpx, -⟩ := mem_of_keys (hkeys .bid) hr
    obtain ⟨a, ha, -, hapx, -⟩ := mem_of_keys (hkeys .ask) hr'
    rw [← hbpx, ← hapx]
    exact h.uncrossed b hb a ha

theorem remove (h : F.Orderly c) (id : OrderId) : (F.remove id).Orderly c := by
  refine h.of_keys (keys_remove id) fun s r hr => ?_
  rw [side_remove] at hr
  exact h.qty_ne s r (List.mem_of_mem_filter hr)

theorem amend (h : F.Orderly c) (id : OrderId) {n : Qty} (hn : n ≠ 0) :
    (F.amend id n).Orderly c := by
  refine h.of_keys (keys_side_amend id n) fun s r hr => ?_
  rw [side_amend] at hr
  obtain ⟨r₀, hr₀, rfl⟩ := List.mem_map.mp hr
  split_ifs with he
  · exact hn
  · exact h.qty_ne s r₀ hr₀

theorem walk (h : F.Orderly c) (s : Side) (taker : OrderId) (limit : Int) (owner : Owner) (n : Qty) :
    (F.withSide s.opp (walk c.stp s taker limit owner (F.side s.opp) n).queue).Orderly c := by
  refine h.of_keys (keys_walk c.stp s taker limit owner n) fun t r hr => ?_
  rw [side_withSide] at hr
  split_ifs at hr with ht
  · exact walk_qty_ne _ n (h.qty_ne s.opp) r hr
  · exact h.qty_ne t r hr

end Orderly

/-- The invariant, with the ids of the book. -/
theorem WF.of_ids (h : F.WF c) (hG : G.Orderly c) (hids : ∀ k ∈ G.ids, k ∈ F.ids) : G.WF c where
  toOrderly := hG
  id_ne s r hr := by
    obtain ⟨t, r₀, hr₀, he⟩ := mem_ids.mp (hids r.id (mem_ids.mpr ⟨s, r, hr, rfl⟩))
    exact he ▸ h.id_ne t r₀ hr₀

theorem WF.remove (h : F.WF c) (id : OrderId) : (F.remove id).WF c :=
  h.of_ids (h.toOrderly.remove id) fun _ => mem_ids_of_keys (keys_remove id)

theorem WF.amend (h : F.WF c) (id : OrderId) {n : Qty} (hn : n ≠ 0) : (F.amend id n).WF c :=
  h.of_ids (h.toOrderly.amend id hn) fun _ => mem_ids_of_keys (keys_side_amend id n)

theorem WF.walk (h : F.WF c) (s : Side) (taker : OrderId) (limit : Int) (owner : Owner) (n : Qty) :
    (F.withSide s.opp (walk c.stp s taker limit owner (F.side s.opp) n).queue).WF c :=
  h.of_ids (h.toOrderly.walk s taker limit owner n) fun _ =>
    mem_ids_of_keys (keys_walk c.stp s taker limit owner n)

theorem mem_rest {s t : Side} {r r' : Resting} :
    r' ∈ (F.rest s r).side t ↔ (t = s ∧ r' = r) ∨ r' ∈ F.side t := by
  rw [rest, side_withSide]
  split_ifs with ht
  · subst ht
    rw [mem_enqueue]
    simp
  · simp [ht]

theorem ids_rest {s : Side} {r : Resting} : (F.rest s r).ids.Perm (r.id :: F.ids) := by
  refine ((F.rest s r).ids_perm s).trans ?_
  refine List.Perm.trans ?_ ((F.ids_perm s).cons r.id).symm
  rw [rest, side_withSide_self, side_opp_withSide, ← List.cons_append]
  exact ((enqueue_perm r (F.side s)).map Resting.id).append_right _

theorem mem_ids_rest {s : Side} {r : Resting} {k : OrderId} :
    k ∈ (F.rest s r).ids ↔ k = r.id ∨ k ∈ F.ids :=
  ids_rest.mem_iff.trans List.mem_cons

theorem nodup_ids_rest {s : Side} {r : Resting} :
    (F.rest s r).ids.Nodup ↔ r.id ∉ F.ids ∧ F.ids.Nodup :=
  ids_rest.nodup_iff.trans List.nodup_cons

/-- An order may rest when it crosses nothing on the other side. -/
theorem Orderly.rest (h : F.Orderly c) {s : Side} {r : Resting} (hqty : r.qty ≠ 0)
    (hband : c.inBand r.price = true) (hnew : r.id ∉ F.ids)
    (hcross : ∀ r' ∈ F.side s.opp, crosses s r'.price r.price = false) :
    (F.rest s r).Orderly c where
  ordered t := by
    rw [Flat.rest, side_withSide]
    split_ifs with ht
    · subst ht
      exact (h.ordered t).enqueue
    · exact h.ordered t
  nodup := nodup_ids_rest.mpr ⟨hnew, h.nodup⟩
  qty_ne t r' hr' := by
    rcases mem_rest.mp hr' with ⟨-, rfl⟩ | hr'
    · exact hqty
    · exact h.qty_ne t r' hr'
  band t r' hr' := by
    rcases mem_rest.mp hr' with ⟨-, rfl⟩ | hr'
    · exact hband
    · exact h.band t r' hr'
  uncrossed b hb a ha := by
    have hb' := mem_rest (t := .bid).mp hb
    have ha' := mem_rest (t := .ask).mp ha
    rcases hb' with ⟨hs, rfl⟩ | hb' <;> rcases ha' with ⟨hs', rfl⟩ | ha'
    · subst hs; cases hs'
    · subst hs
      simpa [crosses] using hcross a ha'
    · subst hs'
      simpa [crosses] using hcross b hb'
    · exact h.uncrossed b hb' a ha'

/-- In an ordered queue no order crosses once the one at the front does not. -/
theorem not_crosses_of_head {s : Side} {limit : Int} {r : Resting} {q : List Resting}
    (hord : Ordered (better s.opp) Resting.price (r :: q))
    (hc : crosses s r.price limit = false) : ∀ r' ∈ r :: q, crosses s r'.price limit = false := by
  intro r' hr'
  by_contra hcr
  rw [Bool.not_eq_false] at hcr
  rcases List.mem_cons.mp hr' with rfl | hr'
  · rw [hc] at hcr
    cases hcr
  · rw [crosses_of_not_better hcr (hord.head_le hr')] at hc
    cases hc

/-- No order of the other side crosses once the one at its front does not. -/
theorem Orderly.not_crosses (h : F.Orderly c) {s : Side} {limit : Int}
    (hhead : ∀ r ∈ (F.side s.opp).head?, crosses s r.price limit = false) :
    ∀ r ∈ F.side s.opp, crosses s r.price limit = false := by
  intro r hr
  have hord := h.ordered s.opp
  cases hq : F.side s.opp with
  | nil =>
      rw [hq] at hr
      cases hr
  | cons r₀ q =>
      rw [hq] at hord hr
      exact not_crosses_of_head hord (hhead r₀ (by rw [hq]; rfl)) r hr

theorem mem_ids_of_walk {s : Side} {taker : OrderId} {limit : Int} {owner : Owner} {n : Qty}
    {id : OrderId} {stp : Stp}
    (h : id ∈ (F.withSide s.opp (Lob.walk stp s taker limit owner (F.side s.opp) n).queue).ids) :
    id ∈ F.ids := by
  obtain ⟨t, r, hr, rfl⟩ := mem_ids.mp h
  rw [side_withSide] at hr
  split_ifs at hr with ht
  · have hk := (walk_keys (F.side s.opp) n).subset (List.mem_map_of_mem hr)
    obtain ⟨r₀, hr₀, he⟩ := List.mem_map.mp hk
    exact mem_ids.mpr ⟨s.opp, r₀, hr₀, congrArg Prod.fst he⟩
  · exact mem_ids.mpr ⟨t, r, hr, rfl⟩

theorem Orderly.execute (h : F.Orderly c) {s : Side} {id : OrderId} {px : Int} {qty : Qty}
    {tif : Tif} {owner : Owner} (hband : c.inBand px = true) (hnew : id ∉ F.ids) :
    (F.execute c s id px qty tif owner).1.Orderly c := by
  unfold Flat.execute
  split_ifs with hfok
  · exact h
  · have hw := h.walk s id px owner qty
    simp only
    split_ifs with hstop hrest
    · exact hw
    · refine hw.rest hrest.1 hband (fun hm => hnew (mem_ids_of_walk hm)) ?_
      refine hw.not_crosses ?_
      rw [side_withSide_self]
      exact walk_end _ _ (by simpa using hstop) hrest.1
    · exact hw

theorem mem_ids_execute {s : Side} {id : OrderId} {px : Int} {qty : Qty} {tif : Tif}
    {owner : Owner} {k : OrderId} (hk : k ∈ (F.execute c s id px qty tif owner).1.ids) :
    k = id ∨ k ∈ F.ids := by
  unfold Flat.execute at hk
  simp only at hk
  split_ifs at hk
  · exact Or.inr hk
  · exact Or.inr (mem_ids_of_walk hk)
  · exact (mem_ids_rest.mp hk).imp_right mem_ids_of_walk
  · exact Or.inr (mem_ids_of_walk hk)

theorem WF.execute (h : F.WF c) {s : Side} {id : OrderId} {px : Int} {qty : Qty} {tif : Tif}
    {owner : Owner} (hid : id ≠ 0) (hband : c.inBand px = true) (hnew : id ∉ F.ids) :
    (F.execute c s id px qty tif owner).1.WF c where
  toOrderly := h.toOrderly.execute hband hnew
  id_ne t r hr := by
    rcases mem_ids_execute (mem_ids.mpr ⟨t, r, hr, rfl⟩) with he | hk
    · exact he ▸ hid
    · obtain ⟨t', r', hr', he⟩ := mem_ids.mp hk
      exact he ▸ h.id_ne t' r' hr'

theorem find?_eq_some {id : OrderId} {s : Side} {r : Resting} (h : F.find? id = some (s, r)) :
    r ∈ F.side s ∧ r.id = id := by
  unfold find? at h
  split at h
  · next r' hr' =>
      cases h
      exact ⟨List.mem_of_find?_eq_some hr', by simpa using List.find?_some hr'⟩
  · obtain ⟨r', hr', he⟩ := Option.map_eq_some_iff.mp h
    cases he
    exact ⟨List.mem_of_find?_eq_some hr', by simpa using List.find?_some hr'⟩

theorem find?_eq_none {id : OrderId} : F.find? id = none ↔ id ∉ F.ids := by
  rw [mem_ids]
  unfold find?
  split
  · next r hr =>
      have h1 := List.mem_of_find?_eq_some hr
      have h2 : r.id = id := by simpa using List.find?_some hr
      simpa using ⟨.bid, r, h1, h2⟩
  · next hnone =>
      rw [Option.map_eq_none_iff, List.find?_eq_none]
      rw [List.find?_eq_none] at hnone
      constructor
      · rintro hasks ⟨s, r, hr, he⟩
        cases s with
        | bid => exact absurd he (by simpa using hnone r hr)
        | ask => exact absurd he (by simpa using hasks r hr)
      · intro hno r hr
        simpa using fun he => hno ⟨.ask, r, hr, he⟩

theorem not_mem_ids_remove {id : OrderId} : id ∉ (F.remove id).ids := by
  rw [mem_ids]
  rintro ⟨s, r, hr, he⟩
  rw [side_remove] at hr
  simpa [he] using (List.mem_filter.mp hr).2

/-- **Every call preserves the invariant.** -/
theorem WF.call (h : F.WF c) (op : Op) : (F.call c op).1.WF c := by
  cases op with
  | submitLimit id s px qty tif owner =>
      show (F.submitLimit c id s px qty tif owner).1.WF c
      unfold Flat.submitLimit
      split_ifs with hbad
      · exact h
      · simp only [not_or, Bool.not_eq_false] at hbad
        exact h.execute hbad.1 hbad.2.2.1 hbad.2.2.2
  | submitMarket id s qty owner =>
      show (F.submitMarket c id s qty owner).1.WF c
      unfold Flat.submitMarket
      split_ifs with hbad
      · exact h
      · split
        · exact h
        · exact h.walk s id _ owner qty
  | cancel id =>
      show (F.cancel id).1.WF c
      unfold Flat.cancel
      split_ifs
      · exact h.remove id
      · exact h
  | modify id newPx newQty =>
      show (F.modify c id newPx newQty).1.WF c
      unfold Flat.modify
      split
      · exact h
      · next s r hf =>
          split_ifs with hbad hsame
          · exact h
          · exact h.amend id fun h0 => hbad (Or.inl h0)
          · rw [not_or, Bool.not_eq_false] at hbad
            obtain ⟨hr, rfl⟩ := find?_eq_some hf
            exact (h.remove r.id).execute (h.id_ne s r hr) hbad.2 not_mem_ids_remove

/-! ### Identity of resting orders -/

section identity

variable {s t : Side} {r r' : Resting}

theorem mem_ids_of_mem (hr : r ∈ F.side s) : r.id ∈ F.ids := mem_ids.mpr ⟨s, r, hr, rfl⟩

theorem side_nodup (h : F.ids.Nodup) (s : Side) : ((F.side s).map Resting.id).Nodup :=
  (List.nodup_append.mp ((F.ids_perm s).nodup_iff.mp h)).1

/-- An id names one order. -/
theorem eq_of_id (h : F.ids.Nodup) (hr : r ∈ F.side s) (hr' : r' ∈ F.side t)
    (he : r.id = r'.id) : s = t ∧ r = r' := by
  rcases Side.eq_or_eq_opp s t with rfl | rfl
  · exact ⟨rfl, List.inj_on_of_nodup_map (side_nodup h _) hr hr' he⟩
  · have hdisj := (List.nodup_append.mp ((F.ids_perm s).nodup_iff.mp h)).2.2
    exact absurd he
      (hdisj _ (List.mem_map_of_mem hr) _ (List.mem_map_of_mem hr'))

theorem ids_amend (id : OrderId) (n : Qty) : (F.amend id n).ids = F.ids := by
  have : (fun r : Resting => (if r.id = id then { r with qty := n } else r).id) = Resting.id := by
    funext r
    split_ifs <;> rfl
  simp [ids_eq, amend, Function.comp_def, this]

theorem ids_remove (id : OrderId) : (F.remove id).ids = F.ids.filter (fun k => decide (k ≠ id)) := by
  simp [ids_eq, remove, List.filter_map, Function.comp_def]

theorem mem_ids_remove {id k : OrderId} : k ∈ (F.remove id).ids ↔ k ∈ F.ids ∧ k ≠ id := by
  rw [ids_remove, List.mem_filter, decide_eq_true_eq]

theorem nodup_ids_remove (h : F.ids.Nodup) (id : OrderId) : (F.remove id).ids.Nodup := by
  rw [ids_remove]
  exact h.filter _

theorem length_ids_remove (h : F.ids.Nodup) {id : OrderId} (hid : id ∈ F.ids) :
    (F.remove id).ids.length + 1 = F.ids.length := by
  have heq : (F.remove id).ids = F.ids.erase id := by
    rw [ids_remove, h.erase_eq_filter]
    refine List.filter_congr fun k _ => ?_
    simp [bne, beq_eq_decide]
  rw [heq, List.length_erase_add_one hid]

/-! ### Lookups -/

variable {id k : OrderId}

theorem find?_iff (h : F.ids.Nodup) : F.find? k = some (s, r) ↔ r ∈ F.side s ∧ r.id = k := by
  refine ⟨find?_eq_some, ?_⟩
  rintro ⟨hr, rfl⟩
  cases hf : F.find? r.id with
  | none => exact absurd (mem_ids_of_mem hr) (find?_eq_none.mp hf)
  | some x =>
      obtain ⟨hr', hid⟩ := find?_eq_some hf
      obtain ⟨hs, hrr⟩ := eq_of_id h hr' hr hid
      rw [← hs, ← hrr]

theorem find?_remove (h : F.ids.Nodup) :
    (F.remove id).find? k = if k = id then none else F.find? k := by
  have hnd := nodup_ids_remove h id
  split_ifs with hk
  · rw [hk]
    exact find?_eq_none.mpr not_mem_ids_remove
  · refine Option.ext fun x => ?_
    rw [find?_iff hnd, find?_iff h, side_remove, List.mem_filter]
    constructor
    · rintro ⟨⟨hr, -⟩, hid⟩
      exact ⟨hr, hid⟩
    · rintro ⟨hr, rfl⟩
      exact ⟨⟨hr, decide_eq_true hk⟩, rfl⟩

theorem find?_amend (h : F.ids.Nodup) (n : Qty) : (F.amend id n).find? k =
    (F.find? k).map fun x => (x.1, if x.2.id = id then { x.2 with qty := n } else x.2) := by
  have hnd : (F.amend id n).ids.Nodup := by
    rw [ids_amend]
    exact h
  have hid : ∀ r : Resting, (if r.id = id then { r with qty := n } else r).id = r.id := by
    intro r
    split_ifs <;> rfl
  refine Option.ext fun ⟨t, r'⟩ => ?_
  rw [find?_iff hnd, side_amend, List.mem_map, Option.map_eq_some_iff]
  constructor
  · rintro ⟨⟨r, hr, rfl⟩, rfl⟩
    exact ⟨(t, r), (find?_iff h).mpr ⟨hr, (hid r).symm⟩, rfl⟩
  · rintro ⟨⟨u, r⟩, hf, hx⟩
    obtain ⟨rfl, rfl⟩ := Prod.mk.inj hx
    obtain ⟨hr, rfl⟩ := find?_eq_some hf
    exact ⟨⟨r, hr, rfl⟩, hid r⟩

theorem find?_rest (h : (F.rest s r).ids.Nodup) :
    (F.rest s r).find? k = if k = r.id then some (s, r) else F.find? k := by
  have hnd : F.ids.Nodup := (nodup_ids_rest.mp h).2
  split_ifs with hk
  · exact (find?_iff h).mpr ⟨mem_rest.mpr (Or.inl ⟨rfl, rfl⟩), hk.symm⟩
  · refine Option.ext fun x => ?_
    rw [find?_iff h, find?_iff hnd, mem_rest]
    constructor
    · rintro ⟨⟨-, hx⟩ | hx, rfl⟩
      · exact absurd (congrArg Resting.id hx) hk
      · exact ⟨hx, rfl⟩
    · rintro ⟨hx, rfl⟩
      exact ⟨Or.inr hx, rfl⟩

/-- Removing an order that is not there. -/
theorem remove_of_not_mem (h : id ∉ F.ids) : F.remove id = F := by
  refine ext_side fun t => ?_
  rw [side_remove, List.filter_eq_self]
  intro r hr
  exact decide_eq_true fun he => h (he ▸ mem_ids_of_mem hr)

end identity

end Flat

end Lob
