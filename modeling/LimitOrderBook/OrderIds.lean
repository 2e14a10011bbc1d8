import LimitOrderBook.StdParts
import LimitOrderBook.Tape

/-! # Client ids and engine ids

`OrderIds` of `net/gateway.hpp`.  Every connection names its orders in an id space of its own;
the engine sees ids assigned from one counter.  `by_client_` leads from a client's name to the
engine id and `live_` from the engine id to the client, with the side and the open quantity of
the order.

As the listener of the engine it hears of every fill and every kill (`OrderIds.hear`).
`OrderIds.Shows` says that it shows the book: the two maps are inverse to each other and hold
exactly the resting orders. -/

namespace Lob

/-- The order of `std::pair<Owner, OrderId>`. -/
def keyLt (a b : Owner × OrderId) : Prop := a.1 < b.1 ∨ (a.1 = b.1 ∧ a.2 < b.2)

instance : DecidableRel keyLt := fun _ _ => inferInstanceAs (Decidable (_ ∨ _))

instance : IsStrictTotalOrder (Owner × OrderId) keyLt where
  irrefl a h := by
    simp only [keyLt, UInt32.lt_iff_toNat_lt, UInt64.lt_iff_toNat_lt] at h
    omega
  trans a b c h₁ h₂ := by
    simp only [keyLt, UInt32.lt_iff_toNat_lt, UInt64.lt_iff_toNat_lt, ← UInt32.toNat_inj] at *
    omega
  trichotomous a b h₁ h₂ := by
    simp only [keyLt, UInt32.lt_iff_toNat_lt, UInt64.lt_iff_toNat_lt, ← UInt32.toNat_inj] at h₁ h₂
    exact Prod.ext (UInt32.toNat_inj.mp (by omega)) (UInt64.toNat_inj.mp (by omega))

/-- What is kept of a resting order. -/
structure Live where
  owner : Owner
  client : OrderId
  openQty : Qty
  side : Side
deriving DecidableEq, Repr

structure OrderIds where
  byClient : OrdMap keyLt OrderId := OrdMap.empty
  live : HashIndex Live := OrdMap.empty
  last : OrderId := 0

namespace OrderIds

/-- The engine id of one of the owner's resting orders, or `0`. -/
def find (ids : OrderIds) (owner : Owner) (client : OrderId) : OrderId :=
  (ids.byClient.find? (owner, client)).getD 0

/-- The engine id of a new order, or `0`. -/
def assign (ids : OrderIds) (owner : Owner) (client : OrderId) : OrderId × OrderIds :=
  if client = 0 ∨ ids.find owner client ≠ 0 then (0, ids)
  else (ids.last + 1, { ids with last := ids.last + 1 })

/-- A resting order is recorded, or its open quantity refreshed. -/
def rest (ids : OrderIds) (id : OrderId) (owner : Owner) (client : OrderId) (openQty : Qty)
    (side : Side) : OrderIds :=
  { ids with
    byClient := ids.byClient.alter (owner, client) fun _ => id
    live := ids.live.alter id fun _ => ⟨owner, client, openQty, side⟩ }

def side (ids : OrderIds) (id : OrderId) : Option Side := (ids.live.find? id).map Live.side

/-- The order left the book; its client id, or `0`, is returned. -/
def forget (ids : OrderIds) (id : OrderId) : OrderIds × OrderId :=
  match ids.live.find? id with
  | none => (ids, 0)
  | some l =>
      ({ ids with byClient := ids.byClient.erase (l.owner, l.client), live := ids.live.erase id },
        l.client)

/-- A resting order traded. -/
def fill (ids : OrderIds) (id : OrderId) (qty : Qty) : OrderIds :=
  match ids.live.find? id with
  | none => ids
  | some l =>
      let ids :=
        { ids with live := ids.live.alter id fun _ => { l with openQty := l.openQty - qty } }
      if l.openQty - qty = 0 then (ids.forget id).1 else ids

/-- The engine ids of the owner's resting orders, by client id. -/
def ownedBy (ids : OrderIds) (owner : Owner) : List OrderId :=
  let from_ := ids.byClient.entries.dropWhile fun e => decide (keyLt e.1 (owner, 0))
  (from_.takeWhile fun e => decide (e.1.1 = owner)).map Prod.snd

def size (ids : OrderIds) : ℕ := ids.live.size

/-- What `on_trade` and `on_cancel` do to the ids. -/
def hear (ids : OrderIds) : Event → OrderIds
  | .trade _ maker _ qty => ids.fill maker qty
  | .cancel id _ => (ids.forget id).1

/-! ### Lookups -/

variable {ids : OrderIds} {id k : OrderId} {owner : Owner} {client : OrderId} {l : Live}

theorem live_rest (openQty : Qty) (s : Side) :
    (ids.rest id owner client openQty s).live.find? k =
      if k = id then some ⟨owner, client, openQty, s⟩ else ids.live.find? k :=
  OrdMap.find?_alter _ _ _ _

theorem byClient_rest (openQty : Qty) (s : Side) (key : Owner × OrderId) :
    (ids.rest id owner client openQty s).byClient.find? key =
      if key = (owner, client) then some id else ids.byClient.find? key :=
  OrdMap.find?_alter _ _ _ _

theorem live_forget : (ids.forget id).1.live.find? k = if k = id then none else ids.live.find? k := by
  unfold forget
  cases h : ids.live.find? id with
  | none =>
      split_ifs with hk
      · rw [hk, h]
      · rfl
  | some l => exact OrdMap.find?_erase _ _ _

theorem byClient_forget (h : ids.live.find? id = some l) (key : Owner × OrderId) :
    (ids.forget id).1.byClient.find? key =
      if key = (l.owner, l.client) then none else ids.byClient.find? key := by
  unfold forget
  rw [h]
  exact OrdMap.find?_erase _ _ _

theorem find_ne_zero (h : ids.find owner client ≠ 0) :
    ids.byClient.find? (owner, client) = some (ids.find owner client) := by
  unfold find at h ⊢
  cases hf : ids.byClient.find? (owner, client) with
  | none => simp [hf] at h
  | some id => rfl

theorem ownedBy_eq : ids.ownedBy owner =
    (ids.byClient.entries.filter fun e => decide (e.1.1 = owner)).map Prod.snd := by
  have hzero : ∀ c : OrderId, ¬ c < 0 := fun c => UInt64.not_lt_zero
  unfold ownedBy
  refine congrArg (List.map Prod.snd) (OrdMap.takeWhile_dropWhile ?_ ?_ ?_ ids.byClient.sorted)
  · intro a b hab ha
    simp only [keyLt, decide_eq_false_iff_not, hzero, and_false, or_false,
      UInt32.lt_iff_toNat_lt, ← UInt32.toNat_inj] at hab ha ⊢
    omega
  · intro a ha
    simp only [keyLt, decide_eq_true_eq, decide_eq_false_iff_not, hzero, and_false, or_false,
      UInt32.lt_iff_toNat_lt, ← UInt32.toNat_inj] at ha ⊢
    omega
  · intro a b hab ha hb
    simp only [keyLt, decide_eq_true_eq, decide_eq_false_iff_not, hzero, and_false, or_false,
      UInt32.lt_iff_toNat_lt, ← UInt32.toNat_inj] at hab ha hb ⊢
    omega

theorem mem_ownedBy :
    id ∈ ids.ownedBy owner ↔ ∃ client, ids.byClient.find? (owner, client) = some id := by
  rw [ownedBy_eq]
  simp only [List.mem_map, List.mem_filter, decide_eq_true_eq, OrdMap.find?_eq_some]
  constructor
  · rintro ⟨⟨⟨o, c⟩, v⟩, ⟨he, rfl⟩, rfl⟩
    exact ⟨c, he⟩
  · rintro ⟨c, he⟩
    exact ⟨_, ⟨he, rfl⟩, rfl⟩

/-! ### The two maps -/

/-- The two maps are inverse to each other. -/
def Inverse (ids : OrderIds) : Prop :=
  ∀ owner client id, ids.byClient.find? (owner, client) = some id ↔
    ∃ l, ids.live.find? id = some l ∧ l.owner = owner ∧ l.client = client

namespace Inverse

theorem unique (h : ids.Inverse) {id' : OrderId} {l' : Live} (hl : ids.live.find? id = some l)
    (hl' : ids.live.find? id' = some l') (howner : l'.owner = l.owner)
    (hclient : l'.client = l.client) : id' = id := by
  have h1 := (h l.owner l.client id).mpr ⟨l, hl, rfl, rfl⟩
  have h2 := (h l.owner l.client id').mpr ⟨l', hl', howner, hclient⟩
  exact Option.some.inj (h2.symm.trans h1)

/-- An order under a name of its own, or once more under its name. -/
theorem rest (h : ids.Inverse)
    (hkey : ∀ id', ids.byClient.find? (owner, client) = some id' → id' = id)
    (hid : ∀ l, ids.live.find? id = some l → l.owner = owner ∧ l.client = client) (openQty : Qty)
    (s : Side) : (ids.rest id owner client openQty s).Inverse := by
  intro o c k
  rw [byClient_rest, live_rest]
  by_cases hk : k = id
  · subst hk
    simp only [if_true, Option.some.injEq, exists_eq_left', Prod.mk.injEq]
    constructor
    · intro he
      split_ifs at he with hoc
      · exact ⟨hoc.1.symm, hoc.2.symm⟩
      · obtain ⟨l, hl, rfl, rfl⟩ := (h o c k).mp he
        exact ⟨(hid l hl).1.symm, (hid l hl).2.symm⟩
    · rintro ⟨rfl, rfl⟩
      rw [if_pos ⟨rfl, rfl⟩]
  · rw [if_neg hk, ← h o c k]
    split_ifs with hoc
    · cases hoc
      constructor
      · intro he
        exact absurd (Option.some.inj he).symm hk
      · intro he
        exact absurd (hkey k he) hk
    · exact Iff.rfl

theorem forget (h : ids.Inverse) (id : OrderId) : (ids.forget id).1.Inverse := by
  cases hl : ids.live.find? id with
  | none =>
      simp only [OrderIds.forget, hl]
      exact h
  | some l =>
      intro o c k
      rw [byClient_forget hl, live_forget]
      by_cases hk : k = id
      · subst hk
        rw [if_pos rfl]
        simp only [reduceCtorEq, false_and, exists_false, iff_false]
        split_ifs with hoc
        · simp
        · intro he
          obtain ⟨l', hl', rfl, rfl⟩ := (h o c k).mp he
          obtain rfl := Option.some.inj (hl.symm.trans hl')
          exact hoc rfl
      · rw [if_neg hk]
        split_ifs with hoc
        · cases hoc
          simp only [false_iff, not_exists, not_and]
          intro l' hl' ho hc
          exact hk (h.unique hl hl' ho hc)
        · exact h o c k

theorem fill (h : ids.Inverse) (id : OrderId) (qty : Qty) : (ids.fill id qty).Inverse := by
  unfold OrderIds.fill
  cases hl : ids.live.find? id with
  | none => exact h
  | some l =>
      have hset : ({ ids with
          live := ids.live.alter id fun _ => { l with openQty := l.openQty - qty } } : OrderIds).Inverse := by
        intro o c k
        rw [h o c k]
        simp only [OrdMap.find?_alter]
        split_ifs with hk
        · subst hk
          simp [hl]
        · exact Iff.rfl
      simp only
      split_ifs
      · exact hset.forget id
      · exact hset

theorem hear (h : ids.Inverse) (e : Event) : (ids.hear e).Inverse := by
  cases e with
  | trade _ maker _ qty => exact h.fill maker qty
  | cancel id _ => exact h.forget id

/-- No order is listed twice. -/
theorem ownedBy_nodup (h : ids.Inverse) (owner : Owner) : (ids.ownedBy owner).Nodup := by
  have hnd : ids.byClient.entries.Nodup :=
    ids.byClient.sorted.imp (by rintro a b hab rfl; exact irrefl _ hab)
  rw [ownedBy_eq]
  refine List.Nodup.map_on ?_ (hnd.filter _)
  rintro ⟨⟨o, k⟩, v⟩ he ⟨⟨o', k'⟩, v'⟩ he' rfl
  have hfind := OrdMap.find?_eq_some.mpr (List.mem_of_mem_filter he)
  have hfind' := OrdMap.find?_eq_some.mpr (List.mem_of_mem_filter he')
  obtain ⟨l, hl, rfl, rfl⟩ := (h o k v).mp hfind
  obtain ⟨l', hl', rfl, rfl⟩ := (h o' k' v).mp hfind'
  obtain rfl := Option.some.inj (hl.symm.trans hl')
  rfl

end Inverse

/-! ### The ids against the book -/

/-- What an event leaves of the record under `k`. -/
def editLive (k : OrderId) : Event → Live → Option Live
  | .trade _ maker _ qty, l =>
      if k = maker then
        if l.openQty - qty = 0 then none else some { l with openQty := l.openQty - qty }
      else some l
  | .cancel id _, l => if k = id then none else some l

theorem live_hear (e : Event) :
    (ids.hear e).live.find? k = (ids.live.find? k).bind (editLive k e) := by
  cases e with
  | cancel id owner =>
      rw [hear, live_forget]
      cases ids.live.find? k <;> simp [editLive]
  | trade taker maker px qty =>
      simp only [hear, fill]
      cases hl : ids.live.find? maker with
      | none =>
          by_cases hk : k = maker
          · simp [hk, hl]
          · cases ids.live.find? k <;> simp [editLive, hk]
      | some l =>
          simp only
          split_ifs with hzero
          · rw [live_forget, OrdMap.find?_alter]
            by_cases hk : k = maker
            · simp [hk, hl, editLive, hzero]
            · cases ids.live.find? k <;> simp [editLive, hk]
          · rw [OrdMap.find?_alter]
            by_cases hk : k = maker
            · simp [hk, hl, editLive, hzero]
            · cases ids.live.find? k <;> simp [editLive, hk]

theorem last_hear (e : Event) : (ids.hear e).last = ids.last := by
  have hforget : ∀ (ids : OrderIds) (id : OrderId), (ids.forget id).1.last = ids.last := by
    intro ids id
    unfold forget
    cases ids.live.find? id <;> rfl
  cases e with
  | cancel id owner => exact hforget ids id
  | trade taker maker px qty =>
      simp only [hear, fill]
      cases ids.live.find? maker with
      | none => rfl
      | some l =>
          simp only
          split_ifs
          · exact hforget _ maker
          · rfl

/-- A record keeps its client. -/
theorem key_of_editLive {e : Event} {l l' : Live} (h : editLive k e l = some l') :
    l'.owner = l.owner ∧ l'.client = l.client := by
  cases e <;> simp only [editLive] at h <;> split_ifs at h <;> cases h <;> exact ⟨rfl, rfl⟩

/-- The ids show the book: the maps are inverse, and their records are the resting orders. -/
structure Shows (ids : OrderIds) (F : Flat) : Prop where
  inverse : ids.Inverse
  record : ∀ id, (ids.live.find? id).map (fun l => (l.side, l.owner, l.openQty)) =
    (F.find? id).map fun x => (x.1, x.2.owner, x.2.qty)

theorem empty_shows : OrderIds.Shows {} {} := by
  refine ⟨fun owner client id => ?_, fun id => rfl⟩
  simp

namespace Shows

variable {F : Flat} {s : Side} {r : Resting}

theorem find?_of_live (h : ids.Shows F) (hl : ids.live.find? id = some l) :
    ∃ r, F.find? id = some (l.side, r) ∧ r.owner = l.owner ∧ r.qty = l.openQty := by
  have hrec := h.record id
  rw [hl, Option.map_some] at hrec
  obtain ⟨⟨s, r⟩, hf, he⟩ := Option.map_eq_some_iff.mp hrec.symm
  simp only [Prod.mk.injEq] at he
  obtain ⟨rfl, ho, hq⟩ := he
  exact ⟨r, hf, ho, hq⟩

theorem live_of_find? (h : ids.Shows F) (hf : F.find? id = some (s, r)) :
    ∃ client, ids.live.find? id = some ⟨r.owner, client, r.qty, s⟩ := by
  have hrec := h.record id
  rw [hf, Option.map_some] at hrec
  obtain ⟨l, hl, he⟩ := Option.map_eq_some_iff.mp hrec
  simp only [Prod.mk.injEq] at he
  obtain ⟨rfl, ho, hq⟩ := he
  refine ⟨l.client, ?_⟩
  rw [← ho, ← hq]
  exact hl

theorem live_eq_none_iff (h : ids.Shows F) : ids.live.find? id = none ↔ id ∉ F.ids := by
  rw [← Flat.find?_eq_none, ← Option.map_eq_none_iff, h.record, Option.map_eq_none_iff]

theorem hear (h : ids.Shows F) (hnd : F.ids.Nodup) (e : Event) :
    (ids.hear e).Shows (F.replay [e]) := by
  refine ⟨h.inverse.hear e, fun k => ?_⟩
  rw [live_hear, Flat.find?_replay hnd]
  cases hf : F.find? k with
  | none =>
      rw [h.live_eq_none_iff.mpr (Flat.find?_eq_none.mp hf)]
      rfl
  | some x =>
      obtain ⟨s, r⟩ := x
      obtain ⟨client, hl⟩ := h.live_of_find? hf
      obtain ⟨-, rfl⟩ := Flat.find?_eq_some hf
      rw [hl]
      cases e with
      | trade taker maker px qty =>
          simp only [Option.bind_some, editLive, Event.edit]
          split_ifs <;> rfl
      | cancel id owner =>
          simp only [Option.bind_some, editLive, Event.edit]
          split_ifs <;> rfl

theorem tape (hnd : F.ids.Nodup) (h : ids.Shows F) (tape : List Event) :
    (tape.foldl OrderIds.hear ids).Shows (F.replay tape) := by
  induction tape generalizing ids F with
  | nil => exact h
  | cons e tape ih => exact ih (Flat.replay_nodup hnd [e]) (h.hear hnd e)

theorem forget (h : ids.Shows F) (hnd : F.ids.Nodup) (id : OrderId) :
    (ids.forget id).1.Shows (F.remove id) := by
  refine ⟨h.inverse.forget id, fun k => ?_⟩
  rw [live_forget, Flat.find?_remove hnd]
  split_ifs
  · rfl
  · exact h.record k

/-- An order takes a new place in the book, under the name it has or a free one. -/
theorem rest (h : ids.Shows F) (hnd : F.ids.Nodup)
    (hkey : ∀ id', ids.byClient.find? (owner, client) = some id' → id' = id)
    (hid : ∀ l, ids.live.find? id = some l → l.owner = owner ∧ l.client = client) (px : Int)
    (qty : Qty) (s : Side) :
    (ids.rest id owner client qty s).Shows ((F.remove id).rest s ⟨id, px, qty, owner⟩) := by
  have hrest : ((F.remove id).rest s ⟨id, px, qty, owner⟩).ids.Nodup :=
    Flat.nodup_ids_rest.mpr ⟨Flat.not_mem_ids_remove, Flat.nodup_ids_remove hnd id⟩
  refine ⟨h.inverse.rest hkey hid qty s, fun k => ?_⟩
  rw [live_rest, Flat.find?_rest hrest, Flat.find?_remove hnd]
  by_cases hk : k = id
  · simp [hk]
  · simp only [hk, if_false]
    exact h.record k

theorem amend (h : ids.Shows F) (hnd : F.ids.Nodup) (hl : ids.live.find? id = some l) (qty : Qty) :
    (ids.rest id l.owner l.client qty l.side).Shows (F.amend id qty) := by
  obtain ⟨r, hf, ho, -⟩ := h.find?_of_live hl
  have hkey := fun id' he => (h.inverse l.owner l.client id').mp he
  refine ⟨h.inverse.rest ?_ ?_ qty l.side, fun k => ?_⟩
  · intro id' he
    obtain ⟨l', hl', ho', hc'⟩ := hkey id' he
    exact h.inverse.unique hl hl' ho' hc'
  · intro l' hl'
    obtain rfl := Option.some.inj (hl.symm.trans hl')
    exact ⟨rfl, rfl⟩
  · rw [live_rest, Flat.find?_amend hnd]
    by_cases hk : k = id
    · have hid := (Flat.find?_eq_some hf).2
      simp [hk, hf, hid, ho]
    · rw [if_neg hk, h.record]
      cases hk' : F.find? k with
      | none => rfl
      | some x =>
          have hid : x.2.id ≠ id := by
            rw [(Flat.find?_eq_some hk').2]
            exact hk
          simp [hid]

end Shows

end OrderIds

end Lob
