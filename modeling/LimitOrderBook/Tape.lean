import LimitOrderBook.FlatInv

/-! # Reading a tape

An event of the tape takes quantity from one resting order, or takes the order off the book
(`Event.edit`).  Replaying the tape of a walk on the queue it started from gives the queue it
left (`walk_replay`), and at every event the order concerned stands at the front of the queue
replayed so far (`walk_event`): the replay is the book at that instant.

`Flat.Outcome` says, call by call, everything the public interface can do to a book; the
results on whole runs go through its cases (`Flat.call_outcome`). -/

namespace Lob

open KeyedQueue

namespace Event

/-- The resting order an event is about. -/
def maker : Event → OrderId
  | trade _ maker _ _ => maker
  | cancel id _ => id

/-- What an event does to a resting order; `none` when the order leaves. -/
def edit : Event → Resting → Option Resting
  | trade _ maker _ k, r =>
      if r.id = maker then
        if r.qty - k = 0 then none else some { r with qty := r.qty - k }
      else some r
  | cancel id _, r => if r.id = id then none else some r

theorem edit_of_ne {e : Event} {r : Resting} (h : r.id ≠ e.maker) : e.edit r = some r := by
  cases e <;> exact if_neg h

theorem key_of_edit {e : Event} {r r' : Resting} (h : e.edit r = some r') : r'.key = r.key := by
  cases e <;> simp only [edit] at h <;> split_ifs at h <;> cases h <;> rfl

/-- The quantity of a trade. -/
def traded : Event → ℕ
  | trade _ _ _ k => k.toNat
  | cancel .. => 0

end Event

/-- The total quantity of the trades of a tape. -/
def traded (tape : List Event) : ℕ := (tape.map Event.traded).sum

@[simp] theorem traded_nil : traded [] = 0 := rfl

@[simp] theorem traded_cons (e : Event) (tape : List Event) :
    traded (e :: tape) = e.traded + traded tape := by simp [traded]

/-- A queue after the events of a tape. -/
def replay (tape : List Event) (q : List Resting) : List Resting :=
  tape.foldl (fun q e => q.filterMap e.edit) q

@[simp] theorem replay_nil (q : List Resting) : replay [] q = q := rfl

@[simp] theorem replay_cons (e : Event) (tape : List Event) (q : List Resting) :
    replay (e :: tape) q = replay tape (q.filterMap e.edit) := rfl

theorem replay_append (t₁ t₂ : List Event) (q : List Resting) :
    replay (t₁ ++ t₂) q = replay t₂ (replay t₁ q) := List.foldl_append

theorem filterMap_edit_of_ne {e : Event} {q : List Resting} (h : ∀ r ∈ q, r.id ≠ e.maker) :
    q.filterMap e.edit = q := by
  rw [List.filterMap_congr fun r hr => Event.edit_of_ne (h r hr), List.filterMap_some]

theorem replay_of_ne {tape : List Event} {q : List Resting}
    (h : ∀ e ∈ tape, ∀ r ∈ q, r.id ≠ e.maker) : replay tape q = q := by
  induction tape with
  | nil => rfl
  | cons e tape ih =>
      rw [replay_cons, filterMap_edit_of_ne (h e List.mem_cons_self)]
      exact ih fun e' he' => h e' (List.mem_cons_of_mem e he')

/-- Orders leave a queue or stay in place, under the same id, price and owner. -/
theorem keys_filterMap_edit (e : Event) (q : List Resting) :
    ((q.filterMap e.edit).map Resting.key).Sublist (q.map Resting.key) := by
  induction q with
  | nil => exact List.Sublist.refl _
  | cons r q ih =>
      cases he : e.edit r with
      | none =>
          rw [List.filterMap_cons_none he]
          exact ih.cons _
      | some r' =>
          rw [List.filterMap_cons_some he, List.map_cons, List.map_cons, Event.key_of_edit he]
          exact ih.cons_cons _

theorem keys_replay (tape : List Event) (q : List Resting) :
    ((replay tape q).map Resting.key).Sublist (q.map Resting.key) := by
  induction tape generalizing q with
  | nil => exact List.Sublist.refl _
  | cons e tape ih => exact (ih _).trans (keys_filterMap_edit e q)

/-! ### The tape of a walk -/

section walk

variable {stp : Stp} {s : Side} {taker : OrderId} {limit : Int} {owner : Owner}

/-- The event `e` is what a taker does to the order `r` it meets. -/
inductive Meets (stp : Stp) (taker : OrderId) (owner : Owner) : Resting → Event → Prop
  | trade {r : Resting} {k : Qty} (hown : ¬ r.Own stp owner) (hk : k ≤ r.qty)
      (hpos : r.qty ≠ 0 → k ≠ 0) :
      Meets stp taker owner r (.trade taker r.id r.price k)
  | kill {r : Resting} (hown : r.Own stp owner) (hstp : stp = .cancelResting) :
      Meets stp taker owner r (.cancel r.id r.owner)

theorem Meets.maker {r : Resting} {e : Event} (h : Meets stp taker owner r e) : e.maker = r.id := by
  cases h <;> rfl

/-- The front order after one event, on a queue of distinct ids. -/
theorem filterMap_front {e : Event} {r : Resting} {q : List Resting} (he : e.maker = r.id)
    (hnd : ((r :: q).map Resting.id).Nodup) :
    (r :: q).filterMap e.edit = (e.edit r).toList ++ q := by
  have hq : q.filterMap e.edit = q := by
    refine filterMap_edit_of_ne fun r' hr' hid => ?_
    exact (List.nodup_cons.mp hnd).1 (he ▸ hid ▸ List.mem_map_of_mem hr')
  cases h : e.edit r with
  | none => rw [List.filterMap_cons_none h, hq]; rfl
  | some r' => rw [List.filterMap_cons_some h, hq]; rfl

theorem edit_kill {r : Resting} : (Event.cancel r.id r.owner).edit r = none := if_pos rfl

theorem edit_full {r : Resting} {px : Int} : (Event.trade taker r.id px r.qty).edit r = none := by
  rw [Event.edit, if_pos rfl, if_pos (UInt32.sub_self _)]

theorem edit_part {r : Resting} {px : Int} {k : Qty} (hlt : k < r.qty) :
    (Event.trade taker r.id px k).edit r = some { r with qty := r.qty - k } := by
  have hne : ¬ r.qty - k = 0 := by
    refine UInt32.sub_ne_zero ?_
    rintro rfl
    exact Nat.lt_irrefl _ hlt
  rw [Event.edit, if_pos rfl, if_neg hne]

/-- **Replaying the tape of a walk gives the queue it left.** -/
theorem walk_replay : ∀ (q : List Resting) (n : Qty), (q.map Resting.id).Nodup →
    replay (walk stp s taker limit owner q n).tape q = (walk stp s taker limit owner q n).queue
  | [], _, _ => rfl
  | r :: q, n, hnd => by
      have htail : (q.map Resting.id).Nodup := (List.nodup_cons.mp hnd).2
      refine walk_cases r q n (fun w => replay w.tape (r :: q) = w.queue) ?_ ?_ ?_ ?_ ?_
      · intro _; rfl
      · intro _ _ _ _; rfl
      · intro _ _ _ _
        rw [replay_cons, filterMap_front rfl hnd, edit_kill]
        exact walk_replay q n htail
      · intro _ _ _ hlt
        rw [replay_cons, filterMap_front rfl hnd, edit_part hlt]
        rfl
      · intro _ _ _ _
        rw [replay_cons, filterMap_front rfl hnd, edit_full]
        exact walk_replay q (n - r.qty) htail

/-- A tape whose first event takes the front order off, and whose rest is about the others. -/
theorem event_cons {P : Resting → Event → Prop} {e₀ : Event} {tape : List Event} {r : Resting}
    {q : List Resting} (hP : P r e₀) (hmaker : e₀.maker = r.id) (hedit : e₀.edit r = none)
    (hnd : ((r :: q).map Resting.id).Nodup)
    (htail : ∀ {t₁ t₂ e}, tape = t₁ ++ e :: t₂ → ∃ r' q', replay t₁ q = r' :: q' ∧ P r' e)
    {t₁ t₂ : List Event} {e : Event} (h : e₀ :: tape = t₁ ++ e :: t₂) :
    ∃ r' q', replay t₁ (r :: q) = r' :: q' ∧ P r' e := by
  cases t₁ with
  | nil =>
      obtain ⟨rfl, rfl⟩ := List.cons.inj h
      exact ⟨r, q, rfl, hP⟩
  | cons e₁ t₁ =>
      obtain ⟨rfl, htape⟩ := List.cons.inj h
      rw [replay_cons, filterMap_front hmaker hnd, hedit]
      exact htail htape

/-- **At every event of a walk its order stands at the front**, and crosses. -/
theorem walk_event : ∀ (q : List Resting) (n : Qty), (q.map Resting.id).Nodup →
    ∀ {t₁ t₂ : List Event} {e : Event},
    (walk stp s taker limit owner q n).tape = t₁ ++ e :: t₂ →
    ∃ r q', replay t₁ q = r :: q' ∧ crosses s r.price limit = true ∧ Meets stp taker owner r e
  | [], _, _, t₁, t₂, e, h => by simp [walk] at h
  | r :: q, n, hnd, t₁, t₂, e, h => by
      have htail : (q.map Resting.id).Nodup := (List.nodup_cons.mp hnd).2
      revert h
      refine walk_cases r q n (fun w => w.tape = t₁ ++ e :: t₂ → ∃ r' q',
        replay t₁ (r :: q) = r' :: q' ∧ crosses s r'.price limit = true ∧
          Meets stp taker owner r' e) ?_ ?_ ?_ ?_ ?_
      · intro _ h
        simp at h
      · intro _ _ _ _ h
        simp at h
      · intro _ hc ho hs
        exact event_cons (P := fun r e => crosses s r.price limit = true ∧ Meets stp taker owner r e)
          ⟨hc, .kill ho hs⟩ rfl edit_kill hnd (walk_event q n htail)
      · intro hn hc ho hlt h
        -- the only event of such a walk
        cases t₁ with
        | nil =>
            obtain ⟨rfl, -⟩ := List.cons.inj h
            exact ⟨r, q, rfl, hc, .trade ho (Nat.le_of_lt hlt) fun _ => hn⟩
        | cons e₁ t₁ => simp at h
      · intro _ hc ho _
        exact event_cons (P := fun r e => crosses s r.price limit = true ∧ Meets stp taker owner r e)
          ⟨hc, .trade ho (Nat.le_refl _) fun h => h⟩ rfl edit_full hnd (walk_event q (n - r.qty) htail)

theorem walk_maker {q : List Resting} {n : Qty} (hnd : (q.map Resting.id).Nodup) {e : Event}
    (he : e ∈ (walk stp s taker limit owner q n).tape) : ∃ r ∈ q, r.id = e.maker := by
  obtain ⟨t₁, t₂, htape⟩ := List.append_of_mem he
  obtain ⟨r, q', hq, -, hmeets⟩ := walk_event q n hnd htape
  have hr : r ∈ replay t₁ q := by
    rw [hq]
    exact List.mem_cons_self
  obtain ⟨r₀, hr₀, hid, -⟩ := mem_of_keys (keys_replay t₁ q) hr
  exact ⟨r₀, hr₀, hid.trans hmeets.maker.symm⟩

/-- What is traded and what stays open make up the quantity of the taker. -/
theorem walk_traded : ∀ (q : List Resting) (n : Qty),
    traded (walk stp s taker limit owner q n).tape +
      (walk stp s taker limit owner q n).remaining.toNat = n.toNat
  | [], n => by simp [walk]
  | r :: q, n => by
      refine walk_cases r q n (fun w => traded w.tape + w.remaining.toNat = n.toNat) ?_ ?_ ?_ ?_ ?_
      · intro _; simp
      · intro _ _ _ _; simp
      · intro _ _ _ _
        simpa [Event.traded] using walk_traded q n
      · intro _ _ _ _
        simp [Event.traded]
      · intro _ _ _ hle
        have ih := walk_traded q (n - r.qty)
        rw [UInt32.toNat_sub_of_le _ _ hle] at ih
        have hle' : r.qty.toNat ≤ n.toNat := hle
        simp only [traded_cons, Event.traded]
        omega

end walk

/-! ### What a call can do -/

/-- An order on its way through a book: the book it meets, and whether what is left of it may
rest. -/
structure Taker where
  book : Flat
  side : Side
  id : OrderId
  limit : Int
  qty : Qty
  owner : Owner
  mayRest : Bool

namespace Taker

variable (t : Taker) (stp : Stp)

def walk : Walk := Lob.walk stp t.side t.id t.limit t.owner (t.book.side t.side.opp) t.qty

def filled : Qty := t.qty - (t.walk stp).remaining

def Rests : Prop :=
  (t.walk stp).stopped = false ∧ (t.walk stp).remaining ≠ 0 ∧ t.mayRest = true

instance : Decidable (t.Rests stp) := inferInstanceAs (Decidable (_ ∧ _ ∧ _))

/-- What is left of the order, as a resting one. -/
def remainder : Resting := ⟨t.id, t.limit, (t.walk stp).remaining, t.owner⟩

/-- The book after the walk. -/
def swept : Flat := t.book.withSide t.side.opp (t.walk stp).queue

/-- The book after the call. -/
def after : Flat :=
  if t.Rests stp then (t.swept stp).rest t.side (t.remainder stp) else t.swept stp

/-- The reply to the operation that sent the order. -/
def reply : Op → Reply
  | .submitLimit .. =>
      .submit
        { filled := t.filled stp
          rested := decide (t.Rests stp)
          rejected := decide ((t.walk stp).stopped = true ∧ t.filled stp = 0) }
  | .submitMarket .. => .market (t.filled stp)
  | .cancel _ => .cancel false
  | .modify .. =>
      .modify
        { ok := true, filled := t.filled stp, rested := decide (t.Rests stp), found := true }

end Taker

/-- What is filled and what stays open make up the order. -/
theorem Taker.filled_add (t : Taker) (stp : Stp) :
    (t.filled stp).toNat + (t.walk stp).remaining.toNat = t.qty.toNat := by
  have hle : (t.walk stp).remaining ≤ t.qty := walk_remaining_le _ _
  have hle' := UInt32.le_iff_toNat_le.mp hle
  rw [Taker.filled, UInt32.toNat_sub_of_le _ _ hle]
  omega

/-- A reply that reports no effect. -/
def Reply.Refuses : Reply → Prop
  | .submit r => r = { filled := 0, rested := false, rejected := true }
  | .market n => n = 0
  | .cancel ok => ok = false
  | .modify r => r.ok = false ∧ r.filled = 0 ∧ r.rested = false

namespace Flat

variable {c : Config} {F : Flat}

/-- The operation `op` sends the order `t` to match. -/
inductive Sends (c : Config) (F : Flat) : Op → Taker → Prop
  | limit {id : OrderId} {s : Side} {px : Int} {qty : Qty} {tif : Tif} {owner : Owner}
      (hid : id ≠ 0) (hqty : qty ≠ 0) (hpx : c.inBand px = true) (hnew : id ∉ F.ids) :
      Sends c F (.submitLimit id s px qty tif owner)
        ⟨F, s, id, px, qty, owner, decide (tif = .gtc)⟩
  | market {id : OrderId} {s : Side} {limit : Int} {qty : Qty} {owner : Owner}
      (hid : id ≠ 0) (hqty : qty ≠ 0) (hnew : id ∉ F.ids) (hlimit : F.marketLimit c s = some limit) :
      Sends c F (.submitMarket id s qty owner) ⟨F, s, id, limit, qty, owner, false⟩
  | modify {id : OrderId} {s : Side} {px : Int} {qty : Qty} {r : Resting}
      (hfind : F.find? id = some (s, r)) (hqty : qty ≠ 0) (hpx : c.inBand px = true)
      (hmove : ¬ (px = r.price ∧ qty ≤ r.qty)) :
      Sends c F (.modify id px qty) ⟨F.remove id, s, id, px, qty, r.owner, true⟩

/-- Everything a call can do: refuse, cancel, amend in place, or send an order to match. -/
inductive Outcome (c : Config) (F : Flat) : Op → Flat × Answer → Prop
  | refused {op : Op} {reply : Reply} (h : reply.Refuses) : Outcome c F op (F, reply, [])
  | cancelled {id : OrderId} (hid : id ∈ F.ids) :
      Outcome c F (.cancel id) (F.remove id, .cancel true, [])
  | amended {id : OrderId} {s : Side} {qty : Qty} {r : Resting}
      (hfind : F.find? id = some (s, r)) (hqty : qty ≠ 0) (hle : qty ≤ r.qty) :
      Outcome c F (.modify id r.price qty)
        (F.amend id qty, .modify { ok := true, filled := 0, rested := true, found := true }, [])
  | matched {op : Op} {t : Taker} (h : Sends c F op t) :
      Outcome c F op (t.after c.stp, t.reply c.stp op, (t.walk c.stp).tape)

/-- `execute` is the walk of its order, unless a fill-or-kill order is killed. -/
theorem execute_cases (c : Config) (F : Flat) (s : Side) (id : OrderId) (px : Int) (qty : Qty)
    (tif : Tif) (o : Owner) :
    ((tif = .fok ∧ fillable s px qty c.stp o (F.side s.opp) = false) ∧
      F.execute c s id px qty tif o =
        (F, { filled := 0, rested := false, rejected := true }, [])) ∨
    F.execute c s id px qty tif o =
      let t : Taker := ⟨F, s, id, px, qty, o, decide (tif = .gtc)⟩
      (t.after c.stp,
        { filled := t.filled c.stp
          rested := decide (t.Rests c.stp)
          rejected := decide ((t.walk c.stp).stopped = true ∧ t.filled c.stp = 0) },
        (t.walk c.stp).tape) := by
  by_cases hfok : tif = .fok ∧ fillable s px qty c.stp o (F.side s.opp) = false
  · exact Or.inl ⟨hfok, by rw [execute, if_pos hfok]⟩
  · refine Or.inr ?_
    simp only [execute, if_neg hfok, Taker.after, Taker.swept, Taker.Rests, Taker.filled,
      Taker.remainder, Taker.walk, decide_eq_true_eq]
    by_cases hstop : (Lob.walk c.stp s id px o (F.side s.opp) qty).stopped = true
    · simp [hstop]
    · by_cases hrest : (Lob.walk c.stp s id px o (F.side s.opp) qty).remaining ≠ 0 ∧ tif = .gtc
      · simp [hstop, hrest]
      · simp [hstop, hrest]

/-- An order sent to match does its walk, unless it is a fill-or-kill order that is killed. -/
theorem Sends.call_eq {op : Op} {t : Taker} (h : Sends c F op t) :
    F.call c op = (t.after c.stp, t.reply c.stp op, (t.walk c.stp).tape) ∨
      F.call c op = (F, .submit { filled := 0, rested := false, rejected := true }, []) ∧
        t.book = F := by
  cases h with
  | @limit id s px qty tif owner hid hqty hpx hnew =>
      simp only [call, submitLimit, hid, hqty, hpx, hnew, or_self, if_false, Bool.true_eq_false]
      rcases F.execute_cases c s id px qty tif owner with ⟨-, h⟩ | h
      · rw [h]
        exact Or.inr ⟨rfl, trivial⟩
      · rw [h]
        exact Or.inl rfl
  | market hid hqty hnew hlimit =>
      left
      simp [call, submitMarket, hid, hqty, hnew, hlimit, Taker.after, Taker.Rests, Taker.reply,
        Taker.swept, Taker.filled, Taker.walk]
  | @modify id s px qty r hfind hqty hpx hmove =>
      left
      simp only [call, Flat.modify, hfind, hqty, hpx, or_self, if_false, Bool.true_eq_false, hmove]
      rcases (F.remove id).execute_cases c s id px qty .gtc r.owner with ⟨h, -⟩ | h
      · cases h.1
      · rw [h]
        rfl

theorem Sends.outcome {op : Op} {t : Taker} (h : Sends c F op t) : Outcome c F op (F.call c op) := by
  rcases h.call_eq with heq | ⟨heq, -⟩
  · rw [heq]
    exact .matched h
  · rw [heq]
    exact .refused rfl

theorem call_outcome (c : Config) (F : Flat) (op : Op) : Outcome c F op (F.call c op) := by
  cases op with
  | submitLimit id s px qty tif owner =>
      by_cases hbad : id = 0 ∨ qty = 0 ∨ c.inBand px = false ∨ id ∈ F.ids
      · simp only [call, submitLimit, if_pos hbad]
        exact .refused rfl
      · simp only [not_or, Bool.not_eq_false] at hbad
        obtain ⟨hid, hqty, hpx, hnew⟩ := hbad
        exact (Sends.limit hid hqty hpx hnew).outcome
  | submitMarket id s qty owner =>
      by_cases hbad : id = 0 ∨ qty = 0 ∨ id ∈ F.ids
      · simp only [call, submitMarket, if_pos hbad]
        exact .refused rfl
      · cases hlimit : F.marketLimit c s with
        | none =>
            simp only [call, submitMarket, if_neg hbad, hlimit]
            exact .refused rfl
        | some limit =>
            simp only [not_or] at hbad
            obtain ⟨hid, hqty, hnew⟩ := hbad
            exact (Sends.market hid hqty hnew hlimit).outcome
  | cancel id =>
      by_cases hid : id ∈ F.ids
      · simp only [call, cancel, if_pos hid]
        exact .cancelled hid
      · simp only [call, cancel, if_neg hid]
        exact .refused rfl
  | modify id px qty =>
      cases hfind : F.find? id with
      | none =>
          simp only [call, modify, hfind]
          exact .refused ⟨rfl, rfl, rfl⟩
      | some sr =>
          obtain ⟨s, r⟩ := sr
          by_cases hbad : qty = 0 ∨ c.inBand px = false
          · simp only [call, modify, hfind, if_pos hbad]
            exact .refused ⟨rfl, rfl, rfl⟩
          · by_cases hsame : px = r.price ∧ qty ≤ r.qty
            · obtain ⟨rfl, hle⟩ := hsame
              simp only [call, modify, hfind, if_neg hbad, hle, and_self, if_true]
              rw [not_or] at hbad
              exact .amended hfind hbad.1 hle
            · simp only [not_or, Bool.not_eq_false] at hbad
              exact (Sends.modify hfind hbad.1 hbad.2 hsame).outcome

/-! ### The order a call sends to match -/

/-- A book after the events of a tape. -/
def replay (tape : List Event) (F : Flat) : Flat :=
  { bids := Lob.replay tape F.bids, asks := Lob.replay tape F.asks }

@[simp] theorem side_replay {tape : List Event} {s : Side} :
    (F.replay tape).side s = Lob.replay tape (F.side s) := by cases s <;> rfl

@[simp] theorem replay_nil (F : Flat) : F.replay [] = F := rfl

theorem replay_nodup (h : F.ids.Nodup) (tape : List Event) : (F.replay tape).ids.Nodup := by
  rw [ids_eq] at h ⊢
  exact h.sublist
    ((ids_of_keys (keys_replay tape F.bids)).append (ids_of_keys (keys_replay tape F.asks)))

/-- What an event leaves of an order. -/
theorem find?_replay (h : F.ids.Nodup) (e : Event) (k : OrderId) :
    (F.replay [e]).find? k = (F.find? k).bind fun x => (e.edit x.2).map fun r => (x.1, r) := by
  refine Option.ext fun ⟨s, r⟩ => ?_
  rw [find?_iff (replay_nodup h [e]), side_replay, replay_cons, Lob.replay_nil, List.mem_filterMap,
    Option.bind_eq_some_iff]
  constructor
  · rintro ⟨⟨r₀, hr₀, he⟩, rfl⟩
    have hid : r.id = r₀.id := congrArg Prod.fst (Event.key_of_edit he)
    exact ⟨(s, r₀), (find?_iff h).mpr ⟨hr₀, hid.symm⟩, by rw [he]; rfl⟩
  · rintro ⟨⟨t, r₀⟩, hf, he⟩
    obtain ⟨r', he', hx⟩ := Option.map_eq_some_iff.mp he
    obtain ⟨rfl, rfl⟩ := Prod.mk.inj hx
    obtain ⟨hr₀, rfl⟩ := find?_eq_some hf
    exact ⟨⟨r₀, hr₀, he'⟩, congrArg Prod.fst (Event.key_of_edit he')⟩

/-- An order may be taken off before or after the events of a tape. -/
theorem replay_remove (F : Flat) (id : OrderId) (tape : List Event) :
    (F.remove id).replay tape = (F.replay tape).remove id := by
  have hedit : ∀ (e : Event) (q : List Resting),
      (q.filter fun r => decide (r.id ≠ id)).filterMap e.edit =
        (q.filterMap e.edit).filter fun r => decide (r.id ≠ id) := by
    intro e q
    rw [List.filterMap_filter, List.filter_filterMap]
    refine List.filterMap_congr fun r _ => ?_
    cases he : e.edit r with
    | none => simp
    | some r' =>
        have hid : r'.id = r.id := congrArg Prod.fst (Event.key_of_edit he)
        simp [Option.filter, hid]
  have hq : ∀ q : List Resting, Lob.replay tape (q.filter fun r => decide (r.id ≠ id)) =
      (Lob.replay tape q).filter fun r => decide (r.id ≠ id) := by
    induction tape with
    | nil => intro q; rfl
    | cons e tape ih =>
        intro q
        rw [replay_cons, replay_cons, hedit, ih]
  refine ext_side fun s => ?_
  rw [side_replay, side_remove, side_remove, side_replay, hq]

section sends

variable {op : Op} {t : Taker}

theorem Sends.id_eq (h : Sends c F op t) : t.id = op.id := by cases h <;> rfl

theorem Sends.book_wf (h : Sends c F op t) (hF : F.WF c) : t.book.WF c := by
  cases h with
  | limit => exact hF
  | market => exact hF
  | modify => exact hF.remove _

theorem Sends.not_mem (h : Sends c F op t) : t.id ∉ t.book.ids := by
  cases h with
  | limit _ _ _ hnew => exact hnew
  | market _ _ hnew _ => exact hnew
  | modify => exact not_mem_ids_remove

/-- The order meets the other side as the call found it. -/
theorem Sends.side_opp (h : Sends c F op t) (hF : F.WF c) :
    t.book.side t.side.opp = F.side t.side.opp := by
  cases h with
  | limit => rfl
  | market => rfl
  | @modify id s px qty r hfind _ _ _ =>
      obtain ⟨hr, rfl⟩ := find?_eq_some hfind
      rw [side_remove, List.filter_eq_self]
      intro r' hr'
      refine decide_eq_true fun he => ?_
      exact Side.opp_ne s (eq_of_id hF.nodup hr' hr he).1

end sends

end Flat

namespace Taker

variable {c : Config} {t : Taker} {stp : Stp}

theorem maker_mem (h : t.book.ids.Nodup) {e : Event} (he : e ∈ (t.walk stp).tape) :
    ∃ r ∈ t.book.side t.side.opp, r.id = e.maker := walk_maker (Flat.side_nodup h _) he

/-- Its own side is as the order found it. -/
theorem replay_side (h : t.book.ids.Nodup) :
    replay (t.walk stp).tape (t.book.side t.side) = t.book.side t.side := by
  refine replay_of_ne fun e he r hr hid => ?_
  obtain ⟨r', hr', hid'⟩ := maker_mem h he
  exact Side.opp_ne _ (Flat.eq_of_id h hr' hr (hid'.trans hid.symm)).1

/-- **The walk leaves the book that its tape tells of.** -/
theorem swept_eq (h : t.book.ids.Nodup) : t.swept stp = t.book.replay (t.walk stp).tape := by
  refine Flat.ext_side fun s => ?_
  rw [swept, Flat.side_replay, Flat.side_withSide]
  split_ifs with hs
  · rw [hs]
    exact (walk_replay _ _ (Flat.side_nodup h _)).symm
  · obtain rfl : s = t.side := (Side.eq_or_eq_opp t.side s).resolve_right hs
    exact (replay_side h).symm

theorem swept_wf (h : t.book.WF c) : (t.swept c.stp).WF c := h.walk _ _ _ _ _

theorem not_mem_swept (h : t.id ∉ t.book.ids) : t.id ∉ (t.swept stp).ids :=
  fun hm => h (Flat.mem_ids_of_walk hm)

end Taker

/-- The tape of a call is about the other side of its order. -/
theorem Flat.Sends.replay_side {c : Config} {F : Flat} {op : Op} {t : Taker} (h : F.Sends c op t)
    (hF : F.WF c) : Lob.replay (t.walk c.stp).tape (F.side t.side) = F.side t.side := by
  refine replay_of_ne fun e he r hr hid => ?_
  obtain ⟨r', hr', hid'⟩ := Taker.maker_mem (h.book_wf hF).nodup he
  rw [h.side_opp hF] at hr'
  exact Side.opp_ne _ (Flat.eq_of_id hF.nodup hr' hr (hid'.trans hid.symm)).1

end Lob
