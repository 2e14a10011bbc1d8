import LimitOrderBook.Chain
import LimitOrderBook.Engine
import LimitOrderBook.FlatInv

/-! # How an engine holds a flat book

`LevelRepr` relates one level of an engine to the list of its resting orders: the nodes are
linked in order, carry the data of the orders, and the totals are sums over the list.  `Core`
does so for every level of a book, and says that the index and the allocator hold exactly the
nodes of the book.  The engine edits a book in three ways, and each has its lemma:
`Core.drop` (an order leaves), `Core.reduce` (an order loses quantity) and `Core.push` (an order
arrives).

The totals are stated modulo their machine width; they are exact while fewer than `2 ^ 32`
orders rest (`total_lt`). -/

namespace Lob

open KeyedQueue Chain Book

/-- The quantity of a queue. -/
def total (q : List Resting) : ℕ := (q.map (fun r => r.qty.toNat)).sum

@[simp] theorem total_nil : total [] = 0 := rfl

@[simp] theorem total_cons (r : Resting) (q : List Resting) :
    total (r :: q) = r.qty.toNat + total q := by simp [total]

@[simp] theorem total_append (q₁ q₂ : List Resting) : total (q₁ ++ q₂) = total q₁ + total q₂ := by
  simp [total]

/-- A level of fewer than `2 ^ 32` orders does not wrap its total. -/
theorem total_lt {q : List Resting} (h : q.length < 2 ^ 32) : total q < 2 ^ 64 := by
  have hle : ∀ q : List Resting, total q ≤ q.length * (2 ^ 32 - 1) := by
    intro q
    induction q with
    | nil => simp
    | cons r q ih =>
        have := r.qty.toNat_lt
        simp only [total_cons, List.length_cons, Nat.add_mul, Nat.one_mul]
        omega
  have h1 := hle q
  have h2 : q.length * (2 ^ 32 - 1) ≤ 2 ^ 32 * (2 ^ 32 - 1) :=
    Nat.mul_le_mul_right _ (Nat.le_of_lt h)
  omega

/-- The nodes of a queue, in order. -/
def ptrs {A : Type} (ptr : OrderId → A) (q : List Resting) : List A := q.map (fun r => ptr r.id)

theorem ptr_ne_of_nodup {A : Type} {ptr : OrderId → A} {q₁ q₂ : List Resting} {r : Resting}
    (hnd : (ptrs ptr (q₁ ++ r :: q₂)).Nodup) : ∀ r' ∈ q₁ ++ q₂, ptr r'.id ≠ ptr r.id := by
  intro r' hr' he
  have hnd' : (ptr r.id :: ptrs ptr (q₁ ++ q₂)).Nodup := by
    refine (List.Perm.nodup_iff ?_).mp hnd
    simp only [ptrs, List.map_append, List.map_cons]
    exact List.perm_middle
  exact (List.nodup_cons.mp hnd').1 (he ▸ List.mem_map_of_mem hr')

section nodes

variable {A P : Type} [Allocator P A (Order A)]

def prv (p : P) (a : A) : Option A := (Allocator.deref p a).prev

def nxt (p : P) (a : A) : Option A := (Allocator.deref p a).next

/-- A node carries the data of `r`, resting on side `s`. -/
structure NodeRepr (o : Order A) (s : Side) (r : Resting) : Prop where
  qty : o.qty = r.qty
  owner : o.owner = r.owner
  id : o.id = r.id
  price : o.price = r.price
  level : o.level = ⟨s, r.price⟩
  side : o.side = s

/-- A level of side `s` holds the queue `q`. -/
structure LevelRepr (p : P) (ptr : OrderId → A) (s : Side) (v : Level A) (q : List Resting) :
    Prop where
  node : ∀ r ∈ q, NodeRepr (Allocator.deref p (ptr r.id)) s r
  linked : Linked (prv p) (nxt p) none (ptrs ptr q) none
  head : v.head = (ptrs ptr q).head?
  tail : v.tail = (ptrs ptr q).getLast?
  totalQty : v.totalQty = UInt64.ofNat (total q)
  count : v.count = UInt32.ofNat q.length

namespace LevelRepr

variable {p p' : P} {ptr ptr' : OrderId → A} {s : Side} {v : Level A} {q q₁ q₂ : List Resting}
  {r : Resting}

theorem blank_iff (hv : v.Blank) : LevelRepr p ptr s v [] where
  node r hr := by cases hr
  linked := trivial
  head := hv.1
  tail := hv.2.1
  totalQty := hv.2.2.1
  count := hv.2.2.2

theorem nil_blank (h : LevelRepr p ptr s v []) : v.Blank :=
  ⟨h.head, h.tail, h.totalQty, h.count⟩

theorem head_isNone (h : LevelRepr p ptr s v q) : v.head.isNone = true ↔ q = [] := by
  rw [h.head]
  cases q <;> simp [ptrs]

theorem with_price (h : LevelRepr p ptr s v q) (px : Int) :
    LevelRepr p ptr s { v with price := px } q :=
  ⟨h.node, h.linked, h.head, h.tail, h.totalQty, h.count⟩

/-- Only the nodes of the level matter. -/
theorem congr (h : LevelRepr p ptr s v q) (hptr : ∀ r ∈ q, ptr' r.id = ptr r.id)
    (hp : ∀ r ∈ q, Allocator.deref p' (ptr r.id) = Allocator.deref p (ptr r.id)) :
    LevelRepr p' ptr' s v q := by
  have hptrs : ptrs ptr' q = ptrs ptr q := List.map_congr_left hptr
  refine ⟨fun r hr => ?_, ?_, ?_, ?_, h.totalQty, h.count⟩
  · rw [hptr r hr, hp r hr]
    exact h.node r hr
  · rw [hptrs]
    refine h.linked.congr ?_
    intro a ha
    obtain ⟨r, hr, rfl⟩ := List.mem_map.mp ha
    simp only [prv, nxt, hp r hr, and_self]
  · rw [hptrs]; exact h.head
  · rw [hptrs]; exact h.tail

end LevelRepr

variable [DecidableEq A] [LawfulAllocator P A (Order A)]

/-! ### Pointer surgery -/

theorem deref_setNext (p : P) (b c : A) (x : Option A) :
    Allocator.deref (Allocator.write p c { Allocator.deref p c with next := x }) b =
      { Allocator.deref p b with next := if c = b then x else (Allocator.deref p b).next } := by
  by_cases h : c = b
  · subst h
    rw [LawfulAllocator.deref_write_self, if_pos rfl]
  · rw [LawfulAllocator.deref_write _ (Ne.symm h), if_neg h]

theorem deref_setPrev (p : P) (b c : A) (x : Option A) :
    Allocator.deref (Allocator.write p c { Allocator.deref p c with prev := x }) b =
      { Allocator.deref p b with prev := if c = b then x else (Allocator.deref p b).prev } := by
  by_cases h : c = b
  · subst h
    rw [LawfulAllocator.deref_write_self, if_pos rfl]
  · rw [LawfulAllocator.deref_write _ (Ne.symm h), if_neg h]

/-- Unlinking rewrites the links of the two neighbours and nothing else. -/
theorem deref_unlink (p : P) (v : Level A) (a b : A) :
    Allocator.deref (unlink p v a).1 b =
      { Allocator.deref p b with
        next := if prv p a = some b then nxt p a else (Allocator.deref p b).next
        prev := if nxt p a = some b then prv p a else (Allocator.deref p b).prev } := by
  unfold unlink prv nxt
  cases hp : (Allocator.deref p a).prev with
  | none =>
      cases hn : (Allocator.deref p a).next with
      | none => simp [hp, hn]
      | some d => simp [hp, hn, deref_setPrev]
  | some c =>
      cases hn : (Allocator.deref p a).next with
      | none => simp [hp, hn, deref_setNext]
      | some d =>
          simp only [hp, hn]
          rw [deref_setPrev, deref_setNext]
          simp

omit [DecidableEq A] [LawfulAllocator P A (Order A)] in
theorem unlink_level (p : P) (v : Level A) (a : A) :
    (unlink p v a).2 =
      { v with
        head := if (prv p a).isSome then v.head else nxt p a
        tail := if (nxt p a).isSome then v.tail else prv p a
        totalQty := v.totalQty - (Allocator.deref p a).qty.toUInt64
        count := v.count - 1 } := by
  unfold unlink prv nxt
  cases hp : (Allocator.deref p a).prev <;> cases hn : (Allocator.deref p a).next <;>
    simp [hp, hn]

omit [DecidableEq A] in
theorem unlink_wf {p : P} {a : A} (v : Level A) (hp : LawfulAllocator.WF p)
    (hprev : ∀ b, prv p a = some b → LawfulAllocator.Live p b)
    (hnext : ∀ b, nxt p a = some b → LawfulAllocator.Live p b) :
    LawfulAllocator.WF (unlink p v a).1 ∧
      ∀ b, LawfulAllocator.Live (unlink p v a).1 b ↔ LawfulAllocator.Live p b := by
  unfold prv at hprev
  unfold nxt at hnext
  simp only [unlink]
  cases hc : (Allocator.deref p a).prev with
  | none =>
      cases hd : (Allocator.deref p a).next with
      | none => exact ⟨hp, fun b => Iff.rfl⟩
      | some d =>
          have hl := hnext d hd
          exact ⟨LawfulAllocator.write_wf hp hl _, LawfulAllocator.write_live hp hl _⟩
  | some c =>
      have hl := hprev c hc
      have hp' := LawfulAllocator.write_wf hp hl
        { Allocator.deref p c with next := (Allocator.deref p a).next }
      have hlive := LawfulAllocator.write_live hp hl
        { Allocator.deref p c with next := (Allocator.deref p a).next }
      cases hd : (Allocator.deref p a).next with
      | none =>
          rw [hd] at hp' hlive
          exact ⟨hp', hlive⟩
      | some d =>
          rw [hd] at hp' hlive
          have hl' := (hlive d).mpr (hnext d hd)
          exact ⟨LawfulAllocator.write_wf hp' hl' _,
            fun b => (LawfulAllocator.write_live hp' hl' _ b).trans (hlive b)⟩

theorem deref_linkTail (p : P) (t : Option A) (a b : A) :
    Allocator.deref (linkTail p t a) b =
      { Allocator.deref p b with
        next := if t = some b then some a else (Allocator.deref p b).next } := by
  cases t with
  | none => simp [linkTail]
  | some c => simp [linkTail, deref_setNext]

omit [DecidableEq A] in
theorem linkTail_wf {p : P} {t : Option A} (a : A) (hp : LawfulAllocator.WF p)
    (ht : ∀ b, t = some b → LawfulAllocator.Live p b) :
    LawfulAllocator.WF (linkTail p t a) ∧
      ∀ b, LawfulAllocator.Live (linkTail p t a) b ↔ LawfulAllocator.Live p b := by
  cases t with
  | none => exact ⟨hp, fun b => Iff.rfl⟩
  | some c =>
      have hl := ht c rfl
      exact ⟨LawfulAllocator.write_wf hp hl _, LawfulAllocator.write_live hp hl _⟩

namespace LevelRepr

variable {p : P} {ptr : OrderId → A} {s : Side} {v : Level A} {q₁ q₂ : List Resting} {r : Resting}

omit [DecidableEq A] [LawfulAllocator P A (Order A)] in
/-- The links of a node of the queue. -/
theorem links (h : LevelRepr p ptr s v (q₁ ++ r :: q₂)) :
    prv p (ptr r.id) = (ptrs ptr q₁).getLast? ∧ nxt p (ptr r.id) = (ptrs ptr q₂).head? := by
  have hl := h.linked
  simp only [ptrs, List.map_append, List.map_cons] at hl
  simpa [ptrs] using hl.middle

omit [DecidableEq A] [LawfulAllocator P A (Order A)] in
theorem next_head (h : LevelRepr p ptr s v (r :: q₂)) :
    nxt p (ptr r.id) = (ptrs ptr q₂).head? := by
  have h' : LevelRepr p ptr s v ([] ++ r :: q₂) := h
  exact h'.links.2

omit [DecidableEq A] [LawfulAllocator P A (Order A)] in
/-- The neighbours of a node are nodes of its queue. -/
theorem prv_mem (h : LevelRepr p ptr s v (q₁ ++ r :: q₂)) {b : A}
    (hb : prv p (ptr r.id) = some b) : b ∈ ptrs ptr (q₁ ++ r :: q₂) := by
  rw [h.links.1] at hb
  rw [ptrs, List.map_append]
  exact List.mem_append_left _ (List.mem_of_getLast? hb)

omit [DecidableEq A] [LawfulAllocator P A (Order A)] in
theorem nxt_mem (h : LevelRepr p ptr s v (q₁ ++ r :: q₂)) {b : A}
    (hb : nxt p (ptr r.id) = some b) : b ∈ ptrs ptr (q₁ ++ r :: q₂) := by
  rw [h.links.2] at hb
  rw [ptrs, List.map_append, List.map_cons]
  exact List.mem_append_right _ (List.mem_cons_of_mem _ (List.mem_of_head? hb))

omit [DecidableEq A] [LawfulAllocator P A (Order A)] in
theorem tail_mem {q : List Resting} (h : LevelRepr p ptr s v q) {b : A} (hb : v.tail = some b) :
    b ∈ ptrs ptr q := by
  rw [h.tail] at hb
  exact List.mem_of_getLast? hb

omit [DecidableEq A] in
/-- Unlinking writes to live nodes only. -/
theorem unlink_live (h : LevelRepr p ptr s v (q₁ ++ r :: q₂)) (hwf : LawfulAllocator.WF p)
    (hlive : ∀ a ∈ ptrs ptr (q₁ ++ r :: q₂), LawfulAllocator.Live p a) :
    LawfulAllocator.WF (unlink p v (ptr r.id)).1 ∧
      ∀ b, LawfulAllocator.Live (unlink p v (ptr r.id)).1 b ↔ LawfulAllocator.Live p b :=
  unlink_wf v hwf (fun b hb => hlive b (h.prv_mem hb)) fun b hb => hlive b (h.nxt_mem hb)

theorem unlink (h : LevelRepr p ptr s v (q₁ ++ r :: q₂))
    (hnd : (ptrs ptr (q₁ ++ r :: q₂)).Nodup) (hwf : LawfulAllocator.WF p)
    (hlive : ∀ a ∈ ptrs ptr (q₁ ++ r :: q₂), LawfulAllocator.Live p a) :
    LevelRepr (Allocator.destroy (unlink p v (ptr r.id)).1 (ptr r.id)) ptr s
      (unlink p v (ptr r.id)).2 (q₁ ++ q₂) := by
  obtain ⟨hprv, hnxt⟩ := h.links
  obtain ⟨hwf', hlive'⟩ := h.unlink_live hwf hlive
  have hself := (hlive' (ptr r.id)).mpr
    (hlive _ (List.mem_map_of_mem (List.mem_append_right _ List.mem_cons_self)))
  have hne := ptr_ne_of_nodup hnd
  have hderef : ∀ r' ∈ q₁ ++ q₂,
      Allocator.deref (Allocator.destroy (Book.unlink p v (ptr r.id)).1 (ptr r.id)) (ptr r'.id) =
        Allocator.deref (Book.unlink p v (ptr r.id)).1 (ptr r'.id) := fun r' hr' =>
    LawfulAllocator.deref_destroy hwf' hself _ (hne r' hr')
  have hsub : ∀ r' ∈ q₁ ++ q₂, r' ∈ q₁ ++ r :: q₂ := by
    intro r' hr'
    rcases List.mem_append.mp hr' with h' | h'
    · exact List.mem_append_left _ h'
    · exact List.mem_append_right _ (List.mem_cons_of_mem _ h')
  have hqty : (Allocator.deref p (ptr r.id)).qty = r.qty :=
    (h.node r (List.mem_append_right _ List.mem_cons_self)).qty
  refine ⟨fun r' hr' => ?_, ?_, ?_, ?_, ?_, ?_⟩
  · have hn := h.node r' (hsub r' hr')
    rw [hderef r' hr', deref_unlink]
    exact ⟨hn.qty, hn.owner, hn.id, hn.price, hn.level, hn.side⟩
  · have hptrs : ptrs ptr (q₁ ++ q₂) = ptrs ptr q₁ ++ ptrs ptr q₂ := List.map_append
    have hptrs' : ptrs ptr (q₁ ++ r :: q₂) = ptrs ptr q₁ ++ ptr r.id :: ptrs ptr q₂ := by
      simp [ptrs]
    rw [hptrs]
    refine Linked.unlink (hptrs' ▸ hnd) (hptrs' ▸ h.linked) ?_ ?_
    all_goals
      intro b hb
      rw [← hptrs] at hb
      obtain ⟨r', hr', rfl⟩ := List.mem_map.mp hb
    · simp only [nxt, hderef r' hr', deref_unlink]
    · simp only [prv, hderef r' hr', deref_unlink]
  · rw [unlink_level, hprv, hnxt, h.head]
    cases q₁ <;> simp [ptrs]
  · rw [unlink_level, hprv, hnxt, h.tail]
    cases q₂ with
    | nil => simp [ptrs]
    | cons r₂ q₂ => simp [ptrs, List.getLast?_append, List.getLast?_cons]
  · have hle : r.qty.toNat ≤ total (q₁ ++ r :: q₂) := by
      simp only [total_append, total_cons]
      omega
    have heq : total (q₁ ++ q₂) = total (q₁ ++ r :: q₂) - r.qty.toNat := by
      simp only [total_append, total_cons]
      omega
    rw [unlink_level, heq, UInt64.ofNat_sub hle, UInt64.ofNat_uInt32ToNat, ← hqty, ← h.totalQty]
  · have hle : 1 ≤ (q₁ ++ r :: q₂).length := by
      rw [List.length_append, List.length_cons]
      omega
    have heq : (q₁ ++ q₂).length = (q₁ ++ r :: q₂).length - 1 := by simp
    rw [unlink_level, heq, UInt32.ofNat_sub hle, ← h.count]
    rfl

/-- The order `r` loses the quantity `take`. -/
theorem reduce (h : LevelRepr p ptr s v (q₁ ++ r :: q₂))
    (hnd : (ptrs ptr (q₁ ++ r :: q₂)).Nodup) {take : Qty} (htake : take ≤ r.qty) :
    LevelRepr
      (Allocator.write p (ptr r.id) { Allocator.deref p (ptr r.id) with qty := r.qty - take })
      ptr s { v with totalQty := v.totalQty - take.toUInt64 }
      (q₁ ++ { r with qty := r.qty - take } :: q₂) := by
  have hptrs : ptrs ptr (q₁ ++ { r with qty := r.qty - take } :: q₂) = ptrs ptr (q₁ ++ r :: q₂) := by
    simp [ptrs]
  have hnode := h.node r (List.mem_append_right _ List.mem_cons_self)
  have hne := ptr_ne_of_nodup hnd
  have hlinks : ∀ b, prv (Allocator.write p (ptr r.id)
        { Allocator.deref p (ptr r.id) with qty := r.qty - take }) b = prv p b ∧
      nxt (Allocator.write p (ptr r.id)
        { Allocator.deref p (ptr r.id) with qty := r.qty - take }) b = nxt p b := by
    intro b
    unfold prv nxt
    by_cases hb : b = ptr r.id
    · rw [hb, LawfulAllocator.deref_write_self]
      exact ⟨rfl, rfl⟩
    · rw [LawfulAllocator.deref_write _ hb]
      exact ⟨rfl, rfl⟩
  have htake' : take.toNat ≤ r.qty.toNat := htake
  refine ⟨fun r' hr' => ?_, ?_, ?_, ?_, ?_, ?_⟩
  · have hr'' : r' = { r with qty := r.qty - take } ∨ r' ∈ q₁ ++ q₂ := by
      simp only [List.mem_append, List.mem_cons] at hr' ⊢
      tauto
    rcases hr'' with rfl | hr''
    · rw [LawfulAllocator.deref_write_self]
      exact ⟨rfl, hnode.owner, hnode.id, hnode.price, hnode.level, hnode.side⟩
    · rw [LawfulAllocator.deref_write _ (hne r' hr'')]
      refine h.node r' ?_
      simp only [List.mem_append, List.mem_cons] at hr'' ⊢
      tauto
  · rw [hptrs]
    exact h.linked.congr fun b _ => hlinks b
  · rw [hptrs]; exact h.head
  · rw [hptrs]; exact h.tail
  · have hle : take.toNat ≤ total (q₁ ++ r :: q₂) := by
      simp only [total_append, total_cons]
      omega
    have heq : total (q₁ ++ { r with qty := r.qty - take } :: q₂) =
        total (q₁ ++ r :: q₂) - take.toNat := by
      simp only [total_append, total_cons, UInt32.toNat_sub_of_le _ _ htake]
      omega
    rw [heq, UInt64.ofNat_sub hle, UInt64.ofNat_uInt32ToNat, ← h.totalQty]
  · rw [h.count]
    simp

variable {q : List Resting} {ptr' : OrderId → A}

/-- The order `r`, in a new node, joins the tail. -/
theorem push (h : LevelRepr p ptr s v q) (hnd : (ptrs ptr q).Nodup) (hwf : LawfulAllocator.WF p)
    (hlive : ∀ a ∈ ptrs ptr q, LawfulAllocator.Live p a)
    (hptr : ∀ r' ∈ q, ptr' r'.id = ptr r'.id) {o : Order A} (ho : NodeRepr o s r)
    (hprev : o.prev = v.tail) (hnext : o.next = none)
    (hnew : ptr' r.id = (Allocator.create p o).1) :
    LevelRepr (linkTail (Allocator.create p o).2 v.tail (ptr' r.id)) ptr' s
      (pushLevel (ptr' r.id) r.qty v) (q ++ [r]) := by
  have hptrs : ptrs ptr' q = ptrs ptr q := List.map_congr_left hptr
  have hfresh : ptr' r.id ∉ ptrs ptr q := by
    intro hmem
    rw [hnew] at hmem
    exact LawfulAllocator.create_fresh hwf o (hlive _ hmem)
  -- the nodes already queued keep everything but the `next` of the last one
  have hold : ∀ r' ∈ q,
      Allocator.deref (linkTail (Allocator.create p o).2 v.tail (ptr' r.id)) (ptr r'.id) =
        { Allocator.deref p (ptr r'.id) with
          next := if v.tail = some (ptr r'.id) then some (ptr' r.id) else nxt p (ptr r'.id) } := by
    intro r' hr'
    rw [deref_linkTail, LawfulAllocator.deref_create hwf o _ (hlive _ (List.mem_map_of_mem hr'))]
    rfl
  have hself : Allocator.deref (linkTail (Allocator.create p o).2 v.tail (ptr' r.id))
      (ptr' r.id) = o := by
    have hnt : ¬ v.tail = some (ptr' r.id) := fun hc => hfresh (h.tail_mem hc)
    rw [deref_linkTail, if_neg hnt, hnew, LawfulAllocator.deref_create_self hwf]
  refine ⟨fun r' hr' => ?_, ?_, ?_, ?_, ?_, ?_⟩
  · rcases List.mem_append.mp hr' with hr' | hr'
    · have hn := h.node r' hr'
      rw [hptr r' hr', hold r' hr']
      exact ⟨hn.qty, hn.owner, hn.id, hn.price, hn.level, hn.side⟩
    · rw [List.mem_singleton.mp hr', hself]
      exact ho
  · have hsplit : ptrs ptr' (q ++ [r]) = ptrs ptr q ++ [ptr' r.id] := by
      rw [← hptrs]
      simp [ptrs]
    rw [hsplit]
    refine h.linked.push hnd ?_ ?_ ?_
    · rw [prv, hself, hprev, h.tail]
    · rw [nxt, hself, hnext]
    · intro b hb
      obtain ⟨r', hr', rfl⟩ := List.mem_map.mp hb
      rw [← h.tail, prv, nxt, hold r' hr']
      exact ⟨rfl, rfl⟩
  · simp only [pushLevel, h.head, h.tail]
    cases q with
    | nil => simp [ptrs]
    | cons r₀ q =>
        have h0 : ptr' r₀.id = ptr r₀.id := hptr r₀ List.mem_cons_self
        simp [ptrs, h0]
  · simp [pushLevel, ptrs]
  · simp only [pushLevel, h.totalQty, total_append, total_cons, total_nil, Nat.add_zero,
      UInt64.ofNat_add, UInt64.ofNat_uInt32ToNat]
  · simp only [pushLevel, h.count, List.length_append, List.length_singleton, UInt32.ofNat_add]
    rfl

end LevelRepr

end nodes

/-! ### Edits of one order -/

namespace Flat

variable {F : Flat} {s t : Side} {r r' : Resting}

theorem id_ne_of_split (h : F.ids.Nodup) {px : Int} {q₁ q₂ : List Resting}
    (hq : level Resting.price px (F.side s) = q₁ ++ r :: q₂) : ∀ r' ∈ q₁ ++ q₂, r'.id ≠ r.id := by
  have hnd : (ptrs (fun k => k) (q₁ ++ r :: q₂)).Nodup := by
    rw [← hq]
    exact (side_nodup h s).sublist ((List.filter_sublist).map _)
  exact ptr_ne_of_nodup hnd

/-- Removing an order takes it out of its own level only. -/
theorem level_remove (h : F.ids.Nodup) (hr : r ∈ F.side s) {q₁ q₂ : List Resting}
    (hq : level Resting.price r.price (F.side s) = q₁ ++ r :: q₂) (t : Side) (px : Int) :
    level Resting.price px ((F.remove r.id).side t) =
      if t = s ∧ px = r.price then q₁ ++ q₂ else level Resting.price px (F.side t) := by
  rw [side_remove, level_filter]
  split_ifs with hc
  · obtain ⟨rfl, rfl⟩ := hc
    have hne := id_ne_of_split h hq
    rw [hq, List.filter_append, List.filter_cons_of_neg (by simp), ← List.filter_append]
    exact List.filter_eq_self.mpr (by simpa using hne)
  · refine List.filter_eq_self.mpr ?_
    intro r' hr'
    obtain ⟨hm, hp⟩ := mem_level.mp hr'
    simp only [ne_eq, decide_eq_true_eq]
    intro he
    obtain ⟨rfl, rfl⟩ := eq_of_id h hm hr he
    exact hc ⟨rfl, hp.symm⟩

/-- Amending an order changes it in its own level only. -/
theorem level_amend (h : F.ids.Nodup) (hr : r ∈ F.side s) {q₁ q₂ : List Resting}
    (hq : level Resting.price r.price (F.side s) = q₁ ++ r :: q₂) (n : Qty) (t : Side) (px : Int) :
    level Resting.price px ((F.amend r.id n).side t) =
      if t = s ∧ px = r.price then q₁ ++ { r with qty := n } :: q₂
      else level Resting.price px (F.side t) := by
  have hprice : ∀ a : Resting,
      (if a.id = r.id then { a with qty := n } else a).price = a.price := by
    intro a
    split_ifs <;> rfl
  rw [side_amend, level_map hprice]
  split_ifs with hc
  · obtain ⟨rfl, rfl⟩ := hc
    have hne : ∀ q ⊆ q₁ ++ q₂,
        q.map (fun a => if a.id = r.id then { a with qty := n } else a) = q := by
      intro q hsub
      refine (List.map_congr_left fun a ha => if_neg ?_).trans (List.map_id q)
      exact id_ne_of_split h hq a (hsub ha)
    rw [hq, List.map_append, List.map_cons, if_pos rfl, hne q₁ (List.subset_append_left _ _),
      hne q₂ (List.subset_append_right _ _)]
  · refine (List.map_congr_left ?_).trans (List.map_id _)
    intro r' hr'
    obtain ⟨hm, hp⟩ := mem_level.mp hr'
    refine if_neg fun he => ?_
    obtain ⟨rfl, rfl⟩ := eq_of_id h hm hr he
    exact hc ⟨rfl, hp.symm⟩

theorem id_ne_of_head (h : F.ids.Nodup) {q : List Resting} (hq : F.side s = r :: q) :
    ∀ t, ∀ r' ∈ F.side t, (t = s → r' ∈ q) → r'.id ≠ r.id := by
  intro t r' hr' hmem he
  have hr : r ∈ F.side s := by rw [hq]; exact List.mem_cons_self
  obtain ⟨rfl, rfl⟩ := eq_of_id h hr' hr he
  have hnd := List.Nodup.of_map _ (side_nodup h t)
  rw [hq] at hnd
  exact (List.nodup_cons.mp hnd).1 (hmem rfl)

/-- Removing the front of a side. -/
theorem remove_head (h : F.ids.Nodup) {q : List Resting} (hq : F.side s = r :: q) :
    F.remove r.id = F.withSide s q := by
  have hne := id_ne_of_head h hq
  refine ext_side fun t => ?_
  rw [side_remove, side_withSide]
  split_ifs with ht
  · subst ht
    rw [hq, List.filter_cons_of_neg (by simp)]
    refine List.filter_eq_self.mpr fun r' hr' => ?_
    simpa using hne t r' (by rw [hq]; exact List.mem_cons_of_mem _ hr') fun _ => hr'
  · refine List.filter_eq_self.mpr fun r' hr' => ?_
    simpa using hne t r' hr' fun e => absurd e ht

/-- Amending the front of a side. -/
theorem amend_head (h : F.ids.Nodup) {q : List Resting} (hq : F.side s = r :: q) (n : Qty) :
    F.amend r.id n = F.withSide s ({ r with qty := n } :: q) := by
  have hne := id_ne_of_head h hq
  refine ext_side fun t => ?_
  rw [side_amend, side_withSide]
  split_ifs with ht
  · subst ht
    rw [hq, List.map_cons, if_pos rfl]
    congr 1
    refine (List.map_congr_left fun r' hr' => if_neg ?_).trans (List.map_id q)
    exact hne t r' (by rw [hq]; exact List.mem_cons_of_mem _ hr') fun _ => hr'
  · refine (List.map_congr_left fun r' hr' => if_neg ?_).trans (List.map_id _)
    exact hne t r' hr' fun e => absurd e ht

end Flat

/-! ### Whole books -/

/-- The levels `lv`, with the one at price `px` of side `s` replaced. -/
def setLv {A : Type} (lv : Side → Int → Level A) (s : Side) (px : Int) (v : Level A) :
    Side → Int → Level A :=
  fun t q => if t = s ∧ q = px then v else lv t q

@[simp] theorem setLv_self {A : Type} (lv : Side → Int → Level A) (s : Side) (px : Int)
    (v : Level A) : setLv lv s px v s px = v := if_pos ⟨rfl, rfl⟩

@[simp] theorem setLv_setLv {A : Type} (lv : Side → Int → Level A) (s : Side) (px : Int)
    (v w : Level A) : setLv (setLv lv s px v) s px w = setLv lv s px w := by
  funext t q
  simp only [setLv]
  split_ifs <;> rfl

section core

variable {A I P : Type} [Index I A] [Allocator P A (Order A)] [LawfulIndex I A]
  [LawfulAllocator P A (Order A)]

/-- Nodes `p`, index `i` and levels `lv` hold the book `F`, the order `k` in the node
`ptr k`. -/
structure Core (p : P) (i : I) (lv : Side → Int → Level A) (band : Int → Bool) (F : Flat)
    (ptr : OrderId → A) : Prop where
  pool_wf : LawfulAllocator.WF p
  index_wf : LawfulIndex.WF i
  nodup : F.ids.Nodup
  key : ∀ k ∈ F.ids, LawfulIndex.Key I k
  in_band : ∀ s, ∀ r ∈ F.side s, band r.price = true
  find : ∀ k, Index.find i k = if k ∈ F.ids then some (ptr k) else none
  size : Index.size i = F.ids.length
  ptr_inj : ∀ k ∈ F.ids, ∀ k' ∈ F.ids, ptr k = ptr k' → k = k'
  live : ∀ a, LawfulAllocator.Live p a ↔ ∃ k ∈ F.ids, ptr k = a
  level : ∀ s px, band px = true → LevelRepr p ptr s (lv s px) (level Resting.price px (F.side s))

namespace Core

variable {p : P} {i : I} {lv lv' : Side → Int → Level A} {band : Int → Bool} {F : Flat}
  {ptr : OrderId → A} {s t : Side} {r r' : Resting}

theorem live_of_mem (h : Core p i lv band F ptr) (hr : r ∈ F.side s) :
    LawfulAllocator.Live p (ptr r.id) := (h.live _).mpr ⟨r.id, Flat.mem_ids_of_mem hr, rfl⟩

theorem ptrs_nodup (h : Core p i lv band F ptr) (s : Side) (px : Int) :
    (ptrs ptr (KeyedQueue.level Resting.price px (F.side s))).Nodup := by
  have hmem : ∀ r ∈ KeyedQueue.level Resting.price px (F.side s), r ∈ F.side s :=
    fun r hr => (mem_level.mp hr).1
  refine List.Nodup.map_on ?_ ?_
  · intro r hr r' hr' he
    have hid := h.ptr_inj _ (Flat.mem_ids_of_mem (hmem r hr)) _ (Flat.mem_ids_of_mem (hmem r' hr')) he
    exact (Flat.eq_of_id h.nodup (hmem r hr) (hmem r' hr') hid).2
  · exact level_nodup (List.Nodup.of_map _ (Flat.side_nodup h.nodup s))

/-- Orders of different levels are in different nodes. -/
theorem ptr_ne (h : Core p i lv band F ptr) (hr : r ∈ F.side s) (hr' : r' ∈ F.side t)
    (hne : ¬ (t = s ∧ r'.price = r.price)) : ptr r'.id ≠ ptr r.id := by
  intro he
  have hid := h.ptr_inj _ (Flat.mem_ids_of_mem hr') _ (Flat.mem_ids_of_mem hr) he
  obtain ⟨rfl, rfl⟩ := Flat.eq_of_id h.nodup hr' hr hid
  exact hne ⟨rfl, rfl⟩

theorem not_mem_ptrs (h : Core p i lv band F ptr) (hr : r ∈ F.side t) {px : Int}
    (hne : ¬ (t = s ∧ r.price = px)) :
    ptr r.id ∉ ptrs ptr (KeyedQueue.level Resting.price px (F.side s)) := by
  intro hmem
  obtain ⟨r', hr', he⟩ := List.mem_map.mp hmem
  obtain ⟨hmem', rfl⟩ := mem_level.mp hr'
  exact h.ptr_ne hmem' hr hne he.symm

theorem live_ptrs (h : Core p i lv band F ptr) (s : Side) (px : Int) :
    ∀ a ∈ ptrs ptr (KeyedQueue.level Resting.price px (F.side s)), LawfulAllocator.Live p a := by
  intro a ha
  obtain ⟨r, hr, rfl⟩ := List.mem_map.mp ha
  exact h.live_of_mem (mem_level.mp hr).1

/-- A level keeps its queue where nothing is written to its nodes. -/
theorem level_frame (h : Core p i lv band F ptr) {px : Int} (hpx : band px = true) {p' : P}
    {ptr' : OrderId → A} (hptr : ∀ k ∈ F.ids, ptr' k = ptr k)
    (hderef : ∀ r ∈ F.side s, r.price = px →
      Allocator.deref p' (ptr r.id) = Allocator.deref p (ptr r.id)) :
    LevelRepr p' ptr' s (lv s px) (KeyedQueue.level Resting.price px (F.side s)) :=
  (h.level s px hpx).congr (fun _ hr => hptr _ (Flat.mem_ids_of_mem (mem_level.mp hr).1))
    fun r hr => hderef r (mem_level.mp hr).1 (mem_level.mp hr).2

theorem node (h : Core p i lv band F ptr) (hr : r ∈ F.side s) :
    NodeRepr (Allocator.deref p (ptr r.id)) s r :=
  (h.level s r.price (h.in_band s r hr)).node r (mem_level.mpr ⟨hr, rfl⟩)

/-- The levels may be exchanged where no order rests. -/
theorem with_levels (h : Core p i lv band F ptr)
    (hlv : ∀ s px, band px = true → lv' s px = lv s px ∨
      (KeyedQueue.level Resting.price px (F.side s) = [] ∧ (lv' s px).Blank)) :
    Core p i lv' band F ptr :=
  { h with
    level := fun s px hpx => by
      rcases hlv s px hpx with he | ⟨hnil, hb⟩
      · rw [he]
        exact h.level s px hpx
      · rw [hnil]
        exact LevelRepr.blank_iff hb }

theorem with_price (h : Core p i lv band F ptr) (s : Side) (px : Int) :
    Core p i (setLv lv s px { lv s px with price := px }) band F ptr :=
  { h with
    level := fun t q hq => by
      simp only [setLv]
      split_ifs with hc
      · rw [hc.1, hc.2]
        exact (h.level s px (hc.2 ▸ hq)).with_price px
      · exact h.level t q hq }

/-! ### Leaving and arriving -/

theorem find_erase (h : Core p i lv band F ptr) {id : OrderId} (hid : id ∈ F.ids) (k : OrderId) :
    Index.find (Index.erase i id) k = if k ∈ (F.remove id).ids then some (ptr k) else none := by
  have hfound : Index.find i id ≠ none := by
    rw [h.find, if_pos hid]
    simp
  rw [LawfulIndex.find_erase h.index_wf (h.key _ hid) hfound, h.find]
  by_cases hk : k = id
  · simp [hk, Flat.mem_ids_remove]
  · simp [hk, Flat.mem_ids_remove]

theorem size_erase (h : Core p i lv band F ptr) {id : OrderId} (hid : id ∈ F.ids) :
    Index.size (Index.erase i id) = (F.remove id).ids.length := by
  have hfound : Index.find i id ≠ none := by
    rw [h.find, if_pos hid]
    simp
  have hsize := LawfulIndex.size_erase h.index_wf (h.key _ hid) hfound
  have hlen := Flat.length_ids_remove h.nodup hid
  rw [h.size] at hsize
  omega

theorem live_remove (h : Core p i lv band F ptr) {id : OrderId} (hid : id ∈ F.ids) (a : A) :
    LawfulAllocator.Live p a ∧ a ≠ ptr id ↔ ∃ k ∈ (F.remove id).ids, ptr k = a := by
  rw [h.live]
  constructor
  · rintro ⟨⟨k, hk, rfl⟩, hne⟩
    exact ⟨k, Flat.mem_ids_remove.mpr ⟨hk, fun e => hne (by rw [e])⟩, rfl⟩
  · rintro ⟨k, hk, rfl⟩
    obtain ⟨hk, hne⟩ := Flat.mem_ids_remove.mp hk
    exact ⟨⟨k, hk, rfl⟩, fun e => hne (h.ptr_inj k hk _ hid e)⟩

section arrival

variable {ptr' : OrderId → A}

theorem find_insert (h : Core p i lv band F ptr) (hid : LawfulIndex.Key I r.id) (hnew : r.id ∉ F.ids)
    (hold : ∀ k ∈ F.ids, ptr' k = ptr k) (k : OrderId) :
    Index.find (Index.insert i r.id (ptr' r.id)) k =
      if k ∈ (F.rest s r).ids then some (ptr' k) else none := by
  have habs : Index.find i r.id = none := by rw [h.find, if_neg hnew]
  rw [LawfulIndex.find_insert h.index_wf hid habs, h.find]
  by_cases hk : k = r.id
  · simp [hk, Flat.mem_ids_rest]
  · by_cases hm : k ∈ F.ids
    · simp [hk, Flat.mem_ids_rest, hm, hold k hm]
    · simp [hk, Flat.mem_ids_rest, hm]

theorem ptr_inj_rest (h : Core p i lv band F ptr) (hfresh : ¬ LawfulAllocator.Live p (ptr' r.id))
    (hold : ∀ k ∈ F.ids, ptr' k = ptr k) :
    ∀ k ∈ (F.rest s r).ids, ∀ k' ∈ (F.rest s r).ids, ptr' k = ptr' k' → k = k' := by
  have hne : ∀ k ∈ F.ids, ptr k ≠ ptr' r.id := fun k hk he =>
    hfresh (he ▸ (h.live _).mpr ⟨k, hk, rfl⟩)
  intro k hk k' hk' he
  rcases Flat.mem_ids_rest.mp hk with rfl | hk <;> rcases Flat.mem_ids_rest.mp hk' with rfl | hk'
  · rfl
  · rw [hold k' hk'] at he
    exact absurd he.symm (hne k' hk')
  · rw [hold k hk] at he
    exact absurd he (hne k hk)
  · rw [hold k hk, hold k' hk'] at he
    exact h.ptr_inj k hk k' hk' he

theorem live_rest (h : Core p i lv band F ptr) (hold : ∀ k ∈ F.ids, ptr' k = ptr k) (a : A) :
    a = ptr' r.id ∨ LawfulAllocator.Live p a ↔ ∃ k ∈ (F.rest s r).ids, ptr' k = a := by
  rw [h.live]
  constructor
  · rintro (rfl | ⟨k, hk, rfl⟩)
    · exact ⟨r.id, Flat.mem_ids_rest.mpr (Or.inl rfl), rfl⟩
    · exact ⟨k, Flat.mem_ids_rest.mpr (Or.inr hk), hold k hk⟩
  · rintro ⟨k, hk, rfl⟩
    rcases Flat.mem_ids_rest.mp hk with rfl | hk
    · exact Or.inl rfl
    · exact Or.inr ⟨k, hk, (hold k hk).symm⟩

end arrival

variable [DecidableEq A]

/-- **An order leaves.** -/
theorem drop (h : Core p i lv band F ptr) (hr : r ∈ F.side s) :
    Core (Allocator.destroy (unlink p (lv s r.price) (ptr r.id)).1 (ptr r.id))
      (Index.erase i r.id) (setLv lv s r.price (unlink p (lv s r.price) (ptr r.id)).2) band
      (F.remove r.id) ptr := by
  have hid := Flat.mem_ids_of_mem hr
  have hlevel := h.level s r.price (h.in_band s r hr)
  obtain ⟨q₁, q₂, hq⟩ := List.append_of_mem (mem_level.mpr ⟨hr, rfl⟩ :
    r ∈ KeyedQueue.level Resting.price r.price (F.side s))
  have hnd := h.ptrs_nodup s r.price
  have hlive := h.live_ptrs s r.price
  rw [hq] at hlevel hnd hlive
  obtain ⟨hwf, hlive'⟩ := hlevel.unlink_live h.pool_wf hlive
  have hself := (hlive' (ptr r.id)).mpr (h.live_of_mem hr)
  refine
    { pool_wf := LawfulAllocator.destroy_wf hwf hself
      index_wf := LawfulIndex.erase_wf h.index_wf (h.key _ hid) ?_
      nodup := Flat.nodup_ids_remove h.nodup r.id
      key := fun k hk => h.key k (Flat.mem_ids_remove.mp hk).1
      in_band := ?_
      find := h.find_erase hid
      size := h.size_erase hid
      ptr_inj := fun k hk k' hk' =>
        h.ptr_inj k (Flat.mem_ids_remove.mp hk).1 k' (Flat.mem_ids_remove.mp hk').1
      live := fun a => by
        rw [LawfulAllocator.destroy_live hwf hself, hlive', h.live_remove hid]
      level := ?_ }
  · rw [h.find, if_pos hid]
    simp
  · intro t r' hr'
    rw [Flat.side_remove] at hr'
    exact h.in_band t r' (List.mem_of_mem_filter hr')
  · intro t px hpx
    rw [Flat.level_remove h.nodup hr hq]
    simp only [setLv]
    split_ifs with hc
    · obtain ⟨rfl, rfl⟩ := hc
      exact hlevel.unlink hnd h.pool_wf hlive
    · refine h.level_frame hpx (fun _ _ => rfl) ?_
      rintro r' hr' rfl
      -- a node of another level is no neighbour of the one that leaves
      have hout := h.not_mem_ptrs hr' hc
      rw [hq] at hout
      rw [LawfulAllocator.deref_destroy hwf hself _ (h.ptr_ne hr hr' hc), deref_unlink,
        if_neg fun hb => hout (hlevel.prv_mem hb), if_neg fun hb => hout (hlevel.nxt_mem hb)]

/-- **An order loses quantity.** -/
theorem reduce (h : Core p i lv band F ptr) (hr : r ∈ F.side s) {take : Qty}
    (htake : take ≤ r.qty) :
    Core (Allocator.write p (ptr r.id) { Allocator.deref p (ptr r.id) with qty := r.qty - take }) i
      (setLv lv s r.price
        { lv s r.price with totalQty := (lv s r.price).totalQty - take.toUInt64 })
      band (F.amend r.id (r.qty - take)) ptr := by
  have hlevel := h.level s r.price (h.in_band s r hr)
  have hlive := h.live_of_mem hr
  obtain ⟨q₁, q₂, hq⟩ := List.append_of_mem (mem_level.mpr ⟨hr, rfl⟩ :
    r ∈ KeyedQueue.level Resting.price r.price (F.side s))
  have hnd := h.ptrs_nodup s r.price
  rw [hq] at hlevel hnd
  refine
    { pool_wf := LawfulAllocator.write_wf h.pool_wf hlive _
      index_wf := h.index_wf
      nodup := by rw [Flat.ids_amend]; exact h.nodup
      key := by rw [Flat.ids_amend]; exact h.key
      in_band := ?_
      find := by rw [Flat.ids_amend]; exact h.find
      size := by rw [Flat.ids_amend]; exact h.size
      ptr_inj := by rw [Flat.ids_amend]; exact h.ptr_inj
      live := fun a => by
        rw [Flat.ids_amend, LawfulAllocator.write_live h.pool_wf hlive, h.live]
      level := ?_ }
  · intro t r' hr'
    rw [Flat.side_amend] at hr'
    obtain ⟨r₀, hr₀, rfl⟩ := List.mem_map.mp hr'
    have := h.in_band t r₀ hr₀
    split_ifs <;> exact this
  · intro t px hpx
    rw [Flat.level_amend h.nodup hr hq]
    simp only [setLv]
    split_ifs with hc
    · obtain ⟨rfl, rfl⟩ := hc
      exact hlevel.reduce hnd htake
    · refine h.level_frame hpx (fun _ _ => rfl) ?_
      rintro r' hr' rfl
      exact LawfulAllocator.deref_write _ (h.ptr_ne hr hr' hc)

/-- **An order arrives.** -/
theorem push (h : Core p i lv band F ptr)
    (hordered : ∀ s, Ordered (better s) Resting.price (F.side s)) (hid : LawfulIndex.Key I r.id)
    (hnew : r.id ∉ F.ids) (hpx : band r.price = true) {o : Order A} (ho : NodeRepr o s r)
    (hprev : o.prev = (lv s r.price).tail) (hnext : o.next = none) {ptr' : OrderId → A}
    (hself : ptr' r.id = (Allocator.create p o).1) (hold : ∀ k ∈ F.ids, ptr' k = ptr k) :
    Core (linkTail (Allocator.create p o).2 (lv s r.price).tail (ptr' r.id))
      (Index.insert i r.id (ptr' r.id))
      (setLv lv s r.price (pushLevel (ptr' r.id) r.qty (lv s r.price))) band (F.rest s r) ptr' := by
  have hlevel := h.level s r.price hpx
  have hfresh : ¬ LawfulAllocator.Live p (ptr' r.id) :=
    hself ▸ LawfulAllocator.create_fresh h.pool_wf o
  obtain ⟨hwf', hlive'⟩ := linkTail_wf (ptr' r.id) (LawfulAllocator.create_wf h.pool_wf o)
    (t := (lv s r.price).tail) fun b hb =>
      (LawfulAllocator.create_live h.pool_wf o b).mpr
        (Or.inr (h.live_ptrs s r.price b (hlevel.tail_mem hb)))
  -- the other levels do not see the new node
  have hother : ∀ t px, band px = true → ¬ (t = s ∧ px = r.price) →
      LevelRepr (linkTail (Allocator.create p o).2 (lv s r.price).tail (ptr' r.id)) ptr' t
        (lv t px) (KeyedQueue.level Resting.price px (F.side t)) := by
    intro t px hpx' hc
    refine h.level_frame hpx' hold ?_
    rintro r' hr' rfl
    rw [deref_linkTail, if_neg fun hb => h.not_mem_ptrs hr' hc (hlevel.tail_mem hb),
      LawfulAllocator.deref_create h.pool_wf o _ (h.live_of_mem hr')]
  refine
    { pool_wf := hwf'
      index_wf := LawfulIndex.insert_wf h.index_wf hid ?_ _
      nodup := Flat.nodup_ids_rest.mpr ⟨hnew, h.nodup⟩
      key := ?_
      in_band := ?_
      find := h.find_insert hid hnew hold
      size := ?_
      ptr_inj := h.ptr_inj_rest hfresh hold
      live := fun a => by
        rw [hlive', LawfulAllocator.create_live h.pool_wf, ← hself, h.live_rest hold]
      level := ?_ }
  · rw [h.find, if_neg hnew]
  · intro k hk
    rcases Flat.mem_ids_rest.mp hk with rfl | hk
    · exact hid
    · exact h.key k hk
  · intro t r' hr'
    rcases Flat.mem_rest.mp hr' with ⟨-, rfl⟩ | hr'
    · exact hpx
    · exact h.in_band t r' hr'
  · have habs : Index.find i r.id = none := by rw [h.find, if_neg hnew]
    rw [LawfulIndex.size_insert h.index_wf hid habs, h.size, Flat.ids_rest.length_eq,
      List.length_cons]
  · intro t px hpx'
    simp only [setLv, Flat.rest, Flat.side_withSide]
    by_cases ht : t = s
    · subst ht
      rw [if_pos rfl, (hordered t).level_enqueue]
      by_cases hp : r.price = px
      · subst hp
        rw [if_pos rfl, if_pos ⟨rfl, rfl⟩]
        exact hlevel.push (h.ptrs_nodup t r.price) h.pool_wf (h.live_ptrs t r.price)
          (fun r' hr' => hold _ (Flat.mem_ids_of_mem (mem_level.mp hr').1)) ho hprev hnext hself
      · have hc : ¬ (t = t ∧ px = r.price) := fun hc => hp hc.2.symm
        rw [if_neg hp, if_neg hc]
        exact hother t px hpx' hc
    · have hc : ¬ (t = s ∧ px = r.price) := fun hc => ht hc.1
      rw [if_neg ht, if_neg hc]
      exact hother t px hpx' hc

end Core

end core

end Lob
