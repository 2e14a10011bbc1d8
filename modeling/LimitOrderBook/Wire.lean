import Mathlib.Algebra.Group.Nat.Defs
import Mathlib.Data.List.Basic
import Mathlib.Tactic.Common

/-! # Little-endian fields

A field of `w` bytes holds a natural number, least significant byte first: `bytes w n` writes it
and `value` reads it back (`value_bytes`).  `Reader` consumes a byte string from the front;
`Reader.field w` takes one field and fails when fewer than `w` bytes are left.  `Reads` says that a
computation takes exactly the given bytes, `Consumes` what it can have taken when it succeeds.

A memory is a function from addresses to bytes; `store` writes a string at an address and `load`
reads one.  `store?` and `load?` are the accesses to a buffer, which fail where they leave it. -/

namespace Wire

/-- The `w` low bytes of `n`. -/
def bytes : ℕ → ℕ → List UInt8
  | 0, _ => []
  | w + 1, n => UInt8.ofNat n :: bytes w (n / 256)

/-- The number held by the bytes. -/
def value : List UInt8 → ℕ
  | [] => 0
  | b :: bs => b.toNat + 256 * value bs

@[simp] theorem length_bytes (w n : ℕ) : (bytes w n).length = w := by
  induction w generalizing n with
  | zero => rfl
  | succ w ih => rw [bytes, List.length_cons, ih]

theorem value_bytes {w n : ℕ} (h : n < 256 ^ w) : value (bytes w n) = n := by
  induction w generalizing n with
  | zero =>
      rw [Nat.pow_zero] at h
      simp only [bytes, value]
      omega
  | succ w ih =>
      have hdiv : n / 256 < 256 ^ w := by
        rw [Nat.pow_succ] at h
        exact Nat.div_lt_of_lt_mul (Nat.mul_comm _ _ ▸ h)
      rw [bytes, value, ih hdiv, UInt8.toNat_ofNat']
      omega

theorem bytes_value (bs : List UInt8) : bytes bs.length (value bs) = bs := by
  induction bs with
  | nil => rfl
  | cons b bs ih =>
      have hlt := b.toNat_lt
      have hdiv : (b.toNat + 256 * value bs) / 256 = value bs := by omega
      have hmod : UInt8.ofNat (b.toNat + 256 * value bs) = b := by
        apply UInt8.toNat_inj.mp
        rw [UInt8.toNat_ofNat']
        omega
      rw [List.length_cons, value, bytes, hdiv, hmod, ih]

theorem value_lt (bs : List UInt8) : value bs < 256 ^ bs.length := by
  induction bs with
  | nil => exact Nat.one_pos
  | cons b bs ih =>
      have hlt := b.toNat_lt
      rw [value, List.length_cons, Nat.pow_succ]
      omega

/-! ### Reading -/

/-- A computation that consumes bytes from the front of a string, or fails. -/
abbrev Reader := StateT (List UInt8) Option

namespace Reader

def field (w : ℕ) : Reader ℕ := fun bs =>
  if w ≤ bs.length then some (value (bs.take w), bs.drop w) else none

theorem field_append {w : ℕ} {field₀ : List UInt8} (h : field₀.length = w) (bs : List UInt8) :
    field w (field₀ ++ bs) = some (value field₀, bs) := by
  rw [field, if_pos (by rw [List.length_append]; omega), List.take_left' h, List.drop_left' h]

theorem field_bytes {w n : ℕ} (h : n < 256 ^ w) (bs : List UInt8) :
    field w (bytes w n ++ bs) = some (n, bs) := by
  rw [field_append (length_bytes w n), value_bytes h]

/-- The computation takes these bytes and returns `a`, whatever follows them. -/
def Reads {α : Type} (get : Reader α) (put : List UInt8) (a : α) : Prop :=
  ∀ bs, get (put ++ bs) = some (a, bs)

namespace Reads

variable {α β : Type} {get : Reader α} {put put' : List UInt8} {a : α} {b : β}

theorem pure (a : α) : Reads (Pure.pure a) [] a := fun _ => rfl

theorem bind {k : α → Reader β} (h : Reads get put a) (hk : Reads (k a) put' b) :
    Reads (get >>= k) (put ++ put') b := by
  intro bs
  have hget := h (put' ++ bs)
  simp only [Bind.bind, StateT.bind, List.append_assoc, hget, Option.bind_some]
  exact hk bs

/-- The last field of a message. -/
theorem last {f : α → β} (h : Reads get put a) :
    Reads (get >>= fun x => Pure.pure (f x)) put (f a) := by
  have hbind := h.bind (k := fun x => Pure.pure (f x)) (Reads.pure (f a))
  rwa [List.append_nil] at hbind

theorem map {f : α → β} (h : Reads get put a) : Reads (f <$> get) put (f a) := by
  intro bs
  have hget := h bs
  simp only [Functor.map, StateT.map, hget, Option.bind_eq_bind, Option.bind_some]
  rfl

theorem field {w n : ℕ} (h : n < 256 ^ w) : Reads (Reader.field w) (bytes w n) n :=
  field_bytes h

end Reads

/-- Where the computation succeeds, the bytes it took and what it returns are related by `Q`. -/
def Consumes {α : Type} (get : Reader α) (Q : α → List UInt8 → Prop) : Prop :=
  ∀ bs a rest, get bs = some (a, rest) → ∃ put, bs = put ++ rest ∧ Q a put

namespace Consumes

variable {α β : Type} {get : Reader α} {Q : α → List UInt8 → Prop} {R : β → List UInt8 → Prop}

theorem pure {b : β} (h : R b []) : Consumes (Pure.pure b) R := by
  intro bs a rest hget
  obtain ⟨rfl, rfl⟩ := Prod.mk.inj (Option.some.inj hget)
  exact ⟨[], rfl, h⟩

theorem bind {k : α → Reader β} (h : Consumes get Q)
    (hk : ∀ a put, Q a put → Consumes (k a) fun b put' => R b (put ++ put')) :
    Consumes (get >>= k) R := by
  intro bs b rest hget
  obtain ⟨⟨a, mid⟩, ha, hb⟩ := Option.bind_eq_some_iff.mp hget
  obtain ⟨put, rfl, hQ⟩ := h bs a mid ha
  obtain ⟨put', rfl, hR⟩ := hk a put hQ mid b rest hb
  exact ⟨put ++ put', (List.append_assoc ..).symm, hR⟩

theorem map {f : α → β} (h : Consumes get Q) (hf : ∀ a put, Q a put → R (f a) put) :
    Consumes (f <$> get) R := by
  intro bs b rest hget
  obtain ⟨⟨a, mid⟩, ha, hb⟩ := Option.bind_eq_some_iff.mp hget
  obtain ⟨rfl, rfl⟩ := Prod.mk.inj (Option.some.inj hb)
  obtain ⟨put, rfl, hQ⟩ := h bs a mid ha
  exact ⟨put, rfl, hf a put hQ⟩

/-- A check of what was read. -/
theorem lift {x : Option α} (h : ∀ a, x = some a → Q a []) : Consumes (StateT.lift x) Q := by
  intro bs a rest hget
  obtain ⟨a', ha, hb⟩ := Option.bind_eq_some_iff.mp hget
  obtain ⟨rfl, rfl⟩ := Prod.mk.inj (Option.some.inj hb)
  exact ⟨[], rfl, h a' ha⟩

theorem field (w : ℕ) :
    Consumes (Reader.field w) fun n put => put = bytes w n ∧ n < 256 ^ w := by
  intro bs n rest hget
  unfold Reader.field at hget
  split_ifs at hget with hw
  obtain ⟨rfl, rfl⟩ := Prod.mk.inj (Option.some.inj hget)
  have hlen : (bs.take w).length = w := List.length_take_of_le hw
  have hvalue := bytes_value (bs.take w)
  have hlt := value_lt (bs.take w)
  rw [hlen] at hvalue hlt
  exact ⟨bs.take w, (List.take_append_drop w bs).symm, hvalue.symm, hlt⟩

end Consumes

end Reader

/-! ### Memory -/

/-- The memory after the string is written at `pos`. -/
def store (mem : ℕ → UInt8) (pos : ℕ) (bs : List UInt8) : ℕ → UInt8 :=
  fun i => if pos ≤ i ∧ i < pos + bs.length then bs.getD (i - pos) 0 else mem i

/-- The `n` bytes at `pos`. -/
def load (mem : ℕ → UInt8) (pos n : ℕ) : List UInt8 := (List.range n).map fun i => mem (pos + i)

variable {mem mem' : ℕ → UInt8} {pos : ℕ} {bs : List UInt8}

theorem store_of_lt {i : ℕ} (h : i < pos) : store mem pos bs i = mem i := if_neg (by omega)

theorem store_of_le {i : ℕ} (h : pos + bs.length ≤ i) : store mem pos bs i = mem i :=
  if_neg (by omega)

theorem load_congr {n : ℕ} (h : ∀ i < n, mem (pos + i) = mem' (pos + i)) :
    load mem pos n = load mem' pos n :=
  List.map_congr_left fun i hi => h i (List.mem_range.mp hi)

theorem load_add (pos m n : ℕ) : load mem pos (m + n) = load mem pos m ++ load mem (pos + m) n := by
  simp only [load, List.range_add, List.map_append, List.map_map]
  congr 1
  refine List.map_congr_left fun i _ => ?_
  simp only [Function.comp_apply, Nat.add_assoc]

@[simp] theorem length_load (mem : ℕ → UInt8) (pos n : ℕ) : (load mem pos n).length = n := by
  simp [load]

/-- What is read is a piece of what is there. -/
theorem load_slice {n fill : ℕ} (h : pos + n ≤ fill) :
    load mem pos n = ((load mem 0 fill).drop pos).take n := by
  obtain ⟨r, rfl⟩ := Nat.exists_eq_add_of_le h
  rw [Nat.add_assoc, load_add, load_add, Nat.zero_add, List.drop_left' (length_load _ _ _),
    List.take_left' (length_load _ _ _)]

theorem load_store : load (store mem pos bs) pos bs.length = bs := by
  refine List.ext_getElem (by simp [load]) fun i h₁ h₂ => ?_
  simp only [load, List.getElem_map, List.getElem_range, store]
  rw [if_pos ⟨by omega, by omega⟩, Nat.add_sub_cancel_left]
  exact (List.getElem_eq_getD 0).symm

/-! ### Accesses to a buffer -/

/-- The string is written at `pos`, unless that leaves a buffer of `cap` bytes. -/
def store? (cap : ℕ) (mem : ℕ → UInt8) (pos : ℕ) (bs : List UInt8) : Option (ℕ → UInt8) :=
  if pos + bs.length ≤ cap then some (store mem pos bs) else none

/-- The `n` bytes at `pos`, unless they are not all in a buffer of `cap` bytes. -/
def load? (cap : ℕ) (mem : ℕ → UInt8) (pos n : ℕ) : Option (List UInt8) :=
  if pos + n ≤ cap then some (load mem pos n) else none

/-- The difference of two sizes, unless it wraps. -/
def minus? (a b : ℕ) : Option ℕ := if b ≤ a then some (a - b) else none

end Wire
