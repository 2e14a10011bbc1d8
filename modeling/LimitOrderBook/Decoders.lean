import LimitOrderBook.Codec

/-! # What the decoders accept

A decoder skips the byte in front of the payload, which the caller is to have looked at, and takes
the fields of its message behind it: each field determines the bytes it was read from (`Consumes`),
so the decoder returns a message exactly on the payload of that message, whatever the type byte is
(`Message.decodes_iff`).  A payload is one of the type if it has its length and its enumeration
bytes are in range (`MsgType.fits_iff`).

So the bodies on which the decoders accept what the encoders write, and nothing else, are those
where the type byte names every type that the payload fits (`decodersExact_iff`).  A market order
and an execution report have payloads of the same length. -/

namespace Lob

open Wire Frames Reader

/-! ### Fields -/

theorem consumes_u8 : Consumes getU8 fun x put => put = putU8 x := by
  refine (Consumes.field 1).map fun n put h => ?_
  rw [h.1, putU8, UInt8.toNat_ofNat_of_lt' h.2]

theorem consumes_u32 : Consumes getU32 fun x put => put = putU32 x := by
  refine (Consumes.field 4).map fun n put h => ?_
  rw [h.1, putU32, UInt32.toNat_ofNat_of_lt' h.2]

theorem consumes_u64 : Consumes getU64 fun x put => put = putU64 x := by
  refine (Consumes.field 8).map fun n put h => ?_
  rw [h.1, putU64, UInt64.toNat_ofNat_of_lt' h.2]

theorem emod_wrapPrice {n : ℕ} (h : n < 256 ^ 8) :
    (wrapPrice (n : ℕ) % 2 ^ 64).toNat = n ∧ IsPrice (wrapPrice (n : ℕ)) := by
  have hmod : wrapPrice (n : ℕ) % 2 ^ 64 = (n : Int) % 2 ^ 64 := Int.bmod_emod
  have hlow : -(2 ^ 63) ≤ wrapPrice (n : ℕ) := Int.le_bmod (by decide)
  have hhigh : wrapPrice (n : ℕ) < 2 ^ 63 := Int.bmod_lt (by decide)
  refine ⟨?_, hlow, hhigh⟩
  rw [hmod]
  omega

theorem consumes_price : Consumes getPrice fun px put => put = putPrice px ∧ IsPrice px := by
  refine Consumes.map (Q := fun (n : Int) put => ∃ k : ℕ, n = k ∧ put = bytes 8 k ∧ k < 256 ^ 8)
    ((Consumes.field 8).bind fun n put h => .pure ?_) ?_
  · exact ⟨n, rfl, by rw [List.append_nil]; exact h.1, h.2⟩
  · rintro n put ⟨k, rfl, rfl, hk⟩
    obtain ⟨hmod, hprice⟩ := emod_wrapPrice hk
    refine ⟨?_, hprice⟩
    rw [putPrice, hmod]

theorem ofCode?_eq_some {α : Type} {all : List α} {code : α → UInt8} {b : UInt8} {a : α}
    (h : ofCode? all code b = some a) : code a = b := by
  have hfound : decide (code a = b) = true := List.find?_some (p := fun a => decide (code a = b)) h
  exact of_decide_eq_true hfound

theorem consumes_enum {α : Type} (all : List α) (code : α → UInt8) :
    Consumes (getEnum all code) fun a put => put = putU8 (code a) := by
  refine consumes_u8.bind fun b put hput => .lift fun a ha => ?_
  rw [hput, ofCode?_eq_some ha, List.append_nil]

theorem consumes_levels : ∀ n : ℕ, Consumes (getLevels n) fun levels put =>
    put = (levels.toList.flatMap fun l => putPrice l.1 ++ putU64 l.2) ∧ ∀ l ∈ levels, IsPrice l.1
  | 0 => .pure ⟨rfl, fun l hl => absurd hl (Vector.not_mem_empty l)⟩
  | n + 1 => by
      refine (consumes_levels n).bind fun levels put hlevels =>
        consumes_price.bind fun px _ hpx => consumes_u64.bind fun qty _ hqty => .pure ?_
      obtain ⟨rfl, hrange⟩ := hlevels
      obtain ⟨rfl, hprice⟩ := hpx
      subst hqty
      constructor
      · simp [Vector.toList_push]
      · intro l hl
        rcases Vector.mem_push.mp hl with hl | rfl
        · exact hrange l hl
        · exact hprice

/-! ### Messages -/

/-- A body that is accepted holds what the decoder took, behind its type byte. -/
theorem decodeBody_consumes {α : Type} {parse : Reader α} {Q : α → List UInt8 → Prop}
    (h : Consumes parse Q) {body : List UInt8} {m : α} (hm : decodeBody parse body = some m) :
    Q m (body.drop 1) := by
  obtain ⟨⟨m', rest⟩, hparse, hrest⟩ := Option.bind_eq_some_iff.mp hm
  dsimp only at hrest
  split_ifs at hrest with hnil
  obtain rfl := Option.some.inj hrest
  obtain ⟨put, hput, hQ⟩ := h _ _ _ hparse
  rw [hput, hnil, List.append_nil]
  exact hQ

namespace Message

/-- What a decoder says of the bytes behind the type byte. -/
def Taken (m : Message) (payload : List UInt8) : Prop := payload = m.payload ∧ m.InRange

/-- **A decoder takes nothing but the payload of its message.** -/
theorem Decodes.taken {m : Message} {body : List UInt8} (h : m.Decodes body) :
    m.Taken (body.drop 1) := by
  cases m with
  | newOrder m =>
      refine decodeBody_consumes (Q := fun m => (newOrder m).Taken) ?_ h
      refine consumes_u64.bind fun id _ hid => consumes_price.bind fun px _ hpx =>
        consumes_u32.bind fun qty _ hqty => (consumes_enum _ _).bind fun side _ hside =>
        (consumes_enum _ _).bind fun tif _ htif => .pure ?_
      obtain ⟨rfl, hprice⟩ := hpx
      subst hid hqty hside htif
      exact ⟨by simp [payload], hprice⟩
  | cancel m =>
      refine decodeBody_consumes (Q := fun m => (cancel m).Taken) ?_ h
      refine consumes_u64.bind fun id _ hid => .pure ?_
      subst hid
      exact ⟨by simp [payload], trivial⟩
  | modify m =>
      refine decodeBody_consumes (Q := fun m => (modify m).Taken) ?_ h
      refine consumes_u64.bind fun id _ hid => consumes_price.bind fun px _ hpx =>
        consumes_u32.bind fun qty _ hqty => .pure ?_
      obtain ⟨rfl, hprice⟩ := hpx
      subst hid hqty
      exact ⟨by simp [payload], hprice⟩
  | market m =>
      refine decodeBody_consumes (Q := fun m => (market m).Taken) ?_ h
      refine consumes_u64.bind fun id _ hid => consumes_u32.bind fun qty _ hqty =>
        (consumes_enum _ _).bind fun side _ hside => .pure ?_
      subst hid hqty hside
      exact ⟨by simp [payload], trivial⟩
  | execReport m =>
      refine decodeBody_consumes (Q := fun m => (execReport m).Taken) ?_ h
      refine consumes_u64.bind fun id _ hid => consumes_u32.bind fun filled _ hfilled =>
        (consumes_enum _ _).bind fun status _ hstatus => .pure ?_
      subst hid hfilled hstatus
      exact ⟨by simp [payload], trivial⟩
  | trade m =>
      refine decodeBody_consumes (Q := fun m => (trade m).Taken) ?_ h
      refine consumes_u64.bind fun seq _ hseq => consumes_price.bind fun px _ hpx =>
        consumes_u32.bind fun qty _ hqty => (consumes_enum _ _).bind fun side _ hside => .pure ?_
      obtain ⟨rfl, hprice⟩ := hpx
      subst hseq hqty hside
      exact ⟨by simp [payload], hprice⟩
  | book m =>
      refine decodeBody_consumes (Q := fun m => (book m).Taken) ?_ h
      refine consumes_u64.bind fun seq _ hseq => (consumes_levels _).bind fun bids _ hbids =>
        (consumes_levels _).bind fun asks _ hasks => .pure ?_
      obtain ⟨rfl, hbids⟩ := hbids
      obtain ⟨rfl, hasks⟩ := hasks
      subst hseq
      refine ⟨by simp [payload, List.flatMap_append], fun l hl => ?_⟩
      rcases List.mem_append.mp hl with hl | hl
      · exact hbids l (Vector.mem_toList_iff.mp hl)
      · exact hasks l (Vector.mem_toList_iff.mp hl)

/-- No decoder looks at the type byte. -/
theorem decodes_cons (m : Message) (b b' : UInt8) (bs : List UInt8) :
    m.Decodes (b :: bs) ↔ m.Decodes (b' :: bs) := by
  cases m <;> exact Iff.rfl

/-- **What a decoder accepts**, behind any byte. -/
theorem decodes_iff {m : Message} {b : UInt8} {bs : List UInt8} :
    m.Decodes (b :: bs) ↔ m.InRange ∧ bs = m.payload := by
  constructor
  · intro h
    exact ⟨h.taken.2, h.taken.1⟩
  · rintro ⟨hrange, rfl⟩
    apply (m.decodes_cons b m.type.code _).mpr
    exact m.decodes hrange

end Message

/-! ### The payloads of a type -/

/-- The payload has the length of the type, and its enumeration bytes are in range. -/
def MsgType.Fits (payload : List UInt8) : MsgType → Prop
  | newOrder => payload.length = 22 ∧ (payload.getD 20 0).toNat ≤ 1 ∧ (payload.getD 21 0).toNat ≤ 2
  | cancel => payload.length = 8
  | modify => payload.length = 20
  | market => payload.length = 13 ∧ (payload.getD 12 0).toNat ≤ 1
  | execReport => payload.length = 13 ∧ (payload.getD 12 0).toNat ≤ 7
  | trade => payload.length = 21 ∧ (payload.getD 20 0).toNat ≤ 1
  | book => payload.length = 168

section fits

variable {bs : List UInt8}

/-- The bytes behind a field of `n` bytes. -/
theorem exists_front {n k : ℕ} {P : List UInt8 → Prop} (hfield : ∀ {bs}, bs.length = n → P bs)
    (h : bs.length = n + k) : ∃ field rest, bs = field ++ rest ∧ P field ∧ rest.length = k := by
  refine ⟨bs.take n, bs.drop n, (List.take_append_drop n bs).symm, ?_, ?_⟩
  · apply hfield
    apply List.length_take_of_le
    omega
  · rw [List.length_drop]
    omega

/-- A field of the right length is one of a number. -/
theorem exists_bytes {w : ℕ} (h : bs.length = w) : ∃ n < 256 ^ w, bs = bytes w n := by
  have hvalue := bytes_value bs
  have hlt := value_lt bs
  rw [h] at hvalue hlt
  exact ⟨value bs, hlt, hvalue.symm⟩

theorem exists_putU32 (h : bs.length = 4) : ∃ x, bs = putU32 x := by
  obtain ⟨n, hn, rfl⟩ := exists_bytes h
  refine ⟨UInt32.ofNat n, ?_⟩
  rw [putU32, UInt32.toNat_ofNat_of_lt' hn]

theorem exists_putU64 (h : bs.length = 8) : ∃ x, bs = putU64 x := by
  obtain ⟨n, hn, rfl⟩ := exists_bytes h
  refine ⟨UInt64.ofNat n, ?_⟩
  rw [putU64, UInt64.toNat_ofNat_of_lt' hn]

theorem exists_putPrice (h : bs.length = 8) : ∃ px, IsPrice px ∧ bs = putPrice px := by
  obtain ⟨n, hn, rfl⟩ := exists_bytes h
  obtain ⟨hmod, hprice⟩ := emod_wrapPrice hn
  refine ⟨wrapPrice n, hprice, ?_⟩
  rw [putPrice, hmod]

theorem exists_levels : ∀ {n : ℕ} {bs : List UInt8}, bs.length = 16 * n →
    ∃ levels : List (Int × UInt64), levels.length = n ∧ (∀ l ∈ levels, IsPrice l.1) ∧
      bs = levels.flatMap fun l => putPrice l.1 ++ putU64 l.2
  | 0, bs, h => ⟨[], rfl, fun _ hl => (by cases hl), List.length_eq_zero_iff.mp h⟩
  | n + 1, bs, h => by
      have hlen : bs.length = 8 + (8 + 16 * n) := by omega
      obtain ⟨_, bs, rfl, ⟨px, hprice, rfl⟩, hqtys⟩ := exists_front exists_putPrice hlen
      obtain ⟨_, bs, rfl, ⟨qty, rfl⟩, hbs⟩ := exists_front exists_putU64 hqtys
      obtain ⟨levels, rfl, hrange, rfl⟩ := exists_levels hbs
      refine ⟨(px, qty) :: levels, rfl, ?_, ?_⟩
      · intro l hl
        rcases List.mem_cons.mp hl with rfl | hl
        · exact hprice
        · exact hrange l hl
      · rw [List.flatMap_cons, List.append_assoc]

/-- The codes of an enumeration are the numbers up to its last. -/
theorem exists_code {α : Type} (all : List α) {code : α → UInt8} {k : ℕ}
    (hall : all.map code = (List.range (k + 1)).map UInt8.ofNat) {field : List UInt8}
    (hfield : field.length = 1) (hk : (field.getD 0 0).toNat ≤ k) :
    ∃ a, field = putU8 (code a) := by
  obtain ⟨b, rfl⟩ := List.length_eq_one_iff.mp hfield
  have hmem : b ∈ all.map code := by
    rw [hall]
    exact List.mem_map.mpr ⟨b.toNat, List.mem_range.mpr (Nat.lt_succ_of_le hk), UInt8.ofNat_toNat⟩
  obtain ⟨a, -, rfl⟩ := List.mem_map.mp hmem
  refine ⟨a, ?_⟩
  rw [putU8, bytes, bytes, UInt8.ofNat_toNat]

theorem exists_side {field : List UInt8} (hfield : field.length = 1)
    (hk : (field.getD 0 0).toNat ≤ 1) : ∃ s : Side, field = putU8 s.code :=
  exists_code [.bid, .ask] rfl hfield hk

theorem side_le (s : Side) : ((putU8 s.code).getD 0 0).toNat ≤ 1 := by
  cases s <;> decide

theorem exists_tif {field : List UInt8} (hfield : field.length = 1)
    (hk : (field.getD 0 0).toNat ≤ 2) : ∃ t : Tif, field = putU8 t.code :=
  exists_code [.gtc, .ioc, .fok] rfl hfield hk

theorem exists_status {field : List UInt8} (hfield : field.length = 1)
    (hk : (field.getD 0 0).toNat ≤ 7) : ∃ s : ExecStatus, field = putU8 s.code :=
  exists_code [.accepted, .filled, .partialRest, .partialDone, .rejected, .canceled, .replaced,
    .unknown] rfl hfield hk

/-- A payload of a type is written for a message. -/
theorem MsgType.Fits.exists_message {t : MsgType} (h : t.Fits bs) :
    ∃ m : Message, m.type = t ∧ m.InRange ∧ bs = m.payload := by
  cases t with
  | newOrder =>
      obtain ⟨hlen, hside, htif⟩ := h
      obtain ⟨_, bs, rfl, ⟨id, rfl⟩, hlen₁⟩ := exists_front exists_putU64 (k := 14) hlen
      obtain ⟨_, bs, rfl, ⟨px, hprice, rfl⟩, hlen₂⟩ := exists_front exists_putPrice (k := 6) hlen₁
      obtain ⟨_, bs, rfl, ⟨qty, rfl⟩, hlen₃⟩ := exists_front exists_putU32 (k := 2) hlen₂
      obtain ⟨_, tif, rfl, ⟨side, rfl⟩, ht⟩ := exists_front List.length_eq_one_iff.mp (k := 1) hlen₃
      obtain ⟨side, hs⟩ : ∃ s : Side, [side] = putU8 s.code := exists_side rfl hside
      obtain ⟨tif, rfl⟩ := exists_tif ht htif
      rw [hs]
      refine ⟨.newOrder ⟨id, px, qty, side, tif⟩, rfl, hprice, ?_⟩
      simp only [Message.payload, List.append_assoc]
  | cancel =>
      obtain ⟨id, rfl⟩ := exists_putU64 h
      exact ⟨.cancel ⟨id⟩, rfl, trivial, rfl⟩
  | modify =>
      obtain ⟨_, bs, rfl, ⟨id, rfl⟩, hlen₁⟩ := exists_front exists_putU64 (k := 12) h
      obtain ⟨_, qty, rfl, ⟨px, hprice, rfl⟩, hqty⟩ := exists_front exists_putPrice (k := 4) hlen₁
      obtain ⟨qty, rfl⟩ := exists_putU32 hqty
      refine ⟨.modify ⟨id, px, qty⟩, rfl, hprice, ?_⟩
      simp only [Message.payload, List.append_assoc]
  | market =>
      obtain ⟨hlen, hside⟩ := h
      obtain ⟨_, bs, rfl, ⟨id, rfl⟩, hlen₁⟩ := exists_front exists_putU64 (k := 5) hlen
      obtain ⟨_, side, rfl, ⟨qty, rfl⟩, hs⟩ := exists_front exists_putU32 (k := 1) hlen₁
      obtain ⟨side, rfl⟩ := exists_side hs hside
      refine ⟨.market ⟨id, qty, side⟩, rfl, trivial, ?_⟩
      simp only [Message.payload, List.append_assoc]
  | execReport =>
      obtain ⟨hlen, hstatus⟩ := h
      obtain ⟨_, bs, rfl, ⟨id, rfl⟩, hlen₁⟩ := exists_front exists_putU64 (k := 5) hlen
      obtain ⟨_, status, rfl, ⟨filled, rfl⟩, hs⟩ := exists_front exists_putU32 (k := 1) hlen₁
      obtain ⟨status, rfl⟩ := exists_status hs hstatus
      refine ⟨.execReport ⟨id, filled, status⟩, rfl, trivial, ?_⟩
      simp only [Message.payload, List.append_assoc]
  | trade =>
      obtain ⟨hlen, hside⟩ := h
      obtain ⟨_, bs, rfl, ⟨seq, rfl⟩, hlen₁⟩ := exists_front exists_putU64 (k := 13) hlen
      obtain ⟨_, bs, rfl, ⟨px, hprice, rfl⟩, hlen₂⟩ := exists_front exists_putPrice (k := 5) hlen₁
      obtain ⟨_, side, rfl, ⟨qty, rfl⟩, hs⟩ := exists_front exists_putU32 (k := 1) hlen₂
      obtain ⟨side, rfl⟩ := exists_side hs hside
      refine ⟨.trade ⟨seq, px, qty, side⟩, rfl, hprice, ?_⟩
      simp only [Message.payload, List.append_assoc]
  | book =>
      obtain ⟨_, bs, rfl, ⟨seq, rfl⟩, hlen₁⟩ := exists_front exists_putU64 (k := 160) h
      obtain ⟨_, asks, rfl, ⟨bids, hbidLen, hbidRange, rfl⟩, hasks⟩ :=
        exists_front (exists_levels (n := 5)) (k := 80) hlen₁
      obtain ⟨asks, haskLen, haskRange, rfl⟩ := exists_levels (n := 5) hasks
      refine ⟨.book ⟨seq, ⟨bids.toArray, hbidLen⟩, ⟨asks.toArray, haskLen⟩⟩, rfl, ?_, ?_⟩
      · intro l hl
        rcases List.mem_append.mp hl with hl | hl
        · exact hbidRange l hl
        · exact haskRange l hl
      · simp only [Message.payload, List.flatMap_append]
        rfl

/-- What the encoder writes behind the type byte is a payload of the type. -/
theorem Message.fits_payload (m : Message) : m.type.Fits m.payload := by
  have hlen : m.payload.length + 3 = m.frameSize := by
    rw [← m.length_wire, Message.wire, length_frame, Message.body, List.length_cons, kHeaderLen]
    omega
  cases m with
  | newOrder m =>
      refine ⟨Nat.add_right_cancel hlen, side_le m.side, ?_⟩
      exact (by cases m.tif <;> decide : ((putU8 m.tif.code).getD 0 0).toNat ≤ 2)
  | cancel m => exact Nat.add_right_cancel hlen
  | modify m => exact Nat.add_right_cancel hlen
  | market m => exact ⟨Nat.add_right_cancel hlen, side_le m.side⟩
  | execReport m =>
      refine ⟨Nat.add_right_cancel hlen, ?_⟩
      exact (by cases m.status <;> decide : ((putU8 m.status.code).getD 0 0).toNat ≤ 7)
  | trade m => exact ⟨Nat.add_right_cancel hlen, side_le m.takerSide⟩
  | book m => exact Nat.add_right_cancel hlen

/-- **The payloads of a type** are those that the encoder of its messages writes. -/
theorem MsgType.fits_iff (t : MsgType) :
    t.Fits bs ↔ ∃ m : Message, m.type = t ∧ m.InRange ∧ bs = m.payload := by
  constructor
  · exact Fits.exists_message
  · rintro ⟨m, rfl, -, rfl⟩
    exact m.fits_payload

end fits

/-! ### The image of the encoders -/

/-- The body that the encoder writes, into a buffer that holds any frame. -/
def Message.encoded (m : Message) : List UInt8 :=
  (Sending.bytes ⟨m, fun _ => 0, kHeaderLen + kMaxFrameLen⟩).drop kHeaderLen

theorem Message.encoded_eq (m : Message) : m.encoded = m.body := by
  have hsize : m.frameSize ≤ kHeaderLen + kMaxFrameLen :=
    Nat.le_trans m.frameSize_le (by decide)
  rw [encoded, Sending.bytes_eq hsize, wire, frame]
  apply List.drop_left'
  exact length_bytes _ _

/-- A decoder returns the messages whose encoding the body is, and no two decoders accept it. -/
structure DecodersExact (body : List UInt8) : Prop where
  exact : ∀ m : Message, m.Decodes body ↔ m.InRange ∧ body = m.encoded
  one : ∀ m m' : Message, m.Decodes body → m'.Decodes body → m.type = m'.type

theorem MsgType.code_inj {t t' : MsgType} (h : t.code = t'.code) : t = t' := by
  cases t <;> cases t' <;> first | rfl | cases h

/-- **Type bytes**: the decoders accept exactly what the encoders write where the type byte is the
one of every type that the payload fits. -/
theorem decodersExact_iff (b : UInt8) (bs : List UInt8) :
    DecodersExact (b :: bs) ↔ ∀ t : MsgType, t.Fits bs → b = t.code := by
  constructor
  · rintro ⟨hexact, -⟩ t hfits
    obtain ⟨m, rfl, hrange, rfl⟩ := t.fits_iff.mp hfits
    have hbody := ((hexact m).mp (Message.decodes_iff.mpr ⟨hrange, rfl⟩)).2
    rw [m.encoded_eq] at hbody
    exact (List.cons.inj hbody).1
  · intro h
    -- a message that is decoded has the type of the type byte
    have htype : ∀ m : Message, m.Decodes (b :: bs) → b = m.type.code := by
      intro m hm
      obtain ⟨hrange, hbs⟩ := Message.decodes_iff.mp hm
      apply h
      exact m.type.fits_iff.mpr ⟨m, rfl, hrange, hbs⟩
    refine ⟨fun m => ?_, fun m m' hm hm' => MsgType.code_inj ((htype m hm).symm.trans (htype m' hm'))⟩
    rw [m.encoded_eq, Message.body, Message.decodes_iff]
    refine and_congr_right fun hrange => ⟨fun hbs => ?_, fun hbody => (List.cons.inj hbody).2⟩
    rw [htype m (Message.decodes_iff.mpr ⟨hrange, hbs⟩), hbs]

/-- A market order of nothing, which is an execution report as well. -/
theorem decoders_market_report : ¬ DecodersExact (4 :: List.replicate 13 0) := by
  rintro ⟨-, hone⟩
  have hmarket : decodeMarket (4 :: List.replicate 13 0) = some ⟨0, 0, .bid⟩ := by decide
  have hreport : decodeExecReport (4 :: List.replicate 13 0) = some ⟨0, 0, .accepted⟩ := by decide
  cases hone (.market _) (.execReport _) hmarket hreport

end Lob
