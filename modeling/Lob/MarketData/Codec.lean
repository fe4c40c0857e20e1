import Lob.MarketData.Protocol

/-!
# The codec on memory

`pack_msg` and `unpack_msg` with the memory they read, the enumerations as the
bytes they are cast from, and what `out` held before. The codec is canonical: a
message has one encoding, no encoding starts another, and what cannot be
unpacked starts with none.
-/

namespace Lob.Md

open Bytes

/-- Memory from a pointer on. A read where there is no byte is a fault. -/
abbrev Buffer := Nat → Option UInt8

/-- `memcpy` of `w` bytes from `p` on. -/
def Buffer.load (buf : Buffer) : Nat → Nat → Option (List UInt8)
  | _, 0 => some []
  | p, w + 1 => do
    let b ← buf p
    let bs ← buf.load (p + 1) w
    some (b :: bs)

/-- The bytes `bs` stand from `p` on. -/
def Buffer.Holds (buf : Buffer) (p : Nat) (bs : List UInt8) : Prop :=
  ∀ i < bs.length, buf (p + i) = bs[i]?

/-- The enumerator that a byte is cast to. -/
def MsgType.ofByte (b : UInt8) : Option MsgType :=
  if b = 1 then some .add
  else if b = 2 then some .cancel
  else if b = 3 then some .execute
  else if b = 4 then some .snapshot
  else none

/-- What the case of a type takes from the body it has copied. -/
def MsgType.read (t : MsgType) (body : List UInt8) (out : Decoded) : Decoded :=
  match t with
  | .add =>
    let (orderId, body) := get64 body
    let (side, body) := get8 body
    let (price, body) := getI64 body
    let (qty, body) := get64 body
    let (eventNs, _) := get64 body
    { out with orderId, side, price, qty, eventNs }
  | .cancel =>
    let (orderId, body) := get64 body
    let (eventNs, _) := get64 body
    { out with orderId, eventNs }
  | .execute =>
    let (orderId, body) := get64 body
    let (price, body) := getI64 body
    let (qty, body) := get64 body
    let (eventNs, _) := get64 body
    { out with orderId, price, qty, eventNs }
  | .snapshot =>
    let (snapFlags, body) := get8 body
    let (bid, body) := getI64 body
    let (bidQty, body) := get64 body
    let (ask, body) := getI64 body
    let (askQty, body) := get64 body
    let (eventNs, _) := get64 body
    { out with snapFlags, bid, bidQty, ask, askQty, eventNs }

/-- `unpack_msg` at `src`: the number of bytes it consumes, `0` on error, and what `out` holds
then. -/
def unpackAt (buf : Buffer) (src avail : Nat) (out : Decoded) : Option (Nat × Decoded) :=
  if avail < 1 then some (0, out)
  else do
    let type ← buf src
    let out := { out with type }
    match MsgType.ofByte type with
    | none => some (0, out)
    | some t =>
      if avail < 1 + t.bodySize then some (0, out)
      else do
        let body ← buf.load (src + 1) t.bodySize
        some (1 + t.bodySize, t.read body out)

/-- The body that the case of a type writes. -/
def MsgType.write (t : MsgType) (e : Decoded) : List UInt8 :=
  match t with
  | .add => put64 e.orderId ++ (e.side :: (putI64 e.price ++ (put64 e.qty ++ put64 e.eventNs)))
  | .cancel => put64 e.orderId ++ put64 e.eventNs
  | .execute => put64 e.orderId ++ (putI64 e.price ++ (put64 e.qty ++ put64 e.eventNs))
  | .snapshot => e.snapFlags :: (putI64 e.bid ++ (put64 e.bidQty ++ (putI64 e.ask ++
      (put64 e.askQty ++ put64 e.eventNs))))

/-- `pack_msg` of the event with these fields: what it returns, and the bytes it writes. -/
def Decoded.pack (e : Decoded) : Nat × List UInt8 :=
  match MsgType.ofByte e.type with
  | none => (0, [e.type])
  | some t => (1 + t.bodySize, e.type :: t.write e)

/-- The event is of one of the four types. -/
def Decoded.Known (e : Decoded) : Prop := (MsgType.ofByte e.type).isSome

instance (e : Decoded) : Decidable e.Known := inferInstanceAs (Decidable (_ = true))

/-- The fields that the type of `e` carries, as `e` has them, and the others as `out` has them. -/
def Decoded.carry (e out : Decoded) : Decoded :=
  match MsgType.ofByte e.type with
  | none => out
  | some .add => { out with
      type := e.type, orderId := e.orderId, side := e.side, price := e.price, qty := e.qty
      eventNs := e.eventNs }
  | some .cancel => { out with type := e.type, orderId := e.orderId, eventNs := e.eventNs }
  | some .execute => { out with
      type := e.type, orderId := e.orderId, price := e.price, qty := e.qty, eventNs := e.eventNs }
  | some .snapshot => { out with
      type := e.type, snapFlags := e.snapFlags, bid := e.bid, bidQty := e.bidQty, ask := e.ask
      askQty := e.askQty, eventNs := e.eventNs }

/-- An event with its enumerations as the bytes they are cast to. -/
def Event.raw (e : Event) : Decoded :=
  { type := e.type.toByte, side := sideByte e.side, orderId := e.orderId, price := e.price
    qty := e.qty, bid := e.bid, bidQty := e.bidQty, ask := e.ask, askQty := e.askQty
    snapFlags := e.snapFlags, eventNs := e.eventNs }

@[simp]
theorem MsgType.ofByte_toByte (t : MsgType) : ofByte t.toByte = some t := by
  cases t <;> rfl

theorem MsgType.ofByte_eq_some {b : UInt8} {t : MsgType} : ofByte b = some t ↔ b = t.toByte := by
  constructor
  · intro h
    unfold ofByte at h
    split_ifs at h with h₁ h₂ h₃ h₄
    · obtain rfl := Option.some.inj h
      exact h₁
    · obtain rfl := Option.some.inj h
      exact h₂
    · obtain rfl := Option.some.inj h
      exact h₃
    · obtain rfl := Option.some.inj h
      exact h₄
  · rintro rfl
    exact ofByte_toByte t

/-- The packed message of an event is what `pack_msg` writes. -/
theorem Event.pack_raw (e : Event) : e.raw.pack = (e.type.size, packMsg e) := by
  unfold Decoded.pack
  rw [show e.raw.type = e.type.toByte from rfl, MsgType.ofByte_toByte]
  unfold packMsg
  cases e.type <;> rfl

namespace MsgType

@[simp]
theorem length_write (t : MsgType) (e : Decoded) : (t.write e).length = t.bodySize := by
  cases t with
  | add => simp [write, bodySize]
  | cancel => simp [write, bodySize]
  | execute => simp [write, bodySize]
  | snapshot => simp [write, bodySize]

/-- A body is read back as it was written. -/
theorem read_write (t : MsgType) (e out : Decoded) (rest : List UInt8)
    (h : ofByte e.type = some t) :
    t.read (t.write e ++ rest) { out with type := e.type } = e.carry out := by
  unfold Decoded.carry
  rw [h]
  cases t with
  | add => simp only [read, write, List.append_assoc, List.cons_append, get8_cons, get64_put64,
      getI64_putI64]
  | cancel => simp only [read, write, List.append_assoc, get64_put64]
  | execute => simp only [read, write, List.append_assoc, get64_put64, getI64_putI64]
  | snapshot => simp only [read, write, List.append_assoc, List.cons_append, get8_cons,
      get64_put64, getI64_putI64]

/-- What is read from a body is written as the body. -/
theorem write_read (t : MsgType) {body : List UInt8} (h : body.length = t.bodySize)
    (out : Decoded) : t.write (t.read body out) = body := by
  cases t with
  | add =>
    have h : body.length = 33 := h
    simp only [read, write]
    rw [put64_get64_last (get64 (getI64 (get8 (get64 body).2).2).2).2 (by simp [h]),
      put64_get64 (by simp [h]), putI64_getI64 (by simp [h]), cons_get8 (by simp [h]),
      put64_get64 (by simp [h])]
  | cancel =>
    have h : body.length = 16 := h
    simp only [read, write]
    rw [put64_get64_last (get64 body).2 (by simp [h]), put64_get64 (by simp [h])]
  | execute =>
    have h : body.length = 32 := h
    simp only [read, write]
    rw [put64_get64_last (get64 (getI64 (get64 body).2).2).2 (by simp [h]),
      put64_get64 (by simp [h]), putI64_getI64 (by simp [h]), put64_get64 (by simp [h])]
  | snapshot =>
    have h : body.length = 41 := h
    simp only [read, write]
    rw [put64_get64_last (get64 (getI64 (get64 (getI64 (get8 body).2).2).2).2).2 (by simp [h]),
      put64_get64 (by simp [h]), putI64_getI64 (by simp [h]),
      put64_get64 (by simp [h]), putI64_getI64 (by simp [h]), cons_get8 (by simp [h])]

/-- Reading a body leaves the type. -/
@[simp]
theorem type_read (t : MsgType) (body : List UInt8) (out : Decoded) :
    (t.read body out).type = out.type := by
  cases t <;> rfl

/-- What stands behind the body is not read. -/
theorem read_append (t : MsgType) {body : List UInt8} (h : body.length = t.bodySize)
    (rest : List UInt8) (out : Decoded) :
    t.read (body ++ rest) { out with type := t.toByte } =
      t.read body { out with type := t.toByte } := by
  have hread := t.read_write (t.read body { out with type := t.toByte }) out
  rw [t.write_read h, type_read] at hread
  have hnil := hread [] t.ofByte_toByte
  rw [List.append_nil] at hnil
  exact (hread rest t.ofByte_toByte).trans hnil.symm

end MsgType

/-- `unpackMsg` of an unknown type. -/
theorem unpackMsg_unknown {type : UInt8} {body : List UInt8} (h : MsgType.ofByte type = none) :
    unpackMsg (type :: body) = (0, { type }) := by
  have hne (t : MsgType) : type ≠ t.toByte := by
    rintro rfl
    rw [MsgType.ofByte_toByte] at h
    contradiction
  simp only [unpackMsg, if_neg (hne _)]

/-- `unpackMsg` where the body is cut off. -/
theorem unpackMsg_short {t : MsgType} {body : List UInt8} (h : body.length < t.bodySize) :
    unpackMsg (t.toByte :: body) = (0, { type := t.toByte }) := by
  cases t with
  | add => exact if_pos h
  | cancel => exact if_pos h
  | execute => exact if_pos h
  | snapshot => exact if_pos h

/-- `unpackMsg` where there is a body. -/
theorem unpackMsg_body {t : MsgType} {body : List UInt8} (h : t.bodySize ≤ body.length) :
    unpackMsg (t.toByte :: body) = (t.size, t.read body { type := t.toByte }) := by
  cases t with
  | add => exact if_neg (Nat.not_lt.mpr h)
  | cancel => exact if_neg (Nat.not_lt.mpr h)
  | execute => exact if_neg (Nat.not_lt.mpr h)
  | snapshot => exact if_neg (Nat.not_lt.mpr h)

namespace Buffer

variable {buf : Buffer} {p : Nat} {b : UInt8} {bs : List UInt8}

theorem holds_nil : buf.Holds p [] := fun i hi => absurd hi (Nat.not_lt_zero i)

theorem holds_cons : buf.Holds p (b :: bs) ↔ buf p = some b ∧ buf.Holds (p + 1) bs := by
  constructor
  · intro h
    refine ⟨h 0 (Nat.zero_lt_succ _), fun i hi => ?_⟩
    rw [Nat.add_right_comm, Nat.add_assoc]
    exact h (i + 1) (Nat.succ_lt_succ hi)
  · rintro ⟨hb, hbs⟩ i hi
    cases i with
    | zero => exact hb
    | succ i =>
      have hget := hbs i (Nat.lt_of_succ_lt_succ hi)
      rw [Nat.add_right_comm, Nat.add_assoc] at hget
      exact hget

/-- What stands behind the first `n` bytes. -/
theorem Holds.drop (h : buf.Holds 0 bs) (n : Nat) : buf.Holds n (bs.drop n) := by
  intro i hi
  rw [List.length_drop] at hi
  have hget := h (n + i) (by omega)
  rw [Nat.zero_add] at hget
  rw [List.getElem?_drop]
  exact hget

/-- A copy takes the bytes that stand there. -/
theorem load_eq_some {w : Nat} : buf.load p w = some bs ↔ bs.length = w ∧ buf.Holds p bs := by
  induction w generalizing p bs with
  | zero =>
    constructor
    · intro h
      obtain rfl := Option.some.inj h
      exact ⟨rfl, holds_nil⟩
    · rintro ⟨h, _⟩
      rw [List.eq_nil_of_length_eq_zero h]
      rfl
  | succ w ih =>
    unfold load
    constructor
    · intro h
      obtain ⟨b, hb, h⟩ := Option.bind_eq_some_iff.mp h
      obtain ⟨bs', hbs, h⟩ := Option.bind_eq_some_iff.mp h
      obtain rfl := Option.some.inj h
      obtain ⟨hlen, hhold⟩ := ih.mp hbs
      exact ⟨congrArg (· + 1) hlen, holds_cons.mpr ⟨hb, hhold⟩⟩
    · rintro ⟨hlen, hhold⟩
      cases bs with
      | nil => contradiction
      | cons b bs =>
        obtain ⟨hb, hbs⟩ := holds_cons.mp hhold
        rw [hb, ih.mpr ⟨Nat.succ.inj hlen, hbs⟩]
        rfl

/-- A copy from where `bs` stands takes its first bytes. -/
theorem Holds.load {w : Nat} (h : buf.Holds p bs) (hw : w ≤ bs.length) :
    buf.load p w = some (bs.take w) := by
  refine load_eq_some.mpr ⟨List.length_take_of_le hw, fun i hi => ?_⟩
  rw [List.length_take] at hi
  rw [List.getElem?_take_of_lt (by omega)]
  exact h i (by omega)

theorem load_returns {w : Nat} (h : ∀ i < w, (buf (p + i)).isSome) :
    ∃ bs, buf.load p w = some bs := by
  induction w generalizing p with
  | zero => exact ⟨[], rfl⟩
  | succ w ih =>
    obtain ⟨b, hb⟩ := Option.isSome_iff_exists.mp (h 0 (Nat.zero_lt_succ w))
    obtain ⟨bs, hbs⟩ := ih (p := p + 1) fun i hi => by
      rw [Nat.add_right_comm, Nat.add_assoc]
      exact h (i + 1) (Nat.succ_lt_succ hi)
    refine ⟨b :: bs, ?_⟩
    unfold load
    rw [hbs, show buf p = some b from hb]
    rfl

/-- A list stands in the memory that consists of it. -/
theorem holds_getElem? (bs rest : List UInt8) : Holds (fun i => (bs ++ rest)[i]?) 0 bs := by
  intro i hi
  rw [Nat.zero_add]
  exact List.getElem?_append_left hi

end Buffer

section Unpack

variable {buf : Buffer} {src avail n : Nat} {out out' e : Decoded}

/-- `unpack_msg` of an unknown type. -/
theorem unpackAt_unknown {type : UInt8} (ha : 0 < avail) (hb : buf src = some type)
    (ht : MsgType.ofByte type = none) :
    unpackAt buf src avail out = some (0, { out with type }) := by
  unfold unpackAt
  rw [if_neg (by omega), hb]
  simp only [Option.bind_eq_bind, Option.bind_some, ht]

/-- `unpack_msg` where the body is cut off. -/
theorem unpackAt_short {type : UInt8} {t : MsgType} (ha : 0 < avail) (hb : buf src = some type)
    (ht : MsgType.ofByte type = some t) (hshort : avail < t.size) :
    unpackAt buf src avail out = some (0, { out with type }) := by
  unfold unpackAt
  rw [if_neg (by omega), hb]
  simp only [Option.bind_eq_bind, Option.bind_some, ht]
  exact if_pos hshort

/-- `unpack_msg` where there is a body. -/
theorem unpackAt_body {type : UInt8} {t : MsgType} (hb : buf src = some type)
    (ht : MsgType.ofByte type = some t) (hlong : t.size ≤ avail) :
    unpackAt buf src avail out = (buf.load (src + 1) t.bodySize).bind fun body =>
      some (t.size, t.read body { out with type }) := by
  have hpos := t.size_pos
  unfold unpackAt
  rw [if_neg (by omega), hb]
  simp only [Option.bind_eq_bind, Option.bind_some, ht]
  exact if_neg (Nat.not_lt.mpr hlong)

/-- The ways in which `unpack_msg` ends. -/
theorem unpackAt_cases (h : unpackAt buf src avail out = some (n, out')) :
    n = 0 ∧ (avail = 0 ∨ ∃ type, buf src = some type ∧
        ∀ t, MsgType.ofByte type = some t → avail < t.size) ∨
      ∃ type t body, buf src = some type ∧ MsgType.ofByte type = some t ∧ t.size ≤ avail ∧
        buf.load (src + 1) t.bodySize = some body ∧ n = t.size ∧
        out' = t.read body { out with type } := by
  rcases Nat.eq_zero_or_pos avail with rfl | ha
  · obtain ⟨rfl, _⟩ := Prod.mk.inj (Option.some.inj h)
    exact Or.inl ⟨rfl, Or.inl rfl⟩
  cases hb : buf src with
  | none =>
    unfold unpackAt at h
    rw [if_neg (by omega), hb] at h
    contradiction
  | some type =>
    cases ht : MsgType.ofByte type with
    | none =>
      rw [unpackAt_unknown ha hb ht] at h
      obtain ⟨rfl, _⟩ := Prod.mk.inj (Option.some.inj h)
      refine Or.inl ⟨rfl, Or.inr ⟨type, rfl, fun t hs => ?_⟩⟩
      rw [ht] at hs
      contradiction
    | some t =>
      rcases Nat.lt_or_ge avail t.size with hshort | hlong
      · rw [unpackAt_short ha hb ht hshort] at h
        obtain ⟨rfl, _⟩ := Prod.mk.inj (Option.some.inj h)
        refine Or.inl ⟨rfl, Or.inr ⟨type, rfl, fun t' hs => ?_⟩⟩
        obtain rfl := Option.some.inj (ht.symm.trans hs)
        exact hshort
      · rw [unpackAt_body hb ht hlong] at h
        obtain ⟨body, hload, h⟩ := Option.bind_eq_some_iff.mp h
        obtain ⟨rfl, rfl⟩ := Prod.mk.inj (Option.some.inj h)
        exact Or.inr ⟨type, t, body, rfl, ht, hlong, hload, rfl, rfl⟩

/-- A message that is consumed stands at `src`, and is what its fields are packed to. -/
theorem pack_of_unpackAt (h : unpackAt buf src avail out = some (n, out')) (hn : 0 < n) :
    out'.Known ∧ n ≤ avail ∧ out'.carry out = out' ∧ out'.pack.1 = n ∧ out'.pack.2.length = n ∧
      buf.Holds src out'.pack.2 := by
  rcases unpackAt_cases h with ⟨rfl, _⟩ | ⟨type, t, body, hb, ht, hlong, hload, rfl, rfl⟩
  · exact absurd hn (Nat.lt_irrefl 0)
  · obtain ⟨hlen, hhold⟩ := Buffer.load_eq_some.mp hload
    have htype : MsgType.ofByte (t.read body { out with type }).type = some t := by
      rw [MsgType.type_read]
      exact ht
    have hpack : (t.read body { out with type }).pack = (t.size, type :: body) := by
      unfold Decoded.pack
      rw [htype]
      dsimp only
      rw [MsgType.type_read, t.write_read hlen]
      rfl
    have hcarry := t.read_write (t.read body { out with type }) out [] htype
    rw [List.append_nil, t.write_read hlen, MsgType.type_read] at hcarry
    rw [hpack]
    refine ⟨Option.isSome_iff_exists.mpr ⟨t, htype⟩, hlong, hcarry.symm, rfl, ?_,
      Buffer.holds_cons.mpr ⟨hb, hhold⟩⟩
    rw [List.length_cons, hlen, MsgType.size, Nat.add_comm]

/-- A packed message is consumed and its fields are recovered, whatever follows it. -/
theorem unpackAt_of_holds (he : e.Known) (h : buf.Holds src e.pack.2) (ha : e.pack.1 ≤ avail)
    (out : Decoded) :
    unpackAt buf src avail out = some (e.pack.1, e.carry out) := by
  obtain ⟨t, ht⟩ := Option.isSome_iff_exists.mp he
  have hpack : e.pack = (t.size, e.type :: t.write e) := by
    unfold Decoded.pack
    rw [ht]
    rfl
  rw [hpack] at h ha ⊢
  obtain ⟨hb, hbody⟩ := Buffer.holds_cons.mp h
  have hread := t.read_write e out [] ht
  rw [List.append_nil] at hread
  rw [unpackAt_body hb ht ha, Buffer.load_eq_some.mpr ⟨t.length_write e, hbody⟩, Option.bind_some,
    hread]

/-- Where the bytes are there, `unpack_msg` returns. -/
theorem unpackAt_returns (buf : Buffer) (h : ∀ i < avail, (buf (src + i)).isSome) (out : Decoded) :
    ∃ n out', unpackAt buf src avail out = some (n, out') := by
  rcases Nat.eq_zero_or_pos avail with rfl | ha
  · exact ⟨0, out, rfl⟩
  obtain ⟨type, hb⟩ := Option.isSome_iff_exists.mp (h 0 ha)
  rw [Nat.add_zero] at hb
  cases ht : MsgType.ofByte type with
  | none => exact ⟨0, _, unpackAt_unknown ha hb ht⟩
  | some t =>
    rcases Nat.lt_or_ge avail t.size with hshort | hlong
    · exact ⟨0, _, unpackAt_short ha hb ht hshort⟩
    · have hthere (i : Nat) (hi : i < t.bodySize) : (buf (src + 1 + i)).isSome := by
        have hi := h (1 + i) (by rw [MsgType.size] at hlong; omega)
        rwa [← Nat.add_assoc] at hi
      obtain ⟨body, hload⟩ := Buffer.load_returns hthere
      exact ⟨t.size, _, by rw [unpackAt_body hb ht hlong, hload, Option.bind_some]⟩

/-- On a list, `unpack_msg` of a fresh `Decoded` does what it does on memory. -/
theorem unpackAt_eq_unpackMsg {bs : List UInt8} (h : buf.Holds src bs) :
    unpackAt buf src bs.length {} = some (unpackMsg bs) := by
  cases bs with
  | nil => rfl
  | cons type body =>
    obtain ⟨hb, hbody⟩ := Buffer.holds_cons.mp h
    have ha : 0 < (type :: body).length := Nat.zero_lt_succ _
    cases ht : MsgType.ofByte type with
    | none =>
      rw [unpackAt_unknown ha hb ht, unpackMsg_unknown ht]
    | some t =>
      obtain rfl := MsgType.ofByte_eq_some.mp ht
      rcases Nat.lt_or_ge body.length t.bodySize with hshort | hlong
      · rw [unpackAt_short ha hb ht (by rw [MsgType.size, List.length_cons]; omega),
          unpackMsg_short hshort]
      · have hlen : (body.take t.bodySize).length = t.bodySize := List.length_take_of_le hlong
        rw [unpackAt_body hb ht (by rw [MsgType.size, List.length_cons]; omega),
          hbody.load hlong, unpackMsg_body hlong]
        have hread := t.read_append hlen (body.drop t.bodySize) {}
        rw [List.take_append_drop] at hread
        rw [hread]
        rfl

/-- What is consumed decides what is unpacked: nothing behind it is read. -/
theorem unpackAt_congr {buf' : Buffer} {src' avail' : Nat}
    (h : unpackAt buf src avail out = some (n, out')) (hn : 0 < n)
    (hsame : ∀ i < n, buf' (src' + i) = buf (src + i)) (ha : n ≤ avail') :
    unpackAt buf' src' avail' out = some (n, out') := by
  obtain ⟨hknown, _, hcarry, hused, hlen, hhold⟩ := pack_of_unpackAt h hn
  have hhold' : buf'.Holds src' out'.pack.2 := by
    intro i hi
    rw [hsame i (by omega)]
    exact hhold i hi
  rw [unpackAt_of_holds hknown hhold' (by omega), hused, hcarry]

/-- What cannot be unpacked is the start of no message. -/
theorem not_holds_of_unpackAt (h : unpackAt buf src avail out = some (0, out')) (he : e.Known)
    (ha : e.pack.1 ≤ avail) : ¬ buf.Holds src e.pack.2 := by
  intro hhold
  rw [unpackAt_of_holds he hhold ha] at h
  have hzero := (Prod.mk.inj (Option.some.inj h)).1
  obtain ⟨t, ht⟩ := Option.isSome_iff_exists.mp he
  simp [Decoded.pack, ht] at hzero

/-- `pack_msg` returns how many bytes it has written. -/
theorem Decoded.length_pack (he : e.Known) : e.pack.2.length = e.pack.1 := by
  obtain ⟨t, ht⟩ := Option.isSome_iff_exists.mp he
  simp [Decoded.pack, ht, Nat.add_comm]

/-- A message that starts another one is that one: unpacking consumes both. -/
theorem Decoded.pack_eq_of_prefix {e' : Decoded} (he : e.Known) (he' : e'.Known)
    (h : e.pack.2 <+: e'.pack.2) : e.pack.2 = e'.pack.2 := by
  have hlen := length_pack he
  have hlen' := length_pack he'
  have hle := h.length_le
  obtain ⟨rest, hrest⟩ := h
  have hhold := Buffer.holds_getElem? e.pack.2 rest
  have hhold' := Buffer.holds_getElem? e'.pack.2 []
  rw [List.append_nil] at hhold'
  rw [hrest] at hhold
  have hu := unpackAt_of_holds he hhold (Nat.le_of_eq hlen.symm |>.trans hle) {}
  have hu' := unpackAt_of_holds he' hhold' (Nat.le_of_eq hlen'.symm) {}
  have hused := (Prod.mk.inj (Option.some.inj (hu.symm.trans hu'))).1
  exact List.IsPrefix.eq_of_length ⟨rest, hrest⟩ (by omega)

end Unpack

/-- What stands in memory without gaps is the list of its bytes. -/
theorem Buffer.holds_iff_prefix {src : Nat → UInt8} {avail : Nat} {bs : List UInt8} :
    Buffer.Holds (fun i => some (src i)) 0 bs ∧ bs.length ≤ avail ↔
      bs <+: (List.range avail).map src := by
  have hrange (i : Nat) (hi : i < avail) : ((List.range avail).map src)[i]? = some (src i) := by
    rw [List.getElem?_map, List.getElem?_range hi]
    rfl
  constructor
  · rintro ⟨hhold, hlen⟩
    refine List.prefix_iff_getElem?.mpr fun i hi => ?_
    rw [hrange i (by omega), ← List.getElem?_eq_getElem hi, ← hhold i hi, Nat.zero_add]
  · intro hpre
    have hlen := hpre.length_le
    rw [List.length_map, List.length_range] at hlen
    refine ⟨fun i hi => ?_, hlen⟩
    have hget := List.prefix_iff_getElem?.mp hpre i hi
    rw [hrange i (by omega), ← List.getElem?_eq_getElem hi] at hget
    rw [Nat.zero_add]
    exact hget

/-- The wire codec is canonical. What is unpacked is the one message that its fields are packed
to, whatever follows it; what cannot be unpacked starts with no message; packed fields are
recovered; and no message starts another one. -/
theorem codec_canonical :
    (∀ (src : Nat → UInt8) (avail : Nat) (out : Decoded), ∃ n out',
      unpackAt (fun i => some (src i)) 0 avail out = some (n, out') ∧
      (0 < n → n ≤ avail ∧ out'.pack = (n, (List.range n).map src) ∧
        ∀ buf avail', (∀ i < n, buf i = some (src i)) → n ≤ avail' →
          unpackAt buf 0 avail' out = some (n, out')) ∧
      (n = 0 → ∀ e : Decoded, e.Known → ¬ e.pack.2 <+: (List.range avail).map src)) ∧
    (∀ (e out : Decoded) (buf : Buffer) (avail : Nat), e.Known → buf.Holds 0 e.pack.2 →
      e.pack.2.length ≤ avail →
      unpackAt buf 0 avail out = some (e.pack.2.length, e.carry out) ∧
        e.pack.1 = e.pack.2.length) ∧
    ∀ e e' : Decoded, e.Known → e'.Known → e.pack.2 <+: e'.pack.2 → e.pack.2 = e'.pack.2 := by
  refine ⟨fun src avail out => ?_, fun e out buf avail he hhold ha => ?_,
    fun e e' he he' hpre => ?_⟩
  · have hthere : ∀ i < avail, (some (src (0 + i)) : Option UInt8).isSome := fun _ _ => rfl
    obtain ⟨n, out', h⟩ := unpackAt_returns (fun i => some (src i)) hthere out
    refine ⟨n, out', h, fun hn => ?_, ?_⟩
    · obtain ⟨_, hle, _, hused, hlen, hhold⟩ := pack_of_unpackAt h hn
      have hpre := Buffer.holds_iff_prefix.mp ⟨hhold, hlen.le⟩
      have hbytes := hpre.eq_of_length (by rw [hlen, List.length_map, List.length_range])
      refine ⟨hle, Prod.ext hused hbytes, fun buf avail' hsame ha => ?_⟩
      refine unpackAt_congr h hn (fun i hi => ?_) ha
      rw [Nat.zero_add]
      exact hsame i hi
    · rintro rfl e he hpre
      obtain ⟨hhold, hlen⟩ := Buffer.holds_iff_prefix.mpr hpre
      rw [Decoded.length_pack he] at hlen
      exact not_holds_of_unpackAt h he hlen hhold
  · have hlen := Decoded.length_pack he
    rw [hlen] at ha ⊢
    exact ⟨unpackAt_of_holds he hhold ha out, rfl⟩
  · exact Decoded.pack_eq_of_prefix he he' hpre

end Lob.Md
