import Mathlib.Algebra.Order.Ring.Nat
import Mathlib.Data.List.Induction
import Mathlib.Tactic.Ring

/-!
# Big-endian bytes

A number is written with a fixed number of bytes, the most significant first.
Fields are written one after the other and read back in the same order.
-/

namespace Bytes

/-- The `w` big-endian bytes of `n`. Higher bytes are dropped. -/
def encode : Nat → Nat → List UInt8
  | 0, _ => []
  | w + 1, n => encode w (n / 256) ++ [UInt8.ofNat n]

/-- The number that the bytes stand for. -/
def decode (bs : List UInt8) : Nat := bs.foldl (fun n b => n * 256 + b.toNat) 0

/-- The last byte of a number. -/
theorem decode_append_singleton (bs : List UInt8) (b : UInt8) :
    decode (bs ++ [b]) = decode bs * 256 + b.toNat := by
  unfold decode
  rw [List.foldl_append]
  rfl

/-- `w` bytes hold a number modulo `256 ^ w`. -/
theorem decode_encode (w n : Nat) : decode (encode w n) = n % 256 ^ w := by
  induction w generalizing n with
  | zero => rw [Nat.pow_zero, Nat.mod_one]; rfl
  | succ w ih =>
    have hbyte : (UInt8.ofNat n).toNat = n % 256 := UInt8.toNat_ofNat'
    rw [encode, decode_append_singleton, ih, hbyte, Nat.pow_succ', Nat.mod_mul]
    ring

/-- A number takes as many bytes as it was read from. -/
theorem decode_lt (bs : List UInt8) : decode bs < 256 ^ bs.length := by
  induction bs using List.reverseRecOn with
  | nil => exact Nat.one_pos
  | append_singleton bs b ih =>
    have hb := b.toNat_lt
    rw [decode_append_singleton, List.length_append, List.length_singleton, Nat.pow_succ]
    omega

/-- The bytes of the number that `w` bytes stand for. -/
theorem encode_decode {w : Nat} {bs : List UInt8} (h : bs.length = w) :
    encode w (decode bs) = bs := by
  induction w generalizing bs with
  | zero => rw [List.eq_nil_of_length_eq_zero h]; rfl
  | succ w ih =>
    cases bs using List.reverseRecOn with
    | nil => contradiction
    | append_singleton bs b =>
      rw [List.length_append, List.length_singleton] at h
      have hb := b.toNat_lt
      have hinit : (decode bs * 256 + b.toNat) / 256 = decode bs := by omega
      have hlast : UInt8.ofNat (decode bs * 256 + b.toNat) = b := by
        rw [← UInt8.toNat_inj, UInt8.toNat_ofNat']
        omega
      rw [decode_append_singleton, encode, hinit, hlast, ih (by omega)]

/-- An encoding has the width asked for. -/
@[simp]
theorem length_encode (w n : Nat) : (encode w n).length = w := by
  induction w generalizing n with
  | zero => rfl
  | succ w ih => rw [encode, List.length_append, ih]; rfl

/-- Write a 16-bit field. -/
def put16 (x : UInt16) : List UInt8 := encode 2 x.toNat

/-- Write a 32-bit field. -/
def put32 (x : UInt32) : List UInt8 := encode 4 x.toNat

/-- Write a 64-bit field. -/
def put64 (x : UInt64) : List UInt8 := encode 8 x.toNat

/-- Write a signed 64-bit field. -/
def putI64 (x : Int64) : List UInt8 := put64 x.toUInt64

/-- Read a byte; what follows is the second component. -/
def get8 (bs : List UInt8) : UInt8 × List UInt8 := (bs.headD 0, bs.drop 1)

/-- Read a 16-bit field. -/
def get16 (bs : List UInt8) : UInt16 × List UInt8 :=
  (UInt16.ofNat (decode (bs.take 2)), bs.drop 2)

/-- Read a 32-bit field. -/
def get32 (bs : List UInt8) : UInt32 × List UInt8 :=
  (UInt32.ofNat (decode (bs.take 4)), bs.drop 4)

/-- Read a 64-bit field. -/
def get64 (bs : List UInt8) : UInt64 × List UInt8 :=
  (UInt64.ofNat (decode (bs.take 8)), bs.drop 8)

/-- Read a signed 64-bit field. -/
def getI64 (bs : List UInt8) : Int64 × List UInt8 :=
  let (x, bs) := get64 bs
  (x.toInt64, bs)

variable {bs : List UInt8}

/-- Two bytes. -/
@[simp]
theorem length_put16 (x : UInt16) : (put16 x).length = 2 := length_encode 2 _

/-- Four bytes. -/
@[simp]
theorem length_put32 (x : UInt32) : (put32 x).length = 4 := length_encode 4 _

/-- Eight bytes. -/
@[simp]
theorem length_put64 (x : UInt64) : (put64 x).length = 8 := length_encode 8 _

/-- Eight bytes for a signed word too. -/
@[simp]
theorem length_putI64 (x : Int64) : (putI64 x).length = 8 := length_put64 _

/-- The first `w` bytes after a field of `w` bytes has been written. -/
theorem take_encode (w n : Nat) (bs : List UInt8) : (encode w n ++ bs).take w = encode w n :=
  List.take_left' (length_encode w n)

/-- The bytes behind an encoding. -/
theorem drop_encode (w n : Nat) (bs : List UInt8) : (encode w n ++ bs).drop w = bs :=
  List.drop_left' (length_encode w n)

/-- A field of `w` bytes at the start of `bs`, written anew. -/
theorem encode_take {w : Nat} (h : w ≤ bs.length) :
    encode w (decode (bs.take w)) ++ bs.drop w = bs := by
  rw [encode_decode (List.length_take_of_le h), List.take_append_drop]

/-- A width bounds what is decoded. -/
theorem decode_take_lt (w : Nat) (bs : List UInt8) : decode (bs.take w) < 256 ^ w :=
  (decode_lt _).trans_le (Nat.pow_le_pow_right (by decide) (List.length_take_le w bs))

/-- Writing what was read gives the two bytes back. -/
theorem put16_get16 (h : 2 ≤ bs.length) : put16 (get16 bs).1 ++ (get16 bs).2 = bs := by
  have hlt : decode (bs.take 2) < 2 ^ 16 := decode_take_lt 2 bs
  unfold put16 get16
  dsimp only
  rw [UInt16.toNat_ofNat', Nat.mod_eq_of_lt hlt, encode_take h]

/-- Writing what was read gives the four bytes back. -/
theorem put32_get32 (h : 4 ≤ bs.length) : put32 (get32 bs).1 ++ (get32 bs).2 = bs := by
  have hlt : decode (bs.take 4) < 2 ^ 32 := decode_take_lt 4 bs
  unfold put32 get32
  dsimp only
  rw [UInt32.toNat_ofNat', Nat.mod_eq_of_lt hlt, encode_take h]

/-- Writing what was read gives the eight bytes back. -/
theorem put64_get64 (h : 8 ≤ bs.length) : put64 (get64 bs).1 ++ (get64 bs).2 = bs := by
  have hlt : decode (bs.take 8) < 2 ^ 64 := decode_take_lt 8 bs
  unfold put64 get64
  dsimp only
  rw [UInt64.toNat_ofNat', Nat.mod_eq_of_lt hlt, encode_take h]

/-- A field that is the last one. -/
theorem put64_get64_last (bs : List UInt8) (h : bs.length = 8) : put64 (get64 bs).1 = bs := by
  have hput := put64_get64 (Nat.le_of_eq h.symm)
  have hnil : (get64 bs).2 = [] := List.eq_nil_of_length_eq_zero (by simp [get64, h])
  rwa [hnil, List.append_nil] at hput

/-- A signed word is written back alike. -/
theorem putI64_getI64 (h : 8 ≤ bs.length) : putI64 (getI64 bs).1 ++ (getI64 bs).2 = bs := by
  have hx : (getI64 bs).1.toUInt64 = (get64 bs).1 := by simp [getI64]
  unfold putI64
  rw [hx]
  exact put64_get64 h

/-- A byte and the rest. -/
theorem cons_get8 (h : 1 ≤ bs.length) : (get8 bs).1 :: (get8 bs).2 = bs := by
  cases bs with
  | nil => contradiction
  | cons b bs => rfl

/-- A byte is consumed. -/
@[simp]
theorem length_get8 : (get8 bs).2.length = bs.length - 1 := List.length_drop

/-- Two bytes are consumed. -/
@[simp]
theorem length_get16 : (get16 bs).2.length = bs.length - 2 := List.length_drop

/-- Four bytes are consumed. -/
@[simp]
theorem length_get32 : (get32 bs).2.length = bs.length - 4 := List.length_drop

/-- Eight bytes are consumed. -/
@[simp]
theorem length_get64 : (get64 bs).2.length = bs.length - 8 := List.length_drop

/-- Eight bytes are consumed for a signed word. -/
@[simp]
theorem length_getI64 : (getI64 bs).2.length = bs.length - 8 := List.length_drop

/-- A byte is read back. -/
@[simp]
theorem get8_cons (x : UInt8) : get8 (x :: bs) = (x, bs) := rfl

/-- What was written in two bytes is read back. -/
@[simp]
theorem get16_put16 (x : UInt16) : get16 (put16 x ++ bs) = (x, bs) := by
  have hlt : x.toNat < 256 ^ 2 := x.toNat_lt
  unfold get16 put16
  rw [take_encode, drop_encode, decode_encode, Nat.mod_eq_of_lt hlt, UInt16.ofNat_toNat]

/-- What was written in four bytes is read back. -/
@[simp]
theorem get32_put32 (x : UInt32) : get32 (put32 x ++ bs) = (x, bs) := by
  have hlt : x.toNat < 256 ^ 4 := x.toNat_lt
  unfold get32 put32
  rw [take_encode, drop_encode, decode_encode, Nat.mod_eq_of_lt hlt, UInt32.ofNat_toNat]

/-- What was written in eight bytes is read back. -/
@[simp]
theorem get64_put64 (x : UInt64) : get64 (put64 x ++ bs) = (x, bs) := by
  have hlt : x.toNat < 256 ^ 8 := x.toNat_lt
  unfold get64 put64
  rw [take_encode, drop_encode, decode_encode, Nat.mod_eq_of_lt hlt, UInt64.ofNat_toNat]

/-- A signed word is read back. -/
@[simp]
theorem getI64_putI64 (x : Int64) : getI64 (putI64 x ++ bs) = (x, bs) := by
  unfold getI64 putI64
  rw [get64_put64]
  rfl

end Bytes
