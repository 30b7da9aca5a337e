import Mathlib.Data.List.Basic
import Mathlib.Data.Nat.Basic

/-! # Base64

The standard padded encoding of byte strings, as Go's `encoding/base64` and its
JSON encoding of a `[]byte` use it: three bytes are four digits of six bits, and
`=` fills the last four when the length is not a multiple of three.
-/
namespace Base64

/-- The 64 digits, in order. -/
def alphabet : List Char :=
  "ABCDEFGHIJKLMNOPQRSTUVWXYZabcdefghijklmnopqrstuvwxyz0123456789+/".toList

def digit (i : Nat) : Char := alphabet.getD i '='

def value (c : Char) : Option Nat := alphabet.idxOf? c

theorem value_digit {i : Nat} (h : i < 64) : value (digit i) = some i := by
  revert i
  decide +kernel

theorem digit_ne_pad {i : Nat} (h : i < 64) : digit i ≠ '=' := by
  revert i
  decide +kernel

/-! ## Encoding -/

def encodeBytes : List UInt8 → List Char
  | [] => []
  | [a] => [digit (a.toNat / 4), digit (a.toNat % 4 * 16), '=', '=']
  | [a, b] =>
    [digit (a.toNat / 4), digit (a.toNat % 4 * 16 + b.toNat / 16), digit (b.toNat % 16 * 4), '=']
  | a :: b :: c :: rest =>
    digit (a.toNat / 4) :: digit (a.toNat % 4 * 16 + b.toNat / 16) ::
      digit (b.toNat % 16 * 4 + c.toNat / 64) :: digit (c.toNat % 64) :: encodeBytes rest

def encode (b : List UInt8) : String := String.ofList (encodeBytes b)

/-! ## Decoding -/

/-- The byte with a given value. -/
def byte (n : Nat) : UInt8 := UInt8.ofNat n

theorem byte_eq {a : UInt8} {n : Nat} (h : n = a.toNat) : byte n = a := by
  rw [byte, h, UInt8.ofNat_toNat]

/-- The bytes of four digits, the last two of which may be padding at the end. -/
def decodeChars : List Char → Option (List UInt8)
  | [] => some []
  | w :: x :: y :: z :: rest => do
    let w ← value w
    let x ← value x
    let first := byte (w * 4 + x / 16)
    if y = '=' ∧ z = '=' ∧ rest = [] then return [first]
    let y ← value y
    let middle := byte (x % 16 * 16 + y / 4)
    if z = '=' ∧ rest = [] then return [first, middle]
    let z ← value z
    return first :: middle :: byte (y % 4 * 64 + z) :: (← decodeChars rest)
  | _ => none

def decode (s : String) : Option (List UInt8) := decodeChars s.toList

/-! ## The round trip -/

theorem decodeChars_encodeBytes (b : List UInt8) : decodeChars (encodeBytes b) = some b := by
  fun_induction encodeBytes b with
  | case1 => rfl
  | case2 a =>
    have ha := a.toNat_lt
    simp [decodeChars, value_digit (show a.toNat / 4 < 64 by omega),
      value_digit (show a.toNat % 4 * 16 < 64 by omega)]
    exact byte_eq (by omega)
  | case3 a b =>
    have ha := a.toNat_lt
    have hb := b.toNat_lt
    have h2 : b.toNat % 16 * 4 < 64 := by omega
    simp [decodeChars, value_digit (show a.toNat / 4 < 64 by omega),
      value_digit (show a.toNat % 4 * 16 + b.toNat / 16 < 64 by omega), value_digit h2,
      digit_ne_pad h2]
    exact ⟨byte_eq (by omega), byte_eq (by omega)⟩
  | case4 a b c rest ih =>
    have ha := a.toNat_lt
    have hb := b.toNat_lt
    have hc := c.toNat_lt
    have h2 : b.toNat % 16 * 4 + c.toNat / 64 < 64 := by omega
    have h3 : c.toNat % 64 < 64 := by omega
    simp [decodeChars, value_digit (show a.toNat / 4 < 64 by omega),
      value_digit (show a.toNat % 4 * 16 + b.toNat / 16 < 64 by omega), value_digit h2,
      value_digit h3, digit_ne_pad h2, digit_ne_pad h3, ih]
    exact ⟨byte_eq (by omega), byte_eq (by omega), byte_eq (by omega)⟩

/-- **What was encoded is decoded.** -/
@[simp] theorem decode_encode (b : List UInt8) : decode (encode b) = some b := by
  rw [decode, encode, String.toList_ofList, decodeChars_encodeBytes]

end Base64
