namespace Arbiter

namespace Hex

def digit (n : Nat) : Char :=
  if n < 10 then Char.ofNat ('0'.toNat + n) else Char.ofNat ('a'.toNat + (n - 10))

def digit? (c : Char) : Option Nat :=
  if '0' ≤ c ∧ c ≤ '9' then some (c.toNat - '0'.toNat)
  else if 'a' ≤ c ∧ c ≤ 'f' then some (c.toNat - 'a'.toNat + 10)
  else if 'A' ≤ c ∧ c ≤ 'F' then some (c.toNat - 'A'.toNat + 10)
  else none

def digits (b : UInt8) : List Char := [digit (b.toNat / 16), digit (b.toNat % 16)]

def encode (bytes : List UInt8) : String := .ofList (bytes.flatMap digits)

def bytes? : List Char → Option (List UInt8)
  | [] => some []
  | [_] => none
  | h :: l :: rest =>
    match digit? h, digit? l, bytes? rest with
    | some h, some l, some bytes => some (.ofNat (16 * h + l) :: bytes)
    | _, _, _ => none

def decode? (text : String) : Option (List UInt8) := bytes? text.toList

theorem digit?_digit : ∀ n < 16, digit? (digit n) = some n := by decide

theorem bytes?_flatMap_digits (bytes : List UInt8) :
    bytes? (bytes.flatMap digits) = some bytes := by
  induction bytes with
  | nil => rfl
  | cons b bytes ih =>
    have hb : b.toNat < 256 := b.toNat_lt_size
    simp only [digits, List.flatMap_cons, List.cons_append, List.nil_append, bytes?,
      digit?_digit _ (show b.toNat / 16 < 16 by omega),
      digit?_digit _ (show b.toNat % 16 < 16 by omega), ih]
    simp [show 16 * (b.toNat / 16) + b.toNat % 16 = b.toNat by omega]

@[simp] theorem decode?_encode (bytes : List UInt8) : decode? (encode bytes) = some bytes := by
  simp [decode?, encode, bytes?_flatMap_digits]

@[simp] theorem length_encode (bytes : List UInt8) : (encode bytes).length = 2 * bytes.length := by
  induction bytes with
  | nil => rfl
  | cons b bytes ih =>
    simp only [encode, String.length_ofList, List.flatMap_cons, List.length_append] at ih ⊢
    simp only [ih, digits, List.length_cons, List.length_nil]
    omega

def bigEndian (w : UInt64) : List UInt8 :=
  ([56, 48, 40, 32, 24, 16, 8, 0] : List UInt64).map fun shift => (w >>> shift).toUInt8

def ofWord (w : UInt64) : String := encode (bigEndian w)

end Hex

end Arbiter
