import Mathlib.Logic.Function.Basic

/-!
# Base64

The standard alphabet with padding. `decodeChars` reads back what `encodeChars`
writes, so no two byte strings have the same text.
-/

namespace Base64

def digit (n : Nat) : Char :=
  if n < 26 then Char.ofNat ('A'.toNat + n)
  else if n < 52 then Char.ofNat ('a'.toNat + (n - 26))
  else if n < 62 then Char.ofNat ('0'.toNat + (n - 52))
  else if n = 62 then '+' else '/'

def encodeChars : List UInt8 → List Char
  | [] => []
  | [a] => [digit (a.toNat / 4), digit (a.toNat % 4 * 16), '=', '=']
  | [a, b] =>
    [digit (a.toNat / 4), digit (a.toNat % 4 * 16 + b.toNat / 16), digit (b.toNat % 16 * 4), '=']
  | a :: b :: c :: rest =>
    digit (a.toNat / 4) :: digit (a.toNat % 4 * 16 + b.toNat / 16) :: digit (b.toNat % 16 * 4 + c.toNat / 64) ::
      digit (c.toNat % 64) :: encodeChars rest

def encode (bytes : List UInt8) : String := String.ofList (encodeChars bytes)

def value (c : Char) : Nat :=
  if 'A' ≤ c ∧ c ≤ 'Z' then c.toNat - 'A'.toNat
  else if 'a' ≤ c ∧ c ≤ 'z' then c.toNat - 'a'.toNat + 26
  else if '0' ≤ c ∧ c ≤ '9' then c.toNat - '0'.toNat + 52
  else if c = '+' then 62 else 63

def decodeChars : List Char → List UInt8
  | c₁ :: c₂ :: c₃ :: c₄ :: rest =>
    let a := UInt8.ofNat (value c₁ * 4 + value c₂ / 16)
    let b := UInt8.ofNat (value c₂ % 16 * 16 + value c₃ / 4)
    let c := UInt8.ofNat (value c₃ % 4 * 64 + value c₄)
    if c₃ = '=' then [a] else if c₄ = '=' then [a, b] else a :: b :: c :: decodeChars rest
  | _ => []

theorem value_digit : ∀ n < 64, value (digit n) = n := by decide

theorem digit_ne_pad : ∀ n < 64, digit n ≠ '=' := by decide

theorem decodeChars_encodeChars (bytes : List UInt8) : decodeChars (encodeChars bytes) = bytes := by
  induction bytes using encodeChars.induct with
  | case1 => rfl
  | case2 a =>
    have ha := a.toNat_lt
    have h₁ := value_digit (a.toNat / 4) (by omega)
    have h₂ := value_digit (a.toNat % 4 * 16) (by omega)
    have he : a.toNat / 4 * 4 + a.toNat % 4 * 16 / 16 = a.toNat := by omega
    simp only [encodeChars, decodeChars, h₁, h₂, he, UInt8.ofNat_toNat, if_true]
  | case3 a b =>
    have ha := a.toNat_lt
    have hb := b.toNat_lt
    have h₁ := value_digit (a.toNat / 4) (by omega)
    have h₂ := value_digit (a.toNat % 4 * 16 + b.toNat / 16) (by omega)
    have h₃ := value_digit (b.toNat % 16 * 4) (by omega)
    have hp₃ := digit_ne_pad (b.toNat % 16 * 4) (by omega)
    have hea : a.toNat / 4 * 4 + (a.toNat % 4 * 16 + b.toNat / 16) / 16 = a.toNat := by omega
    have heb : (a.toNat % 4 * 16 + b.toNat / 16) % 16 * 16 + b.toNat % 16 * 4 / 4 = b.toNat := by omega
    simp only [encodeChars, decodeChars, h₁, h₂, h₃, hp₃, hea, heb, UInt8.ofNat_toNat, if_true, if_false]
  | case4 a b c rest ih =>
    have ha := a.toNat_lt
    have hb := b.toNat_lt
    have hc := c.toNat_lt
    have h₁ := value_digit (a.toNat / 4) (by omega)
    have h₂ := value_digit (a.toNat % 4 * 16 + b.toNat / 16) (by omega)
    have h₃ := value_digit (b.toNat % 16 * 4 + c.toNat / 64) (by omega)
    have h₄ := value_digit (c.toNat % 64) (by omega)
    have hp₃ := digit_ne_pad (b.toNat % 16 * 4 + c.toNat / 64) (by omega)
    have hp₄ := digit_ne_pad (c.toNat % 64) (by omega)
    have hea : a.toNat / 4 * 4 + (a.toNat % 4 * 16 + b.toNat / 16) / 16 = a.toNat := by omega
    have heb : (a.toNat % 4 * 16 + b.toNat / 16) % 16 * 16 + (b.toNat % 16 * 4 + c.toNat / 64) / 4 = b.toNat := by omega
    have hec : (b.toNat % 16 * 4 + c.toNat / 64) % 4 * 64 + c.toNat % 64 = c.toNat := by omega
    simp only [encodeChars, decodeChars, h₁, h₂, h₃, h₄, hp₃, hp₄, hea, heb, hec, ih, UInt8.ofNat_toNat, if_false]

theorem encode_injective : Function.Injective encode := by
  intro x y h
  have hchars : encodeChars x = encodeChars y := String.ofList_injective h
  rw [← decodeChars_encodeChars x, hchars, decodeChars_encodeChars]

example : encode [77, 97] = "TWE=" := by decide

end Base64
