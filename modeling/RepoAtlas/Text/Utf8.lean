/-!
# Bytes and texts

Texts as UTF-8 bytes, and bytes read back as text where they are valid.
-/

namespace RepoAtlas.Text

/-- The UTF-8 bytes of a text. -/
def bytes (s : String) : List UInt8 := s.toUTF8.toList

/-- The text with the given UTF-8 bytes, if they are valid. -/
def ofBytes? (b : List UInt8) : Option String := String.fromUTF8? ⟨b.toArray⟩

/-- The character that stands for bytes that are not valid. -/
def replacement : Char := '\uFFFD'

/-- What a first byte promises: how many bytes follow, and the range of the first of them. -/
def lead? (b : UInt8) : Option (Nat × UInt8 × UInt8) :=
  if 0xC2 ≤ b && b ≤ 0xDF then some (1, 0x80, 0xBF)
  else if b == 0xE0 then some (2, 0xA0, 0xBF)
  else if b == 0xED then some (2, 0x80, 0x9F)
  else if 0xE1 ≤ b && b ≤ 0xEF then some (2, 0x80, 0xBF)
  else if b == 0xF0 then some (3, 0x90, 0xBF)
  else if 0xF1 ≤ b && b ≤ 0xF3 then some (3, 0x80, 0xBF)
  else if b == 0xF4 then some (3, 0x80, 0x8F)
  else none

/-- The bytes after a first byte that fit it, at most `n`, the first of them in a range. -/
def fitting (n : Nat) (low high : UInt8) : List UInt8 → List UInt8
  | [] => []
  | b :: rest =>
    if n == 0 then []
    else if low ≤ b && b ≤ high then b :: fitting (n - 1) 0x80 0xBF rest
    else []

/-- The characters of some bytes; each longest stretch that begins a character and does not finish
it, and each byte that begins none, becomes one replacement character. -/
def lossyChars : Nat → List UInt8 → List Char
  | 0, _ => []
  | _ + 1, [] => []
  | n + 1, b :: rest =>
    if b < 0x80 then .ofNat b.toNat :: lossyChars n rest
    else
      match lead? b with
      | none => replacement :: lossyChars n rest
      | some (need, low, high) =>
        let tail := fitting need low high rest
        let after := rest.drop tail.length
        if tail.length < need then replacement :: lossyChars n after
        else
          let first := b.toNat % (if need == 1 then 32 else if need == 2 then 16 else 8)
          .ofNat (tail.foldl (fun c t => 64 * c + t.toNat % 64) first) :: lossyChars n after

/-- The text of some bytes, with replacement characters where they are not valid. -/
def lossy (b : List UInt8) : String := .ofList (lossyChars b.length b)

/-- The first place at which bytes are not valid: how many bytes before it are, and how many bytes it
takes; no number if the bytes end inside a character. -/
def invalidAt? : Nat → Nat → List UInt8 → Option (Nat × Option Nat)
  | 0, _, _ => none
  | _ + 1, _, [] => none
  | n + 1, place, b :: rest =>
    if b < 0x80 then invalidAt? n (place + 1) rest
    else
      match lead? b with
      | none => some (place, some 1)
      | some (need, low, high) =>
        let tail := fitting need low high rest
        if tail.length < need then
          some (place, if tail.length == rest.length then none else some (1 + tail.length))
        else invalidAt? n (place + 1 + need) (rest.drop need)

/-- What is wrong with bytes as text. -/
def invalidText? (b : List UInt8) : Option String :=
  (invalidAt? (b.length + 1) 0 b).map fun (place, width) =>
    match width with
    | some w => "invalid utf-8 sequence of " ++ toString w ++ " bytes from index " ++ toString place
    | none => "incomplete utf-8 byte sequence from index " ++ toString place

/-- The value of a hexadecimal digit. -/
def hexValue? (c : Char) : Option Nat :=
  if '0' ≤ c && c ≤ '9' then some (c.toNat - '0'.toNat)
  else if 'a' ≤ c && c ≤ 'f' then some (c.toNat - 'a'.toNat + 10)
  else if 'A' ≤ c && c ≤ 'F' then some (c.toNat - 'A'.toNat + 10)
  else none

/-- The hexadecimal digit, in lower case, of a number below sixteen. -/
def hexDigit (n : Nat) : Char :=
  if n < 10 then .ofNat ('0'.toNat + n) else .ofNat ('a'.toNat + (n - 10))

/-- Two hexadecimal digits for each byte. -/
def hexOfBytes (b : List UInt8) : String :=
  .ofList (b.flatMap fun x => [hexDigit (x.toNat / 16), hexDigit (x.toNat % 16)])

/-- The bytes written as two hexadecimal digits each. -/
def bytesOfHexDigits? : List Char → Option (List UInt8)
  | [] => some []
  | [_] => none
  | a :: b :: rest => do
    let x ← hexValue? a
    let y ← hexValue? b
    let l ← bytesOfHexDigits? rest
    return .ofNat (16 * x + y) :: l

/-- The bytes written as two hexadecimal digits each. -/
def bytesOfHex? (s : String) : Option (List UInt8) := bytesOfHexDigits? s.toList

/-- A number in hexadecimal with at least `width` digits. -/
def hexOfNat (width n : Nat) : String :=
  let digits := Nat.toDigits 16 n
  .ofList (List.replicate (width - digits.length) '0' ++ digits)

end RepoAtlas.Text
