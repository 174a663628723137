import RepoAtlas.Digest.Sha256

/-!
# Fingerprints

A fingerprint is the SHA-256 digest of some content in lower-case hexadecimal. A list of parts is
framed before it is hashed: each part is preceded by its length, so that no two lists of parts give
the same bytes.
-/

namespace RepoAtlas

/-- The fingerprint of some bytes. -/
def fingerprintBytes (content : List UInt8) : String :=
  Text.hexOfBytes (Digest.sha256 content)

/-- The fingerprint of a text. -/
def fingerprint (content : String) : String := fingerprintBytes (Text.bytes content)

/-- The bytes of a number, least significant first. -/
def littleEndian : Nat → Nat → List UInt8
  | 0, _ => []
  | width + 1, n => .ofNat (n % 256) :: littleEndian width (n / 256)

/-- One part, preceded by its length in eight bytes. -/
def framePart (part : String) : List UInt8 :=
  littleEndian 8 (Text.bytes part).length ++ Text.bytes part

/-- The bytes that stand for a list of parts. -/
def frameParts (parts : List String) : List UInt8 := parts.flatMap framePart

/-- The fingerprint of a list of parts. -/
def fingerprintParts (parts : List String) : String := fingerprintBytes (frameParts parts)

end RepoAtlas
