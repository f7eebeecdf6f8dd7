import Cityscape.NameId.Digest

/-!
# `StableId`: identifiers derived from names

The identifier of a name is a UUID of version 5: the digest of a name space and the name, cut
to sixteen bytes, with version and variant written over six of its bits. Equal names have equal
identifiers at all times.
-/

namespace Cityscape

namespace NameId

/-- The name space of uniform resource locators. -/
def urlSpace : List UInt8 :=
  [0x6B, 0xA7, 0xB8, 0x11, 0x9D, 0xAD, 0x11, 0xD1, 0x80, 0xB4, 0x00, 0xC0, 0x4F, 0xD4, 0x30, 0xC8]

/-- Marks sixteen bytes as an identifier of version 5. -/
def mark (bytes : List UInt8) : List UInt8 :=
  (bytes.modify 6 fun b => (b &&& 0x0F) ||| 0x50).modify 8 fun b => (b &&& 0x3F) ||| 0x80

/-- The two hexadecimal digits of a byte. -/
def hexByte (b : UInt8) : List Char := [Nat.digitChar (b.toNat / 16), Nat.digitChar (b.toNat % 16)]

/-- The text of an identifier: groups of four, two, two, two and six bytes. -/
def hyphenated (bytes : List UInt8) : List Char :=
  let group (start count : Nat) := ((bytes.drop start).take count).flatMap hexByte
  group 0 4 ++ '-' :: group 4 2 ++ '-' :: group 6 2 ++ '-' :: group 8 2 ++ '-' :: group 10 6

end NameId

/-- The identifier of a name. -/
def stableId (name : String) : String :=
  let digest := NameId.Digest.ofMessage (NameId.urlSpace ++ name.toUTF8.toList)
  String.ofList (NameId.hyphenated (NameId.mark (digest.bytes.take 16)))

end Cityscape
