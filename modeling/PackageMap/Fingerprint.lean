import PackageMap.Digest

/-!
# Fingerprints

A fingerprint is the digest of a list of keys and values. Each is written after its length, so the
bytes that are hashed tell where one ends and the next begins.
-/

namespace PackageMap.Fingerprint

/-- A number below 2^64 in eight bytes, the lowest first. -/
def lengthBytes (n : Nat) : List UInt8 := (List.range 8).map fun i => UInt8.ofNat (n >>> (8 * i))

theorem lengthBytes_length (n : Nat) : (lengthBytes n).length = 8 := by simp [lengthBytes]

/-- A field after its length. -/
def frame (field : List UInt8) : List UInt8 := lengthBytes field.length ++ field

/-- The bytes of a list of keys and values. -/
def stream (pairs : List (List UInt8 × List UInt8)) : List UInt8 :=
  pairs.flatMap fun p => frame p.1 ++ frame p.2

/-- The fingerprint of a list of keys and values. -/
def ofPairs (pairs : List (List UInt8 × List UInt8)) : String :=
  Digest.hex ⟨(stream pairs).toArray⟩

end PackageMap.Fingerprint
