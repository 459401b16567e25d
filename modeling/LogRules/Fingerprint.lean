import LogRules.Digest

/-!
Fingerprints of text: what two rule bodies are compared by.
-/
namespace LogRules

structure Fingerprint where
  bytes : List UInt8
deriving DecidableEq, Inhabited, Repr

namespace Fingerprint

def ofText (text : String) : Fingerprint := ⟨Digest.ofBytes text.toUTF8.toList⟩

def hexByte (byte : UInt8) : List Char :=
  [Nat.digitChar (byte.toNat / 16), Nat.digitChar (byte.toNat % 16)]

def hex (fingerprint : Fingerprint) : String := String.ofList (fingerprint.bytes.flatMap hexByte)

/-- The first eight bytes. -/
def short (fingerprint : Fingerprint) : String :=
  String.ofList ((fingerprint.bytes.take 8).flatMap hexByte)

def label (fingerprint : Fingerprint) : String := "Fingerprint(" ++ fingerprint.short ++ ")"

end Fingerprint

end LogRules
