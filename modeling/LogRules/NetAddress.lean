import LogRules.Number.Reading
import LogRules.Text.Reader

/-!
Internet addresses of both versions, read from text, and which of them are private.
-/
namespace LogRules

inductive NetAddress
  /-- Four octets. -/
  | v4 (octets : List Nat)
  /-- Eight groups of sixteen bits. -/
  | v6 (groups : List Nat)
deriving DecidableEq, Repr

namespace NetAddress

open Text (Reader)

/-- One octet: up to three digits, no zero before another digit, at most 255. -/
def readOctet : Reader Nat := fun text =>
  let digits := text.takeWhile Char.isDigit
  let n := Digits.value digits
  if digits.isEmpty ∨ 3 < digits.length ∨ 255 < n then none
  else if 1 < digits.length ∧ digits.head? = some '0' then none
  else some (n, text.drop digits.length)

def readGroup : Reader Nat := fun text =>
  let digits := text.takeWhile Digits.isHexDigit
  if digits.isEmpty ∨ 4 < digits.length then none
  else some (Digits.hexValue digits, text.drop digits.length)

def after {α : Type} (separator : Char) (reader : Reader α) : Reader α := fun text =>
  match text with
  | c :: rest => if c = separator then reader rest else none
  | [] => none

def readOctets : Reader (List Nat) := fun text => do
  let (a, text) ← readOctet text
  let (b, text) ← after '.' readOctet text
  let (c, text) ← after '.' readOctet text
  let (d, text) ← after '.' readOctet text
  return ([a, b, c, d], text)

/-- Up to `room` groups with colons between them, where four octets may stand for the last two.
The flag tells whether octets ended them; `first` is false behind a group. -/
def readGroups : Nat → Bool → List Char → List Nat × Bool × List Char
  | 0, _, text => ([], false, text)
  | room + 1, first, text =>
    let next {α : Type} (reader : Reader α) : Option (α × List Char) :=
      if first then reader text else after ':' reader text
    match if 0 < room then next readOctets else none with
    | some ([a, b, c, d], rest) => ([a * 256 + b, c * 256 + d], true, rest)
    | _ =>
      match next readGroup with
      | none => ([], false, text)
      | some (group, rest) =>
        let (groups, octets, rest) := readGroups room false rest
        (group :: groups, octets, rest)

/-- Eight groups, or fewer with `::` in the place of at least one group of zeros. -/
def readSix : Reader (List Nat) := fun text =>
  let (head, octets, rest) := readGroups 8 true text
  if head.length = 8 then some (head, rest)
  else if octets then none
  else match rest with
    | ':' :: ':' :: rest =>
      let (tail, _, rest) := readGroups (7 - head.length) true rest
      some (head ++ List.replicate (8 - head.length - tail.length) 0 ++ tail, rest)
    | _ => none

/-- An address of either version, to the end of the text. -/
def read? (text : List Char) : Option NetAddress :=
  match readOctets text with
  | some (octets, rest) => if rest.isEmpty then some (.v4 octets) else none
  | none => match readSix text with
    | some (groups, rest) => if rest.isEmpty then some (.v6 groups) else none
    | none => none

/-- Addresses that no public network routes: private, loopback and link-local ones. -/
def isPrivate : NetAddress → Bool
  | v4 (a :: b :: _) =>
    a == 10 || (a == 172 && b / 16 == 1) || (a == 192 && b == 168) || a == 127 ||
      (a == 169 && b == 254)
  | v4 _ => false
  | v6 groups =>
    let first := groups.headD 0
    groups == [0, 0, 0, 0, 0, 0, 0, 1] || first / 512 == 0xfc00 / 512 || first / 64 == 0xfe80 / 64

end NetAddress

end LogRules
