import LogRules.Text.CaseTable

/-!
Text in lower and in upper case, letter by letter. The only mapping that looks at its surroundings
is that of the capital sigma, which has a form of its own at the end of a word.
-/
namespace LogRules.Text

def isIgnorable (c : Char) : Bool := inRanges CaseTable.ignorable c.toNat

def isCased (c : Char) : Bool := inRanges CaseTable.cased c.toNat

/-- The characters that a letter maps to; a character without a mapping stays as it is. -/
def mapLetter (many : List (Nat × List Nat)) (runs : List Run) (c : Char) : List Char :=
  match many.find? (·.1 == c.toNat) with
  | some (_, image) => image.map Char.ofNat
  | none => match mapRuns runs c.toNat with
    | some image => [Char.ofNat image]
    | none => [c]

def lowerLetter (c : Char) : List Char :=
  mapLetter CaseTable.lowercaseMany CaseTable.lowercase c

def upperLetter (c : Char) : List Char :=
  mapLetter CaseTable.uppercaseMany CaseTable.uppercase c

/-- Whether the first character that is not looked through has a case. -/
def meetsCased (text : List Char) : Bool :=
  match text.dropWhile isIgnorable with
  | [] => false
  | c :: _ => isCased c

def capitalSigma : Char := 'Σ'

/-- The lower case of what follows `before`, which is given backwards. A capital sigma after a
letter becomes the final form unless another letter follows. -/
def lowerAfter (before : List Char) : List Char → List Char
  | [] => []
  | c :: rest =>
    let image :=
      if c = capitalSigma then
        if meetsCased before && !meetsCased rest then ['ς'] else ['σ']
      else lowerLetter c
    image ++ lowerAfter (c :: before) rest

def lowercase (text : String) : String := String.ofList (lowerAfter [] text.toList)

def uppercase (text : String) : String := String.ofList (text.toList.flatMap upperLetter)

end LogRules.Text
