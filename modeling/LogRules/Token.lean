import LogRules.Diagnostic
import LogRules.Number.Layout

/-!
Tokens of the rule language. Keywords are names; where they are understood, case does not matter.
-/
namespace LogRules

inductive Symbol
  | dollar | leftParen | rightParen | leftBracket | rightBracket | leftBrace | rightBrace
  | comma | colon | semicolon | dot
  | assign | equal | notEqual | less | lessEqual | greater | greaterEqual
  | plus | minus | star | slash | percent
  | bang | andAnd | orOr
deriving DecidableEq, Inhabited, Repr

def Symbol.text : Symbol → String
  | dollar => "$"
  | leftParen => "("
  | rightParen => ")"
  | leftBracket => "["
  | rightBracket => "]"
  | leftBrace => "\x7b"
  | rightBrace => "\x7d"
  | comma => ","
  | colon => ":"
  | semicolon => ";"
  | dot => "."
  | assign => "="
  | equal => "=="
  | notEqual => "!="
  | less => "<"
  | lessEqual => "<="
  | greater => ">"
  | greaterEqual => ">="
  | plus => "+"
  | minus => "-"
  | star => "*"
  | slash => "/"
  | percent => "%"
  | bang => "!"
  | andAnd => "&&"
  | orOr => "||"

/-- Classes of tokens with what they hold. A source ends in exactly one `eof`. -/
inductive Lexeme
  | name (text : String)
  | quotedName (text : String)
  | string (text : String)
  | integer (n : Int64)
  | float (x : Double)
  | symbol (s : Symbol)
  | eof
deriving DecidableEq, Inhabited

namespace Lexeme

/-- Equality of letters without regard to ASCII case. -/
def sameWord (a b : String) : Bool := a.toList.map Char.toLower == b.toList.map Char.toLower

/-- Whether this is the keyword `word`, in any case. -/
def isKeyword (word : String) : Lexeme → Bool
  | name text => sameWord text word
  | _ => false

/-- A lexeme is one word at most. -/
theorem isKeyword_ne {l : Lexeme} {word other : String} (h : l.isKeyword word = true)
    (hother : sameWord word other = false) : l.isKeyword other = false := by
  cases l with
  | name text =>
    rw [isKeyword, sameWord, beq_iff_eq] at h
    rw [isKeyword, sameWord, h]
    exact hother
  | _ => rfl

/-- How an error speaks of a token. -/
def text : Lexeme → String
  | name text => s!"'{text}'"
  | quotedName text => "'\x60" ++ text ++ "\x60'"
  | string _ => "string literal"
  | integer n => s!"'{n.toInt}'"
  | float x => s!"'{NumberLayout.plain.text x}'"
  | symbol s => s!"'{s.text}'"
  | eof => "end of input"

end Lexeme

structure Token where
  lexeme : Lexeme
  position : Position
deriving DecidableEq, Inhabited

end LogRules
