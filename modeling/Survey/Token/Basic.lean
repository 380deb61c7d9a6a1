import Survey.Position

set_option autoImplicit false

/-!
# Tokens

A token is a class, the place where it starts and the characters that it consists
of. Keywords are words like any other; whoever looks for one compares the text.
-/

namespace Survey

/-- The classes of tokens. Punctuation that structure hangs on has classes of its
own. -/
inductive Tag where
  | word
  | lifetime
  | number
  | string
  | character
  | blank
  | newline
  | lineComment
  | blockComment
  | openBrace
  | closeBrace
  | openParen
  | closeParen
  | openBracket
  | closeBracket
  | less
  | greater
  | bang
  | hash
  | semicolon
  | comma
  | colon
  | equal
  | minus
  | slash
  /-- Any other ASCII punctuation. -/
  | punctuation
  | unknown
  /-- The end of the text, where tokens have no characters. -/
  | endOfText
deriving DecidableEq, Repr

def Tag.isTrivia : Tag → Bool
  | .blank | .newline | .lineComment | .blockComment => true
  | _ => false

structure Token where
  tag : Tag
  start : Position
  lexeme : List Char
deriving DecidableEq, Repr

namespace Token

def length (token : Token) : Nat := Text.byteLength token.lexeme

def text (token : Token) : String := String.ofList token.lexeme

def atEnd (place : Position) : Token := ⟨.endOfText, place, []⟩

end Token

/-! ### Keywords

The words that announce something to record or to skip. -/

inductive Keyword where
  | function
  | struct
  | enum
  | trait
  | implementation
  | unsafeMark
  | macroRules
deriving DecidableEq, Repr

def Keyword.spelling : Keyword → List Char
  | .function => ['f', 'n']
  | .struct => ['s', 't', 'r', 'u', 'c', 't']
  | .enum => ['e', 'n', 'u', 'm']
  | .trait => ['t', 'r', 'a', 'i', 't']
  | .implementation => ['i', 'm', 'p', 'l']
  | .unsafeMark => ['u', 'n', 's', 'a', 'f', 'e']
  | .macroRules => ['m', 'a', 'c', 'r', 'o', '_', 'r', 'u', 'l', 'e', 's']

def Keyword.all : List Keyword :=
  [.function, .struct, .enum, .trait, .implementation, .unsafeMark, .macroRules]

def Keyword.ofWord? (word : List Char) : Option Keyword :=
  Keyword.all.find? (·.spelling == word)

def Token.keyword? (token : Token) : Option Keyword :=
  if token.tag = .word then Keyword.ofWord? token.lexeme else none

theorem Keyword.ofWord?_spelling (keyword : Keyword) :
    Keyword.ofWord? keyword.spelling = some keyword := by
  cases keyword <;> decide

end Survey
