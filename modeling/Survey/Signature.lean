import Survey.Delimiter

set_option autoImplicit false

/-!
# Signatures

What the head of a function or of an implementation says, taken apart without a parser.
-/

namespace Survey

/-! ### Nesting inside a signature

Once a signature has been cut out of a file, only brackets matter. Here all four
kinds count alike: any opener goes one level down and any closer one level up,
never above the surface. The `>` of an arrow closes nothing. -/

namespace Signature

/-- How deep a place in a signature lies, and whether the shaft of an arrow is right
before it. -/
structure Nesting where
  depth : Nat
  afterShaft : Bool
deriving DecidableEq, Repr

namespace Nesting

def surface : Nesting := ⟨0, false⟩

def inside : Nesting := ⟨1, false⟩

def isOpener (c : Char) : Bool := (Delimiter.ofOpener? c).isSome

def isCloser (afterShaft : Bool) (c : Char) : Bool :=
  c == ')' || c == ']' || c == '\x7d' || (c == '>' && !afterShaft)

def past (nesting : Nesting) (c : Char) : Nesting :=
  ⟨if isOpener c then nesting.depth + 1
    else if isCloser nesting.afterShaft c then nesting.depth - 1
    else nesting.depth,
    Delimiter.isShaft c⟩

/-- The depth that a character itself lies at: brackets lie outside what they
enclose. -/
def depthOf (nesting : Nesting) (c : Char) : Nat :=
  if isOpener c then nesting.depth else (nesting.past c).depth

end Nesting

/-- How many characters lie before the closer that leads back to the surface. -/
def closerIndex? (text : List Char) : Option Nat :=
  go .inside 0 text
where
  go (nesting : Nesting) (passed : Nat) : List Char → Option Nat
    | [] => none
    | c :: rest =>
        let next := nesting.past c
        if next.depth = 0 ∧ nesting.depth = 1 then some passed
        else go next (passed + 1) rest

/-- The text after the generic list that it starts with, if it starts with one.
Nothing comes after a list that is never closed. -/
def afterGenerics : List Char → List Char
  | '<' :: inner =>
      match closerIndex? inner with
      | some index => inner.drop (index + 1)
      | none => []
  | text => text

def splitTop (separator : Char) (text : List Char) : List (List Char) :=
  go .surface text
where
  go (nesting : Nesting) : List Char → List (List Char)
    | [] => [[]]
    | c :: rest =>
        let parts := go (nesting.past c) rest
        if nesting.depthOf c = 0 ∧ c = separator then [] :: parts
        else
          match parts with
          | [] => [[c]]
          | part :: parts => (c :: part) :: parts

/-- How many characters lie before a word that stands alone at the surface: white
space or the end of the text on both sides. -/
def wordIndex? (word text : List Char) : Option Nat :=
  go .surface true 0 text
where
  go (nesting : Nesting) (afterSpace : Bool) (passed : Nat) : List Char → Option Nat
    | [] => none
    | c :: rest =>
        if nesting.depthOf c = 0 ∧ afterSpace ∧ standsAlone (c :: rest) then some passed
        else go (nesting.past c) (Text.isWhiteSpace c) (passed + 1) rest
  standsAlone (text : List Char) : Bool :=
    match word.isPrefixOf? text with
    | some after => after.head?.all Text.isWhiteSpace
    | none => false

def beforeConstraints (text : List Char) : List Char :=
  match wordIndex? ['w', 'h', 'e', 'r', 'e'] text with
  | some index => Text.trimEnd (text.take index)
  | none => Text.trimEnd text

/-- The name that a declaration starts with. It ends at white space, at a colon or
at a generic list. -/
def leadingName (text : List Char) : List Char :=
  (Text.trimStart text).takeWhile fun c =>
    !(Text.isWhiteSpace c || c == ':' || c == '<')

/-! ### Signatures of functions

The text between `fn` and the body is taken apart into the name, the parameters
and the result type. Types are not understood, only cut out. -/

structure FunctionParts where
  name : List Char
  parameters : List (List Char)
  result : List Char
deriving DecidableEq, Repr

/-- The parts of a parameter list, trimmed, without those that are empty. -/
def parameters (text : List Char) : List (List Char) :=
  ((splitTop ',' text).map Text.trim).filter fun part => !part.isEmpty

def resultType (text : List Char) : List Char :=
  match Text.trimStart text with
  | '-' :: '>' :: rest => beforeConstraints (Text.trimStart rest)
  | _ => []

/-- Take a signature apart. The parameter list is the group of parentheses after the
name and its generic list; where there is none, only the name is known. -/
def functionParts (text : List Char) : FunctionParts :=
  let text := Text.trim text
  let isNamed := fun c : Char => !(Text.isWhiteSpace c || c == '<' || c == '(')
  let name := text.takeWhile isNamed
  let rest := Text.trimStart (afterGenerics (Text.trimStart (text.dropWhile isNamed)))
  match rest with
  | '(' :: inner =>
    match closerIndex? inner with
    | some index =>
        ⟨name, parameters (inner.take index), resultType (inner.drop (index + 1))⟩
    | none => ⟨name, parameters inner, []⟩
  | _ => ⟨name, [], []⟩

/-- Is a parameter the receiver of a method: `self`, borrowed or not, mutable or
not, with a lifetime or without? -/
def isReceiver (parameter : List Char) : Bool :=
  let borrowed :=
    match Text.trimStart parameter with
    | '&' :: rest =>
      match Text.trimStart rest with
      | '\'' :: rest => Text.trimStart (rest.dropWhile Text.isWordPart)
      | rest => rest
    | rest => rest
  let bare :=
    match borrowed with
    | 'm' :: 'u' :: 't' :: ' ' :: rest => Text.trimStart rest
    | rest => rest
  match bare with
  | 's' :: 'e' :: 'l' :: 'f' :: rest => !rest.head?.any Text.isWordPart
  | _ => false

/-! ### Targets of implementations

The text between `impl` and the body names a type and, before the word `for`, the
trait that is implemented for it. -/

structure Target where
  typeName : List Char
  traitName? : Option (List Char)
deriving DecidableEq, Repr

/-- A type without the borrows, lifetimes and qualifiers that it starts with. -/
def bareType (text : List Char) : List Char :=
  match text with
  | '&' :: rest => bareType (Text.trimStart rest)
  | '\'' :: rest => bareType (Text.trimStart (rest.dropWhile Text.isWordPart))
  | 'm' :: 'u' :: 't' :: ' ' :: rest => bareType (Text.trimStart rest)
  | 'd' :: 'y' :: 'n' :: ' ' :: rest => bareType (Text.trimStart rest)
  | text => text
termination_by text.length
decreasing_by
  all_goals
    have trimmed := fun text => (Text.trimStart_isSuffix text).length_le
    have dropped := fun text : List Char =>
      (List.dropWhile_suffix (l := text) Text.isWordPart).length_le
    simp only [List.length_cons]
    grind

/-- The name of a type: a path without its arguments, or a whole tuple or array. -/
def typeName (text : List Char) : List Char :=
  let grouped := fun (text inner : List Char) =>
    match closerIndex? inner with
    | some index => text.take (index + 2)
    | none => Text.trimEnd text
  match bareType (Text.trimStart text) with
  | '(' :: inner => grouped ('(' :: inner) inner
  | '[' :: inner => grouped ('[' :: inner) inner
  | text => text.takeWhile fun c => !(Text.isWhiteSpace c || c == '<')

/-- The name of a trait: the last word before its arguments. -/
def traitName? (text : List Char) : Option (List Char) :=
  let path := Text.trimEnd (text.takeWhile (· != '<'))
  let name := (path.reverse.takeWhile fun c => !Text.isWhiteSpace c).reverse
  if name.isEmpty then none else some name

def target? (text : List Char) : Option Target :=
  let text := beforeConstraints (afterGenerics (Text.trimStart text))
  let (type, trait?) :=
    match wordIndex? ['f', 'o', 'r'] text with
    | some index => (text.drop (index + 3), traitName? (text.take index))
    | none => (text, none)
  let name := typeName type
  if name.isEmpty then none else some ⟨name, trait?⟩

end Signature

end Survey
