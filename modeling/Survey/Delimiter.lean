import Survey.Atom

set_option autoImplicit false

/-!
# Groups, heads and attributes

What is read or stepped over by its delimiters: a group, the head of a declaration up to its
body, an attribute, the body of a macro.
-/

namespace Survey

/-! ### Delimited groups

A group runs from an opener to the closer that matches it. Only delimiters of the
group's own kind are counted. In an angle group the `>` of an arrow, which follows
a `-` or a `=` directly, closes nothing. -/

inductive Delimiter where
  | paren
  | bracket
  | brace
  | angle
deriving DecidableEq, Repr

namespace Delimiter

def opener : Delimiter → Char
  | .paren => '('
  | .bracket => '['
  | .brace => '\x7b'
  | .angle => '<'

def closer : Delimiter → Char
  | .paren => ')'
  | .bracket => ']'
  | .brace => '\x7d'
  | .angle => '>'

def ofOpener? (c : Char) : Option Delimiter :=
  if c = '(' then some .paren
  else if c = '[' then some .bracket
  else if c = '\x7b' then some .brace
  else if c = '<' then some .angle
  else none

/-- Does a character make an arrow of a `>` that follows it? -/
def isShaft (c : Char) : Bool := c == '-' || c == '='

def closes (kind : Delimiter) (afterShaft : Bool) (c : Char) : Bool :=
  c == kind.closer && !(kind == .angle && afterShaft)

def deepen (kind : Delimiter) (outer : Nat) (c : Char) : Nat :=
  if c = kind.opener then outer + 1 else outer

/-- How many characters it takes from here to the end of a group of which `taken`
characters are behind us, when `outer` further groups of its kind are open. -/
def closeFrom (kind : Delimiter) (outer : Nat) (afterShaft : Bool) (taken : Nat)
    (text : List Char) : Nat :=
  match _found : Atom.read? text with
  | none => taken
  | some (.char c, length) =>
      if kind.closes afterShaft c then
        match outer with
        | 0 => taken + length
        | outer + 1 => closeFrom kind outer false (taken + length) (text.drop length)
      else
        closeFrom kind (kind.deepen outer c) (isShaft c) (taken + length)
          (text.drop length)
  | some (_, length) =>
      closeFrom kind outer false (taken + length) (text.drop length)
termination_by text.length
decreasing_by all_goals exact Atom.length_drop_lt ‹_›

/-- How many characters remain of a group whose opener has been read, its closer
included. A group that is never closed runs to the end of the text. -/
def closeLength (kind : Delimiter) (text : List Char) : Nat :=
  closeFrom kind 0 false 0 text

theorem closeFrom_eq (kind : Delimiter) (outer : Nat) (afterShaft : Bool) (taken : Nat)
    (text : List Char) :
    closeFrom kind outer afterShaft taken text =
      match Atom.read? text with
      | none => taken
      | some (.char c, length) =>
          if kind.closes afterShaft c then
            match outer with
            | 0 => taken + length
            | outer + 1 => closeFrom kind outer false (taken + length) (text.drop length)
          else
            closeFrom kind (kind.deepen outer c) (isShaft c) (taken + length)
              (text.drop length)
      | some (_, length) =>
          closeFrom kind outer false (taken + length) (text.drop length) := by
  rw [closeFrom]
  split <;> simp [*]

theorem closeFrom_add (kind : Delimiter) (outer : Nat) (afterShaft : Bool)
    (taken more : Nat) (text : List Char) :
    closeFrom kind outer afterShaft (taken + more) text =
      taken + closeFrom kind outer afterShaft more text := by
  fun_induction closeFrom kind outer afterShaft more text with
  | case1 _ _ _ _ found => simp [closeFrom_eq, found]
  | case2 _ _ _ _ _ found closes => simp [closeFrom_eq, found, closes, Nat.add_assoc]
  | case3 _ _ _ _ _ found closes _ ih =>
      rw [closeFrom_eq, found]
      simp [closes, Nat.add_assoc, ih]
  | case4 _ _ _ _ _ _ found closes ih =>
      rw [closeFrom_eq, found]
      simp [closes, Nat.add_assoc, ih]
  | case5 _ _ _ _ _ _ other found ih =>
      rw [closeFrom_eq, found]
      simp [Nat.add_assoc, ih]

/-- How many characters remain of the group that a character opens, if it opens a
group of one of the given kinds. -/
def groupAfter? (kinds : List Delimiter) (c : Char) (text : List Char) : Option Nat :=
  ((ofOpener? c).filter (· ∈ kinds)).map (·.closeLength text)

end Delimiter

/-! ### Heads of declarations

The head of a declaration runs from its keyword to the brace that opens its body,
to a semicolon, or to the end of the text. Groups of chosen kinds are stepped over
on the way, so that a semicolon or a brace inside them does not end the head. -/

inductive HeadEnd where
  | endOfText
  | semicolon
  | brace
deriving DecidableEq, Repr

structure Head where
  /-- The text of the head without comments and without the groups stepped over. -/
  kept : List Char
  /-- How many characters the head has, the one that ends it included. -/
  length : Nat
  ending : HeadEnd
deriving DecidableEq, Repr

namespace Head

/-- Go on reading a head of which `taken` characters are behind us; what is kept of
them is given backwards. -/
def readFrom (groups : List Delimiter) (kept : List Char) (taken : Nat)
    (text : List Char) : Head :=
  match _found : Atom.read? text with
  | none => ⟨kept.reverse, taken, .endOfText⟩
  | some (.comment, length) =>
      readFrom groups kept (taken + length) (text.drop length)
  | some (.literal written, length) =>
      readFrom groups (written.reverse ++ kept) (taken + length) (text.drop length)
  | some (.char c, length) =>
      if c = ';' then ⟨kept.reverse, taken + length, .semicolon⟩
      else if c = '\x7b' then ⟨kept.reverse, taken + length, .brace⟩
      else
        match Delimiter.groupAfter? groups c (text.drop length) with
        | some group =>
            readFrom groups kept (taken + (length + group)) (text.drop (length + group))
        | none => readFrom groups (c :: kept) (taken + length) (text.drop length)
termination_by text.length
decreasing_by
  all_goals first
    | exact Atom.length_drop_lt _found
    | exact Atom.length_drop_add_lt _found _

theorem readFrom_eq (groups : List Delimiter) (kept : List Char) (taken : Nat)
    (text : List Char) :
    readFrom groups kept taken text =
      match Atom.read? text with
      | none => ⟨kept.reverse, taken, .endOfText⟩
      | some (.comment, length) =>
          readFrom groups kept (taken + length) (text.drop length)
      | some (.literal written, length) =>
          readFrom groups (written.reverse ++ kept) (taken + length) (text.drop length)
      | some (.char c, length) =>
          if c = ';' then ⟨kept.reverse, taken + length, .semicolon⟩
          else if c = '\x7b' then ⟨kept.reverse, taken + length, .brace⟩
          else
            match Delimiter.groupAfter? groups c (text.drop length) with
            | some group =>
                readFrom groups kept (taken + (length + group)) (text.drop (length + group))
            | none => readFrom groups (c :: kept) (taken + length) (text.drop length) := by
  rw [readFrom]
  split <;> simp [*]

def read (groups : List Delimiter) (text : List Char) : Head :=
  readFrom groups [] 0 text

/-- The text of a head, comments and groups included, without what ends it. -/
def signature (head : Head) (text : List Char) : List Char :=
  match head.ending with
  | .endOfText => text.take head.length
  | .semicolon | .brace => text.take (head.length - 1)

/-- How many characters the body after a head has, its closing brace included. A
head that no brace ends has no body. -/
def bodyLength? (head : Head) (text : List Char) : Option Nat :=
  match head.ending with
  | .brace => some (Delimiter.brace.closeLength (text.drop head.length))
  | .endOfText | .semicolon => none

def fullLength (head : Head) (text : List Char) : Nat :=
  head.length + (head.bodyLength? text).getD 0

end Head

/-! ### Attributes and macro bodies

Both are stepped over whole, right after the number sign or the exclamation mark
that announces them. An attribute also yields its text, which is how tests are
recognised. -/

/-- An attribute of an item: its text without white space, number sign and brackets
included, and the number of characters after the number sign. -/
structure Attribute where
  text : List Char
  length : Nat
deriving DecidableEq, Repr

namespace Attribute

/-- The bracket group of an attribute, after `taken` characters; `opening` is the
text before the group. -/
def bracketed? (opening : List Char) (taken : Nat) : List Char → Option Attribute
  | '[' :: rest =>
      let length := Delimiter.bracket.closeLength rest
      some ⟨opening ++ '[' :: Text.withoutWhiteSpace (rest.take length),
        taken + 1 + length⟩
  | _ => none

def read? (text : List Char) : Option Attribute :=
  let blanks := Trivia.blankLength text
  match text.drop blanks with
  | '!' :: rest =>
      let more := Trivia.blankLength rest
      bracketed? ['#', '!'] (blanks + 1 + more) (rest.drop more)
  | rest => bracketed? ['#'] blanks rest

def skipLength (text : List Char) : Nat :=
  match read? text with
  | some found => found.length
  | none => 0

end Attribute

/-- How many characters a macro body takes after the exclamation mark. Blanks are
taken first; where a macro is defined, so is the word that names it, with the
blanks after it. Without a group nothing more is taken. -/
def macroLength (isDefinition : Bool) (text : List Char) : Nat :=
  let blanks := Trivia.blankLength text
  let named := text.drop blanks
  let name :=
    if isDefinition && named.head?.any Text.isWordStart then
      let word := (named.takeWhile Text.isWordPart).length
      word + Trivia.blankLength (named.drop word)
    else 0
  let body :=
    match named.drop name with
    | [] => 0
    | c :: rest =>
      match Delimiter.groupAfter? [.brace, .paren, .bracket] c rest with
      | some group => 1 + group
      | none => 0
  blanks + name + body

end Survey
