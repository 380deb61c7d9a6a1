import Survey.Proofs.BracketBalance
import Survey.Proofs.SignaturePieces

set_option autoImplicit false

/-!
# Heads that name nothing

A function, a trait or an implementation without a name is not recorded, and what it holds is
not looked through. Which texts name nothing is said here without the readers of signatures:
by the character that a name would start with, by where brackets close, and by where a word
stands alone.
-/

namespace Survey
namespace Signature

/-- The text does not start with a name: its first character that is not white space ends every
name, or there is none. -/
def Unnamed (stops text : List Char) : Prop :=
  ∀ c, (Text.trimStart text).head? = some c → c ∈ stops

theorem takeWhile_eq_nil_iff (keep : Char → Bool) (text : List Char) :
    text.takeWhile keep = [] ↔ ∀ c, text.head? = some c → keep c = false := by
  cases text with
  | nil => simp
  | cons c rest => by_cases kept : keep c = true <;> simp [kept]

theorem trimEnd_ne_nil {c : Char} (notSpace : Text.isWhiteSpace c = false) (rest : List Char) :
    Text.trimEnd (c :: rest) ≠ [] := by
  intro nothing
  rw [Text.trimEnd, List.reverse_eq_nil_iff, List.dropWhile_eq_nil_iff] at nothing
  rw [nothing c (by simp)] at notSpace
  cases notSpace

theorem head?_trim (text : List Char) :
    (Text.trim text).head? = (Text.trimStart text).head? := by
  cases start : Text.trimStart text with
  | nil =>
      rw [Text.trim, start]
      rfl
  | cons c rest =>
      have notSpace : Text.isWhiteSpace c = false :=
        Text.head?_dropWhile_isWhiteSpace (congrArg List.head? start)
      obtain ⟨after, split⟩ := Text.trimEnd_isPrefix (c :: rest)
      obtain ⟨d, inner, trimmed⟩ := List.exists_cons_of_ne_nil (trimEnd_ne_nil notSpace rest)
      rw [trimmed] at split
      obtain ⟨rfl, -⟩ := List.cons.inj split
      rw [Text.trim, start, trimmed]
      rfl

theorem functionParts_name_eq_nil_iff (text : List Char) :
    (functionParts text).name = [] ↔ Unnamed ['<', '('] text := by
  rw [functionParts_name, takeWhile_eq_nil_iff, head?_trim]
  refine forall₂_congr fun c first => ?_
  simp [isNamed, Text.head?_dropWhile_isWhiteSpace first, or_iff_not_imp_left]

theorem leadingName_eq_nil_iff (text : List Char) :
    leadingName text = [] ↔ Unnamed [':', '<'] text := by
  rw [leadingName, takeWhile_eq_nil_iff]
  refine forall₂_congr fun c first => ?_
  simp [Text.head?_dropWhile_isWhiteSpace first, or_iff_not_imp_left]

/-! ### Implementations -/

/-- What is left of a text behind the generic list that it starts with. -/
inductive BehindGenerics : List Char → List Char → Prop
  | bare {text : List Char} (other : text.head? ≠ some '<') : BehindGenerics text text
  | closed {generics rest : List Char} (closes : brackets.Closes generics) :
      BehindGenerics ('<' :: (generics ++ rest)) rest
  | unclosed {generics : List Char} (staysOpen : brackets.StaysOpen generics) :
      BehindGenerics ('<' :: generics) []

/-- The text before its constraints. -/
inductive BeforeWhere : List Char → List Char → Prop
  | parted {text before after : List Char}
      (parts : Parts ['w', 'h', 'e', 'r', 'e'] text before after) : BeforeWhere text before
  | whole {text : List Char}
      (nowhere : ∀ before after, ¬ Parts ['w', 'h', 'e', 'r', 'e'] text before after) :
      BeforeWhere text text

/-- The type that stands behind a trait and the word between them, or by itself. -/
inductive BehindFor : List Char → List Char → Prop
  | parted {text before after : List Char} (parts : Parts ['f', 'o', 'r'] text before after) :
      BehindFor text after
  | whole {text : List Char}
      (nowhere : ∀ before after, ¬ Parts ['f', 'o', 'r'] text before after) : BehindFor text text

/-- A type that is no path, tuple or array: behind borrows, lifetimes and qualifiers the text is
over, or an angle stands. -/
inductive Nameless : List Char → Prop
  | nothing : Nameless []
  | angle (rest : List Char) : Nameless ('<' :: rest)
  | space {c : Char} {rest : List Char} (space : Text.isWhiteSpace c = true)
      (later : Nameless rest) : Nameless (c :: rest)
  | borrow {rest : List Char} (later : Nameless rest) : Nameless ('&' :: rest)
  | lifetime {name rest : List Char} (parts : ∀ c ∈ name, Text.isWordPart c = true)
      (ends : ∀ c, rest.head? = some c → Text.isWordPart c = false) (later : Nameless rest) :
      Nameless ('\'' :: (name ++ rest))
  | qualifier {word rest : List Char} (qualifies : word ∈ [['m', 'u', 't'], ['d', 'y', 'n']])
      (later : Nameless rest) : Nameless (word ++ ' ' :: rest)

/-- The head of an implementation does not say what it belongs to. -/
def Untargeted (head : List Char) : Prop :=
  ∃ behind front type, BehindGenerics (Text.trimStart head) behind ∧
    BeforeWhere behind front ∧ BehindFor (Text.trimEnd front) type ∧ Nameless type

variable {text head behind front type : List Char}

theorem behindGenerics_afterGenerics (text : List Char) :
    BehindGenerics text (afterGenerics text) := by
  by_cases angle : text.head? = some '<'
  · obtain ⟨inner, rfl⟩ := List.head?_eq_some_iff.mp angle
    rw [afterGenerics]
    rcases closerIndex?_cases inner with
      ⟨missing, staysOpen⟩ | ⟨generics, closer, rest, rfl, found, -, closes⟩
    · rw [missing]
      exact .unclosed staysOpen
    · rw [found]
      have behind : (generics ++ closer :: rest).drop (generics.length + 1) = rest := by
        rw [← List.drop_drop, List.drop_left]
        rfl
      dsimp only
      rw [behind, List.append_cons]
      exact .closed closes
  · have same : afterGenerics text = text := by
      unfold afterGenerics
      split
      · exact absurd rfl angle
      · rfl
    rw [same]
    exact .bare angle

theorem BehindGenerics.unique (first : BehindGenerics text behind)
    (second : BehindGenerics text front) : behind = front := by
  cases first with
  | bare other =>
      cases second with
      | bare => rfl
      | closed => exact absurd rfl other
      | unclosed => exact absurd rfl other
  | @closed generics rest closes =>
      generalize whole : generics ++ behind = inner at second
      cases second with
      | bare other => exact absurd rfl other
      | closed closesOther => exact (closes.unique closesOther whole).2
      | unclosed staysOpen => exact absurd (whole ▸ staysOpen) (closes.not_staysOpen behind)
  | @unclosed generics staysOpen =>
      cases second with
      | bare other => exact absurd rfl other
      | closed closes => exact absurd staysOpen (closes.not_staysOpen front)
      | unclosed => rfl

theorem beforeWhere_beforeConstraints (text : List Char) :
    ∃ front, BeforeWhere text front ∧ beforeConstraints text = Text.trimEnd front := by
  unfold beforeConstraints
  rcases wordIndex?_parts (by decide : 'w' ∉ shifting) ['h', 'e', 'r', 'e'] text with
    ⟨missing, nowhere⟩ | ⟨before, after, found, parts⟩
  · rw [missing]
    exact ⟨text, .whole nowhere, rfl⟩
  · rw [found]
    refine ⟨before, .parted parts, ?_⟩
    dsimp only
    rw [parts.split, List.take_left]

theorem BeforeWhere.unique (first : BeforeWhere text behind) (second : BeforeWhere text front) :
    behind = front := by
  cases first with
  | parted parts =>
      cases second with
      | parted others => exact (parts.unique others).1
      | whole nowhere => exact absurd parts (nowhere _ _)
  | whole nowhere =>
      cases second with
      | parted parts => exact absurd parts (nowhere _ _)
      | whole => rfl

theorem BehindFor.unique (first : BehindFor text behind) (second : BehindFor text type) :
    behind = type := by
  cases first with
  | parted parts =>
      cases second with
      | parted others => exact (parts.unique others).2
      | whole nowhere => exact absurd parts (nowhere _ _)
  | whole nowhere =>
      cases second with
      | parted parts => exact absurd parts (nowhere _ _)
      | whole => rfl

/-- What an implementation belongs to is told by the type behind its trait. -/
theorem target?_eq_none_of_behindFor (generics : BehindGenerics (Text.trimStart head) behind)
    (before : BeforeWhere behind front) (isType : BehindFor (Text.trimEnd front) type) :
    target? head = none ↔ typeName type = [] := by
  obtain rfl := generics.unique (behindGenerics_afterGenerics _)
  obtain ⟨other, beforeOther, constrained⟩ := beforeWhere_beforeConstraints
    (afterGenerics (Text.trimStart head))
  obtain rfl := before.unique beforeOther
  unfold target?
  dsimp only
  rw [constrained]
  rcases wordIndex?_parts (by decide : 'f' ∉ shifting) ['o', 'r'] (Text.trimEnd front) with
    ⟨alone, nowhere⟩ | ⟨trait, after, found, parts⟩
  · obtain rfl := isType.unique (.whole nowhere)
    rw [alone]
    simp
  · obtain rfl := isType.unique (.parted parts)
    have rest : (Text.trimEnd front).drop (trait.length + 3) = type := by
      rw [parts.split, ← List.drop_drop, List.drop_left]
      rfl
    rw [found]
    simp [rest]

/-! ### Types -/

/-- A tuple or an array is a name whether it is closed or not. -/
theorem groupName_ne_nil {opener : Char} (opens : Text.isWhiteSpace opener = false)
    (inner : List Char) : groupName (opener :: inner) inner ≠ [] := by
  unfold groupName
  cases closerIndex? inner with
  | some index => exact List.cons_ne_nil _ _
  | none => exact trimEnd_ne_nil opens inner

theorem head?_bareType (start : ∀ c, text.head? = some c → Text.isWhiteSpace c = false) :
    ∀ c, (bareType text).head? = some c → Text.isWhiteSpace c = false := by
  fun_induction bareType text with
  | case1 rest ih => exact ih fun c first => Text.head?_dropWhile_isWhiteSpace first
  | case2 rest ih => exact ih fun c first => Text.head?_dropWhile_isWhiteSpace first
  | case3 rest ih => exact ih fun c first => Text.head?_dropWhile_isWhiteSpace first
  | case4 rest ih => exact ih fun c first => Text.head?_dropWhile_isWhiteSpace first
  | case5 text => exact start

/-- A type has no name if what stands behind its borrows, lifetimes and qualifiers has none. -/
theorem typeName_eq_nil_iff (text : List Char) :
    typeName text = [] ↔ ∀ c, (bareType (Text.trimStart text)).head? = some c → c = '<' := by
  have start : ∀ c, (bareType (Text.trimStart text)).head? = some c →
      Text.isWhiteSpace c = false :=
    head?_bareType fun c first => Text.head?_dropWhile_isWhiteSpace first
  unfold typeName
  dsimp only
  generalize bareType (Text.trimStart text) = type at start ⊢
  split
  · have filled := groupName_ne_nil (by decide : Text.isWhiteSpace '(' = false) ‹_›
    exact ⟨fun nothing => absurd nothing filled, fun angle => absurd (angle '(' rfl) (by decide)⟩
  · have filled := groupName_ne_nil (by decide : Text.isWhiteSpace '[' = false) ‹_›
    exact ⟨fun nothing => absurd nothing filled, fun angle => absurd (angle '[' rfl) (by decide)⟩
  · rw [takeWhile_eq_nil_iff]
    refine forall₂_congr fun c first => ?_
    simp [start c first]

theorem Nameless.of_trimStart (nameless : Nameless (Text.trimStart text)) : Nameless text := by
  unfold Text.trimStart at nameless
  induction text with
  | nil => exact .nothing
  | cons c rest ih =>
      by_cases space : Text.isWhiteSpace c = true
      · rw [List.dropWhile_cons_of_pos space] at nameless
        exact .space space (ih nameless)
      · rwa [List.dropWhile_cons_of_neg space] at nameless

theorem Nameless.of_bareType (nameless : Nameless (bareType text)) : Nameless text := by
  fun_induction bareType text with
  | case1 rest ih => exact .borrow (ih nameless).of_trimStart
  | case2 rest ih =>
      rw [← List.takeWhile_append_dropWhile (p := Text.isWordPart) (l := rest)]
      refine .lifetime ?_ ?_ (ih nameless).of_trimStart
      · intro c member
        exact List.all_eq_true.mp List.all_takeWhile c member
      · intro c first
        have dropped := List.head?_dropWhile_not Text.isWordPart rest
        rw [first] at dropped
        simpa using dropped
  | case3 rest ih =>
      have isMut : ['m', 'u', 't'] ∈ [['m', 'u', 't'], ['d', 'y', 'n']] := by decide
      exact .qualifier isMut (ih nameless).of_trimStart
  | case4 rest ih =>
      have isDyn : ['d', 'y', 'n'] ∈ [['m', 'u', 't'], ['d', 'y', 'n']] := by decide
      exact .qualifier isDyn (ih nameless).of_trimStart
  | case5 text => exact nameless

theorem Nameless.bareType (nameless : Nameless text) :
    ∀ c, (bareType (Text.trimStart text)).head? = some c → c = '<' := by
  have unspaced : ∀ {c : Char} {rest : List Char}, Text.isWhiteSpace c = false →
      Text.trimStart (c :: rest) = c :: rest := by
    intro c rest notSpace
    exact List.dropWhile_cons_of_neg (by rw [notSpace]; exact Bool.false_ne_true)
  induction nameless with
  | nothing =>
      intro c first
      simp [Text.trimStart, Signature.bareType] at first
  | angle rest =>
      intro c first
      rw [unspaced (by decide)] at first
      simpa [Signature.bareType, eq_comm] using first
  | space space later ih =>
      rw [Text.trimStart, List.dropWhile_cons_of_pos space]
      exact ih
  | borrow later ih =>
      rw [unspaced (by decide), Signature.bareType]
      exact ih
  | lifetime parts ends later ih =>
      rw [unspaced (by decide), Signature.bareType, Text.dropWhile_exact parts ends]
      exact ih
  | qualifier qualifies later ih =>
      simp only [List.mem_cons, List.not_mem_nil, or_false] at qualifies
      rcases qualifies with rfl | rfl
      · rw [List.cons_append, unspaced (by decide)]
        exact (Signature.bareType.eq_3 _).symm ▸ ih
      · rw [List.cons_append, unspaced (by decide)]
        exact (Signature.bareType.eq_4 _).symm ▸ ih

theorem nameless_iff (text : List Char) : Nameless text ↔ typeName text = [] := by
  rw [typeName_eq_nil_iff]
  constructor
  · exact Nameless.bareType
  · intro angle
    apply Nameless.of_trimStart
    apply Nameless.of_bareType
    cases bare : Signature.bareType (Text.trimStart text) with
    | nil => exact .nothing
    | cons c rest =>
        rw [angle c (by rw [bare]; rfl)]
        exact .angle rest

/-- An implementation is recorded unless its head does not say what it belongs to. -/
theorem target?_eq_none_iff (head : List Char) : target? head = none ↔ Untargeted head := by
  constructor
  · intro missing
    have generics := behindGenerics_afterGenerics (Text.trimStart head)
    obtain ⟨front, before, -⟩ := beforeWhere_beforeConstraints (afterGenerics (Text.trimStart head))
    obtain ⟨type, isType⟩ : ∃ type, BehindFor (Text.trimEnd front) type := by
      rcases wordIndex?_parts (by decide : 'f' ∉ shifting) ['o', 'r'] (Text.trimEnd front) with
        ⟨-, nowhere⟩ | ⟨trait, type, -, parts⟩
      · exact ⟨_, .whole nowhere⟩
      · exact ⟨_, .parted parts⟩
    have nothing := (target?_eq_none_of_behindFor generics before isType).mp missing
    exact ⟨_, front, type, generics, before, isType, (nameless_iff type).mpr nothing⟩
  · rintro ⟨behind, front, type, generics, before, isType, nameless⟩
    have nothing := target?_eq_none_of_behindFor generics before isType
    exact nothing.mpr ((nameless_iff type).mp nameless)

end Signature
end Survey
