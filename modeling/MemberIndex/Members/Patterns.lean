import MemberIndex.Members.Declaration
import MemberIndex.Members.QualifiedName
import MemberIndex.Text.Pattern

/-! # The patterns of a listing

What is looked for in a line, written as patterns: qualified names wherever they stand, and
the first declaration of a method and of a field.
-/

namespace MemberIndex

open Text (Pattern isBlank)

namespace QualifiedName

def furtherIdentifier : Pattern :=
  .seq (.just '.') <| .seq (.one isNameStart) (.many (.one isNameChar))

def pattern : Pattern :=
  .seq (.one isNameStart) <| .seq (.many (.one isNameChar)) (.oneOrMore furtherIdentifier)

end QualifiedName

namespace Declaration

/-- A declaration: blanks and words that may stand for modifiers, blanks, a type word, blanks
and the name, which is kept; then the character that ends the name, and the rest. -/
def pattern (modifiers : List String) (stop : Char) (rest : Pattern) : Pattern :=
  .seq (.many (.one isBlank)) <| .seq (.many (.anyOf modifiers)) <|
    .seq (.oneOrMore (.one isBlank)) <| .seq (.oneOrMore (.one isTypeChar)) <|
    .seq (.oneOrMore (.one isBlank)) <| .seq (.group (.oneOrMore (.one isWordChar))) <|
    .seq (.just stop) rest

def throwsClause : Pattern :=
  .seq (.oneOrMore (.one isBlank)) <| .seq (.text "throws".toList) <|
    .seq (.oneOrMore (.one isBlank)) (.oneOrMore (.one isThrowsChar))

def parameters : Pattern :=
  .seq (.many (.one (· != '\n'))) <| .seq (.just ')') <| .seq (.optional throwsClause) (.just ';')

def methodPattern : Pattern :=
  pattern ["public", "protected", "private", "static", "final", "native", "synchronized",
    "abstract", "transient", "volatile"] '(' parameters

def fieldPattern : Pattern :=
  pattern ["public", "protected", "private", "static", "final", "transient", "volatile"] ';'
    .empty

end Declaration

end MemberIndex
