/-!
# Tokens

A source text becomes a flat list of tokens.  The text of a token is already
normalised: words are in lower case without their mark, and numbers are in
canonical decimal form.
-/

namespace MipsAssembler

inductive TokenKind
  | register
  | number
  | label
  | identifier
  | directive
  | comma
  | openParen
  | closeParen
  deriving DecidableEq

/-- A token; one that no source text produces may hold any text. -/
structure Token where
  kind : TokenKind
  text : String
  deriving DecidableEq

end MipsAssembler
