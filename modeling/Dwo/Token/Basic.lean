import Dwo.Location

/-!
# Tokens

A token is a classified piece of source text with its place. Only integer literals carry a
value besides their text. `Token.dump` is the one-line form in which token listings and tree
listings show a token.
-/

namespace Dwo

/-- The classes of tokens. -/
inductive Kind where
  | endOfFile
  | unknown
  | identifier
  | symbol
  | integer
  | string
deriving DecidableEq, Inhabited, Repr

namespace Kind

/-- The name of a class in messages. -/
def name : Kind → String
  | endOfFile => "End_Of_File"
  | unknown => "Unknown"
  | identifier => "Identifier"
  | symbol => "Symbol"
  | integer => "Integer_Literal"
  | string => "String_Literal"

/-- Operands of expressions: names, integers and strings. -/
def isOperand : Kind → Bool
  | identifier | integer | string => true
  | endOfFile | unknown | symbol => false

end Kind

/-- A classified piece of source text. `value` is the number an integer literal denotes and
zero for every other token of a source text. -/
structure Token where
  kind : Kind
  text : String
  value : Int := 0
  location : Location
deriving DecidableEq, Inhabited, Repr

namespace Token

/-- The token that stands at the end of a source text. -/
def endOfFile (location : Location) : Token where
  kind := .endOfFile
  text := ""
  location := location

/-- Whether the token is this symbol. -/
def isSymbol (t : Token) (text : String) : Bool :=
  decide (t.kind = .symbol ∧ t.text = text)

/-- Whether the token is this word. -/
def isKeyword (t : Token) (text : String) : Bool :=
  decide (t.kind = .identifier ∧ t.text = text)

/-- Whether the token ends its source text. -/
def isEndOfFile (t : Token) : Bool :=
  decide (t.kind = .endOfFile)

/-- Whether the token can stand as an operand of an expression. -/
def isOperand (t : Token) : Bool :=
  t.kind.isOperand

/-- Whether the token joins two operands of an expression. -/
def isSign (t : Token) : Bool :=
  t.isSymbol "+" || t.isSymbol "-"

/-- A token as listings show it. Integers show their value, all else its text. -/
def dump (t : Token) : String :=
  match t.kind with
  | .endOfFile => "Token::EOF"
  | .unknown => "Token::Unknown('" ++ t.text ++ "')"
  | .identifier => "Token::Ident(" ++ t.text ++ ")"
  | .symbol => "Token::Symbol(" ++ t.text ++ ")"
  | .integer => "Token::Int(" ++ toString t.value ++ ")"
  | .string => "Token::Str(" ++ t.text ++ ")"

end Token

end Dwo
