import Dwo.Token.Basic

/-!
# Syntax trees

A `Node` is a construct of the language or a part of one. Trees are built by reading a source
text, or by hand; the type admits every combination of parts, and which combinations make a
program is a matter for those who read or consume a tree.

Three constructs are reserved: `Node.unaryOp`, `Node.binaryOp` and `Node.fnParams` have names
and places, but no parts yet.
-/

namespace Dwo

/-- A construct of the language, with its place. -/
inductive Node where
  /-- The end of a source text. -/
  | endOfFile (location : Location)
  /-- A token that stands by itself. -/
  | token (token : Token)
  /-- `use name;` -/
  | importDecl (name : String) (newName : Option String) (isLocal : Bool) (location : Location)
  | unaryOp (location : Location)
  | binaryOp (location : Location)
  | fnParams (location : Location)
  /-- Operands joined by signs, in source order. -/
  | expr (items : List Node) (location : Location)
  /-- `let name := initializer;`, or `let name :: initializer;` for an immutable variable. -/
  | varDecl (name : String) (isMutable : Bool) (initializer : List Node) (location : Location)
  /-- `name = initializer;` -/
  | assignment (name : String) (initializer : List Node) (location : Location)
  /-- `fn name(params) body` -/
  | fnDecl (name : String) (params body : List Node) (location : Location)
  /-- `name(args);` -/
  | fnCall (name : String) (args : List Node) (location : Location)
deriving Inhabited, Repr

namespace Node

/-- The place of a construct. -/
def location : Node → Location
  | endOfFile l | unaryOp l | binaryOp l | fnParams l => l
  | token t => t.location
  | importDecl _ _ _ l => l
  | expr _ l => l
  | varDecl _ _ _ l => l
  | assignment _ _ l => l
  | fnDecl _ _ _ l => l
  | fnCall _ _ l => l

/-- The name of a construct in messages. -/
def kindName : Node → String
  | endOfFile _ => "End_Of_File"
  | token _ => "Token"
  | importDecl .. => "Import"
  | unaryOp _ => "Unary_Operation"
  | binaryOp _ => "Binary_Operation"
  | fnParams _ => "Function_Parameters_Declaration"
  | expr .. => "Expression"
  | varDecl .. => "Variable_Declaration"
  | assignment .. => "Variable_Assignment"
  | fnDecl .. => "Function_Declaration"
  | fnCall .. => "Function_Call"

/-- Whether a construct is the end of a source text. -/
def isEndOfFile : Node → Bool
  | endOfFile _ => true
  | _ => false

end Node

end Dwo
