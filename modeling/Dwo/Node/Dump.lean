import Dwo.Node.Basic

/-!
# Tree listings

`Node.dump` writes a tree as text. Every construct but a function is written on one line; the
statements of a function stand on lines of their own, two spaces deeper than the function. Parts
that are written inside a line are separated by commas and start over at depth zero.
-/

namespace Dwo

/-- Two spaces for each level of depth. -/
def indent : (depth : Nat) → String
  | 0 => ""
  | depth + 1 => "  " ++ indent depth

mutual

/-- A tree as text, from behind the indentation of its first line; `depth` is the depth of that
line. -/
def Node.dumpAt (depth : Nat) : Node → String
  | .endOfFile _ => "Node::EndOfFile"
  | .token t => t.dump
  | .importDecl name none _ _ => "Node::Import(" ++ name ++ ")"
  | .importDecl name (some newName) _ _ => "Node::Import(" ++ name ++ ") as " ++ newName
  | .unaryOp _ => "Node::UnaryOp"
  | .binaryOp _ => "Node::BinaryOp"
  | .fnParams _ => "Node::FnParamsDecl"
  | .expr items _ => "Node::Expr(" ++ dumpItems items ++ ")"
  | .varDecl name isMutable initializer _ =>
    "Node::VarDecl<" ++ (if isMutable then "mutable" else "immutable") ++
      ">(Token::Ident('" ++ name ++ "')" ++
      (if initializer.isEmpty then "" else ", " ++ dumpItems initializer) ++ ")"
  | .assignment name initializer _ =>
    "Node::VarAssign(Token::Ident(" ++ name ++ "), " ++ dumpItems initializer ++ ")"
  | .fnDecl name params body _ =>
    "Node::FnDecl(Token::Ident('" ++ name ++ "'), [" ++ dumpItems params ++ "]) \x7b\n" ++
      dumpLines (depth + 1) body ++ indent depth ++ "\x7d"
  | .fnCall name args _ =>
    "Node::FnCall(Token::Ident(" ++ name ++ "), [" ++ dumpItems args ++ "])"

/-- Trees inside a line, separated by commas. -/
def Node.dumpItems : List Node → String
  | [] => ""
  | [item] => item.dumpAt 0
  | item :: items => item.dumpAt 0 ++ ", " ++ dumpItems items

/-- Trees on lines of their own. -/
def Node.dumpLines (depth : Nat) : List Node → String
  | [] => ""
  | item :: items => indent depth ++ item.dumpAt depth ++ "\n" ++ dumpLines depth items

end

/-! ### Equations

The equations of `Node.dumpAt`, one for each construct. They hold by definition; proofs use them and
not the definition. -/

namespace Node

variable (depth : Nat) (name newName : String) (isMutable isLocal : Bool)
  (items params body : List Node) (l : Location)

@[simp]
theorem dumpAt_endOfFile : (endOfFile l).dumpAt depth = "Node::EndOfFile" := rfl

@[simp]
theorem dumpAt_token (t : Token) : (token t).dumpAt depth = t.dump := rfl

@[simp]
theorem dumpAt_importDecl_none :
    (importDecl name none isLocal l).dumpAt depth = "Node::Import(" ++ name ++ ")" := rfl

@[simp]
theorem dumpAt_importDecl_some :
    (importDecl name (some newName) isLocal l).dumpAt depth =
      "Node::Import(" ++ name ++ ") as " ++ newName := rfl

@[simp]
theorem dumpAt_unaryOp : (unaryOp l).dumpAt depth = "Node::UnaryOp" := rfl

@[simp]
theorem dumpAt_binaryOp : (binaryOp l).dumpAt depth = "Node::BinaryOp" := rfl

@[simp]
theorem dumpAt_fnParams : (fnParams l).dumpAt depth = "Node::FnParamsDecl" := rfl

@[simp]
theorem dumpAt_expr :
    (expr items l).dumpAt depth = "Node::Expr(" ++ dumpItems items ++ ")" := rfl

@[simp]
theorem dumpAt_varDecl :
    (varDecl name isMutable items l).dumpAt depth =
      "Node::VarDecl<" ++ (if isMutable then "mutable" else "immutable") ++
        ">(Token::Ident('" ++ name ++ "')" ++
        (if items.isEmpty then "" else ", " ++ dumpItems items) ++ ")" := rfl

@[simp]
theorem dumpAt_assignment :
    (assignment name items l).dumpAt depth =
      "Node::VarAssign(Token::Ident(" ++ name ++ "), " ++ dumpItems items ++ ")" := rfl

@[simp]
theorem dumpAt_fnDecl :
    (fnDecl name params body l).dumpAt depth =
      "Node::FnDecl(Token::Ident('" ++ name ++ "'), [" ++ dumpItems params ++ "]) \x7b\n" ++
        dumpLines (depth + 1) body ++ indent depth ++ "\x7d" := rfl

@[simp]
theorem dumpAt_fnCall :
    (fnCall name items l).dumpAt depth =
      "Node::FnCall(Token::Ident(" ++ name ++ "), [" ++ dumpItems items ++ "])" := rfl

end Node

/-- A tree as text. -/
def Node.dump (node : Node) : String :=
  node.dumpAt 0

end Dwo
