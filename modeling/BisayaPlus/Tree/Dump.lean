/-
Tokens and trees as JSON. A tree is an object with one field, named for
its form.
-/
import BisayaPlus.Json
import BisayaPlus.Tree.Basic

namespace BisayaPlus

/-- A span as JSON. -/
def Span.toJson (p : Span) : Json :=
  .object [("line", .nat p.line), ("column", .nat p.column)]

/-- A value as JSON. -/
def Value.toJson : Value → Json
  | number x => .object [("Number", .number x)]
  | truth b => .object [("Bool", .bool b)]
  | char c => .object [("Char", .string (String.singleton c))]
  | text s => .object [("String", .string s)]
  | null => .string "Null"

/-- A token as JSON. -/
def Token.toJson (t : Token) : Json :=
  .object
    [ ("kind", .string t.kind.name),
      ("lexeme", .string t.lexeme),
      ("literal", (t.literal.map Value.toJson).getD .null),
      ("span", t.span.toJson) ]

/-- An expression as JSON. -/
def Expr.toJson : Expr → Json
  | literal v => .object [("Literal", v.toJson)]
  | var name => .object [("Variable", name.toJson)]
  | grouping e => .object [("Grouping", e.toJson)]
  | unary op e =>
      .object [("Unary",
        .object [("operator", op.toJson), ("right", e.toJson)])]
  | binary l op r =>
      .object [("Binary",
        .object [("left", l.toJson), ("operator", op.toJson),
          ("right", r.toJson)])]
  | logical l op r =>
      .object [("Logical",
        .object [("left", l.toJson), ("operator", op.toJson),
          ("right", r.toJson)])]
  | assign name e =>
      .object [("Assign",
        .object [("name", name.toJson), ("value", e.toJson)])]
  | increment name => .object [("Increment", .object [("name", name.toJson)])]
  | decrement name => .object [("Decrement", .object [("name", name.toJson)])]

/-- A declaration as JSON. -/
def Declaration.toJson (d : Declaration) : Json :=
  .object
    [ ("name", d.name.toJson),
      ("initializer", (d.init.map Expr.toJson).getD .null),
      ("declared_type", .string d.type.name) ]

namespace Stmt

/-- A conditional as JSON; without a second branch that field is null. -/
def conditionalJson (condition : Expr) (body other : Json) : Json :=
  .object [("If",
    .object
      [ ("condition", condition.toJson), ("then_branch", body),
        ("else_branch", other) ])]

mutual

/-- A statement as JSON. -/
def toJson : Stmt → Json
  | expression e => .object [("Expression", e.toJson)]
  | print keyword value =>
      .object [("Print",
        .object [("keyword", keyword.toJson), ("value", value.toJson)])]
  | declare d => .object [("Var", d.toJson)]
  | declareAll ds =>
      .object [("VarDeclarationList", .array (ds.map Declaration.toJson))]
  | input names => .object [("Input", .array (names.map Token.toJson))]
  | block body => .object [("Block", .array (listToJson body))]
  | ifThen condition body => conditionalJson condition body.toJson .null
  | ifElse condition body other =>
      conditionalJson condition body.toJson other.toJson
  | loop condition body =>
      .object [("While",
        .object [("condition", condition.toJson), ("body", body.toJson)])]
  | program body => .object [("Program", .array (listToJson body))]

/-- A list of statements, each as JSON. -/
def listToJson : List Stmt → List Json
  | [] => []
  | s :: ss => s.toJson :: listToJson ss

end

end Stmt

end BisayaPlus
