/-
The types a variable can be declared with. `NUMERO` and `TIPIK` both hold
any number.
-/
import BisayaPlus.Token.Kind
import BisayaPlus.Value.Basic

namespace BisayaPlus

/-- A declared type. -/
inductive VarType where
  | numero
  | tipik
  | letra
  | tinuod
deriving DecidableEq, Repr, Inhabited

namespace VarType

/-- The word that declares the type. -/
def word : VarType → String
  | numero => "NUMERO"
  | tipik => "TIPIK"
  | letra => "LETRA"
  | tinuod => "TINUOD"

/-- The name under which dumps show the type. -/
def name : VarType → String
  | numero => "Numero"
  | tipik => "Tipik"
  | letra => "Letra"
  | tinuod => "Tinuod"

/-- The type shown under a name. -/
def ofName? (s : String) : Option VarType :=
  [numero, tipik, letra, tinuod].find? (·.name = s)

/-- The type that a token of this kind names. -/
def ofKind? : Token.Kind → Option VarType
  | .numero => some numero
  | .tipik => some tipik
  | .letra => some letra
  | .tinuod => some tinuod
  | _ => none

/-- What a variable holds that is declared without a value. -/
def zero : VarType → Value
  | numero | tipik => .number 0.0
  | letra => .char '\x00'
  | tinuod => .truth false

/-- The type admits the value. -/
def accepts : VarType → Value → Bool
  | numero, .number _ => true
  | tipik, .number _ => true
  | letra, .char _ => true
  | tinuod, .truth _ => true
  | _, _ => false

end VarType

end BisayaPlus
