/-
# The texts of expressions

`Expr.text` is the compact form: a mark is a leading `_`, a symbol is written
`cd.name`, an application `head(arg,…)`, a binding `head[var,…,body]`, and a
string stands between double quotes as it is.  `Expr.termText` is the long form
that names every constructor and field, in which a sequence of one item keeps
a closing comma.
-/

import SecondOrder.Expr.Basic

namespace SecondOrder

/-- A mark is written as a leading underscore. -/
def markText (marked : Bool) (s : String) : String := if marked then "_" ++ s else s

def Var.text (x : Var) : String := markText x.marked x.name

def Sym.text (f : Sym) : String := markText f.marked (f.cd ++ "." ++ f.name)

/-- Texts side by side, with `separator` between neighbours. -/
def joined (separator : String) (texts : List String) : String := separator.intercalate texts

namespace Expr

mutual

/-- The compact form. -/
def text : Expr → String
  | var x => x.text
  | sym f => f.text
  | int n => toString n
  | float x => x.text
  | str s => "\"" ++ s ++ "\""
  | app f as => text f ++ "(" ++ joined "," (textAll as) ++ ")"
  | bind f xs b => f.text ++ "[" ++ joined "," (xs.toList.map Var.text ++ [text b]) ++ "]"

def textAll : List Expr → List String
  | [] => []
  | a :: as => text a :: textAll as

end

end Expr

/-- A text between single quotes, as it is. -/
def quoted (s : String) : String := "'" ++ s ++ "'"

def flagText (b : Bool) : String := if b then "True" else "False"

/-- A parenthesised sequence; one item alone is followed by a comma. -/
def sequenceText : List String → String
  | [t] => "(" ++ t ++ ",)"
  | ts => "(" ++ joined ", " ts ++ ")"

def Var.termText (x : Var) : String :=
  "Variable(name=" ++ quoted x.name ++ ", meta=" ++ flagText x.marked ++ ")"

def Sym.termText (f : Sym) : String :=
  "Symbol(name=" ++ quoted f.name ++ ", cd=" ++ quoted f.cd ++ ", meta=" ++ flagText f.marked ++ ")"

namespace Expr

mutual

/-- The long form. -/
def termText : Expr → String
  | var x => x.termText
  | sym f => f.termText
  | int n => "Integer(value=" ++ toString n ++ ")"
  | float x => "Float(value=" ++ x.text ++ ")"
  | str s => "String(value=" ++ quoted s ++ ")"
  | app f as => "Application(children=" ++ sequenceText (termText f :: termTextAll as) ++ ")"
  | bind f xs b => "Binding(head=" ++ f.termText ++ ", variables="
      ++ sequenceText (xs.toList.map Var.termText) ++ ", body=" ++ termText b ++ ")"

def termTextAll : List Expr → List String
  | [] => []
  | a :: as => termText a :: termTextAll as

end

end Expr
end SecondOrder
