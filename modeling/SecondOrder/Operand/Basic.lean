/-
# Operands

What a caller hands to a checked operation: an expression, or a text that
stands where an expression should.  A text is an atom without parts, it equals
only itself, and no expression contains one; so a checked constructor either
builds a well-formed expression or says which operand was wrong.
-/

import SecondOrder.Expr.Freeness
import SecondOrder.Expr.Text

namespace SecondOrder

/-- An expression, or a text in the place of one. -/
inductive Operand where
  | expr (e : Expr)
  | text (s : String)
deriving Inhabited

namespace Operand

instance : Coe Expr Operand := ⟨expr⟩

/-- The expression that the operand is, if it is one. -/
def expr? : Operand → Option Expr
  | expr e => some e
  | text _ => none

/-- The variable that the operand is, if it is one. -/
def var? : Operand → Option Var
  | expr e => e.var?
  | text _ => none

/-- Whether the operand is an expression that satisfies `p`. -/
def satisfies (p : Expr → Bool) : Operand → Bool
  | expr e => p e
  | text _ => false

/-- Equality of operands: node equality of expressions, identity of texts. -/
def same : Operand → Operand → Bool
  | expr a, expr b => a == b
  | text s, text t => s == t
  | _, _ => false

instance : BEq Operand := ⟨same⟩

/-- Both operands are texts, or expressions of the same class. -/
def sameKind : Operand → Operand → Bool
  | expr a, expr b => a.sameKind b
  | text _, text _ => true
  | _, _ => false

/-- The compact form; a text is written as it is. -/
def render : Operand → String
  | expr e => e.text
  | text s => s

/-- The operand with its mark set or cleared; a text carries none. -/
def setMark (marked : Bool) : Operand → Operand
  | expr e => expr (e.setMark marked)
  | text s => text s

/-- The parts of the node. -/
def parts : Operand → List Expr
  | expr e => e.parts
  | text _ => []

/-- Whether a free copy of `s` occurs in `e`; a text occurs only in itself. -/
def occursFree (s e : Operand) : Bool :=
  match s, e with
  | expr a, expr b => Expr.occursFree a b
  | text a, text b => a == b
  | _, _ => false

end Operand
end SecondOrder
