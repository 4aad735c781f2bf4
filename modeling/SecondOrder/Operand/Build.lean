/-
# Building expressions from operands

The checked constructors of applications and bindings, and the operations that
put operands into an existing expression: new parts for a node, a new node at a
path, a replacement for a variable.  Every node on the way is built anew, so a
text in the place of an expression is refused by the node just above it, with
the head looked at first, then the variables, then the body.
-/

import SecondOrder.Expr.Position
import SecondOrder.Expr.Subst

namespace SecondOrder
namespace Operand

/-- The operand as an expression; a text is refused. -/
def expression : Operand → Except Fault Expr
  | expr e => .ok e
  | text s => .error (.notExpression s)

/-- The application of the first operand to the others. -/
def application (children : List Operand) : Except Fault Expr := do
  match children with
  | [] => throw .emptyApplication
  | f :: as => return .app (← f.expression) (← as.mapM expression)

/-- The operand as a binder. -/
def binder (x : Operand) : Except Fault Var :=
  match x.var? with
  | some x => .ok x
  | none => .error (.binderNotVariable x)

/-- The binding `head[binders, body]`. -/
def binding (head : Operand) (binders : List Operand) (body : Operand) : Except Fault Expr := do
  match head with
  | .expr (.sym f) =>
    match binders with
    | [] => throw .emptyBinding
    | x :: xs => return .bind f ⟨← x.binder, ← xs.mapM binder⟩ (← body.expression)
  | _ => throw (.headNotSymbol head)

/-- A node of the same class as `e` with the given parts.  The first part heads
a binding and the last is its body; a single part is both. -/
def rebuild (e : Operand) (parts : List Operand) : Except Fault Expr :=
  match e with
  | expr (.app ..) => application parts
  | expr (.bind ..) =>
    match parts, parts.getLast? with
    | head :: rest, some body => binding head rest.dropLast body
    | _, _ => .error .outOfRange
  | _ => .error (.atomWithoutParts e)

/-- The fault of a text put into part `i` of `parent`. -/
def textFault (parent : Expr) (i : Nat) (s : String) : Fault :=
  match parent with
  | .bind _ xs _ =>
    if i = 0 then .headNotSymbol (text s)
    else if i ≤ xs.length then .binderNotVariable (text s)
    else .notExpression s
  | _ => .notExpression s

/-- Exchanges the node at a path for an operand. -/
def replaceAt (e : Expr) (p : Path) (new : Operand) : Except Fault Operand :=
  match new with
  | expr n => expr <$> e.replaceAt p n
  | text s =>
    match p.getLast? with
    | none => .ok (text s)
    | some i => match e.at? p, e.at? p.dropLast with
      | some _, some parent => .error (textFault parent i s)
      | _, _ => .error .outOfRange

mutual

/-- Puts the text `s` in the place of every free `v` in `e`; it can only stay a
text where `e` as a whole is `v`. -/
def substText (e v : Expr) (s : String) : Except Fault Operand :=
  match e with
  | .app f as => do
    let g ← substText f v s
    let bs ← substTextAll as v s
    expr <$> application (g :: bs)
  | .bind f xs b =>
    match xs.bound? v with
    | some x => .error (.illegalCapture (.bind f xs b) x (text s))
    | none => do
      let c ← substText b v s
      return .expr (.bind f xs (← c.expression))
  | e => .ok (if e == v then text s else expr e)

def substTextAll (as : List Expr) (v : Expr) (s : String) : Except Fault (List Operand) :=
  match as with
  | [] => .ok []
  | a :: as => do
    let b ← substText a v s
    let bs ← substTextAll as v s
    return b :: bs

end

/-- Puts `r` in the place of every free `v` in `e`. -/
def subst (e v r : Operand) : Except Fault Operand :=
  match e, v, r with
  | expr e, expr v, expr r => expr <$> e.subst v r
  | expr e, expr v, text s => substText e v s
  | expr e, text _, _ => .ok (expr e)
  | text s, v, r => .ok (if text s == v then r else text s)

/-- The binding `e` with its variable `x` exchanged for `y`. -/
def alphaConvert (e : Expr) (x y : Operand) : Except Fault Expr :=
  match x, y with
  | expr x, expr y => e.alphaConvert x y
  | expr x, text s => do
    match e with
    | .bind _ xs b =>
      if xs.binds x then
        let _ ← substText b x s
        throw (.binderNotVariable (text s))
      else throw (.unboundVariable x e)
    | _ => throw (.unboundVariable x e)
  | text s, _ => .error (.unboundVariable (text s) e)

end Operand
end SecondOrder
