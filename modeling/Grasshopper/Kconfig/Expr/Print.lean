import Grasshopper.Kconfig.Expr.Basic

/-! # The printer of `expr.c`

An expression is put in parentheses where its type binds less than that of the expression around
it.
-/

namespace Grasshopper.Kconfig

/-- `enum expr_type`. -/
inductive ExprType where
  | none | or | and | not | equal | unequal | choice | symbol | range
deriving DecidableEq, Repr

/-- The case labels that a type falls through in the `switch` of `expr_compare_type`. -/
def ExprType.below : ExprType → List ExprType
  | equal | unequal => [not, and, or, choice, none]
  | not => [and, or, choice, none]
  | and => [or, choice, none]
  | or => [choice, none]
  | choice => [none]
  | none | symbol | range => []

def exprCompareType (t1 t2 : ExprType) : ℤ :=
  if t1 = t2 then 0 else if t2 ∈ t1.below then 1 else -1

/-- The `type` field. -/
def Expr.exprType : Expr → ExprType
  | .symbol _ => .symbol
  | .not _ => .not
  | .and _ _ => .and
  | .or _ _ => .or
  | .equal _ _ => .equal
  | .unequal _ _ => .unequal

/-- Parentheses around what `expr_print` gives to `fn`. -/
def parenthesized (prevtoken t : ExprType) (strs : List Text) : List Text :=
  if 0 < exprCompareType prevtoken t then [['(']] ++ strs ++ [[')']] else strs

/-- The strings that `expr_print` gives to `fn`, for an expression that is not `NULL`. -/
def Expr.print : Expr → ExprType → List Text
  | .symbol s, prevtoken =>
    parenthesized prevtoken .symbol [s.name?.getD ['<', 'c', 'h', 'o', 'i', 'c', 'e', '>']]
  | .not e, prevtoken => parenthesized prevtoken .not ([['!']] ++ e.print .not)
  | .equal a b, prevtoken =>
    parenthesized prevtoken .equal [a.name?.getD [], ['='], b.name?.getD []]
  | .unequal a b, prevtoken =>
    parenthesized prevtoken .unequal [a.name?.getD [], ['!', '='], b.name?.getD []]
  | .or l r, prevtoken =>
    parenthesized prevtoken .or (l.print .or ++ [[' ', '|', '|', ' ']] ++ r.print .or)
  | .and l r, prevtoken =>
    parenthesized prevtoken .and (l.print .and ++ [[' ', '&', '&', ' ']] ++ r.print .and)

/-- The strings that `expr_print` gives to `fn`. -/
def exprPrint : Option Expr → ExprType → List Text
  | none, _ => [['y']]
  | some e, prevtoken => e.print prevtoken

/-- What `expr_fprint` and `expr_gstr_print` make of these strings. -/
def exprText (e : Expr) : Text := (exprPrint (some e) .none).flatten

end Grasshopper.Kconfig
