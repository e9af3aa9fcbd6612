import GradedScript.Machine.Basic

/-!
# Operators

What unary, binary and logical operators do with the values of their operands.
-/

namespace GradedScript.Exec

/-- Negation of a number, or of a truth value. -/
def unaryOperator (operator : Token) (right : Value) : Exec Value :=
  match operator.kind with
  | .minus =>
    match right with
    | .number x => pure (.number (-x))
    | _ => failAt operator .operandNotNumber
  | .bang => pure (.bool !right.truthy)
  | _ => getStuck (.noOperator operator)

/-- Applies an operation on numbers. -/
def onNumbers (operator : Token) (left right : Value) (f : Float → Float → Value) : Exec Value :=
  match left, right with
  | .number x, .number y => pure (f x y)
  | _, _ => failAt operator .operandsNotNumbers

/-- The sum of numbers, or strings put together. -/
def sum (operator : Token) (left right : Value) : Exec Value :=
  match left, right with
  | .number x, .number y => pure (.number (x + y))
  | .string x, .string y => pure (.string (x ++ y))
  | _, _ => failAt operator .operandsNotAddable

/-- Arithmetic, order and equality. -/
def binaryOperator (operator : Token) (left right : Value) : Exec Value :=
  match operator.kind with
  | .minus => onNumbers operator left right fun x y => .number (x - y)
  | .slash => onNumbers operator left right fun x y => .number (x / y)
  | .star => onNumbers operator left right fun x y => .number (x * y)
  | .plus => sum operator left right
  | .greater => onNumbers operator left right fun x y => .bool (x > y)
  | .greaterEqual => onNumbers operator left right fun x y => .bool (x ≥ y)
  | .less => onNumbers operator left right fun x y => .bool (x < y)
  | .lessEqual => onNumbers operator left right fun x y => .bool (x ≤ y)
  | .equalEqual => pure (.bool (left.equals right))
  | .bangEqual => pure (.bool !left.equals right)
  | _ => getStuck (.noOperator operator)

/-- Whether a logical operator is settled by its left operand. -/
def settledByLeft (operator : Token) (left : Value) : Bool :=
  match operator.kind with
  | .kwOr => left.truthy
  | _ => !left.truthy

end GradedScript.Exec
