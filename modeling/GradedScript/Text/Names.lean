/-!
# Lists of names

Names in a list that holds each of them once, and names in ascending order.
-/

namespace GradedScript

/-- Puts a name last, unless it is there. -/
def addName (name : String) (names : List String) : List String :=
  if names.contains name then names else names ++ [name]

/-- Names in ascending order. -/
def sortNames (names : List String) : List String :=
  names.mergeSort fun a b => a ≤ b

end GradedScript
