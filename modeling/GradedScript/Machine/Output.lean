/-!
# Output

The bytes a program has written. A channel may take only so many bytes: it takes what fits, and the
first write that goes over its limit closes it.
-/

namespace GradedScript

/-- What has been written, and the most bytes that may be. -/
structure Output where
  written : ByteArray := .empty
  limit : Option Nat := none
deriving Inhabited

/-- Writes bytes. The answer is whether all of them were taken. -/
def Output.write (o : Output) (bytes : ByteArray) : Output × Bool :=
  match o.limit with
  | none => ({ o with written := o.written ++ bytes }, true)
  | some limit =>
    let room := limit - o.written.size
    if bytes.size ≤ room then ({ o with written := o.written ++ bytes }, true)
    else ({ o with written := o.written ++ bytes.extract 0 room }, false)

end GradedScript
