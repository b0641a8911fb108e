/-!
# Newlines

A text may end its lines with a newline, a carriage return, or both in this
order.  `unify` writes every one of them as a newline.
-/

namespace Lox
namespace Newlines

def unify : List Char → List Char
  | [] => []
  | '\r' :: '\n' :: rest => '\n' :: unify rest
  | c :: rest => (if c = '\r' then '\n' else c) :: unify rest

end Newlines

def unifyNewlines (text : String) : String := String.ofList (Newlines.unify text.toList)

def linesOf (text : String) : List String :=
  let parts := text.splitOn "\n"
  parts.dropLast.map (· ++ "\n") ++ (parts.getLast?.filter (· ≠ "")).toList

end Lox
