import Lox.Scope

/-!
# Distances of nodes

What the resolver found out about the nodes of all programs so far: for every
node its distance, if its name is bound locally.  Entries are kept for good.
New nodes get the next numbers, so that no entry can be one of an older node.
-/

namespace Lox

structure Locals where
  cells : Array (Option Distance) := #[]

namespace Locals

def size (l : Locals) : Nat := l.cells.size

/-- How many scopes out the name at a node is bound, if it is local. -/
def depth? (l : Locals) (node : NodeId) : Option Nat :=
  match l.cells[node]? with
  | some (some distance) => some distance.depth
  | _ => none

def extend (l : Locals) (count : Nat) : Locals := ⟨l.cells ++ Array.replicate count none⟩

def insert (l : Locals) (node : NodeId) (distance : Distance) : Locals :=
  ⟨l.cells.setIfInBounds node (some distance)⟩

def find (l : Locals) : Finding → Locals
  | .local node distance => l.insert node distance
  | _ => l

def learn (l : Locals) (count : Nat) (findings : List Finding) : Locals :=
  findings.foldl find (l.extend count)

/-- The entries in the order of the nodes, which is that in which they were made. -/
def distances (l : Locals) : List Distance := l.cells.toList.filterMap id

end Locals
end Lox
