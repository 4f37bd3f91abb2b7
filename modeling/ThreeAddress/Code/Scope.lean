/-!
Scopes are known by their depth and by how many scopes of that depth were opened before.
-/

namespace ThreeAddress

structure Scope where
  depth : Nat
  index : Nat
  deriving DecidableEq

namespace Scope

/-- The scope outside all frames. -/
def outermost : Scope := ⟨0, 0⟩

def text (s : Scope) : String := s!"{s.depth}:{s.index}"

end Scope

end ThreeAddress
