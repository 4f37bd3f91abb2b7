import ThreeAddress.BitSet
import ThreeAddress.Code.Listing

/-!
Basic blocks: the stream cut where the stamp changes. A block knows the variables it
assigns and those it reads before it assigns them.
-/

namespace ThreeAddress

structure Block where
  id : BlockId
  instrs : List InstrId
  defs : BitSet
  exposed : BitSet
  deriving DecidableEq

namespace Block

/-- The variables assigned so far, and those read before. -/
structure Summary where
  defs : BitSet
  exposed : BitSet

/-- An instruction reads before it assigns. -/
def Summary.step (l : Listing) (s : Summary) (instr : Instr) : Summary :=
  { defs := instr.action.targetVar.elim s.defs s.defs.insert
    exposed := s.exposed.insertAll ((l.uses instr.action).filter (!s.defs.contains ·)) }

def Summary.start (l : Listing) : Summary := ⟨.empty l.vars.size, .empty l.vars.size⟩

def ofInstrs (l : Listing) (instrs : List Instr) : Block :=
  let summary := instrs.foldl (Summary.step l) (Summary.start l)
  { id := instrs.head?.elim 0 (·.block)
    instrs := instrs.map (·.id)
    defs := summary.defs
    exposed := summary.exposed }

def length (b : Block) : Nat := b.instrs.length

def isEmpty (b : Block) : Bool := b.instrs.isEmpty

def first? (b : Block) : Option InstrId := b.instrs.head?

def last? (b : Block) : Option InstrId := b.instrs.getLast?

/-- Where an instruction stands in the block. -/
def position? (b : Block) (i : InstrId) : Option Nat := b.instrs.idxOf? i

/-- The variables that the block does not assign. -/
def notKilled (b : Block) : BitSet := (BitSet.full b.defs.domain).diff b.defs

end Block

/-- The blocks in the order of the stream. -/
def Listing.blocks (l : Listing) : List Block :=
  (l.instrs.splitBy fun a b => a.block == b.block).map (Block.ofInstrs l)

end ThreeAddress
