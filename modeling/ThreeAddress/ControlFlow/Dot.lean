import ThreeAddress.ControlFlow.Graph

/-!
Control-flow graphs in the DOT language: a box for each block with one line for each
instruction, and an arrow for each edge.
-/

namespace ThreeAddress

open ControlFlow

/-- A text with `t` in place of each `c`. -/
def ControlFlow.replaceChar (c : Char) (t s : String) : String :=
  String.join (s.toList.map fun d => if d = c then t else d.toString)

/-- A text inside a quoted string. Backslashes come first, as the other steps write some. -/
def ControlFlow.escape (s : String) : String :=
  let s := replaceChar '\\' "\\\\" s
  let s := replaceChar '"' "\\\"" s
  let s := replaceChar '\n' "\\n" s
  let s := replaceChar '\r' "" s
  let s := replaceChar '<' "\\<" s
  replaceChar '>' "\\>" s

namespace FlowGraph

/-- The first line of a block's label. -/
def dotHead (g : FlowGraph) (b : BlockId) : String :=
  blockName b ++ (if b = g.entry then " (entry)" else "") ++
    (if g.exits.contains b then " (exit)" else "")

/-- The lines of a block's label, each ended by a left-justified break. -/
def dotLabel (g : FlowGraph) (block : Block) : String :=
  let lines := (block.instrs.filterMap g.listing.instr?).map fun instr =>
    escape (g.listing.showAction instr.action)
  String.join ((g.dotHead block.id :: lines).map (· ++ "\\l"))

/-- The entry is green, other exits are red. -/
def dotStyle (g : FlowGraph) (b : BlockId) : String :=
  if b = g.entry then ", style=filled, fillcolor=lightgreen"
  else if g.exits.contains b then ", style=filled, fillcolor=lightcoral"
  else ""

def dotNode (g : FlowGraph) (block : Block) : String :=
  "    " ++ blockName block.id ++ " [label=\"" ++ g.dotLabel block ++ "\"" ++
    g.dotStyle block.id ++ "];\n"

/-- Label and colour of an arrow. -/
def dotKind : EdgeKind → String × String
  | .fallthrough | .jump => ("", "black")
  | .onTrue => ("true", "green")
  | .onFalse => ("false", "red")

def dotEdge (e : Edge) : String :=
  "    " ++ blockName e.source ++ " -> " ++ blockName e.target ++ " [label=\"" ++
    (dotKind e.kind).1 ++ "\", color=" ++ (dotKind e.kind).2 ++ "];\n"

def dotTitle : Option String → String
  | none => ""
  | some title => "    label=\"CFG: " ++ escape title ++ "\";\n"

def dot (g : FlowGraph) (title : Option String) : String :=
  "digraph CFG \x7b\n" ++ dotTitle title ++
    "    labelloc=t;\n" ++
    "    node [shape=box, fontname=\"Courier\", fontsize=10];\n" ++
    "    edge [fontname=\"Courier\", fontsize=9];\n\n" ++
    String.join (g.blocks.toList.map g.dotNode) ++ "\n" ++
    String.join (g.edges.map dotEdge) ++ "\x7d\n"

end FlowGraph

end ThreeAddress
