import ThreeAddress.Code.Instr

/-!
Events report what passes do, and where. A log keeps them in the order of their
occurrence; its summary counts those that changed the code.
-/

namespace ThreeAddress

inductive Event.Kind
  | constantFolded
  | expressionEliminated
  | copyMaterialized
  | passStarted
  | passCompleted
  deriving DecidableEq

namespace Event.Kind

def all : List Event.Kind :=
  [constantFolded, expressionEliminated, copyMaterialized, passStarted, passCompleted]

def text : Event.Kind → String
  | constantFolded => "constant-folded"
  | expressionEliminated => "expression-eliminated"
  | copyMaterialized => "copy-materialized"
  | passStarted => "pass-started"
  | passCompleted => "pass-completed"

/-- Whether an event of this kind means that the code has changed. -/
def isChange : Event.Kind → Bool
  | constantFolded | expressionEliminated | copyMaterialized => true
  | passStarted | passCompleted => false

end Event.Kind

structure Event where
  kind : Event.Kind
  pass : Option String
  block : Option BlockId
  instr : Option InstrId
  message : String
  deriving DecidableEq

namespace Event

def ofKind (kind : Event.Kind) : Event := ⟨kind, none, none, none, ""⟩

def byPass (e : Event) (name : String) : Event := { e with pass := some name }

def inBlock (e : Event) (b : BlockId) : Event := { e with block := some b }

def atInstr (e : Event) (b : BlockId) (i : InstrId) : Event :=
  { e with block := some b, instr := some i }

def saying (e : Event) (message : String) : Event := { e with message }

/-- The place of an event: block, instruction, or both divided by a slash. -/
def placeText (e : Event) : String :=
  match e.block, e.instr with
  | some b, some i => " " ++ blockName b ++ "/" ++ instrName i
  | some b, none => " " ++ blockName b
  | none, some i => " " ++ instrName i
  | none, none => ""

def text (e : Event) : String :=
  "[" ++ e.kind.text ++ "]" ++ e.pass.elim "" (" " ++ ·) ++ e.placeText ++
    if e.message.isEmpty then "" else ": " ++ e.message

end Event

abbrev Log := List Event

namespace Log

def countKind (log : Log) (kind : Event.Kind) : Nat := List.countP (·.kind == kind) log

def changeCount (log : Log) : Nat := List.countP (·.kind.isChange) log

def hasChanges (log : Log) : Bool := List.any log (·.kind.isChange)

/-- How often each kind of change occurs, for those that occur. -/
def summary (log : Log) : String :=
  let counted := (Event.Kind.all.filter (·.isChange)).filter (log.countKind · != 0)
  if counted.isEmpty then "no changes"
  else ", ".intercalate (counted.map fun kind => s!"{log.countKind kind} {kind.text}")

end Log

end ThreeAddress
