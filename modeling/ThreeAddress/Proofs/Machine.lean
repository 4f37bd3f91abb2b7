import Mathlib
import ThreeAddress.Code.Formula

/-!
Execution of a listing, one instruction of the stream at a time.

Control falls through to the next position of the stream, a jump goes to the position of
its label's site, and a conditional jump is taken when its condition is zero. A run stops
at a return, at the end of the stream, or at a division that has no quotient. What calls
do is up to an environment: it answers with a value and with new contents of the arrays,
and it may remember earlier calls.

The log of a run holds all that can be observed of it, and the variables each time control
leaves a block.
-/

namespace ThreeAddress

/-- What a variable or an element of an array holds; `void` is left by what yields no
value. -/
inductive Value
  | int (n : Int32)
  | float (x : Binary32)
  | void
  deriving DecidableEq

namespace Value

def ofAtom (vars : VarId → Value) : Atom → Value
  | .int n => .int n
  | .float x => .float x
  | .var v => vars v

def isZero : Value → Bool
  | int n => n = 0
  | float x => x.eq ⟨0⟩
  | void => true

/-- The value as an index of an array. -/
def index : Value → Int32
  | int n => n
  | _ => 0

/-- A truth value is one of the integers 1 and 0. -/
def ofBool (b : Bool) : Value := int (if b then 1 else 0)

/-- The exact result of a binary operation on two integers of 32 bits. A quotient is truncated;
there is none for a zero divisor, nor for the one quotient that is too large for 32 bits. -/
def intResult? (op : BinaryOp) (a b : Int) : Option Int :=
  match op with
  | .add => some (a + b)
  | .sub => some (a - b)
  | .mul => some (a * b)
  | .div => if b = 0 ∨ a.tdiv b = 2 ^ 31 then none else some (a.tdiv b)
  | .eq => some (decide (a = b)).toInt
  | .ne => some (decide (a ≠ b)).toInt
  | .le => some (decide (a ≤ b)).toInt
  | .ge => some (decide (a ≥ b)).toInt
  | .lt => some (decide (a < b)).toInt
  | .gt => some (decide (a > b)).toInt

/-- The result of a binary operation on two floats. -/
def ofFloats (op : BinaryOp) (a b : Binary32) : Value :=
  match op with
  | .add => float (a.add b)
  | .sub => float (a.sub b)
  | .mul => float (a.mul b)
  | .div => float (a.div b)
  | .eq => ofBool (a.eq b)
  | .ne => ofBool (!a.eq b)
  | .le => ofBool (a.le b)
  | .ge => ofBool (b.le a)
  | .lt => ofBool (a.lt b)
  | .gt => ofBool (b.lt a)

/-- The result of a binary operation, unless it is a division without quotient. Integers wrap:
the exact result is taken modulo `2 ^ 32`. Operands of two types have no result. -/
def binary (op : BinaryOp) : Value → Value → Option Value
  | int a, int b => (intResult? op a.toInt b.toInt).map fun n => int (.ofInt n)
  | float a, float b => some (ofFloats op a b)
  | _, _ => some void

/-- The opposite of a float has the other sign bit. -/
def negate : Value → Value
  | int n => int (-n)
  | float x => float ⟨x.bits ^^^ 0x80000000⟩
  | void => void

def unary : UnaryOp → Value → Value
  | .minus, v => v.negate
  | .not, v => ofBool v.isZero

end Value

namespace Machine

abbrev ArrayStore := ArrayId → Int32 → Value

/-- What calls do: from the state of the world, the function, its arguments and the arrays
to the new state of the world, the result and the new arrays. -/
structure Environment (W : Type) where
  call : W → String → List Value → ArrayStore → W × Value × ArrayStore

/-- What is seen of a run. -/
inductive Observation
  | branch (holds : Bool)
  | store (a : ArrayId) (i : Int32) (v : Value)
  | push (v : Value)
  | call (function : String) (args : List Value)
  | ret (v : Option Value)
  | trap
  | finished
  | left (b : BlockId) (vars : VarId → Value)

/-- An observation in which only the variables below `k` are looked at. -/
def Observation.below (k : Nat) : Observation → Observation
  | left b vars => left b fun v => if v < k then vars v else .void
  | o => o

/-- The data that instructions work on. `pushed` holds the arguments of the next call,
`incoming` those that no parameter has taken yet. -/
structure Data (W : Type) where
  vars : VarId → Value
  arrays : ArrayStore
  world : W
  pushed : List Value
  incoming : List Value

variable {W : Type}

namespace Data

def set (d : Data W) (v : VarId) (x : Value) : Data W :=
  { d with vars := Function.update d.vars v x }

def store (d : Data W) (a : ArrayId) (i : Int32) (x : Value) : Data W :=
  { d with arrays := Function.update d.arrays a (Function.update (d.arrays a) i x) }

/-- Gives a parameter the next argument; without one it is left without a value. -/
def bindParam (d : Data W) (v : VarId) : Data W :=
  { d.set v (d.incoming.headD .void) with incoming := d.incoming.tail }

/-- The value of an operand. An element is read together with its index. -/
def read (l : Listing) (d : Data W) : Operand → Value
  | .int n => .int n
  | .float x => .float x
  | .var v => d.vars v
  | .elem a index => d.arrays a (d.read l index).index
  | .instr i => (l.resolve (.instr i)).elim .void d.vars
  | .array _ | .label _ => .void

end Data

/-- Where control goes after an instruction. -/
inductive Transfer
  | fall
  | goto (l : LabelId)
  | returned
  | trapped
  deriving DecidableEq

/-- The data after an action, what is seen of it, and where control goes. -/
structure Outcome (W : Type) where
  data : Data W
  seen : List Observation
  transfer : Transfer

/-- The function that a label belongs to. -/
def functionOf (l : Listing) (label : LabelId) : String :=
  match l.labels.get? label with
  | some ⟨.function name, _⟩ => name
  | _ => ""

def perform (l : Listing) (env : Environment W) (d : Data W) : Action → Outcome W
  | .compute op lhs rhs target =>
    match Value.binary op (d.read l lhs) (d.read l rhs) with
    | some x => ⟨d.set target x, [], .fall⟩
    | none => ⟨d, [.trap], .trapped⟩
  | .apply op operand target => ⟨d.set target (.unary op (d.read l operand)), [], .fall⟩
  | .copy value (.var v) => ⟨d.set v (d.read l value), [], .fall⟩
  | .copy value (.elem a index) =>
    let i := (d.read l index).index
    ⟨d.store a i (d.read l value), [.store a i (d.read l value)], .fall⟩
  | .label _ => ⟨d, [], .fall⟩
  | .jump target => ⟨d, [], .goto target⟩
  | .jumpFalse cond target =>
    if (d.read l cond).isZero then ⟨d, [.branch false], .goto target⟩
    else ⟨d, [.branch true], .fall⟩
  | .push value =>
    ⟨{ d with pushed := d.pushed ++ [d.read l value] }, [.push (d.read l value)], .fall⟩
  | .call callee target =>
    let answer := env.call d.world (functionOf l callee) d.pushed d.arrays
    let after : Data W := { d with world := answer.1, arrays := answer.2.2, pushed := [] }
    ⟨target.elim after (after.set · answer.2.1), [.call (functionOf l callee) d.pushed], .fall⟩
  | .param target => ⟨d.bindParam target, [], .fall⟩
  | .ret value => ⟨d, [.ret (value.map (d.read l))], .returned⟩

/-- A run on its way: the position in the stream, the data, the log so far, and whether it
goes on. -/
structure Config (W : Type) where
  pc : Nat
  data : Data W
  log : List Observation
  running : Bool

/-- The instruction at a position of the stream. -/
def instrAt? (l : Listing) (pc : Nat) : Option Instr := l.stream[pc]?.bind l.instr?

/-- The position of a label; the end of the stream if it is not placed. -/
def position (l : Listing) (label : LabelId) : Nat :=
  ((l.labels.get? label).bind (·.site)).elim l.stream.length (l.stream.idxOf ·)

/-- Whether the instruction at a position is the last of its block. -/
def isLast (l : Listing) (pc : Nat) (instr : Instr) : Bool :=
  (instrAt? l (pc + 1)).map (·.block) != some instr.block

/-- The observation that control leaves the block. -/
def leaving (l : Listing) (pc : Nat) (instr : Instr) (o : Outcome W) : List Observation :=
  if isLast l pc instr && o.transfer ≠ .trapped then [.left instr.block o.data.vars] else []

def nextPc (l : Listing) (pc : Nat) : Transfer → Nat
  | .goto target => position l target
  | _ => pc + 1

def Transfer.continues : Transfer → Bool
  | fall | goto _ => true
  | returned | trapped => false

def step (l : Listing) (env : Environment W) (c : Config W) : Config W :=
  if c.running then
    match instrAt? l c.pc with
    | none => { c with log := c.log ++ [.finished], running := false }
    | some instr =>
      let o := perform l env c.data instr.action
      { pc := nextPc l c.pc o.transfer
        data := o.data
        log := c.log ++ (o.seen ++ leaving l c.pc instr o)
        running := o.transfer.continues }
  else c

/-- The configuration after `n` steps. -/
def run (l : Listing) (env : Environment W) (n : Nat) (c : Config W) : Config W :=
  (step l env)^[n] c

/-- Where a run starts: with the first block, or with a function. -/
inductive Entry
  | first
  | function (name : String)
  deriving DecidableEq

def entryPosition (l : Listing) : Entry → Nat
  | .first => 0
  | .function name => (l.functions.get? name).elim l.stream.length fun f => position l f.label

def start (l : Listing) (entry : Entry) (d : Data W) : Config W :=
  ⟨entryPosition l entry, d, [], true⟩

/-- The logs of all the beginnings of a run, with the variables below `k`. -/
def logs (l : Listing) (env : Environment W) (k : Nat) (entry : Entry) (d : Data W) :
    Set (List Observation) :=
  Set.range fun n => (run l env n (start l entry d)).log.map (·.below k)

/-! ### Steps -/

lemma step_eq {l : Listing} (env : Environment W) {c : Config W} {instr : Instr}
    (hc : c.running = true) (hi : instrAt? l c.pc = some instr) :
    step l env c =
      { pc := nextPc l c.pc (perform l env c.data instr.action).transfer
        data := (perform l env c.data instr.action).data
        log := c.log ++ ((perform l env c.data instr.action).seen ++
          leaving l c.pc instr (perform l env c.data instr.action))
        running := (perform l env c.data instr.action).transfer.continues } := by
  rw [step, if_pos hc, hi]

lemma step_of_none {l : Listing} {env : Environment W} {c : Config W}
    (hc : c.running = true) (hi : instrAt? l c.pc = none) :
    step l env c = { c with log := c.log ++ [.finished], running := false } := by
  rw [step, if_pos hc, hi]

lemma step_of_stopped {l : Listing} {env : Environment W} {c : Config W}
    (hc : c.running = false) : step l env c = c := by
  rw [step, if_neg (by simp [hc])]

lemma run_one (l : Listing) (env : Environment W) (c : Config W) :
    run l env 1 c = step l env c := rfl

lemma run_succ (l : Listing) (env : Environment W) (n : Nat) (c : Config W) :
    run l env (n + 1) c = run l env n (step l env c) := rfl

lemma run_add (l : Listing) (env : Environment W) (m n : Nat) (c : Config W) :
    run l env (m + n) c = run l env n (run l env m c) := by
  rw [Nat.add_comm]
  exact Function.iterate_add_apply _ n m c

end Machine

end ThreeAddress
