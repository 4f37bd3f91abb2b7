import ThreeAddress.Fault

/-!
Sets of numbers below a fixed bound, the domain, packed into 64-bit words: element `i` is
bit `i % 64` of word `i / 64`.

The plain operations are total. They ignore an element outside the domain and expect two
sets of one domain. The checked operations test these two conditions first and report
whether the set changed.
-/

namespace ThreeAddress

structure BitSet where
  domain : Nat
  words : List UInt64
  deriving DecidableEq

namespace BitSet

/-- How many words hold one bit for each number below the domain. -/
def wordCount (domain : Nat) : Nat := (domain + 63) / 64

/-- The bit of `i` within its word. -/
def mask (i : Nat) : UInt64 := 1 <<< (i % 64).toUInt64

def empty (domain : Nat) : BitSet := ⟨domain, List.replicate (wordCount domain) 0⟩

def contains (s : BitSet) (i : Nat) : Bool :=
  i < s.domain && (s.words.getD (i / 64) 0 &&& mask i) != 0

def insert (s : BitSet) (i : Nat) : BitSet :=
  if i < s.domain then { s with words := s.words.modify (i / 64) (· ||| mask i) } else s

def erase (s : BitSet) (i : Nat) : BitSet :=
  if i < s.domain then { s with words := s.words.modify (i / 64) (· &&& ~~~ mask i) } else s

def insertAll (s : BitSet) (elements : List Nat) : BitSet := elements.foldl insert s

def eraseAll (s : BitSet) (elements : List Nat) : BitSet := elements.foldl erase s

def ofList (domain : Nat) (elements : List Nat) : BitSet := (empty domain).insertAll elements

def clear (s : BitSet) : BitSet := { s with words := s.words.map fun _ => 0 }

/-- Every bit of each word, except that the last word keeps only the bits below the
domain. -/
def fill (s : BitSet) : BitSet :=
  let all := s.words.map fun _ => ~~~ (0 : UInt64)
  if s.domain % 64 = 0 then { s with words := all }
  else { s with words := all.modify (all.length - 1) fun _ => mask s.domain - 1 }

def full (domain : Nat) : BitSet := (empty domain).fill

def combine (op : UInt64 → UInt64 → UInt64) (s t : BitSet) : BitSet :=
  { s with words := List.zipWith op s.words t.words }

def union (s t : BitSet) : BitSet := combine (· ||| ·) s t

def inter (s t : BitSet) : BitSet := combine (· &&& ·) s t

def diff (s t : BitSet) : BitSet := combine (fun a b => a &&& ~~~ b) s t

def isEmpty (s : BitSet) : Bool := s.words.all (· == 0)

def isSubset (s t : BitSet) : Bool := (diff s t).isEmpty

/-- The positions of the bits of a word, ascending. -/
def wordBits (w : UInt64) : List Nat :=
  (List.range 64).filter fun b => (w &&& mask b) != 0

/-- A place in a set: the number of a word, what is left of its bits, and the words behind
it. -/
structure Cursor where
  index : Nat
  current : UInt64
  rest : List UInt64

/-- The lowest bit that is left, and the place behind it. -/
def Cursor.next? (index : Nat) (current : UInt64) (rest : List UInt64) : Option (Nat × Cursor) :=
  if current = 0 then
    match rest with
    | [] => none
    | w :: rest => next? (index + 1) w rest
  else some (64 * index + current.toBitVec.ctz.toNat, ⟨index, current &&& (current - 1), rest⟩)

/-- The elements from a place on, at most `limit` of them. -/
def Cursor.collect : (limit : Nat) → Cursor → List Nat
  | 0, _ => []
  | limit + 1, c =>
    match next? c.index c.current c.rest with
    | none => []
    | some (i, c) => i :: c.collect limit

/-- The place before all elements. -/
def start (s : BitSet) : Cursor := ⟨0, s.words.headD 0, s.words.tail⟩

/-- The elements, ascending. -/
def toList (s : BitSet) : List Nat := s.start.collect (64 * s.words.length)

def count (s : BitSet) : Nat := s.words.foldl (fun n w => n + (wordBits w).length) 0

def text (s : BitSet) : String := braced (s.toList.map toString)

/-! ### Checked operations -/

def checkElement (s : BitSet) (i : Nat) : Except Fault Unit :=
  if i < s.domain then pure () else throw (.bitOutsideDomain i s.domain)

def checkDomain (s t : BitSet) : Except Fault Unit :=
  if s.domain = t.domain then pure () else throw .domainsDiffer

/-- Whether the element is there. -/
def contains? (s : BitSet) (i : Nat) : Except Fault Bool := do
  s.checkElement i
  return s.contains i

/-- The set with the element, and whether it was missing. -/
def insert? (s : BitSet) (i : Nat) : Except Fault (BitSet × Bool) := do
  s.checkElement i
  return (s.insert i, !s.contains i)

/-- The set without the element, and whether it was there. -/
def erase? (s : BitSet) (i : Nat) : Except Fault (BitSet × Bool) := do
  s.checkElement i
  return (s.erase i, s.contains i)

/-- Inserts from the left up to the first element outside the domain, which is the fault. -/
def insertAll? (s : BitSet) : List Nat → BitSet × Except Fault Unit
  | [] => (s, pure ())
  | i :: rest =>
    match s.checkElement i with
    | .ok _ => insertAll? (s.insert i) rest
    | .error fault => (s, .error fault)

def ofList? (domain : Nat) (elements : List Nat) : Except Fault BitSet :=
  let (s, outcome) := (empty domain).insertAll? elements
  outcome.map fun _ => s

/-- The combined set, and whether it differs from `s`. -/
def combine? (op : BitSet → BitSet → BitSet) (s t : BitSet) : Except Fault (BitSet × Bool) := do
  s.checkDomain t
  let result := op s t
  return (result, result != s)

def isSubset? (s t : BitSet) : Except Fault Bool := do
  s.checkDomain t
  return s.isSubset t

end BitSet

end ThreeAddress
