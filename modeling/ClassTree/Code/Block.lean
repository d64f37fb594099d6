import ClassTree.Code.Instr

/-!
# Blocks of code

Pieces of code that are put together from smaller ones. A jump counts the bytes that it passes over, so a block means
the same wherever it stands.
-/

namespace ClassTree

structure Block where
  instrs : Array Instr
  /-- Whether some jump would have to pass over more bytes than its operand can say. -/
  overflowed : Bool
deriving DecidableEq

namespace Block

def empty : Block := ⟨#[], false⟩

/-- A single instruction. -/
def one (i : Instr) : Block := ⟨#[i], false⟩

def append (a b : Block) : Block := ⟨a.instrs ++ b.instrs, a.overflowed || b.overflowed⟩

instance : Append Block := ⟨append⟩

/-- How many bytes the block takes. -/
def size (b : Block) : Nat := codeSize b.instrs

/-- The bytes of a block. -/
def encode (b : Block) : Array UInt8 := (encodeCode b.instrs).toArray

/-- A jump instruction for a distance. -/
def jumpBy (jump : UInt16 → Instr) (distance : Nat) : Block :=
  if distance < 65536 then one (jump distance.toUInt16) else ⟨#[jump 0], true⟩

/-- How many bytes a jump takes. -/
def jumpSize : Nat := 3

/-- Runs `body` if `test` leaves true. -/
def ifThen (test body : Block) : Block := test ++ jumpBy .jumpIfFalse body.size ++ body

/-- Runs `yes` if `test` leaves true, and `no` otherwise. -/
def ifElse (test yes no : Block) : Block :=
  test ++ jumpBy .jumpIfFalse (yes.size + jumpSize) ++ yes ++ jumpBy .jump no.size ++ no

/-- Runs `body` as long as `test` leaves true. -/
def repeatWhile (test body : Block) : Block :=
  test ++ jumpBy .jumpIfFalse (body.size + jumpSize) ++ body ++
    jumpBy .loop (test.size + jumpSize + body.size + jumpSize)

/-- Leaves whether both blocks leave true; the second runs only if the first does. -/
def both (a b : Block) : Block := ifElse a b (one (.push .false))

/-- Leaves whether one of two blocks leaves true; the second runs only if the first does not. -/
def either (a b : Block) : Block := ifElse a (one (.push .true)) b

end Block

end ClassTree
