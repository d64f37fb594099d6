/-!
# Why a class file is refused
-/

namespace ClassTree

inductive VerifyError where
  | badConstant (index : UInt16) (reason : String)
  | badClass (reason : String)
  | badMethod (method reason : String)
  | badCode (method : String) (offset : Nat) (reason : String)
deriving DecidableEq, Repr

def VerifyError.message : VerifyError → String
  | .badConstant index reason => s!"constant #{index}: {reason}"
  | .badClass reason => reason
  | .badMethod method reason => s!"method {method}: {reason}"
  | .badCode method offset reason => s!"method {method} at offset {offset}: {reason}"

/-- The stable name of the kind of refusal. -/
def VerifyError.kind : VerifyError → String
  | .badConstant .. => "Verify.BadConstant"
  | .badClass _ => "Verify.BadClass"
  | .badMethod .. => "Verify.BadMethod"
  | .badCode .. => "Verify.BadCode"

/-- The value of an option, or an error. -/
def orFail {ε α : Type} (e : ε) : Option α → Except ε α
  | some a => .ok a
  | none => .error e

/-- Fails unless a condition holds. -/
def require {ε : Type} (c : Bool) (e : ε) : Except ε Unit := if c then .ok () else .error e

end ClassTree
