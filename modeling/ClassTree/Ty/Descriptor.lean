import ClassTree.Ty

/-!
# Descriptors

The text form of types in class files: `I` for `int`, `Lp.A;` for the class `p.A`, `(ILlang.String;)V` for a signature.
`Ty.ofDescriptor?` and `Signature.ofDescriptor?` read back what `Ty.descriptor` and `Signature.descriptor` write.
-/

namespace ClassTree

namespace Ty

/-- The code of a type; the null type is written as the root class. -/
def descriptor : Ty → String
  | .void => "V"
  | .boolean => "Z"
  | .int => "I"
  | .long => "J"
  | .double => "D"
  | .null => "L" ++ Name.object.text ++ ";"
  | .ref n => "L" ++ n.text ++ ";"

/-- The types whose code is a single letter. -/
def ofLetter? : Char → Option Ty
  | 'V' => some .void
  | 'Z' => some .boolean
  | 'I' => some .int
  | 'J' => some .long
  | 'D' => some .double
  | _ => none

/-- Reads the code of one type off the front of a text. -/
def scan : List Char → Option (Ty × List Char)
  | [] => none
  | 'L' :: rest =>
    match rest.dropWhile (· != ';') with
    | [] => none
    | _ :: tail => (Name.parse? (String.ofList (rest.takeWhile (· != ';')))).map fun n => (.ref n, tail)
  | c :: rest => (ofLetter? c).map fun t => (t, rest)

/-- The code of a type is not empty. -/
theorem scan_length {cs rest : List Char} {t : Ty} (h : scan cs = some (t, rest)) : rest.length < cs.length := by
  unfold scan at h
  split at h
  · cases h
  · rename_i r
    split at h
    · cases h
    · rename_i tail hd
      obtain ⟨n, -, hn⟩ := Option.map_eq_some_iff.1 h
      have hs : (r.dropWhile (· != ';')).length ≤ r.length := (List.dropWhile_suffix _).length_le
      rw [hd] at hs
      cases hn
      simp only [List.length_cons] at hs ⊢
      omega
  · obtain ⟨n, -, hn⟩ := Option.map_eq_some_iff.1 h
    cases hn
    simp

/-- Reads the code of one type that is the whole text. -/
def ofChars? (cs : List Char) : Option Ty :=
  match scan cs with
  | some (t, []) => some t
  | _ => none

def ofDescriptor? (s : String) : Option Ty := ofChars? s.toList

end Ty

/-- Parameter types and result type of a method. -/
structure Signature where
  params : List Ty
  ret : Ty
deriving DecidableEq

namespace Signature

def descriptor (s : Signature) : String :=
  "(" ++ String.join (s.params.map Ty.descriptor) ++ ")" ++ s.ret.descriptor

/-- Reads parameter types up to the closing bracket, then the result type; `acc` holds the parameters so far,
reversed. -/
def scanParams (cs : List Char) (acc : List Ty) : Option Signature :=
  match cs with
  | [] => none
  | c :: cs =>
    if c = ')' then (Ty.ofChars? cs).map fun ret => ⟨acc.reverse, ret⟩
    else
      match h : Ty.scan (c :: cs) with
      | none => none
      | some (t, rest) =>
        have : rest.length < cs.length + 1 := Ty.scan_length h
        if t.isVoid then none else scanParams rest (t :: acc)
termination_by cs.length

def ofDescriptor? (s : String) : Option Signature :=
  match s.toList with
  | '(' :: rest => scanParams rest []
  | _ => none

end Signature

end ClassTree
