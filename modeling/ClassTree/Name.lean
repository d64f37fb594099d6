import ClassTree.Error

/-!
# Qualified class names

A name is a package path and a nesting path of identifiers: `com.example.Outer$Inner` has the package
`com`, `example` and the path `Outer`, `Inner`. The type keeps the grammar, so every `Name` is the name that its text
reads back to.
-/

namespace ClassTree

/-- Letters of ASCII and `_` begin an identifier. -/
def isIdentifierStart (c : Char) : Bool := c.isAlpha || c == '_'

/-- Letters and digits of ASCII and `_` continue an identifier. -/
def isIdentifierPart (c : Char) : Bool := c.isAlphanum || c == '_'

def isIdentifier (s : String) : Bool :=
  match s.toList with
  | [] => false
  | c :: cs => isIdentifierStart c && cs.all isIdentifierPart

/-- Walks the text with the word under way and the words before it, both reversed. -/
def piecesFrom (sep : Char) : List Char → List Char → List (List Char) → List (List Char)
  | [], word, words => (word.reverse :: words).reverse
  | c :: cs, word, words =>
    if c = sep then piecesFrom sep cs [] (word.reverse :: words) else piecesFrom sep cs (c :: word) words

/-- The pieces of a text between its separators: one more than there are separators. -/
def pieces (sep : Char) (cs : List Char) : List (List Char) := piecesFrom sep cs [] []

theorem piecesFrom_ne_nil (sep : Char) (cs word : List Char) (words : List (List Char)) :
    piecesFrom sep cs word words ≠ [] := by
  induction cs generalizing word words with
  | nil => simp [piecesFrom]
  | cons c cs ih =>
    rw [piecesFrom]
    split
    · exact ih _ _
    · exact ih _ _

theorem pieces_ne_nil (sep : Char) (cs : List Char) : pieces sep cs ≠ [] := piecesFrom_ne_nil sep cs [] []

/-- The qualified name of a class. -/
structure Name where
  /-- The package, outermost first; empty for the default package. -/
  package : List String
  /-- The simple names of the enclosing classes, outermost first, and last the class's own. -/
  path : List String
  package_ok : ∀ s ∈ package, isIdentifier s = true
  path_ne : path ≠ []
  path_ok : ∀ s ∈ path, isIdentifier s = true
deriving DecidableEq

namespace Name

/-- The name within the package: the nesting path joined by `$`. -/
def className (n : Name) : String := "$".intercalate n.path

def packageText (n : Name) : String := ".".intercalate n.package

/-- The written form. -/
def text (n : Name) : String := String.join (n.package.map (· ++ ".")) ++ n.className

instance : ToString Name := ⟨text⟩

instance : Hashable Name := ⟨fun n => mixHash (hash n.package) (hash n.path)⟩

/-- Reads a name; of several faults the leftmost is reported. -/
def parse (s : String) : Except ConstructionError Name :=
  if s = "" then .error .emptyName
  else
    let dotted := pieces '.' s.toList
    let package := dotted.dropLast.map String.ofList
    let path := (pieces '$' (dotted.getLast (pieces_ne_nil _ _))).map String.ofList
    match hp : package.find? (!isIdentifier ·), hc : path.find? (!isIdentifier ·) with
    | some segment, _ => .error (.invalidName s s!"invalid package segment '{segment}'")
    | none, some part => .error (.invalidName s s!"invalid class name segment '{part}'")
    | none, none => .ok {
        package, path
        package_ok := by simpa [List.find?_eq_none] using hp
        path_ne := by simp [path, pieces_ne_nil]
        path_ok := by simpa [List.find?_eq_none] using hc }

/-- Reads a name, without the reason for a refusal. -/
def parse? (s : String) : Option Name := (parse s).toOption

/-- The name of the class called `simple` that is nested in the class `n`. -/
def nested (n : Name) (simple : String) : Except ConstructionError Name :=
  if h : isIdentifier simple then
    .ok {
      n with
      path := n.path ++ [simple]
      path_ne := by simp
      path_ok := by
        intro s hs
        rcases List.mem_append.1 hs with hs | hs
        · exact n.path_ok s hs
        · rw [List.mem_singleton.1 hs]; exact h }
  else .error (.invalidName s!"{n.text}${simple}" s!"invalid nested class name '{simple}'")

/-- The class's own name, without package and enclosing classes. -/
def simpleName (n : Name) : String := n.path.getLast n.path_ne

/-- Whether the name is that of a nested class. -/
def isNested (n : Name) : Bool := n.path.length > 1

/-- The name of the class that the name is nested in. -/
def enclosing (n : Name) : Option Name :=
  if h : n.path.dropLast = [] then none
  else some { n with path := n.path.dropLast, path_ne := h,
                     path_ok := fun s hs => n.path_ok s (List.dropLast_subset _ hs) }

/-- The order of names: by package, then by nesting path. -/
def le (a b : Name) : Bool :=
  ((List.compareLex compare a.package b.package).then (List.compareLex compare a.path b.path)).isLE

/-- The root of every class hierarchy. -/
def object : Name := ⟨["lang"], ["Object"], by decide, by decide, by decide⟩

/-- Immutable text. -/
def string : Name := ⟨["lang"], ["String"], by decide, by decide, by decide⟩

/-- A text buffer that grows. -/
def stringBuilder : Name := ⟨["lang"], ["StringBuilder"], by decide, by decide, by decide⟩

end Name

end ClassTree
