import ClassTree.Resolution.Site
import Std.Data.HashSet

/-!
# Members of a class

The entries of a class's fields, methods and constructors, and what is wrong with their declarations. A member that
repeats another gets no entry.
-/

namespace ClassTree

/-- The findings about a list of declarations, and the entries of those that are new. -/
structure Gathered (α : Type) where
  found : Array Diagnostic := #[]
  entries : Array α := #[]

namespace Gathered

variable {α : Type}

/-- Takes a declaration with what was found about it: its entry, or else the finding that it repeats another. -/
def add (g : Gathered α) (found : List Diagnostic) : Except Diagnostic α → Gathered α
  | .ok entry => { g with found := g.found ++ found, entries := g.entries.push entry }
  | .error repeated => { g with found := (g.found ++ found).push repeated }

end Gathered

/-- A finding, if a condition holds. -/
def reportIf (c : Bool) (d : Diagnostic) : List Diagnostic := if c then [d] else []

namespace ClassDef

/-- The place of a member, or of the class itself. -/
def site (r : Registry) (d : ClassDef) (member : Option String) : Site := ⟨r, d.name, member⟩

/-! ## Fields -/

/-- Whether a field's name is taken by a field before it, or by the outer instance. -/
def repeatsField (d : ClassDef) (seen : Std.HashSet String) (f : FieldDef) : Bool :=
  seen.contains f.name || (d.isInner && f.name = outerField)

/-- Adds a field to those before it, whose names are in `seen`. -/
def gatherField (r : Registry) (d : ClassDef) :
    Std.HashSet String × Gathered FieldEntry → FieldDef → Std.HashSet String × Gathered FieldEntry
  | (seen, g), f =>
    let s := d.site r (some f.name)
    let found := s.checkValueType f.ty ++
      reportIf f.modifiers.isStatic (s.report .invalidModifiers "static fields are not supported") ++
      reportIf (f.modifiers.isAbstract || f.modifiers.hasConflictingVisibility)
        (s.report .invalidModifiers "invalid field modifiers")
    if d.repeatsField seen f then
      (seen, g.add found (.error (s.report .duplicateMember s!"field '{f.name}' is already declared")))
    else
      let init := match f.init with
        | some e => s.checkExpr e
        | none => []
      (seen.insert f.name, g.add (found ++ init) (.ok ⟨d.name, f.name, f.ty, f.modifiers⟩))

/-- The fields of a class; an inner class has one more, for its outer instance. -/
def gatherFields (r : Registry) (d : ClassDef) : Gathered FieldEntry :=
  let g := (d.fields.foldl (d.gatherField r) (∅, {})).2
  match d.enclosing, d.isInner with
  | some outer, true => { g with entries := g.entries.push ⟨d.name, outerField, .ref outer, outerFieldModifiers⟩ }
  | _, _ => g

/-! ## Methods -/

/-- The findings about a method's body, or about its absence. -/
def checkMethodBody (d : ClassDef) (s : Site) (m : MethodDef) : List Diagnostic :=
  match m.body with
  | some body =>
    reportIf m.modifiers.isAbstract (s.report .invalidModifiers "an abstract method cannot have a body") ++
      s.checkBody false body
  | none =>
    reportIf (!d.isAbstract)
      (s.report .invalidModifiers s!"method '{m.name}' has no body in a non-abstract class") ++
    reportIf (m.modifiers.isStatic || m.modifiers.isFinal || m.modifiers.isPrivate)
      (s.report .invalidModifiers "an abstract method cannot be static, final or private")

/-- The entry of a method; one without a body is abstract. -/
def methodEntry (d : ClassDef) (m : MethodDef) : MethodEntry where
  owner := d.name
  name := m.name
  modifiers := if m.body.isSome then m.modifiers else m.modifiers ||| .abstract
  params := m.params.map (·.ty)
  ret := m.ret

def gatherMethod (r : Registry) (d : ClassDef) (g : Gathered MethodEntry) (m : MethodDef) : Gathered MethodEntry :=
  let s := d.site r (some m.name)
  let entry := d.methodEntry m
  let found := m.params.flatMap (fun p => s.checkValueType p.ty) ++ s.checkType m.ret ++ d.checkMethodBody s m ++
    reportIf entry.modifiers.hasConflictingVisibility (s.report .invalidModifiers "conflicting visibility modifiers")
  g.add found <|
    if g.entries.any fun e => e.name = entry.name && e.params = entry.params then
      .error (s.report .duplicateMember s!"method '{entry.text}' is already declared")
    else .ok entry

def gatherMethods (r : Registry) (d : ClassDef) : Gathered MethodEntry := d.methods.foldl (d.gatherMethod r) {}

/-! ## Constructors -/

def gatherConstructor (r : Registry) (d : ClassDef) (g : Gathered MethodEntry) (k : ConstructorDef) :
    Gathered MethodEntry :=
  let s := d.site r (some constructorName)
  let entry := MethodEntry.constructor d.name k.modifiers (k.params.map (·.ty))
  let m := k.modifiers
  let found := k.params.flatMap (fun p => s.checkValueType p.ty) ++
    reportIf (m.isStatic || m.isAbstract || m.isFinal || m.hasConflictingVisibility)
      (s.report .invalidModifiers "invalid constructor modifiers") ++
    s.checkBody true k.body
  g.add found <|
    if g.entries.any (·.params = entry.params) then
      .error (s.report .duplicateMember s!"constructor '{entry.text}' is already declared")
    else .ok entry

/-- The constructors of a class; one that declares none has a public one without parameters. -/
def gatherConstructors (r : Registry) (d : ClassDef) : Gathered MethodEntry :=
  let g := d.constructors.foldl (d.gatherConstructor r) {}
  if g.entries.isEmpty then { g with entries := #[.constructor d.name .pub []] } else g

end ClassDef

end ClassTree
