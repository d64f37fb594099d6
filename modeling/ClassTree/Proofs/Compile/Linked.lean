import ClassTree.Proofs.Compile.Every

/-!
# Where references lead

A `Linkage` says which classes, fields and methods there are. `Instr.Linked l cs i`: what the instruction `i` names by its
index in the constants `cs` is there, a method also in the kind that the call wants, and nothing is left to be looked up by
name at run time.

The registry is one linkage: what it says of the members of its classes (`Registry.linkage`). Code whose members are resolved
beforehand is linked by it, whatever becomes of the pool (`compileMethod_linked`). The lookups that make the code settle
this by themselves, so no rule asks for types.
-/

namespace ClassTree

/-- The classes, fields and methods that there are. -/
structure Linkage where
  /-- There is a class whose name is written so. -/
  cls : String → Prop
  field : MemberRef → Prop
  /-- There is a method, static or not. -/
  method : MemberRef → Bool → Prop

/-- Whatever the instruction refers to is there. -/
def Instr.Linked (l : Linkage) (cs : Constants) : Instr → Prop
  | .ldc i => ∃ item : Item, item.isLoadable = true ∧ cs.Has i item
  | .new i => ∃ name, cs.className? i = some name ∧ l.cls name
  | .field _ i => ∃ ref, cs.fieldRef? i = some ref ∧ l.field ref
  | .invoke kind i => ∃ ref, cs.methodRef? i = some ref ∧ l.method ref (kind = .static)
  | .fieldDyn .. | .invokeDynamic .. | .invokeSpecialDyn .. | .invokeStaticDyn .. => False
  | _ => True

/-- Whatever a block refers to is there. -/
def Block.Linked (l : Linkage) (cs : Constants) (b : Block) : Prop := ∀ i ∈ b.instrs, i.Linked l cs

/-- All that is in the first linkage is in the second. -/
structure Linkage.Sub (l l' : Linkage) : Prop where
  cls : ∀ name, l.cls name → l'.cls name
  field : ∀ ref, l.field ref → l'.field ref
  method : ∀ ref isStatic, l.method ref isStatic → l'.method ref isStatic

variable {l l' : Linkage} {cs : Constants}

theorem Instr.Linked.mono {i : Instr} (h : i.Linked l cs) (hsub : l.Sub l') : i.Linked l' cs := by
  cases i with
  | new i =>
    obtain ⟨name, hname, hcls⟩ := h
    exact ⟨name, hname, hsub.cls name hcls⟩
  | field access i =>
    obtain ⟨ref, href, hfield⟩ := h
    exact ⟨ref, href, hsub.field ref hfield⟩
  | invoke kind i =>
    obtain ⟨ref, href, hmethod⟩ := h
    exact ⟨ref, href, hsub.method ref _ hmethod⟩
  | _ => exact h

/-! ## The registry as a linkage -/

namespace Registry

/-- The members of the registered classes. -/
def linkage (r : Registry) : Linkage where
  cls name := ∃ e ∈ r.classes, e.name.text = name
  field ref := ∃ e ∈ r.classes, ∃ f ∈ e.fields, f.ref = ref
  method ref isStatic := ∃ e ∈ r.classes, (∃ m ∈ e.methods, m.ref = ref ∧ m.isStatic = isStatic) ∨
    isStatic = false ∧ ∃ k ∈ e.constructors, e.constructorRef k.params = ref

variable {r : Registry} {n : Name} {name : String}

theorem linkage_findField? {f : FieldEntry} (h : r.findField? n name = some f) : r.linkage.field f.ref := by
  obtain ⟨e, he, hf, -⟩ := exists_of_findField? h
  exact ⟨e, mem_of_mem_chain he, f, hf, rfl⟩

theorem linkage_findMethods {m : MethodEntry} (h : m ∈ r.findMethods n name) : r.linkage.method m.ref m.isStatic := by
  obtain ⟨e, he, hm, -⟩ := exists_of_mem_findMethods h
  exact ⟨e, mem_of_mem_chain he, .inl ⟨m, hm, rfl, rfl⟩⟩

end Registry

/-- What the code of a class takes for granted: an inner class has the field for its outer instance, and a constructor of
the superclass has the parameters that it declares and returns nothing. -/
structure Context.Regular (c : Context) : Prop where
  outer : ∀ outer, c.cls.enclosing = some outer → c.cls.isInner = true →
    c.registry.linkage.field ⟨c.cls.name.text, outerField, (Ty.ref outer).descriptor⟩
  super : ∀ s e, c.cls.superclass = some s → c.registry.get? s = some e →
    e.isInner = false ∧ ∀ k ∈ e.constructors, k.ret = .void

/-! ## Code -/

namespace Context.Regular

variable {c : Context}

/-- What types choose is in the registry. -/
theorem typedRules (hc : c.Regular) : Typed.Rules (fun _ => True) cs (Instr.Linked c.registry.linkage cs) c where
  field hf _ := ⟨trivial, fun _ hi => ⟨_, hi, Registry.linkage_findField? hf⟩⟩
  outer houter hinner := ⟨trivial, fun _ hi => ⟨_, hi, hc.outer _ houter hinner⟩⟩
  method {_ _ m _} hm _ := by
    refine ⟨trivial, fun i hi => ⟨m.ref, hi, ?_⟩⟩
    have hmethod := Registry.linkage_findMethods hm
    cases hstatic : m.isStatic with
    | true => simpa [hstatic] using hmethod
    | false => simpa [hstatic] using hmethod
  new he := by
    obtain ⟨hmem, rfl⟩ := Registry.get?_eq_some he
    exact ⟨trivial, fun _ hi => ⟨_, hi, _, hmem, rfl⟩⟩
  constructor {_ _ k _} he hk _ :=
    ⟨trivial, fun _ hi => ⟨_, hi, _, (Registry.get?_eq_some he).1, .inr ⟨rfl, k, hk, rfl⟩⟩⟩
  super {n e k _} hs he hk _ := by
    obtain ⟨hinner, hvoid⟩ := hc.super n e hs he
    obtain ⟨hmem, rfl⟩ := Registry.get?_eq_some he
    have href : e.constructorRef k.params = ⟨e.name.text, constructorName, k.descriptor⟩ := by
      simp [ClassEntry.constructorRef, ClassEntry.outerTypes, hinner, MethodEntry.descriptor, MethodEntry.signature,
        hvoid k hk]
    exact ⟨trivial, fun _ hi => ⟨_, hi, e, hmem, .inr ⟨rfl, k, hk, href⟩⟩⟩

/-- Whatever can be made in the context is linked by the registry. -/
theorem rules (hc : c.Regular) : Rules .static (fun _ => True) cs (Instr.Linked c.registry.linkage cs) c where
  plain i hi := by cases i <;> trivial
  literal item hitem := ⟨trivial, fun _ hi => ⟨item, hitem, hi⟩⟩
  receiver _ := trivial
  result _ := trivial
  typed _ := hc.typedRules
  byName h := nomatch h

end Context.Regular

/-- The code of a method whose members are resolved beforehand is that of a block that is linked by the registry. -/
theorem compileMethod_linked {c : Context} (hc : c.Regular) (m : LoweredMethod) :
    Gen.Makes (fun _ => True) cs (compileMethod .static c m) fun mc =>
      ∃ b : Block, mc.code = b.encode ∧ b.Linked c.registry.linkage cs :=
  have hslots : ∀ n, SlotsBelow (Instr.Linked c.registry.linkage cs) n := fun _ _ _ => ⟨trivial, trivial⟩
  (compileMethod_every hc.rules ⟨hslots _, fun _ _ _ _ => trivial, fun _ _ _ _ => hslots _⟩).mono fun _ h => h.2

end ClassTree
