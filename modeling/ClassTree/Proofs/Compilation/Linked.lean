import Mathlib
import ClassTree.Proofs.Code.Decoded
import ClassTree.Proofs.Compilation.Stages
import ClassTree.Proofs.Compile.Linked
import ClassTree.Proofs.Loader.Generated

/-!
# Class files that are complete together

The class files of a compilation, with the host classes, are a linkage: what the class files themselves declare
(`Artifact.linkage`). Each is written by itself, from the lowered class, while references are made from the entries of the
registry. That the two do not drift apart is the inclusion of the registry's linkage in that of the class files
(`Compilation.Built.linkage_sub`): every entry of a field, a method or a constructor has its counterpart in the tables of the
class that it belongs to, with the same name, descriptor and kind.

So after a success with references resolved beforehand, all references of all class files lead somewhere
(`Compilation.Reached.artifacts_linked`).
-/

namespace ClassTree

/-! ## Reading code -/

namespace Instr

theorem at?_flatMap_encode (i : Instr) (is : List Instr) : at? ((i :: is).flatMap encode).toArray 0 = some i := by
  refine Block.At.one ⟨[], is.flatMap encode, ?_, rfl⟩
  simp [encodeCode, Block.one]

/-- Code can be read as instructions in one way at most. -/
theorem flatMap_encode_inj : ∀ {is js : List Instr}, is.flatMap encode = js.flatMap encode → is = js
  | [], [], _ => rfl
  | [], j :: js, h | j :: js, [], h => by
    have hlen := congrArg List.length h
    have hpos := j.size_pos
    rw [List.flatMap_cons, List.length_append, length_encode, List.flatMap_nil, List.length_nil] at hlen
    omega
  | i :: is, j :: js, h => by
    have hi := at?_flatMap_encode i is
    rw [h, at?_flatMap_encode] at hi
    obtain rfl : j = i := Option.some.inj hi
    rw [List.flatMap_cons, List.flatMap_cons, List.append_cancel_left_eq] at h
    rw [flatMap_encode_inj h]

end Instr

/-! ## Class files as a linkage -/

namespace ClassFile

/-- A field of this name and descriptor is in the table of the class file. -/
def DeclaresField (f : ClassFile) (name descriptor : String) : Prop :=
  ∃ info ∈ f.fields, f.constants.utf8? info.name = some name ∧ f.constants.utf8? info.descriptor = some descriptor

/-- A method or constructor of this name and descriptor is in the table of the class file, and is static or not. -/
def DeclaresMethod (f : ClassFile) (name descriptor : String) (isStatic : Bool) : Prop :=
  ∃ info ∈ f.methods, f.constants.utf8? info.name = some name ∧ f.constants.utf8? info.descriptor = some descriptor ∧
    info.access.isStatic = isStatic

/-- The code of all methods can be read as instructions, and whatever these refer to is there. -/
def Linked (l : Linkage) (f : ClassFile) : Prop :=
  ∀ m ∈ f.methods, (∃ is : List Instr, m.code.toList = is.flatMap Instr.encode) ∧
    ∀ is : List Instr, m.code.toList = is.flatMap Instr.encode → ∀ i ∈ is, i.Linked l f.constants

end ClassFile

namespace Artifact

/-- The class file of the class whose name is written so. -/
def FileOf (as : List Artifact) (cls : String) (f : ClassFile) : Prop :=
  ∃ a ∈ as, a.name.text = cls ∧ ClassFile.decode a.bytes = .ok f ∧ f.name? = some cls

/-- What the host classes and the classes of class files declare themselves. -/
def linkage (as : List Artifact) : Linkage where
  cls name := (∃ h ∈ LoadedClass.hosts, h.name.text = name) ∨ ∃ f, FileOf as name f
  field ref := ∃ f, FileOf as ref.cls f ∧ f.DeclaresField ref.name ref.descriptor
  method ref isStatic :=
    (∃ h ∈ LoadedClass.hosts, h.name.text = ref.cls ∧ ∃ m, h.ownMethod? ref.name ref.descriptor = some m ∧
      m.isStatic = isStatic) ∨
    ∃ f, FileOf as ref.cls f ∧ f.DeclaresMethod ref.name ref.descriptor isStatic

end Artifact

namespace LoweredClass.Made

variable {b : Binding} {r : Registry} {entry : ClassEntry} {low : LoweredClass} {f : ClassFile}

theorem declaresField (h : low.Made b r entry f) {x : LoweredField} (hx : x ∈ low.fields) :
    f.DeclaresField x.name x.ty.descriptor := by
  obtain ⟨info, hinfo, hmade⟩ := exists_right h.fields hx
  exact ⟨info, hinfo, hmade.name, hmade.descriptor⟩

theorem declaresMethod (h : low.Made b r entry f) {x : LoweredMethod} (hx : x ∈ low.methods) :
    f.DeclaresMethod x.name x.descriptor x.modifiers.isStatic := by
  obtain ⟨info, hinfo, hmade⟩ := exists_right h.methods hx
  exact ⟨info, hinfo, hmade.name, hmade.descriptor, by rw [hmade.access]⟩

/-- If the code of every method is linked where it is made, so is the class file. -/
theorem linked {l : Linkage} (h : low.Made .static r entry f) (hregular : ∀ m ∈ low.methods, (context r entry m).Regular)
    (hsub : r.linkage.Sub l) : f.Linked l := by
  intro info hinfo
  obtain ⟨m, hm, hmade⟩ := exists_left h.methods hinfo
  obtain ⟨p, q, hcompile, hwithin⟩ := hmade.code
  obtain ⟨-, hcode⟩ := compileMethod_linked (hregular m hm) m p _ q hcompile
  obtain ⟨block, heq, hlinked⟩ := hcode hwithin
  have hread : info.code.toList = block.instrs.toList.flatMap Instr.encode := by
    rw [show info.code = block.encode from heq]
    simp [Block.encode, encodeCode]
  refine ⟨⟨_, hread⟩, fun is his i hi => ?_⟩
  rw [hread] at his
  rw [← Instr.flatMap_encode_inj his] at hi
  exact (hlinked i (Array.mem_toList_iff.1 hi)).mono hsub

end LoweredClass.Made

/-! ## Entries and lowered classes -/

namespace ClassDef

variable {r : Registry} {d : ClassDef} {o : Bool}

theorem outerTypes_entry : (d.entry r).outerTypes = d.outerClass?.toList.map .ref := by
  rw [ClassEntry.outerTypes, outerClass?, show (d.entry r).isInner = d.isInner from rfl]
  cases hinner : d.isInner with
  | false => rfl
  | true =>
    obtain ⟨outer, houter⟩ := Option.isSome_iff_exists.1 (Bool.and_eq_true_iff.1 hinner).1
    rw [show (d.entry r).enclosing = d.enclosing from rfl, houter]
    rfl

/-- The entry of a field belongs to the class, which has the field when it is lowered. -/
theorem exists_lowered_of_mem_fields (h : (d.gatherFields r).found.toList = []) {f : FieldEntry}
    (hf : f ∈ (d.entry r).fields) : f.owner = d.name ∧ ∃ x ∈ (d.lower o).fields, x.name = f.name ∧ x.ty = f.ty := by
  rw [entry, (gatherFields_clean h).1, List.mem_append] at hf
  rcases hf with hf | hf
  · obtain ⟨x, hx, rfl⟩ := List.mem_map.1 hf
    exact ⟨rfl, ⟨x.name, x.ty, x.modifiers⟩, List.mem_append_left _ (List.mem_map.2 ⟨x, hx, rfl⟩), rfl, rfl⟩
  · obtain ⟨outer, houter, rfl⟩ := List.mem_map.1 hf
    exact ⟨rfl, ⟨outerField, .ref outer, outerFieldModifiers⟩,
      List.mem_append_right _ (List.mem_map.2 ⟨outer, houter, rfl⟩), rfl, rfl⟩

/-- The entry of a method belongs to the class, which has the method when it is lowered. -/
theorem exists_lowered_of_mem_methods (h : (d.gatherMethods r).found.toList = []) {m : MethodEntry}
    (hm : m ∈ (d.entry r).methods) : m.owner = d.name ∧
      ∃ x ∈ (d.lower o).methods, x.name = m.name ∧ x.descriptor = m.descriptor ∧ x.modifiers.isStatic = m.isStatic := by
  rw [entry, (gatherMethods_clean h).1] at hm
  obtain ⟨x, hx, rfl⟩ := List.mem_map.1 hm
  refine ⟨rfl, lowerMethod o x, List.mem_append_right _ (List.mem_map_of_mem hx), ?_⟩
  unfold lowerMethod methodEntry MethodEntry.isStatic
  cases x.body <;> exact ⟨rfl, rfl, rfl⟩

/-- The class has a constructor when it is lowered, with the outer instance before the parameters of the entry. -/
theorem exists_lowered_of_mem_constructors (h : (d.gatherConstructors r).found.toList = []) {k : MethodEntry}
    (hk : k ∈ (d.entry r).constructors) : k.ret = .void ∧
      ∃ x ∈ (d.lower o).methods, x.name = constructorName ∧
        x.descriptor = (Signature.mk ((d.entry r).outerTypes ++ k.params) .void).descriptor ∧ x.modifiers.isStatic = false := by
  obtain ⟨hentries, hclean, -⟩ := gatherConstructors_clean h
  rw [entry, hentries] at hk
  obtain ⟨x, hx, rfl⟩ := List.mem_map.1 hk
  refine ⟨rfl, d.lowerConstructor o x, List.mem_append_left _ (List.mem_map_of_mem hx), rfl, ?_, ?_⟩
  · rw [outerTypes_entry]
    simp only [LoweredMethod.descriptor, LoweredMethod.signature, lowerConstructor, List.map_append, List.map_map]
    rfl
  · change x.modifiers.isStatic = false
    unfold allConstructors at hx
    split at hx
    · rw [List.mem_singleton.1 hx]
      rfl
    · exact (hclean x hx).modifiers.1

end ClassDef

namespace Host

/-- A host class has the members at run time that its entry has. -/
structure Holds (h : LoadedClass) (e : ClassEntry) : Prop where
  name : h.name = e.name
  isInner : e.isInner = false
  fields : e.fields = []
  methods : ∀ m ∈ e.methods, m.owner = e.name ∧ ∃ x ∈ h.ownMethod? m.name m.descriptor, x.isStatic = m.isStatic
  constructors : ∀ k ∈ e.constructors, k.ret = .void ∧
    ∃ x ∈ h.ownMethod? constructorName (Signature.mk k.params .void).descriptor, x.isStatic = false

theorem exists_holds {e : ClassEntry} (he : e ∈ classes) : ∃ h ∈ LoadedClass.hosts, Holds h e := by
  have hobject : Holds .object objectEntry := ⟨rfl, rfl, rfl, by decide, by decide⟩
  have hstring : Holds .string stringEntry := ⟨rfl, rfl, rfl, by decide, by decide⟩
  have hbuilder : Holds .stringBuilder stringBuilderEntry := ⟨rfl, rfl, rfl, by decide, by decide⟩
  simp only [classes, List.mem_cons, List.not_mem_nil, or_false] at he
  rcases he with rfl | rfl | rfl
  · exact ⟨.object, by simp [LoadedClass.hosts], hobject⟩
  · exact ⟨.string, by simp [LoadedClass.hosts], hstring⟩
  · exact ⟨.stringBuilder, by simp [LoadedClass.hosts], hbuilder⟩

end Host

namespace Compilation

variable {c : Compilation}

/-- The entry of a class before and after its members were entered. -/
theorem Built.get?_resolved (hc : Built c) {n : Name} {e : ClassEntry} (h : c.resolved.get? n = some e) :
    (e ∈ Host.classes ∧ c.declared.get? n = some e) ∨
      ∃ d ∈ c.defs, e = d.entry c.declared ∧ c.declared.get? n = some d.header := by
  obtain ⟨hdeclared, hresolved, -⟩ := hc.resolve_eq
  have hfind : ∀ f : ClassDef → ClassEntry, (∀ d, (f d).name = d.name) →
      Registry.get? ⟨Host.classes ++ c.defs.map f⟩ n =
        (Host.classes.find? (·.name = n)).or ((c.defs.find? (·.name = n)).map f) := by
    intro f hf
    simp only [Registry.get?, List.find?_append, List.find?_map, Function.comp_def, hf]
  rw [hresolved, hfind _ fun _ => rfl] at h
  rw [hdeclared, hfind _ fun _ => rfl]
  cases hhost : Host.classes.find? (·.name = n) with
  | some e' =>
    rw [hhost] at h
    obtain rfl : e' = e := Option.some.inj h
    exact .inl ⟨List.mem_of_find?_eq_some hhost, rfl⟩
  | none =>
    rw [hhost, Option.none_or, Option.map_eq_some_iff] at h
    obtain ⟨d, hd, rfl⟩ := h
    refine .inr ⟨d, List.mem_of_find?_eq_some hd, ?_, ?_⟩
    · rw [hdeclared]
    · rw [hd]
      rfl

/-- The superclass of an accepted class is no inner class. -/
theorem Accepted.superclass {d : ClassDef} (h : c.Accepted d) :
    ∃ e, c.declared.get? d.superclass = some e ∧ e.isInner = false := by
  obtain ⟨-, hsuper, -⟩ := h.members
  exact ClassDef.exists_superclass hsuper

/-- Where the code of an accepted class stands, all is as it takes it for granted. -/
theorem Built.regular (hc : Built c) (hall : ∀ d ∈ c.defs, c.Accepted d) {d : ClassDef} (hd : d ∈ c.defs)
    (m : LoweredMethod) : (LoweredClass.context c.resolved (d.entry c.declared) m).Regular := by
  refine ⟨fun outer henclosing hinner => ?_, fun s e hs he => ?_⟩
  · obtain ⟨-, -, hfields, -⟩ := (hall d hd).members
    refine ⟨d.entry c.declared, ?_, ⟨d.name, outerField, .ref outer, outerFieldModifiers⟩, ?_, rfl⟩
    · rw [show (LoweredClass.context _ _ _).registry = _ from rfl, hc.resolve_eq.2.1]
      exact List.mem_append_right _ (List.mem_map_of_mem hd)
    · rw [ClassDef.entry, (ClassDef.gatherFields_clean hfields).1]
      refine List.mem_append_right _ (List.mem_map.2 ⟨outer, ?_, rfl⟩)
      rw [ClassDef.outerClass?, if_pos (show d.isInner = true from hinner), show d.enclosing = some outer from henclosing]
      simp
  · cases hs
    obtain ⟨e', he', hinner⟩ := (hall d hd).superclass
    rcases hc.get?_resolved he with ⟨hhost, heq⟩ | ⟨d', hd', rfl, heq⟩
    · obtain ⟨h, -, hholds⟩ := Host.exists_holds hhost
      exact ⟨hholds.isInner, fun k hk => (hholds.constructors k hk).1⟩
    · rw [heq, Option.some.injEq] at he'
      subst he'
      obtain ⟨-, -, -, -, hconstructors⟩ := (hall d' hd').members
      exact ⟨hinner, fun k hk => (ClassDef.exists_lowered_of_mem_constructors (o := false) hconstructors hk).1⟩

/-- The class file of a class that passed every phase is read back as it was made. -/
theorem Passed.exists_made {d : ClassDef} {bytes : Bytes} (h : c.Passed d bytes) :
    ∃ entry f, c.resolved.get? d.name = some entry ∧ ClassFile.decode bytes = .ok f ∧
      (d.lower c.config.optimize).Made c.config.binding c.resolved entry f := by
  obtain ⟨entry, f, hentry, hassemble, hencode⟩ := LoweredClass.generate_eq_ok h.generated
  have hmade := LoweredClass.assemble_made hassemble
  exact ⟨entry, f, hentry, (Reads.classFile hmade.major hmade.size hencode).decode, hmade⟩

/-! ## All together -/

section Success

variable (hc : Built c) (hok : (c.compile .classGeneration).1 = .ok ())

include hc

theorem Built.mem_resolved {e : ClassEntry} (he : e ∈ c.resolved.classes) :
    e ∈ Host.classes ∨ ∃ d ∈ c.defs, e = d.entry c.declared := by
  rw [hc.resolve_eq.2.1] at he
  rcases List.mem_append.1 he with he | he
  · exact .inl he
  · obtain ⟨d, hd, rfl⟩ := List.mem_map.1 he
    exact .inr ⟨d, hd, rfl⟩

include hok

theorem Built.accepted {d : ClassDef} (hd : d ∈ c.defs) : c.Accepted d := by
  obtain ⟨_, -, hpassed⟩ := hc.exists_artifact hok hd
  exact hpassed.accepted hc hd

/-- Every class has a class file, which was made of the lowered class. -/
theorem Built.exists_fileOf {d : ClassDef} (hd : d ∈ c.defs) :
    ∃ entry f, Artifact.FileOf (c.compile .classGeneration).2.artifacts d.name.text f ∧
      (d.lower c.config.optimize).Made c.config.binding c.resolved entry f := by
  obtain ⟨bytes, hbytes, hpassed⟩ := hc.exists_artifact hok hd
  obtain ⟨entry, f, -, hdecode, hmade⟩ := hpassed.exists_made
  exact ⟨entry, f, ⟨_, hbytes, rfl, hdecode, hmade.name⟩, hmade⟩

theorem Built.linkage_field {e : ClassEntry} (he : e ∈ c.resolved.classes) {x : FieldEntry} (hx : x ∈ e.fields) :
    (Artifact.linkage (c.compile .classGeneration).2.artifacts).field x.ref := by
  rcases hc.mem_resolved he with hhost | ⟨d, hd, rfl⟩
  · obtain ⟨h, -, hholds⟩ := Host.exists_holds hhost
    rw [hholds.fields] at hx
    cases hx
  · obtain ⟨-, -, hfields, -⟩ := (hc.accepted hok hd).members
    obtain ⟨entry, f, hf, hmade⟩ := hc.exists_fileOf hok hd
    obtain ⟨howner, y, hy, hname, hty⟩ := ClassDef.exists_lowered_of_mem_fields (o := c.config.optimize) hfields hx
    have hdeclares := hmade.declaresField hy
    rw [hname, hty] at hdeclares
    exact ⟨f, by rw [FieldEntry.ref, howner]; exact hf, hdeclares⟩

theorem Built.linkage_method {e : ClassEntry} (he : e ∈ c.resolved.classes) {x : MethodEntry} (hx : x ∈ e.methods) :
    (Artifact.linkage (c.compile .classGeneration).2.artifacts).method x.ref x.isStatic := by
  rcases hc.mem_resolved he with hhost | ⟨d, hd, rfl⟩
  · obtain ⟨h, hh, hholds⟩ := Host.exists_holds hhost
    obtain ⟨howner, hown⟩ := hholds.methods x hx
    exact .inl ⟨h, hh, by rw [hholds.name, ← howner]; rfl, hown⟩
  · obtain ⟨-, -, -, hmethods, -⟩ := (hc.accepted hok hd).members
    obtain ⟨entry, f, hf, hmade⟩ := hc.exists_fileOf hok hd
    obtain ⟨howner, y, hy, hname, hdescriptor, hstatic⟩ :=
      ClassDef.exists_lowered_of_mem_methods (o := c.config.optimize) hmethods hx
    have hdeclares := hmade.declaresMethod hy
    rw [hname, hdescriptor, hstatic] at hdeclares
    exact .inr ⟨f, by rw [MethodEntry.ref, howner]; exact hf, hdeclares⟩

theorem Built.linkage_constructor {e : ClassEntry} (he : e ∈ c.resolved.classes) {k : MethodEntry}
    (hk : k ∈ e.constructors) :
    (Artifact.linkage (c.compile .classGeneration).2.artifacts).method (e.constructorRef k.params) false := by
  rcases hc.mem_resolved he with hhost | ⟨d, hd, rfl⟩
  · obtain ⟨h, hh, hholds⟩ := Host.exists_holds hhost
    refine .inl ⟨h, hh, by rw [hholds.name]; rfl, ?_⟩
    rw [ClassEntry.constructorRef, ClassEntry.outerTypes, if_neg (by simp [hholds.isInner])]
    exact (hholds.constructors k hk).2
  · obtain ⟨-, -, -, -, hconstructors⟩ := (hc.accepted hok hd).members
    obtain ⟨entry, f, hf, hmade⟩ := hc.exists_fileOf hok hd
    obtain ⟨-, y, hy, hname, hdescriptor, hstatic⟩ :=
      ClassDef.exists_lowered_of_mem_constructors (o := c.config.optimize) hconstructors hk
    have hdeclares := hmade.declaresMethod hy
    rw [hname, hdescriptor, hstatic] at hdeclares
    exact .inr ⟨f, hf, hdeclares⟩

/-- All members of the registry are declared, by the host classes or by the class files. -/
theorem Built.linkage_sub : c.resolved.linkage.Sub (Artifact.linkage (c.compile .classGeneration).2.artifacts) := by
  refine ⟨?_, ?_, ?_⟩
  · rintro name ⟨e, he, rfl⟩
    rcases hc.mem_resolved he with hhost | ⟨d, hd, rfl⟩
    · obtain ⟨h, hh, hholds⟩ := Host.exists_holds hhost
      exact .inl ⟨h, hh, by rw [hholds.name]⟩
    · obtain ⟨-, f, hf, -⟩ := hc.exists_fileOf hok hd
      exact .inr ⟨f, hf⟩
  · rintro ref ⟨e, he, x, hx, rfl⟩
    exact hc.linkage_field hok he hx
  · rintro ref isStatic ⟨e, he, ⟨x, hx, rfl, rfl⟩ | ⟨rfl, k, hk, rfl⟩⟩
    · exact hc.linkage_method hok he hx
    · exact hc.linkage_constructor hok he hk

end Success

/-- After a success with references resolved beforehand, whatever the class files refer to is declared by one of them or by
a host class. -/
theorem Reached.artifacts_linked (hc : Reached c) (hstatic : c.config.staticChecking = true)
    (hok : (c.compile .classGeneration).1 = .ok ()) :
    ∀ a ∈ (c.compile .classGeneration).2.artifacts, ∃ f, ClassFile.decode a.bytes = .ok f ∧
      f.name? = some a.name.text ∧ f.Linked (Artifact.linkage (c.compile .classGeneration).2.artifacts) := by
  obtain ⟨c₀, hc₀, hcarries, heq⟩ := hc.compile_eq
  rw [heq] at hok ⊢
  rw [hcarries.config] at hstatic
  intro a ha
  obtain ⟨m, hm, ha⟩ := List.mem_filterMap.1 ha
  obtain ⟨bytes, hbytes, rfl⟩ := Option.map_eq_some_iff.1 ha
  obtain ⟨m₀, hm₀, hcls, hpassed⟩ := hc₀.passed hm hbytes
  obtain ⟨entry, f, hentry, hdecode, hmade⟩ := hpassed.exists_made
  refine ⟨f, hdecode, by rw [hcls]; exact hmade.name, ?_⟩
  rw [show c₀.config.binding = .static by rw [Config.binding, hstatic]; rfl] at hmade
  rcases hc₀.get?_resolved hentry with ⟨hhost, -⟩ | ⟨d, hd, rfl, -⟩
  · have hname := hc₀.names.2 m₀.cls (List.mem_map_of_mem hm₀)
    rw [← show entry.name = m₀.cls.name from (Registry.get?_eq_some hentry).2] at hname
    exact absurd hname ((by decide : ∀ e ∈ Host.classes, HostClass.ofName? e.name ≠ none) entry hhost)
  · exact hmade.linked (fun m _ => hc₀.regular (fun _ => hc₀.accepted hok) hd m) (hc₀.linkage_sub hok)

end Compilation

/-! ## An example -/

namespace Counter

def outerName : Name := .ofPath ["A"] (Eq.refl true)

def innerName : Name := .ofPath ["A", "B"] (Eq.refl true)

/-- An inner class whose constructor and method use the outer instance. -/
def inner : ClassDef where
  name := innerName
  enclosing := some outerName
  members := [
    .ctor ⟨.pub, [⟨"k", .int⟩], [.expr (.assign (.field .outer "n") (.var "k"))]⟩,
    .method ⟨"get", .pub, [], .int, some [.ret (some (.field .outer "n"))]⟩]

/-- A class that makes an instance of its inner class. -/
def outer : ClassDef where
  name := outerName
  members := [
    .field ⟨"n", .int, .priv, none⟩,
    .method ⟨"count", .pub, [], .int, some [.ret (some (.call (.new innerName [.var "n"]) "get" []))]⟩]
  nested := [inner]

def compilation : Compilation where
  modules := [{ name := Module.syntheticName outerName, cls := { outer with nested := [] } },
    { name := Module.syntheticName innerName, cls := inner }]
  index := [("A$B", 1), ("A", 0)]

theorem compile_eq_ok : (compilation.compile .classGeneration).1 = .ok () := by cbv

end Counter

theorem Compilation.Reached.artifacts_linked_counter :
    Counter.compilation.Reached ∧ (Counter.compilation.compile .classGeneration).1 = .ok () ∧
      ∃ bytes f, ⟨Counter.outerName, bytes⟩ ∈ (Counter.compilation.compile .classGeneration).2.artifacts ∧
        ClassFile.decode bytes = .ok f ∧
        f.Linked (Artifact.linkage (Counter.compilation.compile .classGeneration).2.artifacts) := by
  have hreached : Counter.compilation.Reached := .add (d := Counter.outer) (.start {} Module.syntheticName) rfl
  have hbuilt : Counter.compilation.Built := .add (d := Counter.outer) (.start {} Module.syntheticName) rfl
  have hok := Counter.compile_eq_ok
  obtain ⟨bytes, hbytes, -⟩ := hbuilt.exists_artifact hok (d := { Counter.outer with nested := [] }) (List.mem_cons_self ..)
  obtain ⟨f, hf, -, hlinked⟩ := hreached.artifacts_linked rfl hok _ hbytes
  exact ⟨hreached, hok, bytes, f, hbytes, hf, hlinked⟩

end ClassTree
