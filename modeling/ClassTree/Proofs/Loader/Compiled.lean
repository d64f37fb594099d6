import ClassTree.Proofs.Loader.Generated
import ClassTree.Proofs.Resolution

/-!
# Methods of compiled classes

From the class file that a compilation makes of a class to the loaded class: every method with a body is found under its name
and descriptor, with code that was made for it after the check had found nothing (`Compilation.Built.exists_loadedAs`).
-/

namespace ClassTree

namespace ClassDef

theorem lowerMethod_name (optimize : Bool) (md : MethodDef) : (lowerMethod optimize md).name = md.name := by
  unfold lowerMethod
  split <;> rfl

theorem lowerMethod_descriptor (optimize : Bool) (md : MethodDef) :
    (lowerMethod optimize md).descriptor = (Signature.mk (md.params.map (·.ty)) md.ret).descriptor := by
  unfold lowerMethod
  split <;> rfl

end ClassDef

/-- The signature of a method comes back from its descriptor. -/
theorem LoweredClass.MethodLoaded.signature_eq {b : Binding} {r : Registry} {entry : ClassEntry} {cs : Constants}
    {lm : LoadedMethod} {md : MethodDef} {optimize : Bool}
    (h : MethodLoaded b r entry cs (ClassDef.lowerMethod optimize md) lm) (hparams : ∀ p ∈ md.params, p.ty.isVoid = false) :
    lm.params = md.params.map (·.ty.erased) ∧ lm.ret = md.ret.erased := by
  have hround := h.signature
  have hvalues : ∀ t ∈ md.params.map (·.ty), t.isVoid = false := by
    intro t ht
    obtain ⟨p, hp, rfl⟩ := List.mem_map.1 ht
    exact hparams p hp
  rw [ClassDef.lowerMethod_descriptor, Signature.ofDescriptor?_descriptor hvalues] at hround
  simp only [Signature.erased, List.map_map, Option.some.injEq, Signature.mk.injEq] at hround
  exact ⟨hround.1.symm, hround.2.symm⟩

namespace Compilation

/-- A method with a body of a class that was compiled, as it was loaded. -/
structure LoadedAs (c : Compilation) (d : ClassDef) (cls : LoadedClass) (entry : ClassEntry) (md : MethodDef)
    (lm : LoadedMethod) : Prop where
  loaded : LoweredClass.Loaded c.config.binding c.resolved (d.lower c.config.optimize) cls
  registered : c.resolved.get? d.name = some entry
  member : lm ∈ cls.methods
  own : cls.ownMethod? md.name (Signature.mk (md.params.map (·.ty)) md.ret).descriptor = some lm
  method : LoweredClass.MethodLoaded c.config.binding c.resolved entry cls.constants
    (ClassDef.lowerMethod c.config.optimize md) lm
  checked : c.config.staticChecking = true → ClassDef.checkMethod c.resolved entry md = []
  concrete : md.modifiers.isAbstract = false
  params : ∀ p ∈ md.params, p.ty.isVoid = false

/-- Every method with a body of a class that was compiled and loaded is there. -/
theorem Built.exists_loadedAs {c : Compilation} (hc : c.Built) {m : Module} {bytes : Bytes}
    (hm : m ∈ (c.compile .classGeneration).2.modules) (hbytes : m.artifact = some bytes) {l : Loader} {name : String}
    {cls : LoadedClass} (hdefine : (l.define name bytes).1 = .ok cls) {md : MethodDef} (hmd : md ∈ m.cls.methods)
    {body : List Stmt} (hbody : md.body = some body) : ∃ entry lm, c.LoadedAs m.cls cls entry md lm := by
  obtain ⟨m₀, hm₀, heq, hpassed⟩ := hc.passed hm hbytes
  have haccepted := hpassed.accepted hc (List.mem_map.2 ⟨m₀, hm₀, rfl⟩)
  rw [← heq] at hpassed haccepted
  obtain ⟨-, -, -, hmethods, -⟩ := haccepted.members
  have hclean := (ClassDef.gatherMethods_clean hmethods).2.1 md hmd
  have hconcrete : md.modifiers.isAbstract = false := by
    have hown := hclean.body
    simp only [ClassDef.checkMethodBody, hbody, List.append_eq_nil_iff, reportIf_eq_nil] at hown
    exact hown.1
  have hparams : ∀ p ∈ md.params, p.ty.isVoid = false := fun p hp =>
    (Site.isValue_of_checkValueType (hclean.params p hp)).isVoid
  have hloaded := LoweredClass.exists_loaded hpassed.generated hdefine
  obtain ⟨entry, hentry, -⟩ := hloaded.methods
  have hchecked : c.config.staticChecking = true → ClassDef.checkMethod c.resolved entry md = [] := by
    intro hstatic
    have hall := hpassed.checked hstatic
    rw [ClassDef.check, show c.resolved.get? m.cls.name = some entry from hentry] at hall
    simp only [List.append_eq_nil_iff, List.flatMap_eq_nil_iff] at hall
    exact hall.1.2 md hmd
  have hlower : ClassDef.lowerMethod c.config.optimize md ∈ (m.cls.lower c.config.optimize).methods :=
    List.mem_append_right _ (List.mem_map_of_mem hmd)
  obtain ⟨lm, hlm, hown, hmethod⟩ := hloaded.method hentry hlower
  refine ⟨entry, lm, hloaded, hentry, hlm, ?_, hmethod, hchecked, hconcrete, hparams⟩
  rw [← hown, ClassDef.lowerMethod_name, ClassDef.lowerMethod_descriptor]

end Compilation

end ClassTree
