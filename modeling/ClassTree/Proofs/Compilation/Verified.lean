import Mathlib
import ClassTree.Proofs.Compilation.Additions
import ClassTree.Proofs.Compile.Verified
import ClassTree.Proofs.Loader.Compiled
import ClassTree.Proofs.Name
import ClassTree.Proofs.Resolution.Orderly

/-!
# Class files of a compilation that verification accepts

`ClassDef.Sensible`: what no phase asks of a class, though verification does, or the code that is made takes it for granted.
If all classes of a compilation are sensible, verification accepts each class file iff the code of its methods stays within the
limits (`Compilation.Reached.artifacts_verified`): it finds fault with nothing but a variable in the last slot that there can
be, or a stack that gets too deep.
-/

namespace ClassTree

/-! ## Flags and descriptors -/

namespace Modifiers

theorem or_and (a b c : Modifiers) : (a ||| b).bits &&& c.bits = (a.bits &&& c.bits) ||| (b.bits &&& c.bits) := by
  change (a.bits ||| b.bits) &&& c.bits = _
  refine UInt16.toBitVec_inj.1 (BitVec.eq_of_getElem_eq fun i hi => ?_)
  simp [Bool.and_or_distrib_right]

theorem isKnown_or {m n : Modifiers} (hm : m.isKnown = true) (hn : n.isKnown = true) : (m ||| n).isKnown = true := by
  have hm : m.bits &&& known.bits = m.bits := congrArg bits (truncate_of_isKnown hm)
  have hn : n.bits &&& known.bits = n.bits := congrArg bits (truncate_of_isKnown hn)
  refine decide_eq_true (congrArg Modifiers.mk ?_)
  rw [or_and, hm, hn]

theorem isAbstract_or (m : Modifiers) : (m ||| .abstract).isAbstract = true := by
  refine decide_eq_true ?_
  rw [or_and, UInt16.and_self]
  refine UInt16.toBitVec_inj.1 (BitVec.eq_of_getElem_eq fun i hi => ?_)
  simp

end Modifiers

/-- Parameters with values can be told from the descriptor. -/
theorem Signature.params_inj {s t : Signature} (hs : ∀ p ∈ s.params, p.IsValue) (ht : ∀ p ∈ t.params, p.IsValue)
    (h : s.descriptor = t.descriptor) : s.params = t.params := by
  have hparams : ∀ {s : Signature}, (∀ p ∈ s.params, p.IsValue) → s.erased.params = s.params := by
    intro s hs
    exact (List.map_congr_left fun t ht => Ty.erased_of_ne (hs t ht).2).trans (List.map_id _)
  have hsame := ofDescriptor?_descriptor fun p hp => (hs p hp).isVoid
  rw [h, ofDescriptor?_descriptor fun p hp => (ht p hp).isVoid, Option.some.injEq] at hsame
  rw [← hparams hs, ← hparams ht, hsame]

/-! ## Sensible classes -/

namespace ClassDef

/-- What no phase asks of a class: a class with the name of a nested one names its enclosing class, all flags are known, fields
and methods have names, those of methods are not that of constructors, fields hold values, and no variable of a constructor has
the name of the outer instance. -/
structure Sensible (d : ClassDef) : Prop where
  nested : d.name.isNested = true → d.enclosing.isSome = true
  known : d.modifiers.isKnown = true
  fields : ∀ f ∈ d.fields, f.name ≠ "" ∧ f.ty.isVoid = false ∧ f.modifiers.isKnown = true
  methods : ∀ m ∈ d.methods, m.name ≠ "" ∧ m.name ≠ constructorName ∧ m.modifiers.isKnown = true
  constructors : ∀ k ∈ d.constructors, k.modifiers.isKnown = true ∧ outerField ∉ k.params.map Param.name ∧
    outerField ∉ declaredAll k.body

instance (d : ClassDef) : Decidable d.Sensible :=
  decidable_of_iff ((d.name.isNested = true → d.enclosing.isSome = true) ∧ d.modifiers.isKnown = true ∧
      (∀ f ∈ d.fields, f.name ≠ "" ∧ f.ty.isVoid = false ∧ f.modifiers.isKnown = true) ∧
      (∀ m ∈ d.methods, m.name ≠ "" ∧ m.name ≠ constructorName ∧ m.modifiers.isKnown = true) ∧
      ∀ k ∈ d.constructors, k.modifiers.isKnown = true ∧ outerField ∉ k.params.map Param.name ∧ outerField ∉ declaredAll k.body)
    ⟨fun ⟨nested, known, fields, methods, constructors⟩ => ⟨nested, known, fields, methods, constructors⟩,
      fun h => ⟨h.nested, h.known, h.fields, h.methods, h.constructors⟩⟩

variable {d : ClassDef} {r : Registry} {o : Bool}

theorem superclass_ne (h : d.checkSuperclass r = []) : d.superclass ≠ d.name := by
  have hproblem : d.superclassProblem? r = none := by simpa [checkSuperclass] using h
  unfold superclassProblem? at hproblem
  split at hproblem
  · cases hproblem
  · split at hproblem
    · cases hproblem
    · assumption

namespace Sensible

variable (h : d.Sensible)
include h

theorem enclosing (hnamed : d.WellNamed) : d.name.enclosing = d.enclosing := by
  cases henclosing : d.enclosing with
  | some e => exact (Name.nested_eq_ok_iff.1 (hnamed e henclosing)).1
  | none =>
    by_contra hne
    have hnested : d.name.isNested = true := by rw [Name.isNested_eq, Option.isSome_iff_ne_none]; exact hne
    have hsome := h.nested hnested
    rw [henclosing] at hsome
    cases hsome

theorem fields_lower (hfields : (d.gatherFields r).found.toList = []) :
    (∀ x ∈ (d.lower o).fields, x.name ≠ "" ∧ x.ty.isVoid = false ∧ x.modifiers.isKnown = true) ∧
      ((d.lower o).fields.map LoweredField.name).Nodup := by
  obtain ⟨-, -, hnodup, houter⟩ := gatherFields_clean hfields
  constructor
  · have hname : outerField ≠ "" := by decide
    have hknown : outerFieldModifiers.isKnown = true := by decide
    refine List.forall_mem_append.2 ⟨fun x hx => ?_, fun x hx => ?_⟩
    · obtain ⟨f, hf, rfl⟩ := List.mem_map.1 hx
      exact h.fields f hf
    · obtain ⟨n, -, rfl⟩ := List.mem_map.1 hx
      exact ⟨hname, rfl, hknown⟩
  · have hnames : (d.lower o).fields.map LoweredField.name =
        d.fields.map FieldDef.name ++ d.outerClass?.toList.map fun _ => outerField := by
      simp only [lower, List.map_append, List.map_map]
      rfl
    rw [hnames]
    unfold outerClass?
    split
    · rename_i hinner
      cases d.enclosing with
      | none => simpa using hnodup
      | some outer => exact List.nodup_append.2 ⟨hnodup, by simp, by simpa using houter hinner⟩
    · simpa using hnodup

section Methods

variable (hmethods : (d.gatherMethods r).found.toList = []) (hconstructors : (d.gatherConstructors r).found.toList = [])

omit h in
include hmethods in
theorem isValue_method {m : MethodDef} (hm : m ∈ d.methods) : ∀ p ∈ m.params, p.ty.IsValue :=
  fun p hp => Site.isValue_of_checkValueType (((gatherMethods_clean hmethods).2.1 m hm).params p hp)

omit h in
include hconstructors in
theorem isValue_constructor {k : ConstructorDef} (hk : k ∈ d.allConstructors) :
    ∀ t ∈ (d.lowerConstructor o k).signature.params, t.IsValue := by
  have hclean := (gatherConstructors_clean hconstructors).2.1
  refine List.forall_mem_map.2 (List.forall_mem_append.2 ⟨fun p hp => ?_, fun p hp => ?_⟩)
  · obtain ⟨n, -, rfl⟩ := List.mem_map.1 hp
    exact ⟨Ty.noConfusion, Ty.noConfusion⟩
  · unfold allConstructors at hk
    split at hk
    · rw [List.mem_singleton.1 hk] at hp
      cases hp
    · exact Site.isValue_of_checkValueType ((hclean k hk).params p hp)

include hmethods hconstructors

theorem methods_lower : ∀ m ∈ (d.lower o).methods, m.Sensible d.modifiers := by
  refine List.forall_mem_append.2 ⟨List.forall_mem_map.2 fun k hk => ?_, List.forall_mem_map.2 fun m hm => ?_⟩
  · have hmodifiers : k.modifiers.isKnown = true ∧ k.modifiers.isStatic = false ∧ k.modifiers.isAbstract = false := by
      unfold allConstructors at hk
      split at hk
      · rw [List.mem_singleton.1 hk]
        decide
      · obtain ⟨hstatic, habstract, -⟩ := ((gatherConstructors_clean hconstructors).2.1 k hk).modifiers
        exact ⟨(h.constructors k hk).1, hstatic, habstract⟩
    obtain ⟨hknown, hstatic, habstract⟩ := hmodifiers
    refine ⟨constructorName_ne, hknown, fun p hp => ?_, fun _ => ⟨hstatic, rfl⟩, ?_, fun hc => LoweredBody.noConfusion hc⟩
    · exact (isValue_constructor hconstructors hk _ (List.mem_map_of_mem hp)).isVoid
    · exact iff_of_false (by simp [lowerConstructor, habstract]) fun hc => LoweredBody.noConfusion hc
  · obtain ⟨hname, hne, hknown⟩ := h.methods m hm
    have hclean := ((gatherMethods_clean hmethods).2.1 m hm).body
    have hparams : ∀ p ∈ m.params, p.ty.isVoid = false := fun p hp => (isValue_method hmethods hm p hp).isVoid
    unfold checkMethodBody at hclean
    cases hbody : m.body with
    | none =>
      rw [hbody, List.append_eq_nil_iff, reportIf_eq_nil, reportIf_eq_nil] at hclean
      have heq : lowerMethod o m = ⟨m.name, m.modifiers ||| .abstract, m.params, m.ret, .abstract⟩ := by rw [lowerMethod, hbody]
      rw [heq]
      exact ⟨hname, Modifiers.isKnown_or hknown (by decide), hparams, fun hc => absurd hc hne,
        iff_of_true (Modifiers.isAbstract_or _) rfl, fun _ => by simpa [isAbstract] using hclean.1⟩
    | some body =>
      rw [hbody, List.append_eq_nil_iff, reportIf_eq_nil] at hclean
      have heq : lowerMethod o m = ⟨m.name, m.modifiers, m.params, m.ret, .method (lowerBody o body)⟩ := by
        rw [lowerMethod, hbody]
      rw [heq]
      have hne' : LoweredBody.method (lowerBody o body) ≠ .abstract := fun hc => LoweredBody.noConfusion hc
      exact ⟨hname, hknown, hparams, fun hc => absurd hc hne, iff_of_false (by simp [hclean.1]) hne', fun hc => absurd hc hne'⟩

theorem signatures_lower : ((d.lower o).methods.map fun m => (m.name, m.descriptor)).Nodup := by
  obtain ⟨-, -, hconstructorParams⟩ := gatherConstructors_clean hconstructors
  obtain ⟨-, -, hmethodParams⟩ := gatherMethods_clean hmethods
  rw [lower, List.map_append, List.map_map, List.map_map, List.nodup_append]
  refine ⟨?_, ?_, fun a ha b hb hab => ?_⟩
  · refine List.pairwise_map.2 ((List.pairwise_map.1 hconstructorParams).imp_of_mem fun {k k'} hk hk' hne heq => hne ?_)
    have hparams := Signature.params_inj (isValue_constructor hconstructors hk) (isValue_constructor hconstructors hk')
      (congrArg Prod.snd heq)
    simpa [LoweredMethod.signature, lowerConstructor, constructorEntry, MethodEntry.constructor] using hparams
  · refine List.pairwise_map.2 ((List.pairwise_map.1 hmethodParams).imp_of_mem fun {m m'} hm hm' hne heq => hne ?_)
    obtain ⟨hname, hdescriptor⟩ := Prod.mk.inj heq
    rw [lowerMethod_name, lowerMethod_name] at hname
    rw [lowerMethod_descriptor, lowerMethod_descriptor] at hdescriptor
    exact ⟨hname, Signature.params_inj (List.forall_mem_map.2 (isValue_method hmethods hm))
      (List.forall_mem_map.2 (isValue_method hmethods hm')) hdescriptor⟩
  · obtain ⟨k, -, rfl⟩ := List.mem_map.1 ha
    obtain ⟨m, hm, rfl⟩ := List.mem_map.1 hb
    have hname : constructorName = (lowerMethod o m).name := congrArg Prod.fst hab
    rw [lowerMethod_name] at hname
    exact (h.methods m hm).2.1 hname.symm

end Methods

end Sensible

end ClassDef

namespace Compilation

variable {c : Compilation}

/-- A class that was added is named as it should be. -/
theorem Built.wellNamed (hc : Built c) : ∀ d ∈ c.defs, d.WellNamed := by
  induction hc with
  | start config moduleName => exact fun d hd => nomatch hd
  | @add c c' d hc hadd ih =>
    obtain ⟨hwell, index, rfl⟩ := add_eq hadd
    intro x hx
    rw [defs, List.map_append, List.map_map, List.mem_append] at hx
    rcases hx with hx | hx
    · exact ih x hx
    · obtain ⟨y, hy, rfl⟩ := List.mem_map.1 hx
      exact (hwell y hy).named

/-- Nothing is found in a class that passed every phase, types included. -/
theorem Passed.checked_static (hc : Built c) {d : ClassDef} {bytes : Bytes} (h : c.Passed d bytes)
    (hstatic : c.config.staticChecking = true) (hfields : ∀ d' ∈ c.defs, ∀ f ∈ d'.fields, f.ty.isVoid = false)
    (hconstructors : ∀ k ∈ d.constructors, outerField ∉ k.params.map Param.name ∧ outerField ∉ declaredAll k.body) :
    d.Checked c.defs := by
  have hresolved : (Registry.host.resolve c.defs).1 = c.resolved := by rw [← hc.fresh.registry]; rfl
  refine ⟨fun x hx hcls => ?_, hresolved ▸ h.checked hstatic, hfields, hconstructors⟩
  -- All that is found when classes are entered are errors, and none of these is about the class.
  have hnone := h.resolved
  simp only [Diagnostic.hasErrors, List.any_eq_false, List.mem_filter] at hnone
  rw [← hc.fresh.registry] at hx
  exact hnone x ⟨hx, decide_eq_true hcls⟩ (Registry.aboutSome_resolve _ _ x hx).1

section Sensible

variable (hc : Built c) (hsensible : ∀ d ∈ c.defs, d.Sensible)
include hc

/-- No two classes of the registry have the same name. -/
theorem Built.nodup_resolved : (c.resolved.classes.map ClassEntry.name).Nodup := by
  obtain ⟨hnodup, hhost⟩ := hc.names
  have hnames : c.resolved.classes.map ClassEntry.name = Host.classes.map ClassEntry.name ++ c.defs.map ClassDef.name := by
    rw [hc.resolve_eq.2.1, List.map_append, List.map_map]
    rfl
  rw [hnames, List.nodup_append]
  refine ⟨by decide, hnodup, fun a ha b hb => ?_⟩
  obtain ⟨e, he, rfl⟩ := List.mem_map.1 ha
  obtain ⟨d, hd, rfl⟩ := List.mem_map.1 hb
  exact Registry.host_name_ne (hhost d hd) he

include hsensible

/-- The members of sensible classes have the names that they should. -/
theorem Built.named : c.resolved.Named := by
  have hhost : Registry.host.Named := ⟨by decide, by decide⟩
  have houter : outerField ≠ "" := by decide
  refine ⟨fun e he => ?_, fun e he => ?_⟩
  · rcases hc.mem_resolved he with he | ⟨d, hd, rfl⟩
    · exact hhost.fields e he
    · refine ClassDef.forall_mem_gatherFields (fun f hf => ?_) fun x hx => ?_
      · obtain ⟨hname, hty, -⟩ := (hsensible d hd).fields f hf
        exact ⟨hname, hty⟩
      · obtain ⟨outer, -, rfl⟩ := List.mem_map.1 hx
        exact ⟨houter, rfl⟩
  · rcases hc.mem_resolved he with he | ⟨d, hd, rfl⟩
    · exact hhost.methods e he
    · refine ClassDef.forall_mem_gatherMethods fun m hm => ?_
      obtain ⟨hname, hne, -⟩ := (hsensible d hd).methods m hm
      exact ⟨hname, hne⟩

theorem Accepted.sensible {d : ClassDef} (h : c.Accepted d) (hd : d ∈ c.defs) (optimize : Bool) :
    (d.lower optimize).Sensible c.resolved := by
  obtain ⟨-, hsuper, hfields, hmethods, hconstructors⟩ := h.members
  have hs := hsensible d hd
  have hshape : d.isAbstract = false ∨ d.modifiers.isFinal = false := by
    have hmodifiers := h.modifiers
    simp only [ClassDef.checkModifiers, List.append_eq_nil_iff, reportIf_eq_nil] at hmodifiers
    exact Bool.and_eq_false_iff.1 hmodifiers.1.2
  obtain ⟨hfields, hnames⟩ := hs.fields_lower (o := optimize) hfields
  refine ⟨hs.known, hshape, ClassDef.superclass_ne hsuper, hs.enclosing (hc.wellNamed d hd), fun e he henclosing => ?_,
    hc.nodup_resolved, hfields, hnames, hs.methods_lower hmethods hconstructors, hs.signatures_lower hmethods hconstructors⟩
  rcases hc.mem_resolved he with he | ⟨d', hd', rfl⟩
  · have hnone : ∀ e ∈ Host.classes, e.enclosing = none := by decide
    rw [hnone e he] at henclosing
    cases henclosing
  · exact ⟨((hsensible d' hd').enclosing (hc.wellNamed d' hd')).trans henclosing, (hsensible d' hd').known⟩

namespace Passed

variable {d : ClassDef} {bytes : Bytes} (h : c.Passed d bytes) (hd : d ∈ c.defs)
include h hd

theorem checkedAmong (hb : c.config.binding = .static) : d.Checked c.defs := by
  have hstatic : c.config.staticChecking = true := by
    unfold Config.binding at hb
    split at hb
    · assumption
    · cases hb
  exact h.checked_static hc hstatic (fun d' hd' f hf => ((hsensible d' hd').fields f hf).2.1)
    fun k hk => ((hsensible d hd).constructors k hk).2

theorem keepsStack {entry : ClassEntry} (hentry : c.resolved.get? d.name = some entry) {m : LoweredMethod}
    (hm : m ∈ (d.lower c.config.optimize).methods) :
    m.KeepsStack c.config.binding (LoweredClass.context c.resolved entry m) := by
  have hresolved : (Registry.host.resolve c.defs).1 = c.resolved := by rw [← hc.fresh.registry]; rfl
  rw [← hresolved] at hentry ⊢
  intro hbody mc p q r hmade hr hlater
  have hsound := Registry.sound_of_compileMethod hd (h.checkedAmong hc hsensible hd) hentry hm hmade
  obtain ⟨code, hcode, -, horderly⟩ :=
    (compileMethod_orderly hsound (ClassDef.returns_of_mem_lower hm) hbody hmade hr hlater).code
  exact ⟨code, hcode, horderly⟩

/-- Verification accepts the class file of a class that passed every phase iff its code stays within the limits. -/
theorem verify_iff : ∃ f, ClassFile.decode bytes = .ok f ∧ f.name? = some d.name.text ∧
    (f.verify = .ok () ↔ ∀ m ∈ f.methods, Instr.WithinLimits f.constants m.code) := by
  obtain ⟨entry, f, hentry, hassemble, hencode⟩ := LoweredClass.generate_eq_ok h.generated
  have hmade := LoweredClass.assemble_made hassemble
  refine ⟨f, (Reads.classFile hmade.major hmade.size hencode).decode, hmade.name, ?_⟩
  have haccepted := h.accepted hc hd
  obtain ⟨-, -, -, -, hconstructors⟩ := haccepted.members
  refine LoweredClass.assemble_verify_iff hassemble hencode (haccepted.sensible hc hsensible hd _)
    (fun _ => hc.named hsensible) (fun m hm => ?_) fun m hm => h.keepsStack hc hsensible hd hentry hm
  exact ClassDef.constructs_of_mem_lower
    (fun k hk => ((ClassDef.gatherConstructors_clean hconstructors).2.1 k hk).modifiers.1) hm

end Passed

end Sensible

/-- The class file of a class is read as what was made of the class. If all classes are sensible, verification accepts it iff
the code of all methods stays within the limits. -/
theorem Reached.artifacts_verified (hc : Reached c) (hsensible : ∀ d ∈ c.defs, d.Sensible) :
    ∀ a ∈ (c.compile .classGeneration).2.artifacts, ∃ f, ClassFile.decode a.bytes = .ok f ∧ f.name? = some a.name.text ∧
      (f.verify = .ok () ↔ ∀ m ∈ f.methods, Instr.WithinLimits f.constants m.code) := by
  obtain ⟨c₀, hc₀, hcarries, heq⟩ := hc.compile_eq
  rw [hcarries.defs] at hsensible
  rw [heq]
  intro a ha
  obtain ⟨m, hm, ha⟩ := List.mem_filterMap.1 ha
  obtain ⟨bytes, hbytes, rfl⟩ := Option.map_eq_some_iff.1 ha
  obtain ⟨m₀, hm₀, hcls, hpassed⟩ := hc₀.passed hm hbytes
  rw [hcls]
  exact hpassed.verify_iff hc₀ hsensible (List.mem_map_of_mem hm₀)

/-- An inner class and its outer class. -/
theorem Reached.artifacts_verified_counter :
    Counter.compilation.Reached ∧ (∀ d ∈ Counter.compilation.defs, d.Sensible) ∧
      ∃ bytes f, ⟨Counter.innerName, bytes⟩ ∈ (Counter.compilation.compile .classGeneration).2.artifacts ∧
        ClassFile.decode bytes = .ok f ∧ f.name? = some Counter.innerName.text ∧
        (f.verify = .ok () ↔ ∀ m ∈ f.methods, Instr.WithinLimits f.constants m.code) := by
  have hreached : Counter.compilation.Reached := .add (d := Counter.outer) (.start {} Module.syntheticName) rfl
  have hbuilt : Counter.compilation.Built := .add (d := Counter.outer) (.start {} Module.syntheticName) rfl
  have hsensible : ∀ d ∈ Counter.compilation.defs, d.Sensible := by decide
  obtain ⟨bytes, hbytes, -⟩ := hbuilt.exists_artifact Counter.compile_eq_ok (d := Counter.inner)
    (List.mem_cons_of_mem _ List.mem_cons_self)
  obtain ⟨f, hf, hname, hverify⟩ := hreached.artifacts_verified hsensible _ hbytes
  exact ⟨hreached, hsensible, bytes, f, hbytes, hf, hname, hverify⟩

end Compilation

end ClassTree
