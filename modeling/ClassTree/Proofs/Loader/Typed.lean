import ClassTree.Proofs.Compilation.Verified
import ClassTree.Proofs.Compile.TypedBody
import ClassTree.Proofs.Loader.Defined
import ClassTree.Proofs.Loader.Mirrored

/-!
# Compiled classes are typed

What was resolved and checked with types, and then loaded beside the host library, is typed code.

* A host class matches the entry of which it was made (`Host.exists_matches`), a compiled one the entry that was gathered from
  its definition (`Compilation.Accepted.matches_entry`). So the registry of a compilation that succeeded mirrors the loader
  (`Compilation.Built.mirrors`).
* Then the loader has all that the checked bodies may choose, and the code that is made of them keeps the discipline of types
  (`Compilation.Passed.typedMethod`, `Compilation.Built.typed_loadInto`).

Two things are asked for that are not checked: that no static method takes the place of an instance method
(`Registry.KeepsReceivers`), and that names which are made by the compiler are not used (`ClassDef.Unreserved`).
-/

namespace ClassTree

theorem Modifiers.isStatic_or_abstract (m : Modifiers) : (m ||| .abstract).isStatic = m.isStatic := by
  have hdisjoint : abstract.bits &&& static.bits = 0 := rfl
  unfold isStatic contains
  rw [or_and, hdisjoint, UInt16.or_zero]

/-! ## Host classes -/

/-- A host class has the members of the entry of which it was made, if something is done by each of them. -/
theorem LoadedClass.matches_ofHost {h : HostClass} {e : ClassEntry} {s : Option LoadedClass} (hinner : e.isInner = false)
    (hconstructors : ∀ k ∈ e.constructors, k.name = constructorName ∧ k.ret = .void ∧ k.isStatic = false ∧
      (h.native? k.name k.params).isSome = true)
    (hmethods : ∀ m ∈ e.methods, (h.native? m.name m.params).isSome = true ∧ (∀ t ∈ m.params, t.IsValue) ∧ m.ret ≠ .null)
    (hdistinct : ((ofHost h e s).methods.map fun x => (x.name, x.descriptor)).Nodup) : e.Matches (ofHost h e s) where
  access := rfl
  members := by
    refine ⟨e.constructors.filterMap (ofHostMethod? h), e.methods.filterMap (ofHostMethod? h), List.filterMap_append, ?_, ?_⟩
    · refine forall₂_filterMap fun k hk => ?_
      obtain ⟨hname, hret, hinstance, hnative⟩ := hconstructors k hk
      obtain ⟨n, hn⟩ := Option.isSome_iff_exists.1 hnative
      have houter : e.outerTypes = [] := by rw [ClassEntry.outerTypes, if_neg (by simp [hinner])]
      refine ⟨_, congrArg (Option.map _) hn, hname, ?_, ?_, hret, hinstance, MethodBody.noConfusion⟩
      · rw [houter, ← hret]
        rfl
      · rw [houter]
        rfl
    · refine forall₂_filterMap fun m hm => ?_
      obtain ⟨hnative, hparams, hret⟩ := hmethods m hm
      obtain ⟨n, hn⟩ := Option.isSome_iff_exists.1 hnative
      have hsignature := Signature.ofDescriptor?_of_isValue (s := m.signature) hparams hret
      exact ⟨_, congrArg (Option.map _) hn, ⟨rfl, rfl, rfl, hsignature⟩, rfl, rfl, fun _ => MethodBody.noConfusion⟩
  distinct := hdistinct

theorem Host.exists_matches {e : ClassEntry} (he : e ∈ classes) : ∃ k ∈ LoadedClass.hosts, k.name = e.name ∧ e.Matches k := by
  simp only [classes, List.mem_cons, List.not_mem_nil, or_false] at he
  rcases he with rfl | rfl | rfl
  · exact ⟨.object, by simp [LoadedClass.hosts], rfl,
      LoadedClass.matches_ofHost rfl (by decide) (by decide) (by decide)⟩
  · exact ⟨.string, by simp [LoadedClass.hosts], rfl,
      LoadedClass.matches_ofHost rfl (by decide) (by decide) (by decide)⟩
  · exact ⟨.stringBuilder, by simp [LoadedClass.hosts], rfl,
      LoadedClass.matches_ofHost rfl (by decide) (by decide) (by decide)⟩

/-- What host methods do is not done by code. -/
theorem LoadedClass.exists_native {k : LoadedClass} (hk : k ∈ hosts) {x : LoadedMethod} (hx : x ∈ k.methods) :
    ∃ n, x.body = .native n := by
  have hmade : ∀ (h : HostClass) (e : ClassEntry) (s : Option LoadedClass), x ∈ (ofHost h e s).methods →
      ∃ n, x.body = .native n := by
    intro h e s hx
    obtain ⟨m, -, hm⟩ := List.mem_filterMap.1 hx
    obtain ⟨n, -, rfl⟩ := Option.map_eq_some_iff.1 hm
    exact ⟨n, rfl⟩
  simp only [hosts, List.mem_cons, List.not_mem_nil, or_false] at hk
  rcases hk with rfl | rfl | rfl <;> exact hmade _ _ _ hx

/-! ## Classes that were compiled and loaded -/

/-- A loaded class has the modifiers of the lowered one. -/
theorem LoweredClass.access_of_define {b : Binding} {r : Registry} {low : LoweredClass} {bytes : Bytes}
    (hgen : low.generate b r = .ok bytes) {l : Loader} {name : String} {cls : LoadedClass}
    (hdefine : (l.define name bytes).1 = .ok cls) : cls.access = low.modifiers := by
  obtain ⟨_, f, -, hmade, hlink⟩ := exists_link hgen hdefine
  obtain ⟨hverify, -, -, _, s, -, -, -, hload⟩ := Loader.link_eq_ok hlink
  rw [(ClassFile.gives_of_load? hverify hload).access, hmade.access]

namespace LoweredClass.MethodLoaded

variable {b : Binding} {r declared : Registry} {entry : ClassEntry} {cs : Constants} {d : ClassDef} {m : LoweredMethod}
  {x : LoadedMethod} {optimize : Bool}

theorem isStatic_eq (h : MethodLoaded b r entry cs m x) : x.isStatic = m.modifiers.isStatic :=
  congrArg Modifiers.isStatic h.access

theorem body_ne_abstract (h : MethodLoaded b r entry cs m x) (hm : m.modifiers.isAbstract = false) : x.body ≠ .abstract := by
  obtain ⟨mc, p, q, hbody, -⟩ := h.code hm
  rw [hbody]
  exact MethodBody.noConfusion

theorem body_ne_native (h : MethodLoaded b r entry cs m x) (n : Native) : x.body ≠ .native n := by
  cases hm : m.modifiers.isAbstract with
  | true =>
    rw [h.abstract hm]
    exact MethodBody.noConfusion
  | false =>
    obtain ⟨mc, p, q, hbody, -⟩ := h.code hm
    rw [hbody]
    exact MethodBody.noConfusion

/-- What a method takes and gives is read back from its descriptor, if it takes values. -/
theorem signature_eq_lowered (h : MethodLoaded b r entry cs m x) (hparams : ∀ t ∈ m.signature.params, t.IsValue)
    (hret : m.ret ≠ .null) : x.params = m.params.map (·.ty) ∧ x.ret = m.ret := by
  have hread := h.signature
  rw [LoweredMethod.descriptor, Signature.ofDescriptor?_of_isValue hparams hret, Option.some.injEq] at hread
  exact ⟨(congrArg Signature.params hread).symm, (congrArg Signature.ret hread).symm⟩

end LoweredClass.MethodLoaded

namespace ClassDef

variable {d : ClassDef} {r : Registry}

/-- The entry of a method has the modifiers of the lowered one. -/
theorem lowerMethod_modifiers (d : ClassDef) (optimize : Bool) (md : MethodDef) :
    (lowerMethod optimize md).modifiers = (d.methodEntry md).modifiers := by
  unfold lowerMethod methodEntry
  cases md.body <;> rfl

/-- Constructors are neither static nor abstract. -/
theorem modifiers_of_mem_allConstructors (h : (d.gatherConstructors r).found.toList = []) {k : ConstructorDef}
    (hk : k ∈ d.allConstructors) : k.modifiers.isStatic = false ∧ k.modifiers.isAbstract = false := by
  unfold allConstructors at hk
  split at hk
  · rw [List.mem_singleton.1 hk]
    decide
  · obtain ⟨hstatic, habstract, -⟩ := ((gatherConstructors_clean h).2.1 k hk).modifiers
    exact ⟨hstatic, habstract⟩

theorem ret_ne_null (h : (d.gatherMethods r).found.toList = []) {md : MethodDef} (hmd : md ∈ d.methods) : md.ret ≠ .null := by
  intro hnull
  have hret := ((gatherMethods_clean h).2.1 md hmd).ret
  rw [hnull] at hret
  cases hret

/-- A static method has a body, so its entry is not marked as abstract. -/
theorem isAbstract_of_isStatic (h : (d.gatherMethods r).found.toList = []) {md : MethodDef} (hmd : md ∈ d.methods)
    (hstatic : (d.methodEntry md).isStatic = true) : (d.methodEntry md).modifiers.isAbstract = false := by
  have hbody := ((gatherMethods_clean h).2.1 md hmd).body
  unfold checkMethodBody at hbody
  cases hmdbody : md.body with
  | some body =>
    rw [hmdbody, List.append_eq_nil_iff, reportIf_eq_nil] at hbody
    simpa [methodEntry, hmdbody] using hbody.1
  | none =>
    rw [hmdbody, List.append_eq_nil_iff, reportIf_eq_nil, reportIf_eq_nil] at hbody
    have hinstance : md.modifiers.isStatic = false := (Bool.or_eq_false_iff.1 (Bool.or_eq_false_iff.1 hbody.2).1).1
    have hentry : (d.methodEntry md).isStatic = md.modifiers.isStatic := by
      simp only [MethodEntry.isStatic, methodEntry, hmdbody]
      exact md.modifiers.isStatic_or_abstract
    rw [hentry, hinstance] at hstatic
    cases hstatic

/-- A method with a body has been lowered to one that is not abstract, and is not marked so. -/
theorem body_ne_of_isAbstract {optimize : Bool} {m : LoweredMethod} (hm : m ∈ (d.lower optimize).methods)
    (h : m.modifiers.isAbstract = false) : m.body ≠ .abstract := by
  rcases List.mem_append.1 hm with hm | hm
  · obtain ⟨k, -, rfl⟩ := List.mem_map.1 hm
    exact LoweredBody.noConfusion
  · obtain ⟨md, -, rfl⟩ := List.mem_map.1 hm
    unfold lowerMethod at h ⊢
    cases hbody : md.body with
    | some body => exact LoweredBody.noConfusion
    | none =>
      rw [hbody] at h
      rw [show (md.modifiers ||| .abstract).isAbstract = true from Modifiers.isAbstract_or _] at h
      cases h

end ClassDef

namespace Compilation

variable {c : Compilation} {d : ClassDef} {bytes : Bytes}

/-- All lowered methods of an accepted class take values, and none is declared to give `null`. -/
theorem Accepted.signature_lower (h : c.Accepted d) {optimize : Bool} {m : LoweredMethod}
    (hm : m ∈ (d.lower optimize).methods) : (∀ t ∈ m.signature.params, t.IsValue) ∧ m.ret ≠ .null := by
  obtain ⟨-, -, -, hmethods, hconstructors⟩ := h.members
  rcases List.mem_append.1 hm with hm | hm
  · obtain ⟨k, hk, rfl⟩ := List.mem_map.1 hm
    exact ⟨ClassDef.Sensible.isValue_constructor hconstructors hk, Ty.noConfusion⟩
  · obtain ⟨md, hmd, rfl⟩ := List.mem_map.1 hm
    have hparams : (ClassDef.lowerMethod optimize md).params = md.params ∧ (ClassDef.lowerMethod optimize md).ret = md.ret := by
      unfold ClassDef.lowerMethod
      cases md.body <;> exact ⟨rfl, rfl⟩
    rw [LoweredMethod.signature, hparams.1, hparams.2]
    exact ⟨List.forall_mem_map.2 (ClassDef.Sensible.isValue_method hmethods hmd), ClassDef.ret_ne_null hmethods hmd⟩

/-- An accepted class has all that its entry says once it was compiled and loaded. -/
theorem Accepted.matches_entry (h : c.Accepted d) (hpassed : c.Passed d bytes) {l : Loader} {name : String} {cls : LoadedClass}
    (hdefine : (l.define name bytes).1 = .ok cls) : (d.entry c.declared).Matches cls := by
  obtain ⟨-, -, -, hfoundMethods, hfoundConstructors⟩ := h.members
  obtain ⟨hmethods, hclean, -⟩ := ClassDef.gatherMethods_clean hfoundMethods
  obtain ⟨hconstructors, -⟩ := ClassDef.gatherConstructors_clean hfoundConstructors
  have hloaded := LoweredClass.exists_loaded hpassed.generated hdefine
  obtain ⟨entry, -, hall⟩ := hloaded.methods
  obtain ⟨built, own, heq, hbuilt, hown⟩ := exists_append_of_forall₂ hall
  refine ⟨LoweredClass.access_of_define hpassed.generated hdefine, ⟨built, own, heq, ?_, ?_⟩, hloaded.nodup⟩
  · rw [ClassDef.entry, hconstructors, List.forall₂_map_left_iff]
    rw [List.forall₂_map_left_iff] at hbuilt
    refine List.Forall₂.imp ?_ ((List.forall₂_and_left _ _).2 ⟨fun k hk => hk, hbuilt⟩)
    rintro k x ⟨hk, hx⟩
    have hmem : d.lowerConstructor c.config.optimize k ∈ (d.lower c.config.optimize).methods :=
      List.mem_append_left _ (List.mem_map_of_mem hk)
    obtain ⟨hvalues, hret⟩ := h.signature_lower hmem
    obtain ⟨hparams, hret⟩ := hx.signature_eq_lowered hvalues hret
    obtain ⟨hstatic, habstract⟩ := ClassDef.modifiers_of_mem_allConstructors hfoundConstructors hk
    have hlowered : (d.lowerConstructor c.config.optimize k).params.map (·.ty) =
        (d.entry c.declared).outerTypes ++ (d.constructorEntry k).params := by
      rw [ClassDef.outerTypes_entry]
      simp only [ClassDef.lowerConstructor, List.map_append, List.map_map]
      rfl
    refine ⟨hx.name, hx.descriptor.trans ?_, hparams.trans hlowered, hret, hx.isStatic_eq.trans hstatic,
      hx.body_ne_abstract habstract⟩
    exact congrArg (fun ts => (Signature.mk ts .void).descriptor) hlowered
  · rw [ClassDef.entry, hmethods, List.forall₂_map_left_iff]
    rw [List.forall₂_map_left_iff] at hown
    refine List.Forall₂.imp ?_ ((List.forall₂_and_left _ _).2 ⟨fun md hmd => hmd, hown⟩)
    rintro md x ⟨hmd, hx⟩
    have hmem : ClassDef.lowerMethod c.config.optimize md ∈ (d.lower c.config.optimize).methods :=
      List.mem_append_right _ (List.mem_map_of_mem hmd)
    obtain ⟨hvalues, hret⟩ := h.signature_lower hmem
    obtain ⟨-, hret⟩ := hx.signature_eq_lowered hvalues hret
    have hmodifiers := d.lowerMethod_modifiers c.config.optimize md
    refine ⟨hx.describes (hclean md hmd), hret.trans ?_, hx.isStatic_eq.trans ?_, fun habstract => ?_⟩
    · unfold ClassDef.lowerMethod ClassDef.methodEntry
      cases md.body <;> rfl
    · rw [hmodifiers]
      rfl
    · exact hx.body_ne_abstract (hmodifiers ▸ habstract)

end Compilation

/-- No method has the name of constructors, and no variable of a constructor the name of the outer instance. -/
structure ClassDef.Unreserved (d : ClassDef) : Prop where
  methods : ∀ m ∈ d.methods, m.name ≠ constructorName
  constructors : ∀ k ∈ d.constructors, outerField ∉ k.params.map Param.name ∧ outerField ∉ declaredAll k.body

namespace Compilation

variable {c : Compilation} {d : ClassDef} {bytes : Bytes}

/-- The code of a class that passed every phase is typed in a loader that has what the registry promises. -/
theorem Passed.typedMethod (hc : Built c) (h : c.Passed d bytes) (hd : d ∈ c.defs) (hchecked : d.Checked c.defs)
    (hstatic : c.config.staticChecking = true) {l j : Loader} (hl : c.resolved.Mirrors l) {name : String} {cls : LoadedClass}
    (hdefine : (j.define name bytes).1 = .ok cls) {x : LoadedMethod} (hx : x ∈ cls.methods) : l.TypedMethod cls x := by
  intro maxLocals code hcode
  have haccepted := h.accepted hc hd
  obtain ⟨-, -, -, -, hconstructors⟩ := haccepted.members
  have hloaded := LoweredClass.exists_loaded h.generated hdefine
  obtain ⟨entry, hentry, hall⟩ := hloaded.methods
  obtain ⟨m, hm, hmx⟩ := exists_left hall hx
  have hconcrete : m.modifiers.isAbstract = false := by
    by_contra habstract
    have hbody := hmx.abstract (by simpa using habstract)
    rw [hcode] at hbody
    cases hbody
  obtain ⟨mc, p, q, hbody, hmade, hwithin⟩ := hmx.code hconcrete
  obtain ⟨rfl, rfl⟩ := MethodBody.code.inj (hcode.symm.trans hbody)
  rw [show c.config.binding = .static by rw [Config.binding, hstatic]; rfl] at hmade
  have hresolved : (Registry.host.resolve c.defs).1 = c.resolved := by rw [← hc.fresh.registry]; rfl
  have hvalued : c.resolved.Valued := hresolved ▸ Registry.valued_host.resolve hchecked.fields
  have hentryName : entry.name = d.name := (Registry.get?_eq_some hentry).2
  have hbacked : (LoweredClass.context c.resolved entry m).Backed l :=
    hl.backed rfl (by rw [show (LoweredClass.context c.resolved entry m).cls = entry from rfl, hentryName]; exact hentry)
  have hsound : m.Sound .static (LoweredClass.context c.resolved entry m) := by
    have hyields := hchecked.sound hd (hresolved ▸ hentry) hm
    rw [hresolved] at hyields
    exact hyields p mc q hmade
  have hconstructs : m.Constructs := ClassDef.constructs_of_mem_lower
    (fun k hk => ((ClassDef.gatherConstructors_clean hconstructors).2.1 k hk).modifiers.1) hm
  have hmakes : Gen.Makes (fun _ => True) cls.constants (compileMethod .static (LoweredClass.context c.resolved entry m) m) _ :=
    compileMethod_types hbacked hvalued hsound (ClassDef.returns_of_mem_lower hm) hconstructs
  obtain ⟨-, htypes⟩ := hmakes p mc q hmade
  obtain ⟨block, hblock, hover, htypes⟩ := htypes hwithin (ClassDef.body_ne_of_isAbstract hm hconcrete)
  obtain ⟨hvalues, hret⟩ := haccepted.signature_lower hm
  obtain ⟨hparams, hret⟩ := hmx.signature_eq_lowered hvalues hret
  refine ⟨block, hblock, hover, ?_⟩
  have hlocals : m.firstTypes (LoweredClass.context c.resolved entry m) = x.locals cls.name := by
    have hname : cls.name = entry.name := hloaded.name.trans hentryName.symm
    rw [LoweredMethod.firstTypes, LoadedMethod.locals, hmx.isStatic_eq, hparams, hname]
    rfl
  rw [hlocals] at htypes
  rw [hret]
  exact htypes

section Success

variable (hc : Built c) (hok : (c.compile .classGeneration).1 = .ok ())
include hc hok

/-- What the entries of the registry say of fields and superclasses. -/
theorem Built.entries_regular : (∀ e ∈ c.resolved.classes, ∀ f ∈ e.fields, f.owner = e.name) ∧
    (∀ e ∈ c.resolved.classes, ∀ o, e.enclosing = some o → e.isInner = true →
      ∃ f ∈ e.fields, f.name = outerField ∧ f.ty = .ref o) ∧
    ∀ e ∈ c.resolved.classes, ∀ s e', e.superclass = some s → c.resolved.get? s = some e' →
      e'.isInner = false ∧ ∀ k ∈ e'.constructors, k.ret = .void := by
  have haccepted : ∀ d ∈ c.defs, c.Accepted d := fun _ => hc.accepted hok
  refine ⟨fun e he f hf => ?_, fun e he o ho hinner => ?_, fun e he s e' hs he' => ?_⟩ <;>
    rcases hc.mem_resolved he with he | ⟨d, hd, rfl⟩
  · obtain ⟨_, -, hholds⟩ := Host.exists_holds he
    rw [hholds.fields] at hf
    cases hf
  · obtain ⟨-, -, hfields, -⟩ := (haccepted d hd).members
    exact (ClassDef.exists_lowered_of_mem_fields (o := false) hfields hf).1
  · obtain ⟨_, -, hholds⟩ := Host.exists_holds he
    rw [hholds.isInner] at hinner
    cases hinner
  · obtain ⟨-, -, hfields, -⟩ := (haccepted d hd).members
    refine ⟨⟨d.name, outerField, .ref o, outerFieldModifiers⟩, ?_, rfl, rfl⟩
    rw [ClassDef.entry, (ClassDef.gatherFields_clean hfields).1]
    refine List.mem_append_right _ (List.mem_map.2 ⟨o, ?_, rfl⟩)
    rw [ClassDef.outerClass?, if_pos (show d.isInner = true from hinner), show d.enclosing = some o from ho]
    exact List.mem_singleton_self o
  · obtain rfl := Registry.superclass_host he hs
    obtain ⟨hmem, hname⟩ := Registry.get?_eq_some he'
    have hroot : Host.objectEntry ∈ c.resolved.classes := by
      rw [hc.resolve_eq.2.1]
      exact List.mem_append_left _ (by simp [Host.classes])
    obtain rfl : e' = Host.objectEntry := List.inj_on_of_nodup_map hc.nodup_resolved hmem hroot hname
    decide
  · exact (hc.regular haccepted hd ⟨"", .pub, [], .void, .abstract⟩).super s e' hs he'

variable {loaded : List LoadedClass} (hload : ((c.compile .classGeneration).2.loadInto .boot).1 = .ok loaded)
  (hunreserved : ∀ d ∈ c.defs, d.Unreserved) (hreceivers : c.resolved.KeepsReceivers)
include hload hunreserved hreceivers

/-- Beside the host library alone, a compilation that succeeded is loaded as its registry says. -/
theorem Built.mirrors : c.resolved.Mirrors ((c.compile .classGeneration).2.loadInto .boot).2 := by
  have hclean := hc.resolutionFindings_eq_nil hok
  have hheld := fun d (hd : d ∈ c.defs) => hc.contains_of_loadInto hok hload hd
  have hnew : ∀ d ∈ c.defs, Loader.boot.contains d.name.text = false := fun d hd => (hheld d hd).1
  have hdescribes := hc.describes hclean .boot hnew
  have haccepted : ∀ d ∈ c.defs, c.Accepted d := fun _ => hc.accepted hok
  obtain ⟨howners, houter, hsuper⟩ := hc.entries_regular hok
  refine
    { hdescribes with
      reachable := Loader.Reachable.boot.defineAll _
      concrete := ?_
      keepsReceivers := hreceivers
      registered := fun k hk => hc.contains_of_loadInto_boot hk
      held := fun e he => ?_
      members := fun hk he => ?_
      slots := fun hk he => hc.ownSlots_of_loadInto hclean Loader.wellFormed_boot hnew hk he
      named := fun e he => ?_
      static := fun e he => ?_
      owners := howners
      outer := houter
      super := hsuper }
  · obtain ⟨hnodup, hhost⟩ := hc.names
    rw [hc.resolve_eq_entries.1]
    have hdeclared : c.declared = .headers c.defs := hc.resolve_eq.1
    exact Registry.concrete_entries hnodup hhost (fun d hd => hdeclared ▸ (haccepted d hd).declarations)
      fun d hd => hc.resolve_eq_entries.1 ▸ (haccepted d hd).inherited
  · rcases hc.mem_resolved he with he | ⟨d, hd, rfl⟩
    · obtain ⟨k, hk, hname, -⟩ := Host.exists_matches he
      rw [Loader.contains, ← hname, hdescribes.wellFormed.hosts k hk]
      rfl
    · exact (hheld d hd).2
  · rcases hc.origin_of_loadInto Loader.wellFormed_boot hnew hk he with
      ⟨hhost, -, -⟩ | ⟨d, hd, rfl, bytes, hpassed, j, -, hdefine⟩
    · obtain ⟨h, hh, hname, hmatches⟩ := Host.exists_matches hhost
      have hbound := hdescribes.wellFormed.hosts h hh
      rw [hname, (Registry.get?_eq_some he).2] at hbound
      rwa [Option.some.inj (hk.symm.trans hbound)]
    · exact (haccepted d hd).matches_entry hpassed hdefine
  · rcases hc.mem_resolved he with he | ⟨d, hd, rfl⟩
    · have hall : ∀ e ∈ Host.classes, ∀ m ∈ e.methods, m.name ≠ constructorName := by decide
      exact hall e he
    · obtain ⟨-, -, -, hmethods, -⟩ := (haccepted d hd).members
      rw [ClassDef.entry, (ClassDef.gatherMethods_clean hmethods).1]
      exact List.forall_mem_map.2 (hunreserved d hd).methods
  · rcases hc.mem_resolved he with he | ⟨d, hd, rfl⟩
    · have hall : ∀ e ∈ Host.classes, ∀ m ∈ e.methods, m.isStatic = true → m.modifiers.isAbstract = false := by decide
      exact hall e he
    · obtain ⟨-, -, -, hmethods, -⟩ := (haccepted d hd).members
      rw [ClassDef.entry, (ClassDef.gatherMethods_clean hmethods).1]
      exact List.forall_mem_map.2 fun md hmd hstatic => ClassDef.isAbstract_of_isStatic hmethods hmd hstatic

/-- With references resolved beforehand, all code is typed. -/
theorem Built.typed_loadInto (hstatic : c.config.staticChecking = true) :
    ((c.compile .classGeneration).2.loadInto .boot).2.Typed := by
  have hmirrors := hc.mirrors hok hload hunreserved hreceivers
  have hclean := hc.resolutionFindings_eq_nil hok
  have hnew : ∀ d ∈ c.defs, Loader.boot.contains d.name.text = false := fun d hd => (hc.contains_of_loadInto hok hload hd).1
  have horigin : ∀ k, ((c.compile .classGeneration).2.loadInto .boot).2.Holds k → k ∈ LoadedClass.hosts ∨
      ∃ d ∈ c.defs, ∃ bytes, c.Passed d bytes ∧ ∃ j : Loader, (j.define d.name.text bytes).1 = .ok k := by
    intro k hk
    obtain ⟨e, he⟩ := Option.isSome_iff_exists.1 (hmirrors.registered k hk)
    rcases hc.origin_of_loadInto Loader.wellFormed_boot hnew hk he with
      ⟨-, hhost, -⟩ | ⟨d, hd, -, bytes, hpassed, j, -, hdefine⟩
    · exact .inl hhost
    · exact .inr ⟨d, hd, bytes, hpassed, j, hdefine⟩
  refine ⟨hmirrors.reachable, fun k hk hn => ?_, fun k hk x hx n hbody => ?_, hmirrors.answers_toString, fun k hk x hx => ?_⟩
  · rw [hmirrors.wellFormed.eq_host .stringBuilder (by simp [LoadedClass.hosts]) (by decide) hk hn]
    rfl
  · rcases horigin k hk with hhost | ⟨d, -, bytes, hpassed, j, hdefine⟩
    · exact hhost
    · obtain ⟨entry, -, hall⟩ := (LoweredClass.exists_loaded hpassed.generated hdefine).methods
      obtain ⟨m, -, hmx⟩ := exists_left hall hx
      exact absurd hbody (hmx.body_ne_native n)
  · rcases horigin k hk with hhost | ⟨d, hd, bytes, hpassed, j, hdefine⟩
    · intro maxLocals code hbody
      obtain ⟨n, hn⟩ := LoadedClass.exists_native hhost hx
      cases hn.symm.trans hbody
    · have hfields : ∀ d' ∈ c.defs, ∀ f ∈ d'.fields, f.ty.isVoid = false := by
        intro d' hd' f hf
        obtain ⟨-, -, hfound, -⟩ := (hc.accepted hok hd').members
        exact (Site.isValue_of_checkValueType ((ClassDef.gatherFields_clean hfound).2.1 f hf).ty).isVoid
      have hchecked := hpassed.checked_static hc hstatic hfields (hunreserved d hd).constructors
      exact hpassed.typedMethod hc hd hchecked hstatic hmirrors hdefine hx

end Success

end Compilation

end ClassTree
