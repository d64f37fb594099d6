import ClassTree.Proofs.Compilation.Linked
import ClassTree.Proofs.Compilation.Siblings
import ClassTree.Proofs.Loader.Batch
import ClassTree.Proofs.Loader.Compiled
import ClassTree.Proofs.Resolution.Dispatch

/-!
# Loaded classes and the entries of a registry

What is known of a class at run time was read from its class file, what is known of it at compile time was gathered from its
definition. `ClassEntry.Describes` says that an entry and a loaded class are of the same class: same name, same superclass, and
method by method the same name, parameters and descriptor.

If nothing is found when the classes of a compilation are resolved, every class of a loader into which they were loaded is
described by its entry (`Compilation.Built.describes`). A host class is, because it was made of its entry; a class of the
compilation is, because the loader can only have it from its class file (`Loader.exists_define_of_defineAll`).
-/

namespace ClassTree

/-! ## Parameters -/

/-- The parameters of a method that is loaded have values. -/
theorem ClassFile.isValue_of_loadMethod? {f : ClassFile} {info : MethodInfo} {m : LoadedMethod}
    (h : f.loadMethod? info = some m) : ∀ t ∈ m.params, t.IsValue := by
  simp only [loadMethod?, Option.bind_eq_bind, Option.bind_eq_some_iff, Option.pure_def, Option.some.injEq] at h
  obtain ⟨name, -, descriptor, -, s, hs, rfl⟩ := h
  exact Signature.isValue_of_ofDescriptor? hs

theorem LoadedClass.isValue_of_mem_hosts : ∀ k ∈ hosts, ∀ m ∈ k.methods, ∀ t ∈ m.params, t.IsValue := by decide

theorem Loader.kept_isValue :
    Kept fun l => ∀ name k, l.resolve? name = some k → ∀ m ∈ k.methods, ∀ t ∈ m.params, t.IsValue := by
  intro l name f c h hlink n k hk
  rw [resolve?_insert] at hk
  split at hk
  · obtain rfl : c = k := Option.some.inj hk
    obtain ⟨-, -, -, _, s, -, -, -, hload⟩ := link_eq_ok hlink
    simp only [ClassFile.load?, Option.bind_eq_bind, Option.bind_eq_some_iff, Option.pure_def, Option.some.injEq] at hload
    obtain ⟨_, -, _, -, _, -, _, -, methods, hmethods, rfl⟩ := hload
    intro m hm
    obtain ⟨info, -, hinfo⟩ := exists_left (mapM_eq_some.1 hmethods) hm
    exact ClassFile.isValue_of_loadMethod? hinfo
  · exact h n k hk

/-- The parameters of the methods of all classes that a loader holds have values. -/
theorem Loader.Reachable.isValue {l : Loader} (h : l.Reachable) {name : String} {k : LoadedClass}
    (hk : l.resolve? name = some k) {m : LoadedMethod} (hm : m ∈ k.methods) : ∀ t ∈ m.params, t.IsValue := by
  induction h generalizing name k m with
  | boot => exact LoadedClass.isValue_of_mem_hosts k (mem_hosts_of_resolve? hk).1 m hm
  | define n bytes _ ih => exact kept_isValue.define (fun _ _ hk _ hm => ih hk hm) n bytes name k hk m hm
  | defineAll artifacts _ ih => exact kept_isValue.defineAll (fun _ _ hk _ hm => ih hk hm) artifacts name k hk m hm

/-! ## Entries of loaded classes -/

/-- An entry and a loaded method are of the same method. -/
structure MethodEntry.Describes (m : MethodEntry) (x : LoadedMethod) : Prop where
  name : x.name = m.name
  params : x.params = m.params
  descriptor : x.descriptor = m.descriptor
  /-- The signature can be read back from the descriptor. -/
  signature : Signature.ofDescriptor? m.descriptor = some m.signature

theorem MethodEntry.Describes.isValue {m : MethodEntry} {x : LoadedMethod} (h : m.Describes x) : ∀ t ∈ m.params, t.IsValue :=
  Signature.isValue_of_ofDescriptor? h.signature

/-- An entry and a loaded class are of the same class. The constructors are left out: those of an inner class have a parameter
at run time that their entries do not have. -/
structure ClassEntry.Describes (e : ClassEntry) (k : LoadedClass) : Prop where
  name : k.name = e.name
  superclass : k.superclass.map LoadedClass.name = e.superclass
  owners : ∀ m ∈ e.methods, m.owner = e.name
  methods : ∃ constructors own, k.methods = constructors ++ own ∧ (∀ x ∈ constructors, x.name = constructorName) ∧
    List.Forall₂ MethodEntry.Describes e.methods own

/-- What all members of a list become, and none of them nothing. -/
theorem forall₂_filterMap {α β : Type} {R : α → β → Prop} {f : α → Option β} {xs : List α}
    (h : ∀ x ∈ xs, ∃ y, f x = some y ∧ R x y) : List.Forall₂ R xs (xs.filterMap f) := by
  induction xs with
  | nil => exact .nil
  | cons x xs ih =>
    obtain ⟨y, hy, hR⟩ := h x List.mem_cons_self
    rw [List.filterMap_cons_some hy]
    exact .cons hR (ih fun x hx => h x (List.mem_cons_of_mem _ hx))

/-- A host class is described by the entry of which it was made, if something is done by each of its methods. -/
theorem LoadedClass.describes_ofHost {h : HostClass} {e : ClassEntry} {s : Option LoadedClass}
    (hsuper : s.map LoadedClass.name = e.superclass) (howners : ∀ m ∈ e.methods, m.owner = e.name)
    (hconstructors : ∀ k ∈ e.constructors, k.name = constructorName)
    (hnative : ∀ m ∈ e.methods, (h.native? m.name m.params).isSome = true)
    (hvalues : ∀ m ∈ e.methods, (∀ t ∈ m.params, t.IsValue) ∧ m.ret ≠ .null) : e.Describes (ofHost h e s) where
  name := rfl
  superclass := hsuper
  owners := howners
  methods := by
    refine ⟨e.constructors.filterMap (ofHostMethod? h), e.methods.filterMap (ofHostMethod? h), List.filterMap_append, ?_, ?_⟩
    · intro x hx
      obtain ⟨k, hk, hkx⟩ := List.mem_filterMap.1 hx
      obtain ⟨n, -, rfl⟩ := Option.map_eq_some_iff.1 hkx
      exact hconstructors k hk
    · refine forall₂_filterMap fun m hm => ?_
      obtain ⟨n, hn⟩ := Option.isSome_iff_exists.1 (hnative m hm)
      obtain ⟨hparams, hret⟩ := hvalues m hm
      refine ⟨_, congrArg (Option.map _) hn, rfl, rfl, rfl, ?_⟩
      exact Signature.ofDescriptor?_of_isValue (s := m.signature) hparams hret

/-- No host class has two methods of the same name and parameters. -/
theorem Host.distinct : ∀ e ∈ classes, (e.methods.map fun m => (m.name, m.params)).Nodup := by decide

theorem Host.exists_describes {e : ClassEntry} (he : e ∈ classes) : ∃ k ∈ LoadedClass.hosts, e.Describes k := by
  simp only [classes, List.mem_cons, List.not_mem_nil, or_false] at he
  rcases he with rfl | rfl | rfl
  · exact ⟨.object, by simp [LoadedClass.hosts],
      LoadedClass.describes_ofHost rfl (by decide) (by decide) (by decide) (by decide)⟩
  · exact ⟨.string, by simp [LoadedClass.hosts],
      LoadedClass.describes_ofHost rfl (by decide) (by decide) (by decide) (by decide)⟩
  · exact ⟨.stringBuilder, by simp [LoadedClass.hosts],
      LoadedClass.describes_ofHost rfl (by decide) (by decide) (by decide) (by decide)⟩

/-- What a registry says of a loader: it is free of what resolution reports, and describes every class of the loader that it
knows. -/
structure Registry.Describes (r : Registry) (l : Loader) : Prop where
  wellFormed : l.WellFormed
  nodup : (r.classes.map (·.name)).Nodup
  acyclic : r.Acyclic
  keepsInherited : r.KeepsInherited
  distinct : ∀ e ∈ r.classes, (e.methods.map fun m => (m.name, m.params)).Nodup
  hosts : ∀ e ∈ Host.classes, e ∈ r.classes
  superclass : ∀ e ∈ r.classes, ∀ s, e.superclass = some s → r.contains s = true
  entry : ∀ {k : LoadedClass} {e : ClassEntry}, l.resolve? k.name.text = some k → r.get? k.name = some e → e.Describes k

/-- The superclasses of a class correspond one by one, in whatever way a class and its entry do. -/
theorem Registry.Describes.forall₂_chain {r : Registry} {l : Loader} (h : r.Describes l) {P : ClassEntry → LoadedClass → Prop}
    (hP : ∀ {k e}, l.resolve? k.name.text = some k → r.get? k.name = some e → P e k) {k : LoadedClass}
    (hk : l.resolve? k.name.text = some k) (hregistered : r.contains k.name = true) :
    List.Forall₂ P (r.chain k.name) k.chain := by
  obtain ⟨e, he⟩ := Option.isSome_iff_exists.1 hregistered
  have hdescribes := h.entry hk he
  rw [h.acyclic.chain_eq he, ← hdescribes.superclass]
  match k with
  | ⟨_, _, none, _, _, _, _, _, _, _⟩ =>
    rw [LoadedClass.chain]
    exact .cons (hP hk he) .nil
  | ⟨_, _, some s, _, _, _, _, _, _, _⟩ =>
    rw [LoadedClass.chain]
    refine .cons (hP hk he) (h.forall₂_chain hP ((h.wellFormed.inPlace _ _ hk).superclass s rfl).1 ?_)
    exact h.superclass e (get?_eq_some he).1 s.name hdescribes.superclass.symm

/-! ## Where the classes of a loader come from -/

namespace Loader

/-- A class is held since before a batch was defined, or it is one of the batch that was linked on the way. -/
theorem exists_link_of_defineEach {l : Loader} (hl : l.WellFormed) {done : List LoadedClass}
    {files : List (String × ClassFile)} {name : String} {c : LoadedClass}
    (h : (l.defineEach done files).2.resolve? name = some c) :
    l.resolve? name = some c ∨ ∃ k f, WellFormed k ∧ (name, f) ∈ files ∧ k.link name f = .ok c := by
  induction files generalizing l done with
  | nil => exact .inl h
  | cons file files ih =>
    obtain ⟨n, f⟩ := file
    rw [defineEach, defineFile] at h
    cases hlink : l.link n f with
    | error e =>
      rw [hlink] at h
      exact .inl h
    | ok k =>
      rw [hlink] at h
      rcases ih (kept_wellFormed l n f k hl hlink) h with h | ⟨j, g, hj, hg, hjg⟩
      · rw [resolve?_insert] at h
        split at h
        · rename_i hname
          obtain rfl : k = c := Option.some.inj h
          exact .inr ⟨l, f, hl, by simp [hname], hname ▸ hlink⟩
        · exact .inl h
      · exact .inr ⟨j, g, hj, List.mem_cons_of_mem _ hg, hjg⟩

/-- A class that a loader holds only since a batch was defined was defined by the bytes of an artifact of its name. -/
theorem exists_define_of_defineAll {l : Loader} (hl : l.WellFormed) {artifacts : List Artifact} {name : String}
    {c : LoadedClass} (h : (l.defineAll artifacts).2.resolve? name = some c) (hnew : l.contains name = false) :
    ∃ k, WellFormed k ∧ ∃ a ∈ artifacts, a.name.text = name ∧ (k.define name a.bytes).1 = .ok c := by
  have hbefore : l.resolve? name ≠ some c := by
    intro hc
    simp [contains, hc] at hnew
  unfold defineAll defineAllBy at h
  split at h
  · exact absurd h hbefore
  · rename_i files hread
    rcases exists_link_of_defineEach hl h with h | ⟨k, f, hk, hf, hlink⟩
    · exact absurd h hbefore
    · obtain ⟨i, -, hi⟩ := List.mem_filterMap.1 hf
      have hmem : (name, f) ∈ files := by
        rw [List.getElem?_toArray] at hi
        exact List.mem_of_getElem? hi
      obtain ⟨a, ha, hfile⟩ := exists_left (mapM_eq_ok.1 hread) hmem
      simp only [bind_eq_ok, pure_eq_ok, Prod.mk.injEq] at hfile
      obtain ⟨g, hg, hname, rfl⟩ := hfile
      subst hname
      refine ⟨k, hk, a, ha, rfl, ?_⟩
      rw [define, hg]
      dsimp only [defineFile]
      rw [hlink]

end Loader

/-! ## Classes that were compiled and loaded -/

/-- The loaded class of a lowered one has its superclass. -/
theorem LoweredClass.superclass_of_define {b : Binding} {r : Registry} {low : LoweredClass} {bytes : Bytes}
    (hgen : low.generate b r = .ok bytes) {l : Loader} (hl : l.WellFormed) {name : String} {cls : LoadedClass}
    (hdefine : (l.define name bytes).1 = .ok cls) : cls.superclass.map LoadedClass.name = some low.superclass := by
  obtain ⟨_, f, -, hmade, hlink⟩ := exists_link hgen hdefine
  obtain ⟨-, -, -, superName, s, hsuper, hs, -, hload⟩ := Loader.link_eq_ok hlink
  rw [hmade.superName, Option.some.injEq] at hsuper
  rw [(ClassFile.loads_of_load? hload).superclass, Option.map_some, Option.some.injEq, ← Name.text_inj, hsuper]
  exact hl.named superName s hs

/-- Lists that correspond can be cut where the first is put together. -/
theorem exists_append_of_forall₂ {α β : Type} {R : α → β → Prop} {xs xs' : List α} {ys : List β}
    (h : List.Forall₂ R (xs ++ xs') ys) :
    ∃ zs zs', ys = zs ++ zs' ∧ List.Forall₂ R xs zs ∧ List.Forall₂ R xs' zs' :=
  ⟨ys.take xs.length, ys.drop xs.length, (List.take_append_drop _ _).symm,
    (List.forall₂_take_append _ _ _ h.flip).flip, (List.forall₂_drop_append _ _ _ h.flip).flip⟩

/-- A method whose declaration is clean is described by its entry once it was lowered and loaded. -/
theorem LoweredClass.MethodLoaded.describes {b : Binding} {r declared : Registry} {entry : ClassEntry} {C : Constants}
    {d : ClassDef} {md : MethodDef} {x : LoadedMethod} {optimize : Bool} (hclean : ClassDef.MethodClean declared d md)
    (h : MethodLoaded b r entry C (ClassDef.lowerMethod optimize md) x) : (d.methodEntry md).Describes x := by
  have hdescriptor : (ClassDef.lowerMethod optimize md).descriptor = (d.methodEntry md).descriptor :=
    ClassDef.lowerMethod_descriptor optimize md
  have hsignature : Signature.ofDescriptor? (d.methodEntry md).descriptor = some (d.methodEntry md).signature := by
    refine Signature.ofDescriptor?_of_isValue (fun t ht => ?_) ?_
    · obtain ⟨p, hp, rfl⟩ := List.mem_map.1 ht
      exact Site.isValue_of_checkValueType (hclean.params p hp)
    · intro hnull
      have hret := hclean.ret
      rw [show md.ret = .null from hnull] at hret
      cases hret
  have hread := h.signature
  rw [hdescriptor, hsignature, Option.some.injEq] at hread
  exact ⟨h.name.trans (ClassDef.lowerMethod_name optimize md), (congrArg Signature.params hread).symm,
    h.descriptor.trans hdescriptor, hsignature⟩

namespace Compilation

variable {c : Compilation}

/-- If nothing was found when the classes were resolved, nothing was found about any of them. -/
theorem Built.accepted_of_resolved (hc : Built c) (hclean : c.resolutionFindings = []) {d : ClassDef} (hd : d ∈ c.defs) :
    c.Accepted d := by
  rw [hc.resolve_eq.2.2] at hclean
  simp only [List.append_eq_nil_iff, List.flatMap_eq_nil_iff] at hclean
  exact ⟨hclean.1.1 d hd, hclean.1.2 d hd, hclean.2 d hd⟩

/-- An accepted class is described by its entry once it was compiled and loaded. -/
theorem Accepted.describes {d : ClassDef} (h : c.Accepted d) {bytes : Bytes} (hpassed : c.Passed d bytes) {l : Loader}
    (hl : l.WellFormed) {name : String} {cls : LoadedClass} (hdefine : (l.define name bytes).1 = .ok cls) :
    (d.entry c.declared).Describes cls := by
  obtain ⟨-, -, -, hfound, -⟩ := h.members
  obtain ⟨hentries, hclean, -⟩ := ClassDef.gatherMethods_clean hfound
  have hloaded := LoweredClass.exists_loaded hpassed.generated hdefine
  have hmethods : (d.entry c.declared).methods = d.methods.map d.methodEntry := hentries
  refine ⟨hloaded.name, LoweredClass.superclass_of_define hpassed.generated hl hdefine, fun m hm => ?_, ?_⟩
  · rw [hmethods] at hm
    obtain ⟨md, -, rfl⟩ := List.mem_map.1 hm
    rfl
  · obtain ⟨entry, -, hall⟩ := hloaded.methods
    obtain ⟨constructors, own, heq, hconstructors, hown⟩ := exists_append_of_forall₂ hall
    refine ⟨constructors, own, heq, fun x hx => ?_, ?_⟩
    · obtain ⟨low, hlow, hx⟩ := exists_left hconstructors hx
      obtain ⟨k, -, rfl⟩ := List.mem_map.1 hlow
      exact hx.name
    · rw [List.forall₂_map_left_iff] at hown
      rw [hmethods, List.forall₂_map_left_iff]
      refine List.Forall₂.imp ?_ ((List.forall₂_and_left _ _).2 ⟨hclean, hown⟩)
      exact fun md x hx => hx.2.describes hx.1

/-- A class that a loader holds only since the classes were loaded is of a class that was compiled without errors. -/
theorem Built.exists_passed_of_loadInto (hc : Built c) {l : Loader} (hl : l.WellFormed) {n : Name}
    (hnew : l.contains n.text = false) {k : LoadedClass}
    (hk : ((c.compile .classGeneration).2.loadInto l).2.resolve? n.text = some k) :
    ∃ d ∈ c.defs, d.name = n ∧ ∃ bytes, c.Passed d bytes ∧
      ∃ j : Loader, j.WellFormed ∧ (j.define n.text bytes).1 = .ok k := by
  obtain ⟨j, hj, a, ha, hname, hdefine⟩ := Loader.exists_define_of_defineAll hl hk hnew
  obtain ⟨m, hm, hartifact⟩ := List.mem_filterMap.1 ha
  obtain ⟨bytes, hbytes, rfl⟩ := Option.map_eq_some_iff.1 hartifact
  obtain ⟨m₀, hm₀, hcls, hpassed⟩ := hc.passed hm hbytes
  exact ⟨m₀.cls, List.mem_map_of_mem hm₀, hcls ▸ Name.text_inj.1 hname, bytes, hpassed, j, hj, hdefine⟩

/-- A class that a loader has under the name of an entry is a host class, or it was defined by the class file of the class
that the entry was made of. -/
theorem Built.origin_of_loadInto (hc : Built c) {l : Loader} (hl : l.WellFormed)
    (hnew : ∀ d ∈ c.defs, l.contains d.name.text = false) {k : LoadedClass}
    (hk : ((c.compile .classGeneration).2.loadInto l).2.resolve? k.name.text = some k) {e : ClassEntry}
    (he : c.resolved.get? k.name = some e) :
    (e ∈ Host.classes ∧ k ∈ LoadedClass.hosts ∧ e.Describes k) ∨
      ∃ d ∈ c.defs, e = d.entry c.declared ∧ ∃ bytes, c.Passed d bytes ∧
        ∃ j : Loader, j.WellFormed ∧ (j.define d.name.text bytes).1 = .ok k := by
  obtain ⟨hmem, hname⟩ := Registry.get?_eq_some he
  rcases hc.mem_resolved hmem with hhost | ⟨d, hd, rfl⟩
  · obtain ⟨h, hh, hdescribes⟩ := Host.exists_describes hhost
    have hheld := (Loader.kept_wellFormed.defineAll hl (c.compile .classGeneration).2.artifacts).hosts h hh
    rw [hdescribes.name, hname] at hheld
    obtain rfl : k = h := Option.some.inj (hk.symm.trans hheld)
    exact .inl ⟨hhost, hh, hdescribes⟩
  · have hname : d.name = k.name := hname
    rw [← hname] at hk
    obtain ⟨d', hd', hsame, bytes, hpassed, j, hj, hdefine⟩ := hc.exists_passed_of_loadInto hl (hnew d hd) hk
    obtain rfl : d' = d := List.inj_on_of_nodup_map hc.names.1 hd' hd hsame
    exact .inr ⟨d', hd, rfl, bytes, hpassed, j, hj, hdefine⟩

/-- The class that a loader has under the name of an entry is of the class that the entry describes. -/
theorem Built.describes_of_loadInto (hc : Built c) (hclean : c.resolutionFindings = []) {l : Loader} (hl : l.WellFormed)
    (hnew : ∀ d ∈ c.defs, l.contains d.name.text = false) {k : LoadedClass}
    (hk : ((c.compile .classGeneration).2.loadInto l).2.resolve? k.name.text = some k) {e : ClassEntry}
    (he : c.resolved.get? k.name = some e) : e.Describes k := by
  rcases hc.origin_of_loadInto hl hnew hk he with ⟨-, -, hdescribes⟩ | ⟨d, hd, rfl, bytes, hpassed, j, hj, hdefine⟩
  · exact hdescribes
  · exact (hc.accepted_of_resolved hclean hd).describes hpassed hj hdefine

theorem Built.contains_of_mem_defs (hc : Built c) {d : ClassDef} (hd : d ∈ c.defs) : c.resolved.contains d.name = true := by
  refine Registry.contains_of_mem (e := d.entry c.declared) ?_
  rw [hc.resolve_eq.2.1]
  exact List.mem_append_right _ (List.mem_map_of_mem hd)

theorem Built.contains_of_mem_host (hc : Built c) {e : ClassEntry} (he : e ∈ Host.classes) :
    c.resolved.contains e.name = true := by
  refine Registry.contains_of_mem ?_
  rw [hc.resolve_eq.2.1]
  exact List.mem_append_left _ he

/-- A class that is registered without its members is registered with them. -/
theorem Built.contains_resolved (hc : Built c) {n : Name} {e : ClassEntry} (he : c.declared.get? n = some e) :
    c.resolved.contains n = true := by
  obtain ⟨hmem, rfl⟩ := Registry.get?_eq_some he
  rw [hc.resolve_eq.1] at hmem
  rcases List.mem_append.1 hmem with hhost | hmem
  · exact hc.contains_of_mem_host hhost
  · obtain ⟨d, hd, rfl⟩ := List.mem_map.1 hmem
    exact hc.contains_of_mem_defs hd

/-- A loader of the host library and the classes of a compilation holds none that is not registered. -/
theorem Built.contains_of_loadInto_boot (hc : Built c) {n : Name} {k : LoadedClass}
    (hk : ((c.compile .classGeneration).2.loadInto .boot).2.resolve? n.text = some k) : c.resolved.contains n = true := by
  cases hboot : Loader.boot.contains n.text with
  | true =>
    obtain ⟨x, hx⟩ := Option.isSome_iff_exists.1 hboot
    obtain ⟨hmem, hname⟩ := Loader.mem_hosts_of_resolve? hx
    have hall : ∀ x ∈ LoadedClass.hosts, ∃ e ∈ Host.classes, e.name = x.name := by decide
    obtain ⟨e, he, hsame⟩ := hall x hmem
    obtain rfl : e.name = n := hsame.trans (Name.text_inj.1 hname)
    exact hc.contains_of_mem_host he
  | false =>
    obtain ⟨d, hd, rfl, -⟩ := hc.exists_passed_of_loadInto Loader.wellFormed_boot hboot hk
    exact hc.contains_of_mem_defs hd

/-- A registry for which nothing was found describes a loader into which the classes were loaded, if their names were free in
it. -/
theorem Built.describes (hc : Built c) (hclean : c.resolutionFindings = []) {l : Loader} (hl : l.Reachable)
    (hnew : ∀ d ∈ c.defs, l.contains d.name.text = false) :
    c.resolved.Describes ((c.compile .classGeneration).2.loadInto l).2 := by
  obtain ⟨hnodup, hhost⟩ := hc.names
  obtain ⟨hentries, -⟩ := hc.resolve_eq_entries
  have hdeclared : c.declared = .headers c.defs := hc.resolve_eq.1
  have haccepted : ∀ d ∈ c.defs, c.Accepted d := fun _ => hc.accepted_of_resolved hclean
  have hdeclarations : ∀ d ∈ c.defs, d.checkDeclarations (.headers c.defs) = [] := fun d hd =>
    hdeclared ▸ (haccepted d hd).declarations
  have hinherited : ∀ d ∈ c.defs, d.checkInherited (.entries c.defs) = [] := fun d hd =>
    hentries ▸ (haccepted d hd).inherited
  refine ⟨(hl.defineAll _).wellFormed, ?_, ?_, ?_, fun e he => ?_, fun e he => ?_, fun e he s hs => ?_, fun hk he =>
    hc.describes_of_loadInto hclean hl.wellFormed hnew hk he⟩
  · rw [hentries]
    exact Registry.nodup_entries hnodup hhost
  · rw [hentries]
    exact Registry.acyclic_entries hnodup hhost hdeclarations hinherited
  · rw [hentries]
    exact Registry.keepsInherited_entries hnodup hhost hdeclarations hinherited
  · rcases hc.mem_resolved he with he | ⟨d, hd, rfl⟩
    · exact Host.distinct e he
    · obtain ⟨-, -, -, hfound, -⟩ := (haccepted d hd).members
      obtain ⟨hmethods, -, hdistinct⟩ := ClassDef.gatherMethods_clean hfound
      rw [ClassDef.entry, hmethods]
      exact List.pairwise_map.2 (hdistinct.imp fun hne heq => hne (Prod.mk.inj heq))
  · rw [hc.resolve_eq.2.1]
    exact List.mem_append_left _ he
  · rcases hc.mem_resolved he with he | ⟨d, hd, rfl⟩
    · have hall : ∀ e ∈ Host.classes, ∀ s ∈ e.superclass, ∃ x ∈ Host.classes, x.name = s := by decide
      obtain ⟨x, hx, rfl⟩ := hall e he s hs
      exact hc.contains_of_mem_host hx
    · obtain rfl : d.superclass = s := Option.some.inj hs
      obtain ⟨x, hx, -⟩ := (haccepted d hd).superclass
      exact hc.contains_resolved hx

end Compilation

end ClassTree
