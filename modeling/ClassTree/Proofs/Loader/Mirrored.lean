import ClassTree.Proofs.Compile.TypedCode
import ClassTree.Proofs.Loader.Layout
import ClassTree.Proofs.Machine.Overloads
import ClassTree.Proofs.Registry.Distance

/-!
# Loaders that have what a registry promises

Types are found in the entries of a registry, and code runs on loaded classes. `Registry.Mirrors r l`: the registry `r` says of
each class of the loader `l` what a call of its members depends on, and no call that was chosen by an entry can end up with
another kind of method.

* The first method of given parameters in the chain of entries is the method of its descriptor that a loaded class has or
  inherits (`Registry.Mirrors.exists_target`).
* What takes the place of an instance method is an instance method, if no static method has the name and the parameters of one
  that its class inherits (`Registry.KeepsReceivers`), so every instance answers a call (`Registry.Mirrors.answers`).
* So the loader has all that types may choose in a context with this registry (`Registry.Mirrors.backed`).
-/

namespace ClassTree

/-! ## Entries of loaded classes -/

/-- An entry and a loaded method are of the same method, with all that a call depends on. -/
structure MethodEntry.Matches (m : MethodEntry) (x : LoadedMethod) : Prop extends m.Describes x where
  ret : x.ret = m.ret
  isStatic : x.isStatic = m.isStatic
  body : m.modifiers.isAbstract = false → x.body ≠ .abstract

/-- An entry and a loaded method are of the same constructor, which takes the outer instance first if the class is an inner
one. -/
structure ClassEntry.Constructs (e : ClassEntry) (k : MethodEntry) (x : LoadedMethod) : Prop where
  name : x.name = constructorName
  descriptor : x.descriptor = (Signature.mk (e.outerTypes ++ k.params) .void).descriptor
  params : x.params = e.outerTypes ++ k.params
  ret : x.ret = .void
  isStatic : x.isStatic = false
  body : x.body ≠ .abstract

/-- An entry and a loaded class have the same members. -/
structure ClassEntry.Matches (e : ClassEntry) (k : LoadedClass) : Prop where
  access : k.access = e.modifiers
  members : ∃ constructors own, k.methods = constructors ++ own ∧ List.Forall₂ e.Constructs e.constructors constructors ∧
    List.Forall₂ MethodEntry.Matches e.methods own
  distinct : (k.methods.map fun x => (x.name, x.descriptor)).Nodup

/-- Methods with values as parameters have the same parameters if they have the same descriptor. -/
theorem MethodEntry.Describes.params_eq {a b : MethodEntry} {x y : LoadedMethod} (ha : a.Describes x) (hb : b.Describes y)
    (h : a.descriptor = b.descriptor) : a.params = b.params := by
  have hsame := ha.signature
  rw [h, hb.signature, Option.some.injEq] at hsame
  exact (congrArg Signature.params hsame).symm

namespace ClassEntry.Matches

variable {e : ClassEntry} {k : LoadedClass} (h : e.Matches k)
include h

/-- A method of the entry is found in the class. -/
theorem ownMethod? {m : MethodEntry} (hm : m ∈ e.methods) :
    ∃ x ∈ k.methods, k.ownMethod? m.name m.descriptor = some x ∧ m.Matches x := by
  obtain ⟨constructors, own, heq, -, hown⟩ := h.members
  obtain ⟨x, hx, hmx⟩ := exists_right hown hm
  have hmem : x ∈ k.methods := heq ▸ List.mem_append_right _ hx
  refine ⟨x, hmem, ?_, hmx⟩
  rw [← hmx.name, ← hmx.descriptor]
  exact LoweredClass.find?_method h.distinct hmem

/-- A constructor of the entry is found in the class. -/
theorem ownConstructor? {m : MethodEntry} (hm : m ∈ e.constructors) :
    ∃ x ∈ k.methods, k.ownMethod? constructorName (Signature.mk (e.outerTypes ++ m.params) .void).descriptor = some x ∧
      e.Constructs m x := by
  obtain ⟨constructors, own, heq, hconstructors, -⟩ := h.members
  obtain ⟨x, hx, hmx⟩ := exists_right hconstructors hm
  have hmem : x ∈ k.methods := heq ▸ List.mem_append_left _ hx
  refine ⟨x, hmem, ?_, hmx⟩
  rw [← hmx.name, ← hmx.descriptor]
  exact LoweredClass.find?_method h.distinct hmem

/-- What is found in the class under the name of a method is a method of the entry. -/
theorem exists_entry {name descriptor : String} (hname : name ≠ constructorName) {x : LoadedMethod}
    (hx : k.ownMethod? name descriptor = some x) :
    ∃ m ∈ e.methods, m.name = name ∧ m.descriptor = descriptor ∧ m.Matches x := by
  obtain ⟨constructors, own, heq, hconstructors, hown⟩ := h.members
  have hsame : x.name = name ∧ x.descriptor = descriptor := by simpa using List.find?_some hx
  have hmem : x ∈ k.methods := List.mem_of_find?_eq_some hx
  rw [heq] at hmem
  rcases List.mem_append.1 hmem with hmem | hmem
  · obtain ⟨_, -, hbuilt⟩ := exists_left hconstructors hmem
    exact absurd (hsame.1.symm.trans hbuilt.name) hname
  · obtain ⟨m, hm, hmx⟩ := exists_left hown hmem
    exact ⟨m, hm, hmx.name.symm.trans hsame.1, hmx.descriptor.symm.trans hsame.2, hmx⟩

end ClassEntry.Matches

/-- Searches of corresponding classes: the first method of given parameters is the first of its descriptor. -/
theorem exists_target_of_forall₂ {es : List ClassEntry} {ks : List LoadedClass}
    (h : List.Forall₂ ClassEntry.Matches es ks) {name : String} (hname : name ≠ constructorName) {params : List Ty}
    {m : MethodEntry} (hm : Registry.firstMethod? es name params = some m) :
    ∃ t : Target, ks.findSome? (fun k => (k.ownMethod? name m.descriptor).map (⟨k, ·⟩)) = some t ∧ t.cls ∈ ks ∧
      t.method ∈ t.cls.methods ∧ m.Matches t.method := by
  induction h with
  | nil => cases hm
  | @cons e k es ks hek _ ih =>
    rw [Registry.firstMethod?_cons] at hm
    rw [List.findSome?_cons]
    cases hfirst : (e.ownMethods name).find? (·.params = params) with
    | some m' =>
      rw [hfirst, Option.some_or, Option.some.injEq] at hm
      subst hm
      obtain ⟨hmem, hsame⟩ := List.mem_filter.1 (List.mem_of_find?_eq_some hfirst)
      obtain rfl : m'.name = name := by simpa using hsame
      obtain ⟨x, hx, hfound, hmx⟩ := hek.ownMethod? hmem
      rw [hfound]
      exact ⟨⟨k, x⟩, rfl, List.mem_cons_self, hx, hmx⟩
    | none =>
      rw [hfirst, Option.none_or] at hm
      obtain ⟨t, ht, hcls, hmethod, hmt⟩ := ih hm
      cases hown : k.ownMethod? name m.descriptor with
      | none => exact ⟨t, ht, List.mem_cons_of_mem _ hcls, hmethod, hmt⟩
      | some x =>
        -- A method of the descriptor would have the parameters, and be found before.
        obtain ⟨m', hm', hsame, hdescriptor, hmx⟩ := hek.exists_entry hname hown
        have hparams : m'.params = params :=
          (hmx.toDescribes.params_eq hmt.toDescribes hdescriptor).trans (Registry.firstMethod?_eq_some hm).2.2
        exact absurd (decide_eq_true hparams)
          (List.find?_eq_none.1 hfirst m' (List.mem_filter.2 ⟨hm', decide_eq_true hsame⟩))

/-! ## Final classes -/

namespace Loader

variable {l : Loader} {j k : LoadedClass} {n : Name}

theorem WellFormed.exists_mem_chain (h : l.WellFormed) (hk : l.Holds k) (hn : (k.distance? n).isSome = true) :
    ∃ j ∈ k.chain, j.name = n ∧ l.Holds j := by
  rw [LoadedClass.distance?, List.findIdx?_isSome, List.any_eq_true] at hn
  obtain ⟨j, hj, hname⟩ := hn
  exact ⟨j, hj, of_decide_eq_true hname, h.resolve?_of_mem_chain hj hk⟩

/-- A final class has no subclass. -/
theorem WellFormed.eq_of_isFinal (h : l.WellFormed) {k : LoadedClass} (hk : l.Holds k) (hj : j ∈ k.chain)
    (hfinal : j.access.isFinal = true) : j = k := by
  match k with
  | ⟨_, _, none, _, _, _, _, _, _, _⟩ =>
    rw [LoadedClass.chain] at hj
    exact List.mem_singleton.1 hj
  | ⟨_, _, some s, _, _, _, _, _, _, _⟩ =>
    rw [LoadedClass.chain] at hj
    rcases List.mem_cons.1 hj with hj | hj
    · exact hj
    · obtain ⟨hs, hopen⟩ := (h.inPlace _ _ hk).superclass s rfl
      obtain rfl := h.eq_of_isFinal hs hj hfinal
      rw [hfinal] at hopen
      cases hopen

/-- The only instances of a final host class are its own. -/
theorem WellFormed.eq_host (h : l.WellFormed) (host : LoadedClass) (hhost : host ∈ LoadedClass.hosts)
    (hfinal : host.access.isFinal = true) (hk : l.Holds k) (hn : (k.distance? host.name).isSome = true) : k = host := by
  obtain ⟨j, hj, hname, hheld⟩ := h.exists_mem_chain hk hn
  have hbound := h.hosts host hhost
  rw [← hname] at hbound
  obtain rfl : j = host := Option.some.inj (hheld.symm.trans hbound)
  exact (h.eq_of_isFinal hk hj hfinal).symm

end Loader

/-! ## Registries -/

namespace Registry

/-- No static method has the name and the parameters of an instance method that its class inherits. -/
def KeepsReceivers (r : Registry) : Prop :=
  ∀ n e s, r.get? n = some e → e.superclass = some s → ∀ m ∈ e.methods, ∀ base,
    firstMethod? (r.chain s) m.name m.params = some base → base.isStatic = false → m.isStatic = false

/-- The classes of a registry and those of a loader are the same, and have the same members. -/
structure Mirrors (r : Registry) (l : Loader) : Prop extends r.Describes l where
  reachable : l.Reachable
  concrete : r.Concrete
  keepsReceivers : r.KeepsReceivers
  registered : ∀ k, l.Holds k → r.contains k.name = true
  held : ∀ e ∈ r.classes, l.contains e.name.text = true
  members : ∀ {k e}, l.resolve? k.name.text = some k → r.get? k.name = some e → e.Matches k
  slots : ∀ {k e}, l.resolve? k.name.text = some k → r.get? k.name = some e → k.ownSlots = e.fields.map FieldEntry.slot
  named : ∀ e ∈ r.classes, ∀ m ∈ e.methods, m.name ≠ constructorName
  static : ∀ e ∈ r.classes, ∀ m ∈ e.methods, m.isStatic = true → m.modifiers.isAbstract = false
  owners : ∀ e ∈ r.classes, ∀ f ∈ e.fields, f.owner = e.name
  outer : ∀ e ∈ r.classes, ∀ o, e.enclosing = some o → e.isInner = true → ∃ f ∈ e.fields, f.name = outerField ∧ f.ty = .ref o
  super : ∀ e ∈ r.classes, ∀ s e', e.superclass = some s → r.get? s = some e' →
    e'.isInner = false ∧ ∀ k ∈ e'.constructors, k.ret = .void

theorem mem_findMethods_iff {r : Registry} {n : Name} {name : String} {m : MethodEntry} :
    m ∈ r.findMethods n name ↔ firstMethod? (r.chain n) name m.params = some m := by
  have hfilter : m ∈ (r.findMethods n name).filter (·.params = m.params) ↔ m ∈ r.findMethods n name := by simp
  rw [← hfilter, filter_findMethods, Option.mem_toList]

namespace Mirrors

variable {r : Registry} {l : Loader} (h : r.Mirrors l) {n : Name} {e : ClassEntry} {k : LoadedClass} {m : MethodEntry}
  {name : String}
include h

theorem exists_held (he : e ∈ r.classes) : ∃ k, l.Holds k ∧ k.name = e.name ∧ e.Matches k := by
  obtain ⟨k, hk⟩ := Option.isSome_iff_exists.1 (h.held e he)
  have hname : k.name = e.name := Name.text_inj.1 (h.wellFormed.named _ _ hk)
  rw [← hname] at hk
  exact ⟨k, hk, hname, h.members hk (hname ▸ get?_of_mem h.nodup he)⟩

theorem isSubclassOf (hk : l.Holds k) (hn : (k.distance? n).isSome = true) : r.isSubclassOf k.name n = true := by
  rwa [Registry.isSubclassOf, h.distance?_eq hk (h.registered k hk)]

theorem below {a b : Name} (hab : r.isSubclassOf a b = true) : l.Below a b := by
  intro k hk ha
  rw [← h.distance?_eq hk (h.registered k hk)] at ha ⊢
  obtain ⟨i, hi⟩ := Option.isSome_iff_exists.1 ha
  obtain ⟨j, hj⟩ := Option.isSome_iff_exists.1 hab
  obtain ⟨d, -, hd⟩ := distance?_trans hi hj
  rw [hd]
  rfl

/-- Instances have the fields of all entries that their classes inherit from. -/
theorem hasField (he : e ∈ r.classes) (hsub : r.isSubclassOf n e.name = true) {f : FieldEntry} (hf : f ∈ e.fields) :
    l.HasField n f.ref f.ty := by
  refine ⟨by rw [FieldEntry.ref, h.owners e he f hf]; exact h.held e he, fun k hk hn => ?_⟩
  have hbelow := h.isSubclassOf hk (h.below hsub k hk hn)
  have hmem : e ∈ r.chain k.name := by
    obtain ⟨e', he', hname⟩ : ∃ e' ∈ r.chain k.name, e'.name = e.name := by
      simpa [Registry.isSubclassOf, distance?] using hbelow
    rwa [List.inj_on_of_nodup_map h.nodup (mem_of_mem_chain he') he hname] at he'
  have hslot : f.slot ∈ k.layout := by
    rw [h.layout_eq h.slots hk (h.registered k hk)]
    exact List.mem_map_of_mem (List.mem_flatMap.2 ⟨e, List.mem_reverse.2 hmem, hf⟩)
  obtain ⟨i, hi⟩ := List.mem_iff_getElem?.1 hslot
  exact ⟨i, f.slot, (h.wellFormed.inPlace _ _ hk).slot?_eq hi, hi, rfl⟩

/-- The method that an entry has or inherits for given parameters is the one that the class has or inherits. -/
theorem exists_target (hk : l.Holds k) (hname : name ≠ constructorName) {params : List Ty}
    (hm : firstMethod? (r.chain k.name) name params = some m) : ∃ t, k.findMethod? name m.descriptor = some t ∧ l.Holds t.cls ∧
      t.method ∈ t.cls.methods ∧ m.Matches t.method := by
  obtain ⟨t, ht, hcls, hmethod, hmt⟩ := exists_target_of_forall₂ (h.forall₂_chain h.members hk (h.registered k hk)) hname hm
  exact ⟨t, ht, h.wellFormed.resolve?_of_mem_chain hcls hk, hmethod, hmt⟩

/-- Every instance has a method for a call of an instance method, with a body and with the result type that was declared. -/
theorem answers (hm : m ∈ r.findMethods n name) (hinstance : m.isStatic = false) : l.Answers n m.ref m.signature := by
  obtain ⟨e, he, hmem, hname⟩ := exists_of_mem_findMethods hm
  have hmem' := mem_of_mem_chain he
  obtain ⟨o, ho, hoName, hmatches⟩ := h.exists_held hmem'
  have howner : m.owner = e.name := (h.entry ho (hoName ▸ get?_of_mem h.nodup hmem')).owners m hmem
  obtain ⟨x, -, -, hmx⟩ := hmatches.ownMethod? hmem
  refine ⟨by rw [MethodEntry.ref, howner]; exact h.held e hmem', hmx.signature, fun k hk habstract hn => ?_⟩
  have hsuffix := h.acyclic.chain_of_isSubclassOf (h.isSubclassOf hk hn)
  have hfirst := mem_findMethods_iff.1 hm
  obtain ⟨m', hm', hret, -⟩ := h.acyclic.firstMethod?_of_suffix h.keepsInherited (h.acyclic.line_chain k.name) hsuffix hfirst
  obtain ⟨m'', hm'', hreceiver⟩ := h.acyclic.firstMethod?_related
    (R := fun m' m => m.isStatic = false → m'.isStatic = false) (fun _ => id) (fun hab hbc hc => hab (hbc hc))
    h.keepsReceivers (h.acyclic.line_chain k.name) hsuffix hfirst
  obtain rfl : m' = m'' := Option.some.inj (hm'.symm.trans hm'')
  obtain ⟨e', he'⟩ := Option.isSome_iff_exists.1 (h.registered k hk)
  have hconcrete : m'.modifiers.isAbstract = false := by
    refine h.concrete k.name e' he' ?_ name m.params m' hm'
    rwa [LoadedClass.isAbstract, (h.members hk he').access] at habstract
  have hparams : m'.params = m.params := (firstMethod?_eq_some hm').2.2
  obtain ⟨t, ht, hcls, hmethod, hmt⟩ := h.exists_target hk (hname ▸ h.named e hmem' m hmem) hm'
  refine ⟨t, ?_, ⟨hcls, hmethod, hmt.body hconcrete, hmt.params.trans hparams, hmt.ret.trans hret⟩,
    hmt.isStatic.trans (hreceiver hinstance)⟩
  rwa [MethodEntry.descriptor, MethodEntry.signature, hparams, hret, ← hname] at ht

/-- Every instance has a text. -/
theorem answers_toString : l.Answers .object ⟨Name.object.text, "toString", toStringDescriptor⟩ ⟨[], .string⟩ := by
  have hroot : r.get? Name.object = some Host.objectEntry :=
    get?_of_mem (e := Host.objectEntry) h.nodup (h.hosts _ (by simp [Host.classes]))
  have hown : Host.method .object "toString" [] .string ∈ Host.objectEntry.ownMethods "toString" := by decide
  exact h.answers (mem_findMethods_iff.2 (h.firstMethod?_own hroot hown)) rfl

/-- A call of a static method finds the method. -/
theorem hasStatic (hm : m ∈ r.findMethods n name) (hstatic : m.isStatic = true) : l.HasStatic m.ref m.signature := by
  obtain ⟨e, he, hmem, hname⟩ := exists_of_mem_findMethods hm
  have hmem' := mem_of_mem_chain he
  have hget := get?_of_mem h.nodup hmem'
  obtain ⟨k, hk, hkName, hmatches⟩ := h.exists_held hmem'
  have howner : m.owner = e.name := (h.entry hk (hkName ▸ hget)).owners m hmem
  have hfirst := h.firstMethod?_own hget (List.mem_filter.2 ⟨hmem, decide_eq_true rfl⟩)
  rw [← hkName] at hfirst
  obtain ⟨t, ht, hcls, hmethod, hmt⟩ := h.exists_target hk (h.named e hmem' m hmem) hfirst
  refine ⟨hmt.signature, k, t, ?_, ht, hmt.isStatic.trans hstatic, hcls, hmethod, hmt.body (h.static e hmem' m hmem hstatic),
    hmt.params, hmt.ret⟩
  rw [MethodEntry.ref, howner, ← hkName]
  exact hk

/-- A reference to a constructor finds the constructor. -/
theorem hasConstructor (he : r.get? n = some e) (hm : m ∈ e.constructors) :
    l.HasConstructor n (e.constructorRef m.params) ⟨e.outerTypes ++ m.params, .void⟩ := by
  obtain ⟨hmem, rfl⟩ := get?_eq_some he
  obtain ⟨k, hk, hname, hmatches⟩ := h.exists_held hmem
  obtain ⟨x, hx, hfound, hmx⟩ := hmatches.ownConstructor? hm
  refine ⟨Signature.ofDescriptor?_of_isValue (s := ⟨e.outerTypes ++ m.params, .void⟩) ?_ Ty.noConfusion, k, x, ?_, hname,
    hfound, hmx.isStatic, hk, hx, hmx.body, hmx.params, hmx.ret⟩
  · rw [← hmx.params]
    exact h.reachable.isValue hk hx
  · rw [ClassEntry.constructorRef, ← hname]
    exact hk

/-- The only host class that has no constructors is the class of texts, and no class extends it. -/
theorem allocates (he : r.get? n = some e) (hconcrete : e.isAbstract = false) (hm : m ∈ e.constructors) : l.Allocates n := by
  obtain ⟨hmem, rfl⟩ := get?_eq_some he
  obtain ⟨k, hk, hname, hmatches⟩ := h.exists_held hmem
  refine ⟨k, hname ▸ hk, hname, hk, by rw [LoadedClass.isAbstract, hmatches.access]; exact hconcrete, ?_⟩
  by_contra hsome
  rw [← ne_eq, Option.ne_none_iff_isSome] at hsome
  obtain rfl := h.wellFormed.eq_host .string (by simp [LoadedClass.hosts]) (by decide) hk hsome
  have hstring : e = Host.stringEntry :=
    List.inj_on_of_nodup_map h.nodup hmem (h.hosts Host.stringEntry (by simp [Host.classes])) hname.symm
  rw [hstring] at hm
  cases hm

/-- The loader has all that types may choose. -/
theorem backed {c : Context} (hregistry : c.registry = r) (hentry : r.get? c.cls.name = some c.cls) : c.Backed l := by
  obtain ⟨hmem, -⟩ := get?_eq_some hentry
  have hself : ∀ e ∈ r.classes, r.isSubclassOf e.name e.name = true := by
    intro e he
    rw [Registry.isSubclassOf, distance?, h.acyclic.chain_eq (get?_of_mem h.nodup he), List.findIdx?_cons, decide_eq_true rfl]
    rfl
  subst hregistry
  refine
    { below := h.below
      field := fun {n name f} hf => ?_
      outer := fun houter hinner => ?_
      virtual := fun hm => h.answers hm
      static := fun hm => h.hasStatic hm
      new := fun he hconcrete hk => h.allocates he hconcrete hk
      constructor := fun he hk => h.hasConstructor he hk
      super := fun hs he hk => ?_ }
  · obtain ⟨e, he, hmem, -⟩ := exists_of_findField? hf
    refine h.hasField (mem_of_mem_chain he) ?_ hmem
    simpa [Registry.isSubclassOf, distance?] using ⟨e, he, rfl⟩
  · obtain ⟨f, hf, hname, hty⟩ := h.outer c.cls hmem _ houter hinner
    have hfield := h.hasField hmem (hself _ hmem) hf
    rwa [FieldEntry.ref, h.owners _ hmem f hf, hname, hty] at hfield
  · obtain ⟨hinner, hvoid⟩ := h.super c.cls hmem _ _ hs he
    have hconstructor := h.hasConstructor he hk
    obtain ⟨hmem', rfl⟩ := get?_eq_some he
    rw [ClassEntry.constructorRef, ClassEntry.outerTypes, if_neg (by simp [hinner]), List.nil_append] at hconstructor
    refine ⟨h.below ?_, ?_⟩
    · rw [Registry.isSubclassOf, distance?, h.acyclic.chain_eq hentry, hs, List.findIdx?_isSome, List.any_eq_true]
      refine ⟨_, List.mem_cons_of_mem _ ?_, decide_eq_true rfl⟩
      dsimp only
      rw [h.acyclic.chain_eq he]
      exact List.mem_cons_self
    · rwa [MethodEntry.descriptor, MethodEntry.signature, hvoid _ hk]

end Mirrors

end Registry

end ClassTree
