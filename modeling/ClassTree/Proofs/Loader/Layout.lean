import ClassTree.Proofs.Loader.Described

/-!
# Field layouts at compile time and at run time

The fields of a class are known from three sources: the registry gathers them from the definition, lowering writes them into the
class file, and the loader puts the slots of a class behind those of its superclass. `LoadedClass.ownSlots` and
`FieldEntry.slot` bring them to one form.

* The layout of a class of a well-formed loader is that of its superclasses one after the other
  (`Loader.WellFormed.layout_eq`), and the last slot of a name is the one of the field that is nearest
  (`Loader.WellFormed.find?_reverse_layout`).
* A class that was compiled without errors and loaded has the fields of its entry (`Compilation.Built.ownSlots_of_loadInto`).

So after a success, with members resolved beforehand or not, the layout is `Registry.allFields`, and the slot that the machine
finds by a name alone is the one of `Registry.findField?` (`Compilation.Reached.layouts_agree`).
-/

namespace ClassTree

/-! ## The layout of a loaded class -/

/-- The slots of the fields that a class itself declares. -/
def LoadedClass.ownSlots (k : LoadedClass) : List FieldSlot := k.fields.map fun x => ⟨k.name, x.name, x.ty⟩

/-- Searches of lists that correspond, with results that correspond. -/
theorem findSome?_of_forall₂ {α β γ : Type} {f : α → Option γ} {g : β → Option γ} {xs : List α} {ys : List β}
    (h : List.Forall₂ (fun x y => f x = g y) xs ys) : xs.findSome? f = ys.findSome? g := by
  induction h with
  | nil => rfl
  | cons hxy _ ih => rw [List.findSome?_cons, List.findSome?_cons, hxy, ih]

/-- Where no two members of a list have the same key, the one that is found under a key is the one that has it. -/
theorem find?_eq_some_iff_of_nodup {α : Type} {f : α → String} {xs : List α} (h : (xs.map f).Nodup) {n : String} {x : α} :
    xs.find? (f · = n) = some x ↔ x ∈ xs ∧ f x = n := by
  constructor
  · exact fun hx => ⟨List.mem_of_find?_eq_some hx, by simpa using List.find?_some hx⟩
  · rintro ⟨hx, hn⟩
    obtain ⟨y, hy⟩ := Option.isSome_iff_exists.1 (List.find?_isSome (p := (f · = n)).2 ⟨x, hx, decide_eq_true hn⟩)
    have hkey : f y = n := by simpa using List.find?_some hy
    rw [hy, List.inj_on_of_nodup_map h (List.mem_of_find?_eq_some hy) hx (hkey.trans hn.symm)]

/-- Such a list is searched from either end with the same result. -/
theorem find?_reverse_of_nodup {α : Type} {f : α → String} {xs : List α} (h : (xs.map f).Nodup) (n : String) :
    xs.reverse.find? (f · = n) = xs.find? (f · = n) := by
  have hreverse : (xs.reverse.map f).Nodup := by
    rw [List.map_reverse]
    exact List.nodup_reverse.2 h
  ext x
  rw [find?_eq_some_iff_of_nodup h, find?_eq_some_iff_of_nodup hreverse, List.mem_reverse]

theorem LoadedClass.isSome_slotNamed? (k : LoadedClass) (n : String) :
    (k.slotNamed? n).isSome = (k.layout.reverse.find? (·.name = n)).isSome := by
  rw [slotNamed?, Option.isSome_map, List.findIdx?_isSome, Bool.eq_iff_iff, List.any_eq_true, List.find?_isSome]

namespace Loader

variable {l : Loader} {k : LoadedClass}

/-- The last field of a name has the slot that is found by its owner and its name. -/
theorem InPlace.slotNamed?_eq (h : l.InPlace k) (n : String) :
    k.slotNamed? n = (k.layout.reverse.find? (·.name = n)).bind fun x => k.slot? x.owner.text n := by
  rw [LoadedClass.slotNamed?]
  cases hidx : k.layout.reverse.findIdx? (·.name = n) with
  | none =>
    have hnone : k.layout.reverse.find? (·.name = n) = none := by
      rw [List.findIdx?_eq_none_iff] at hidx
      exact List.find?_eq_none.2 fun x hx => by simpa using hidx x hx
    rw [hnone]
    rfl
  | some i =>
    obtain ⟨hlt, hname, hbefore⟩ := List.findIdx?_eq_some_iff_getElem.1 hidx
    have hfind : k.layout.reverse.find? (·.name = n) = some k.layout.reverse[i] :=
      List.find?_eq_some_iff_getElem.2 ⟨hname, i, hlt, rfl, fun j hj => by simpa using hbefore j hj⟩
    have hslot : k.layout[k.layout.length - 1 - i]? = some k.layout.reverse[i] := by
      rw [List.getElem_reverse, List.getElem?_eq_getElem]
    have hslot? := h.slot?_eq hslot
    rw [show k.layout.reverse[i].name = n by simpa using hname] at hslot?
    rw [hfind, Option.bind_some, hslot?]
    rfl

theorem InPlace.layout_eq_append (h : l.InPlace k) {s : LoadedClass} (hs : k.superclass = some s) :
    k.layout = s.layout ++ k.ownSlots := h.layout s hs

/-- A class has the slots of its superclasses, those of the root class first, and then its own. -/
theorem WellFormed.layout_eq (h : l.WellFormed) {k : LoadedClass} (hk : l.resolve? k.name.text = some k) :
    k.layout = k.chain.reverse.flatMap LoadedClass.ownSlots := by
  match k with
  | ⟨_, _, none, _, _, _, _, _, _, _⟩ =>
    rw [(h.inPlace _ _ hk).root rfl]
    rfl
  | ⟨_, _, some s, _, _, _, _, _, _, _⟩ =>
    have hplace := h.inPlace _ _ hk
    rw [hplace.layout_eq_append rfl, h.layout_eq (hplace.superclass s rfl).1, LoadedClass.chain, List.reverse_cons,
      List.flatMap_append, List.flatMap_singleton]

/-- No class declares two fields of the same name. -/
theorem WellFormed.nodup_ownSlots (h : l.WellFormed) (hk : l.resolve? k.name.text = some k) :
    (k.ownSlots.map FieldSlot.name).Nodup := by
  have hplace := h.inPlace _ _ hk
  cases hsuper : k.superclass with
  | none =>
    rw [hplace.root hsuper]
    exact List.nodup_nil
  | some s =>
    have hslots := hplace.slots
    rw [hplace.layout_eq_append hsuper, List.map_append] at hslots
    have hown := (List.nodup_append.1 hslots).2.1
    rw [List.nodup_iff_pairwise_ne, LoadedClass.ownSlots, List.map_map, List.pairwise_map] at hown ⊢
    exact hown.imp fun hne heq => hne (Prod.ext rfl heq)

/-- The last slot of a name belongs to the nearest superclass that declares a field of the name. -/
theorem WellFormed.find?_reverse_layout (h : l.WellFormed) (hk : l.resolve? k.name.text = some k) (n : String) :
    k.layout.reverse.find? (·.name = n) = k.chain.findSome? fun s => s.ownSlots.find? (·.name = n) := by
  rw [h.layout_eq hk, List.reverse_flatMap, List.reverse_reverse, List.find?_flatMap]
  refine findSome?_of_forall₂ (List.forall₂_same.2 fun s hs => ?_)
  exact find?_reverse_of_nodup (h.nodup_ownSlots (h.resolve?_of_mem_chain hs hk)) n

/-- Classes that were defined one after the other had new names. -/
theorem new_of_defineEach {done cs : List LoadedClass} {items : List (String × ClassFile)}
    (h : (l.defineEach done items).1 = .ok cs) {x : String × ClassFile} (hx : x ∈ items) : l.contains x.1 = false := by
  induction items generalizing l done with
  | nil => cases hx
  | cons y items ih =>
    rw [defineEach, defineFile] at h
    rcases hlink : l.link y.1 y.2 with e | c
    · rw [hlink] at h
      cases h
    · rw [hlink] at h
      have hnew := (link_eq_ok hlink).2.2.1
      rcases List.mem_cons.1 hx with rfl | hx
      · exact hnew
      · have hlater := ih h hx
        rw [← Bool.not_eq_true] at hlater ⊢
        intro hheld
        obtain ⟨k, hk⟩ := Option.isSome_iff_exists.1 hheld
        exact hlater (Option.isSome_iff_exists.2 ⟨k, extends_insert hnew x.1 k hk⟩)

/-- A batch that was defined had new names, and all its classes are held. -/
theorem contains_of_defineAll {artifacts : List Artifact} (hnodup : (artifacts.map Artifact.name).Nodup)
    {cs : List LoadedClass} (h : (l.defineAll artifacts).1 = .ok cs) {a : Artifact} (ha : a ∈ artifacts) :
    l.contains a.name.text = false ∧ (l.defineAll artifacts).2.contains a.name.text = true := by
  unfold defineAll defineAllBy at h ⊢
  split at h
  · cases h
  · rename_i files hread
    have hnames : artifacts.map (fun a => a.name.text) = files.map Prod.fst := by
      rw [← List.forall₂_eq_eq_eq, List.forall₂_map_left_iff, List.forall₂_map_right_iff]
      refine (mapM_eq_ok.1 hread).imp fun a x hx => ?_
      simp only [bind_eq_ok, pure_eq_ok] at hx
      obtain ⟨f, -, rfl⟩ := hx
      rfl
    have hdistinct : (files.map Prod.fst).Nodup := by
      rw [← hnames, ← Function.comp_def, ← List.map_map]
      exact hnodup.map fun _ _ => Name.text_inj.1
    obtain ⟨x, hx, hname⟩ := List.mem_map.1 (hnames ▸ List.mem_map_of_mem ha)
    have hmem : x ∈ sortedBy Dependencies.sorted? files :=
      (perm_sortedBy Dependencies.toposort_sorted? hdistinct).mem_iff.2 hx
    rw [← hname]
    exact ⟨new_of_defineEach h hmem, contains_of_defineEach h hmem⟩

end Loader

/-! ## Layouts of entries -/

/-- The slot that an instance has for a field. -/
def FieldEntry.slot (f : FieldEntry) : FieldSlot := ⟨f.owner, f.name, f.ty⟩

namespace Registry.Describes

variable {r : Registry} {l : Loader}

/-- What is known of the fields of a class at compile time is its layout at run time. -/
theorem layout_eq (h : r.Describes l)
    (hown : ∀ {k e}, l.resolve? k.name.text = some k → r.get? k.name = some e → k.ownSlots = e.fields.map FieldEntry.slot)
    {k : LoadedClass} (hk : l.resolve? k.name.text = some k) (hregistered : r.contains k.name = true) :
    k.layout = (r.allFields k.name).map FieldEntry.slot := by
  have hchain := h.forall₂_chain hown hk hregistered
  rw [h.wellFormed.layout_eq hk, allFields, List.map_flatMap]
  generalize r.chain k.name = es at hchain
  generalize k.chain = ks at hchain
  induction hchain with
  | nil => rfl
  | cons hown _ ih =>
    rw [List.reverse_cons, List.reverse_cons, List.flatMap_append, List.flatMap_append, ih, List.flatMap_singleton,
      List.flatMap_singleton, hown]

/-- The last slot of a name belongs to the field that a class has or inherits under it. -/
theorem find?_layout_eq (h : r.Describes l)
    (hown : ∀ {k e}, l.resolve? k.name.text = some k → r.get? k.name = some e → k.ownSlots = e.fields.map FieldEntry.slot)
    {k : LoadedClass} (hk : l.resolve? k.name.text = some k) (hregistered : r.contains k.name = true) (n : String) :
    k.layout.reverse.find? (·.name = n) = (r.findField? k.name n).map FieldEntry.slot := by
  rw [h.wellFormed.find?_reverse_layout hk, findField?, List.map_findSome?]
  refine (findSome?_of_forall₂ ((h.forall₂_chain hown hk hregistered).imp fun e k hek => ?_)).symm
  rw [hek, List.find?_map]
  rfl

/-- The slot that is found by a name alone is that of the field that is found by it. -/
theorem slotNamed?_eq (h : r.Describes l)
    (hown : ∀ {k e}, l.resolve? k.name.text = some k → r.get? k.name = some e → k.ownSlots = e.fields.map FieldEntry.slot)
    {k : LoadedClass} (hk : l.resolve? k.name.text = some k) (hregistered : r.contains k.name = true) (n : String) :
    k.slotNamed? n = (r.findField? k.name n).bind (fun f => k.slot? f.owner.text n) ∧
      ((k.slotNamed? n).isSome = true ↔ (r.findField? k.name n).isSome = true) := by
  have hfind := h.find?_layout_eq hown hk hregistered n
  rw [k.isSome_slotNamed?, (h.wellFormed.inPlace _ _ hk).slotNamed?_eq, hfind, Option.bind_map, Option.isSome_map]
  exact ⟨rfl, Iff.rfl⟩

end Registry.Describes

/-! ## Classes that were compiled and loaded -/

/-- A field comes back from a class file with its name and its type. -/
theorem LoweredClass.FieldMade.load {f : ClassFile} {x : LoweredField} {info : FieldInfo} (h : FieldMade f.constants x info)
    (hty : x.ty ≠ .null) {y : LoadedField} (hy : f.loadField? info = some y) : y.name = x.name ∧ y.ty = x.ty := by
  simp only [ClassFile.loadField?, h.name, h.descriptor, Option.bind_eq_bind, Option.bind_some, Ty.ofDescriptor?_descriptor,
    Ty.erased_of_ne hty, Option.pure_def, Option.some.injEq] at hy
  subst hy
  exact ⟨rfl, rfl⟩

/-- The fields of a loaded class are those that were lowered. -/
theorem LoweredClass.ownSlots_of_define {b : Binding} {r : Registry} {low : LoweredClass} {bytes : Bytes}
    (hgen : low.generate b r = .ok bytes) (htypes : ∀ x ∈ low.fields, x.ty ≠ .null) {l : Loader} {name : String}
    {cls : LoadedClass} (hdefine : (l.define name bytes).1 = .ok cls) :
    cls.ownSlots = low.fields.map fun x => ⟨low.name, x.name, x.ty⟩ := by
  obtain ⟨_, f, -, hmade, hlink⟩ := exists_link hgen hdefine
  obtain ⟨-, -, -, _, s, -, -, -, hload⟩ := Loader.link_eq_ok hlink
  have hread := mapM_eq_some.1 (ClassFile.loads_of_load? hload).fields
  have hfields := hmade.fields
  rw [LoadedClass.ownSlots, (exists_loaded hgen hdefine).name]
  generalize low.fields = xs at htypes hfields
  generalize f.fields = infos at hread hfields
  generalize cls.fields = ys at hread
  induction hfields generalizing ys with
  | nil =>
    cases hread
    rfl
  | cons hx _ ih =>
    obtain ⟨y, ys, hy, hys, rfl⟩ := List.forall₂_cons_left_iff.1 hread
    obtain ⟨hname, hty⟩ := hx.load (htypes _ List.mem_cons_self) hy
    rw [List.map_cons, List.map_cons, hname, hty, ih (fun x hx => htypes x (List.mem_cons_of_mem _ hx)) ys hys]

namespace Compilation

variable {c : Compilation}

/-- The fields of an accepted class, with that for the outer instance, are those that were gathered from its definition. -/
theorem Accepted.ownSlots_eq {d : ClassDef} (h : c.Accepted d) {bytes : Bytes} (hpassed : c.Passed d bytes) {l : Loader}
    {name : String} {cls : LoadedClass} (hdefine : (l.define name bytes).1 = .ok cls) :
    cls.ownSlots = (d.entry c.declared).fields.map FieldEntry.slot := by
  obtain ⟨-, -, hfound, -⟩ := h.members
  obtain ⟨hentries, hclean, -⟩ := ClassDef.gatherFields_clean hfound
  have hfields : (d.entry c.declared).fields = d.fields.map d.fieldEntry ++ d.outerEntry? := hentries
  have htypes : ∀ x ∈ (d.lower c.config.optimize).fields, x.ty ≠ .null := by
    intro x hx
    rcases List.mem_append.1 hx with hx | hx
    · obtain ⟨f, hf, rfl⟩ := List.mem_map.1 hx
      exact (Site.isValue_of_checkValueType (hclean f hf).ty).2
    · obtain ⟨outer, -, rfl⟩ := List.mem_map.1 hx
      exact Ty.noConfusion
  rw [LoweredClass.ownSlots_of_define hpassed.generated htypes hdefine, hfields, ClassDef.lower, ClassDef.outerEntry?]
  simp only [List.map_append, List.map_map, Function.comp_def, ClassDef.fieldEntry, FieldEntry.slot]

/-- A class has the same fields at run time as at compile time. -/
theorem Built.ownSlots_of_loadInto (hc : Built c) (hclean : c.resolutionFindings = []) {l : Loader} (hl : l.WellFormed)
    (hnew : ∀ d ∈ c.defs, l.contains d.name.text = false) {k : LoadedClass}
    (hk : ((c.compile .classGeneration).2.loadInto l).2.resolve? k.name.text = some k) {e : ClassEntry}
    (he : c.resolved.get? k.name = some e) : k.ownSlots = e.fields.map FieldEntry.slot := by
  rcases hc.origin_of_loadInto hl hnew hk he with ⟨hhost, hheld, -⟩ | ⟨d, hd, rfl, bytes, hpassed, j, -, hdefine⟩
  · have hentry : ∀ e ∈ Host.classes, e.fields = [] := by decide
    have hloaded : ∀ k ∈ LoadedClass.hosts, k.ownSlots = [] := by decide
    rw [hentry e hhost, hloaded k hheld]
    rfl
  · exact (hc.accepted_of_resolved hclean hd).ownSlots_eq hpassed hdefine

/-! ## Success -/

/-- After a success nothing was found when the classes were resolved. -/
theorem Built.resolutionFindings_eq_nil (hc : Built c) (hok : (c.compile .classGeneration).1 = .ok ()) :
    c.resolutionFindings = [] := by
  rw [hc.resolve_eq.2.2]
  simp only [List.append_eq_nil_iff, List.flatMap_eq_nil_iff]
  exact ⟨⟨fun d hd => (hc.accepted hok hd).modifiers, fun d hd => (hc.accepted hok hd).declarations⟩,
    fun d hd => (hc.accepted hok hd).inherited⟩

/-- No two class files are of the same class. -/
theorem Built.nodup_artifacts (hc : Built c) (p : Phase) : ((c.compile p).2.artifacts.map Artifact.name).Nodup := by
  have hnames : ((c.compile p).2.modules.map (·.cls.name)).Nodup := by
    have hdefs := congrArg (List.map ClassDef.name) (c.carries_compile p).defs
    rw [defs, List.map_map] at hdefs
    exact hdefs ▸ hc.names.1
  rw [artifacts]
  generalize (c.compile p).2.modules = ms at hnames
  refine List.Nodup.sublist ?_ hnames
  induction ms with
  | nil => exact .slnil
  | cons m ms ih =>
    have hms := ih (List.nodup_cons.1 hnames).2
    cases hartifact : m.artifact with
    | none =>
      rw [List.filterMap_cons_none (by rw [hartifact]; rfl)]
      exact hms.cons _
    | some bytes =>
      rw [List.filterMap_cons_some (by rw [hartifact]; rfl)]
      exact hms.cons_cons _

/-- Only the resolution changes the registry. -/
theorem registry_advance (c : Compilation) {p : Phase} (hp : p ≠ .resolution) : (c.advance p).registry = c.registry := by
  unfold advance
  split
  · rfl
  · cases p with
    | resolution => exact absurd rfl hp
    | typeChecking =>
      show (if c.config.staticChecking then c.onModules (·.check c.registry) else c).registry = c.registry
      split <;> rfl
    | _ => rfl

/-- Running the phases leaves the registry with all classes entered. -/
theorem Built.registry_compile (hc : Built c) (hne : c.modules.isEmpty = false) :
    (c.compile .classGeneration).2.registry = c.resolved := by
  have hwithhold : ∀ c : Compilation, c.withhold.registry = c.registry := by
    intro c
    unfold withhold
    split <;> rfl
  have hrun : c.runTo .classGeneration =
      ((((c.runTo .parsing).advance .resolution).advance .typeChecking).advance .lowering).advance .classGeneration := rfl
  have hparsed : (c.runTo .parsing).registry = c.registry :=
    (registry_advance (c.advance .initialization) (p := .parsing) (by decide)).trans (registry_advance c (by decide))
  have hresolved : ((c.runTo .parsing).advance .resolution).registry = c.resolved := by
    rw [advance, isDone, completed_runTo hc.fresh.completed, if_neg (by decide)]
    show ((c.runTo .parsing).registry.resolve (c.runTo .parsing).defs).1 = _
    rw [hparsed, (c.carries_runTo .parsing).defs]
    rfl
  rw [compile_of_ne hne, hwithhold, hrun, registry_advance _ (by decide), registry_advance _ (by decide),
    registry_advance _ (by decide), hresolved]

/-- After a success the classes can be loaded only where their names are new, and then all of them are held. -/
theorem Built.contains_of_loadInto (hc : Built c) (hok : (c.compile .classGeneration).1 = .ok ()) {l : Loader}
    {loaded : List LoadedClass} (hload : ((c.compile .classGeneration).2.loadInto l).1 = .ok loaded) {d : ClassDef}
    (hd : d ∈ c.defs) : l.contains d.name.text = false ∧
      ((c.compile .classGeneration).2.loadInto l).2.contains d.name.text = true := by
  obtain ⟨bytes, hartifact, -⟩ := hc.exists_artifact hok hd
  exact Loader.contains_of_defineAll (hc.nodup_artifacts _) hload hartifact

/-- After a success, and once the classes are loaded, the layout of a class is slot by slot the list of all its fields in the
registry; and under each name the slot that is found by the name alone is that of the field that the registry finds, and there
is one iff the registry finds a field. -/
theorem Reached.layouts_agree (hc : Reached c) (hok : (c.compile .classGeneration).1 = .ok ()) {l₀ l : Loader}
    (hl₀ : l₀.Reachable) {loaded : List LoadedClass} (hload : (c.compile .classGeneration).2.loadInto l₀ = (.ok loaded, l))
    {d : ClassDef} (hd : d ∈ c.defs) :
    ∃ k, l.resolve? d.name.text = some k ∧
      k.layout = ((c.compile .classGeneration).2.registry.allFields d.name).map FieldEntry.slot ∧
      ∀ n, k.slotNamed? n =
          ((c.compile .classGeneration).2.registry.findField? d.name n).bind (fun f => k.slot? f.owner.text n) ∧
        ((k.slotNamed? n).isSome = true ↔ ((c.compile .classGeneration).2.registry.findField? d.name n).isSome = true) := by
  obtain ⟨c₀, hc₀, hcarries, heq⟩ := hc.compile_eq
  rw [heq] at hok hload ⊢
  rw [hcarries.defs] at hd
  have hne : c₀.modules.isEmpty = false := by
    obtain ⟨m, hm, -⟩ := List.mem_map.1 hd
    exact List.isEmpty_eq_false_iff.2 (List.ne_nil_of_mem hm)
  have hheld : ∀ d ∈ c₀.defs, l₀.contains d.name.text = false ∧ l.contains d.name.text = true := by
    intro d hd
    have h := hc₀.contains_of_loadInto hok (congrArg Prod.fst hload) hd
    rwa [hload] at h
  have hclean := hc₀.resolutionFindings_eq_nil hok
  have hnew : ∀ d ∈ c₀.defs, l₀.contains d.name.text = false := fun d hd => (hheld d hd).1
  have hdescribes : c₀.resolved.Describes l := by
    have h := hc₀.describes hclean hl₀ hnew
    rwa [hload] at h
  have hown : ∀ {k e}, l.resolve? k.name.text = some k → c₀.resolved.get? k.name = some e →
      k.ownSlots = e.fields.map FieldEntry.slot := by
    intro k e hk he
    refine hc₀.ownSlots_of_loadInto hclean hl₀.wellFormed hnew ?_ he
    rwa [hload]
  obtain ⟨k, hk⟩ := Option.isSome_iff_exists.1 (hheld d hd).2
  have hname : k.name = d.name := Name.text_inj.1 (hdescribes.wellFormed.named _ _ hk)
  have hregistered := hc₀.contains_of_mem_defs hd
  rw [← hname] at hk hregistered ⊢
  rw [hc₀.registry_compile hne]
  exact ⟨k, hk, hdescribes.layout_eq hown hk hregistered, hdescribes.slotNamed?_eq hown hk hregistered⟩

end Compilation

/-! ## An example -/

namespace Shadow

def baseName : Name := .ofPath ["A"] (Eq.refl true)

def subName : Name := .ofPath ["B"] (Eq.refl true)

def base : ClassDef where
  name := baseName
  members := [.field ⟨"v", .int, .pub, none⟩]

/-- A class with a field of the name of one that it inherits. -/
def sub : ClassDef where
  name := subName
  superclass := baseName
  members := [.field ⟨"v", .boolean, .pub, none⟩]

def compilation : Compilation where
  modules := [{ name := Module.syntheticName baseName, cls := base },
    { name := Module.syntheticName subName, cls := sub }]
  index := [("B", 1), ("A", 0)]

theorem built : compilation.Built := .add (d := sub) (.add (d := base) (.start {} Module.syntheticName) rfl) rfl

theorem reached : compilation.Reached := .add (d := sub) (.add (d := base) (.start {} Module.syntheticName) rfl) rfl

/-- The class file of a class with one field. -/
def file (name superclass : Name) (ty : Ty) : ClassFile where
  constants := #[.utf8 name.text, .cls 1, .utf8 superclass.text, .cls 3, .utf8 "v", .utf8 ty.descriptor,
    .utf8 constructorName, .utf8 "()V", .methodRef 4 7 8]
  access := .pub
  thisClass := 2
  superClass := 4
  inner := []
  fields := [⟨.pub, 5, 6⟩]
  methods := [{ access := .pub, name := 7, descriptor := 8, maxLocals := 1, code := #[9, 0, 0, 17, 0, 9, 43] }]

theorem verify_constants (name superclass : Name) (ty : Ty) : (file name superclass ty).constants.verify = .ok () := by
  have hdescriptor : Signature.ofDescriptor? "()V" = some ⟨[], .void⟩ :=
    Signature.ofDescriptor?_of_isValue (s := ⟨[], .void⟩) (by decide) Ty.noConfusion
  have hname : (file name superclass ty).constants.verifyAt 2 (.cls 1) = .ok () := by
    simp only [Constants.verifyAt, bind_eq_ok, orFail_eq_ok]
    exact ⟨_, rfl, _, name.parse?_text, rfl⟩
  have hsuper : (file name superclass ty).constants.verifyAt 4 (.cls 3) = .ok () := by
    simp only [Constants.verifyAt, bind_eq_ok, orFail_eq_ok]
    exact ⟨_, rfl, _, superclass.parse?_text, rfl⟩
  have hconstructor : (file name superclass ty).constants.verifyAt 9 (.methodRef 4 7 8) = .ok () := by
    simp only [Constants.verifyAt, bind_eq_ok, orFail_eq_ok, require_eq_ok]
    exact ⟨_, rfl, _, superclass.parse?_text, (), rfl, _, hdescriptor, rfl⟩
  have hall : (file name superclass ty).constants.toList = [.utf8 name.text, .cls 1, .utf8 superclass.text, .cls 3,
    .utf8 "v", .utf8 ty.descriptor, .utf8 constructorName, .utf8 "()V", .methodRef 4 7 8] := rfl
  rw [Constants.verify, hall]
  simp only [Constants.verifyFrom, bind_eq_ok]
  exact ⟨(), rfl, (), hname, (), rfl, (), hsuper, (), rfl, (), rfl, (), rfl, (), rfl, (), hconstructor, trivial⟩

theorem verify_files :
    (file baseName .object .int).verify = .ok () ∧ (file subName baseName .boolean).verify = .ok () := by
  simp only [ClassFile.verify, bind_eq_ok]
  constructor
  · exact ⟨(), verify_constants _ _ _, baseName, by cbv, (), rfl, (), by cbv, by cbv⟩
  · exact ⟨(), verify_constants _ _ _, subName, by cbv, (), rfl, (), by cbv, by cbv⟩

/-- The bytes of the class file. -/
def bytes (name superclass : Name) (ty : Ty) : Bytes := (file name superclass ty).encode.toOption.getD []

theorem encode_files :
    (file baseName .object .int).encode = .ok (bytes baseName .object .int) ∧
      (file subName baseName .boolean).encode = .ok (bytes subName baseName .boolean) := ⟨by cbv, by cbv⟩

def baseArtifact : Artifact := ⟨baseName, bytes baseName .object .int⟩

def subArtifact : Artifact := ⟨subName, bytes subName baseName .boolean⟩

theorem accepted_base : baseArtifact.Accepted (file baseName .object .int) where
  decoded := (Reads.classFile rfl (by decide) encode_files.1).decode
  verified := verify_files.1
  named := rfl

theorem accepted_sub : subArtifact.Accepted (file subName baseName .boolean) where
  decoded := (Reads.classFile rfl (by decide) encode_files.2).decode
  verified := verify_files.2
  named := rfl

theorem compile_eq : (compilation.compile .classGeneration).1 = .ok () ∧
    (compilation.compile .classGeneration).2.modules =
      [{ name := Module.syntheticName baseName, cls := base, lowered := some (base.lower true)
         artifact := some (bytes baseName .object .int) },
        { name := Module.syntheticName subName, cls := sub, lowered := some (sub.lower true)
          artifact := some (bytes subName baseName .boolean) }] := by
  cbv

theorem artifacts_eq : (compilation.compile .classGeneration).2.artifacts = [baseArtifact, subArtifact] := by
  rw [Compilation.artifacts, compile_eq.2]
  rfl

theorem superName?_base {f : ClassFile} (h : ClassFile.decode baseArtifact.bytes = .ok f) :
    f.superName? = some LoadedClass.object.name.text := by
  rw [← Except.ok.inj (accepted_base.decoded.symm.trans h)]
  rfl

theorem fits : Loader.boot.Fits [baseArtifact, subArtifact] := by
  refine ⟨by decide, fun a ha => ?_, fun a ha => ?_, fun a ha f hf => ?_⟩ <;>
    obtain rfl | rfl : a = baseArtifact ∨ a = subArtifact := by simpa using ha
  · exact Loader.contains_boot (by decide)
  · exact Loader.contains_boot (by decide)
  · exact ⟨_, accepted_base⟩
  · exact ⟨_, accepted_sub⟩
  · exact ⟨_, superName?_base hf.decoded, .inl ⟨.object, Loader.resolve?_boot (by simp [LoadedClass.hosts]), rfl⟩⟩
  · refine ⟨baseName.text, ?_, .inr ⟨baseArtifact, List.mem_cons_self, _, accepted_base, rfl, rfl⟩⟩
    rw [← Except.ok.inj (accepted_sub.decoded.symm.trans hf.decoded)]
    rfl

theorem exists_loadInto : ∃ loaded, ((compilation.compile .classGeneration).2.loadInto .boot).1 = .ok loaded := by
  rw [Compilation.loadInto, artifacts_eq]
  refine (fits.exists_defineAllBy_iff Dependencies.toposort_sorted?).2 (.inr (List.pairwise_pair.2 ?_))
  rintro ⟨f, hf, hsuper⟩
  rw [superName?_base hf] at hsuper
  exact absurd (Option.some.inj hsuper) (by decide)

theorem allFields_eq : compilation.resolved.allFields subName =
    [⟨baseName, "v", .int, .pub⟩, ⟨subName, "v", .boolean, .pub⟩] := by
  cbv

end Shadow

/-- A field that is shadowed keeps its slot, and is not found by the name alone. -/
theorem Compilation.Reached.layouts_agree_shadow :
    Shadow.compilation.Reached ∧ (Shadow.compilation.compile .classGeneration).1 = .ok () ∧ Loader.boot.Reachable ∧
      Shadow.sub ∈ Shadow.compilation.defs ∧ ∃ loaded l k,
        (Shadow.compilation.compile .classGeneration).2.loadInto .boot = (.ok loaded, l) ∧
        l.resolve? Shadow.subName.text = some k ∧
        k.layout = [⟨Shadow.baseName, "v", .int⟩, ⟨Shadow.subName, "v", .boolean⟩] ∧
        k.slotNamed? "v" = some 1 ∧ k.slotNamed? "w" = none := by
  have hsub : Shadow.sub ∈ Shadow.compilation.defs := List.mem_cons_of_mem _ List.mem_cons_self
  obtain ⟨loaded, hloaded⟩ := Shadow.exists_loadInto
  obtain ⟨k, hk, hlayout, hslots⟩ :=
    Shadow.reached.layouts_agree Shadow.compile_eq.1 .boot (Prod.ext (y := (_, _)) hloaded rfl) hsub
  rw [Shadow.built.registry_compile rfl] at hlayout hslots
  have hlayout : k.layout = [⟨Shadow.baseName, "v", .int⟩, ⟨Shadow.subName, "v", .boolean⟩] :=
    hlayout.trans (congrArg (List.map FieldEntry.slot) Shadow.allFields_eq)
  refine ⟨Shadow.reached, Shadow.compile_eq.1, .boot, hsub, loaded, _, k, Prod.ext hloaded rfl, hk, hlayout, ?_, ?_⟩
  · rw [LoadedClass.slotNamed?, hlayout]
    rfl
  · rw [LoadedClass.slotNamed?, hlayout]
    rfl

end ClassTree
