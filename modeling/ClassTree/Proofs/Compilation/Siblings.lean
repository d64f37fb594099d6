import ClassTree.Proofs.Compilation.Results
import ClassTree.Proofs.Resolution.Order

/-!
# Classes that are compiled together do not interfere

`ClassDef.outline` is a class without the code in it: no initial values, and empty bodies. Nothing else of a class gets into
the registry (`ClassDef.entry_outline`), so what the phases make of a class depends on the others only through their outlines
(`Compilation.Reached.siblings_apart`).
-/

namespace ClassTree

/-! ## Outlines -/

/-- A member without the code in it; an abstract method stays one. -/
def Member.outline : Member → Member
  | .field f => .field { f with init := none }
  | .method m => .method { m with body := m.body.map fun _ => [] }
  | .ctor k => .ctor { k with body := [] }

namespace ClassDef

/-- A class without the code in its members. -/
def outline (d : ClassDef) : ClassDef := { d with members := d.members.map Member.outline }

variable (d : ClassDef)

theorem fields_outline : d.outline.fields = d.fields.map fun f => { f with init := none } := by
  simp only [fields, outline, List.filterMap_map, List.map_filterMap]
  congr 1
  funext x
  cases x <;> rfl

theorem methods_outline :
    d.outline.methods = d.methods.map fun m => { m with body := m.body.map fun _ => [] } := by
  simp only [methods, outline, List.filterMap_map, List.map_filterMap]
  congr 1
  funext x
  cases x <;> rfl

theorem constructors_outline : d.outline.constructors = d.constructors.map fun k => { k with body := [] } := by
  simp only [constructors, outline, List.filterMap_map, List.map_filterMap]
  congr 1
  funext x
  cases x <;> rfl

end ClassDef

namespace ClassDef

variable (d : ClassDef) (r : Registry)

theorem entries_gatherFields_outline : (d.outline.gatherFields r).entries = (d.gatherFields r).entries := by
  have hfold : ((d.outline.fields.foldl (d.outline.gatherField r) (∅, {})).1 =
        (d.fields.foldl (d.gatherField r) (∅, {})).1 ∧
      (d.outline.fields.foldl (d.outline.gatherField r) (∅, {})).2.entries =
        (d.fields.foldl (d.gatherField r) (∅, {})).2.entries) := by
    rw [fields_outline, List.foldl_map]
    refine List.foldl_rel (r := fun (a b : Std.HashSet String × Gathered FieldEntry) =>
      a.1 = b.1 ∧ a.2.entries = b.2.entries) ⟨rfl, rfl⟩ fun f _ a b hab => ?_
    obtain ⟨seen, g⟩ := a
    obtain ⟨seen', g'⟩ := b
    obtain ⟨rfl, hentries⟩ := hab
    simp only [gatherField]
    have hrepeats : d.outline.repeatsField seen { f with init := none } = d.repeatsField seen f := rfl
    rw [hrepeats]
    split
    · exact ⟨rfl, Gathered.entries_add_congr hentries rfl _ _⟩
    · exact ⟨rfl, Gathered.entries_add_congr hentries rfl _ _⟩
  unfold gatherFields
  have henclosing : d.outline.enclosing = d.enclosing := rfl
  have hinner : d.outline.isInner = d.isInner := rfl
  rw [henclosing, hinner]
  dsimp only
  split
  · exact congrArg (Array.push · _) hfold.2
  · exact hfold.2

theorem entries_gatherMethods_outline : (d.outline.gatherMethods r).entries = (d.gatherMethods r).entries := by
  rw [gatherMethods, gatherMethods, methods_outline, List.foldl_map]
  refine List.foldl_rel (r := fun (a b : Gathered MethodEntry) => a.entries = b.entries) rfl fun m _ g g' hentries => ?_
  have hentry : d.outline.methodEntry { m with body := m.body.map fun _ => [] } = d.methodEntry m := by
    simp [methodEntry, outline]
  unfold gatherMethod
  refine Gathered.entries_add_congr hentries ?_ _ _
  rw [hentry, hentries]
  exact Gathered.toOption_unless

theorem entries_gatherConstructors_outline : (d.outline.gatherConstructors r).entries = (d.gatherConstructors r).entries := by
  refine entries_gatherConstructors_congr rfl ?_
  rw [constructors_outline, List.forall₂_map_right_iff]
  exact List.forall₂_same.2 fun _ _ => rfl

/-- A class is entered in the registry as its outline is. -/
theorem entry_outline : d.outline.entry r = d.entry r := by
  rw [entry, entry, entries_gatherFields_outline, entries_gatherMethods_outline, entries_gatherConstructors_outline]
  rfl

end ClassDef

namespace Registry

variable {ds ds' : List ClassDef}

theorem headers_congr (h : ds.map ClassDef.outline = ds'.map ClassDef.outline) : headers ds = headers ds' := by
  have hmap : ∀ ds : List ClassDef, (ds.map ClassDef.outline).map ClassDef.header = ds.map ClassDef.header := by
    intro ds
    rw [List.map_map]
    rfl
  rw [headers, headers, ← hmap, h, hmap]

theorem entries_congr (h : ds.map ClassDef.outline = ds'.map ClassDef.outline) : entries ds = entries ds' := by
  have hmap : ∀ (r : Registry) (ds : List ClassDef), (ds.map ClassDef.outline).map (ClassDef.entry r) =
      ds.map (ClassDef.entry r) := by
    intro r ds
    rw [List.map_map]
    exact List.map_congr_left fun d _ => d.entry_outline r
  rw [entries, entries, headers_congr h, ← hmap, h, hmap]

end Registry

/-! ## Modules of other names -/

/-- The module under another name. -/
def Module.rename (m : Module) (name : String) : Module := { m with name }

theorem Module.unlessFailed_rename {f : Module → Module} (hf : ∀ m name, f (m.rename name) = (f m).rename name) (m : Module)
    (name : String) : (m.rename name).unlessFailed f = (m.unlessFailed f).rename name := by
  have herrors : (m.rename name).hasErrors = m.hasErrors := rfl
  rw [unlessFailed, unlessFailed, herrors, hf]
  split <;> rfl

theorem Module.generate_rename (b : Binding) (r : Registry) (m : Module) (name : String) :
    (m.rename name).generate b r = (m.generate b r).rename name := by
  have hlowered : (m.rename name).lowered = m.lowered := rfl
  rw [generate, generate, hlowered]
  split
  · rfl
  · split <;> rfl

namespace Compilation

variable {c c' : Compilation}

/-- What the phases make of a module does not depend on its name. -/
theorem pass_rename (c : Compilation) (m : Module) (name : String) : c.pass (m.rename name) = (c.pass m).rename name := by
  have hreport : (m.rename name).report (c.resolutionFindings.filter (·.cls = m.className)) =
      (m.report (c.resolutionFindings.filter (·.cls = m.className))).rename name := rfl
  have hclass : (m.rename name).className = m.className := rfl
  have hcheck := Module.unlessFailed_rename (f := (·.check c.resolved)) fun _ _ => rfl
  have hlower := Module.unlessFailed_rename (f := (·.lower c.config.optimize)) fun _ _ => rfl
  have hgenerate := Module.unlessFailed_rename (f := (·.generate c.config.binding c.resolved)) fun m name =>
    m.generate_rename _ _ name
  rw [pass, pass, hclass, hreport]
  split
  · rw [hcheck, hlower, hgenerate]
  · rw [hlower, hgenerate]

/-- A class goes through all phases alike wherever the same is registered and the same is found about it. -/
theorem pass_congr (hconfig : c.config = c'.config) (hresolved : c.resolved = c'.resolved) {m : Module}
    (hfound : c.resolutionFindings.filter (·.cls = m.className) = c'.resolutionFindings.filter (·.cls = m.className)) :
    c.pass m = c'.pass m := by
  rw [pass, pass, hconfig, hresolved, hfound]

/-- The registry that is resolved, and what is found about a class, by the outlines of all classes. -/
theorem Built.resolve_eq_entries (h : Built c) : c.resolved = Registry.entries c.defs ∧ ∀ {d}, d ∈ c.defs →
    c.resolutionFindings.filter (·.cls = d.name.text) =
      d.checkModifiers ++ d.checkDeclarations (.headers c.defs) ++ d.checkInherited (.entries c.defs) := by
  obtain ⟨hnodup, hhost⟩ := h.names
  rw [resolved, resolutionFindings, h.fresh.registry]
  exact ⟨congrArg Prod.fst (Registry.host_resolve hnodup hhost).2, Registry.findings_eq hnodup hhost⟩

/-- After all phases, the module of a class is what they make of it by itself. -/
theorem Built.module?_compile (h : Built c) (hatomic : c.config.atomic = false) {m : Module} (hm : m ∈ c.modules) :
    (c.compile .classGeneration).2.module? m.className = some (c.pass m) := by
  have hne : c.modules.isEmpty = false := List.isEmpty_eq_false_iff.2 (List.ne_nil_of_mem hm)
  have hindexed := (c.carries_compile .classGeneration).indexed h.fresh.indexed
  obtain ⟨c₁, heq, hconfig, hmodules, -⟩ := h.fresh.compile_eq hne
  have hkept : c₁.withhold = c₁ := by simp [withhold, hconfig, hatomic]
  rw [heq, hkept] at hindexed ⊢
  have hclass : (c.pass m).className = m.className := congrArg (fun d => d.name.text) (c.cls_pass m)
  rw [← hclass]
  exact hindexed.module?_of_mem (hmodules ▸ List.mem_map_of_mem hm)

/-- Classes that are compiled together do not interfere: what is found in a class, and its class file, depend on the other
classes only through their outlines, whether these get class files or not. -/
theorem Reached.siblings_apart (hc : Reached c) (hc' : Reached c') (hconfig : c.config = c'.config)
    (hatomic : c.config.atomic = false) (hsame : c.defs.map ClassDef.outline = c'.defs.map ClassDef.outline)
    {d : ClassDef} (hd : d ∈ c.defs) (hd' : d ∈ c'.defs) :
    ∃ m m', (c.compile .classGeneration).2.module? d.name.text = some m ∧
      (c'.compile .classGeneration).2.module? d.name.text = some m' ∧
      m.cls = d ∧ m'.cls = d ∧ m.found = m'.found ∧ m.artifact = m'.artifact := by
  obtain ⟨c₀, hc₀, hcarries, heq⟩ := hc.compile_eq
  obtain ⟨c₁, hc₁, hcarries', heq'⟩ := hc'.compile_eq
  rw [hcarries.defs] at hsame hd
  rw [hcarries'.defs] at hsame hd'
  have hconfig₀ : c₀.config = c₁.config := hcarries.config.symm.trans (hconfig.trans hcarries'.config)
  rw [hcarries.config] at hatomic
  -- Both registries are the same, and so is what the resolution finds about the class.
  have hheaders := Registry.headers_congr hsame
  have hentries := Registry.entries_congr hsame
  have hresolved : c₀.resolved = c₁.resolved := by rw [hc₀.resolve_eq_entries.1, hc₁.resolve_eq_entries.1, hentries]
  have hfound : c₀.resolutionFindings.filter (·.cls = d.name.text) = c₁.resolutionFindings.filter (·.cls = d.name.text) := by
    rw [hc₀.resolve_eq_entries.2 hd, hc₁.resolve_eq_entries.2 hd', hheaders, hentries]
  obtain ⟨m, hm, rfl⟩ := List.mem_map.1 hd
  obtain ⟨m', hm', hcls⟩ := List.mem_map.1 hd'
  have hrename : m' = m.rename m'.name := by
    have hfresh := hc₀.fresh.modules m hm
    have hfresh' := hc₁.fresh.modules m' hm'
    cases m
    cases m'
    obtain ⟨rfl, rfl, rfl⟩ := hfresh
    obtain ⟨rfl, rfl, rfl⟩ := hfresh'
    cases hcls
    rfl
  have hpass : c₁.pass m' = (c₀.pass m).rename m'.name := by
    rw [hrename, pass_rename, pass_congr hconfig₀ hresolved hfound]
    rfl
  refine ⟨c₀.pass m, c₁.pass m', ?_, ?_, cls_pass _ _, (cls_pass _ _).trans hcls, ?_, ?_⟩
  · rw [heq]
    exact hc₀.module?_compile hatomic hm
  · rw [heq', ← hcls]
    exact hc₁.module?_compile (hconfig₀ ▸ hatomic) hm'
  · rw [hpass]
    rfl
  · rw [hpass]
    rfl

end Compilation

/-- A class has the same class file, or none, beside one with an error as beside one without. -/
theorem Compilation.Reached.siblings_apart_calm :
    (Weather.compilation false (.str "gale")).Reached ∧ (Weather.compilation false (.int 2)).Reached ∧
      ((Weather.compilation false (.str "gale")).compile .typeChecking).2.failed = ["Storm"] ∧
      ((Weather.compilation false (.int 2)).compile .typeChecking).2.failed = [] ∧
      ∃ m m', ((Weather.compilation false (.str "gale")).compile .classGeneration).2.module? "Calm" = some m ∧
        ((Weather.compilation false (.int 2)).compile .classGeneration).2.module? "Calm" = some m' ∧
        m.found = m'.found ∧ m.artifact = m'.artifact := by
  have hreached := Weather.reached false (.str "gale")
  have hreached' := Weather.reached false (.int 2)
  have hmem : ∀ wind, Weather.calm ∈ (Weather.compilation false wind).defs := fun _ => List.mem_cons_self
  obtain ⟨m, m', hm, hm', -, -, hfound, hartifact⟩ :=
    hreached.siblings_apart hreached' rfl rfl rfl (hmem (.str "gale")) (hmem (.int 2))
  exact ⟨hreached, hreached', by decide +kernel, by decide +kernel, m, m', hm, hm', hfound, hartifact⟩

end ClassTree
