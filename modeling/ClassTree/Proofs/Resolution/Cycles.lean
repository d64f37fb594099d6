import ClassTree.Proofs.Registry.Cycles
import ClassTree.Proofs.Resolution.Order

/-!
# Classes that inherit from themselves

A class that names itself as its superclass is reported with its declaration (`ClassDef.circular_checkDeclarations_iff`), and
any other class on a cycle when its inherited members are looked at (`ClassDef.circular_checkInherited_iff`); no other finding
has that code (`Ordinary`). Beside the host library the cycles are those of the links between the classes at hand, because host
classes lead to the root class only, which extends none (`Registry.transGen_extends_iff`). So a class is reported iff it is on a
cycle of these links (`Registry.circular_iff`), and where nothing is found at all every chain ends in the root class
(`Registry.getLast?_chain_entries`).
-/

namespace ClassTree

open Relation

namespace ClassDef

variable {d : ClassDef} {r : Registry}

/-- One of the classes is called `a` and names `b` as its superclass. -/
def Extends (ds : List ClassDef) (a b : Name) : Prop := ∃ d ∈ ds, d.name = a ∧ d.superclass = b

/-! ## What is reported about one class -/

/-- A declared class that names itself as its superclass is reported for that, and no other. -/
theorem circular_checkSuperclass_iff (h : r.contains d.name = true) :
    (∃ x ∈ d.checkSuperclass r, x.code = .circularInheritance) ↔ d.superclass = d.name := by
  constructor
  · rintro ⟨x, hx, hcode⟩
    obtain ⟨message, -, rfl⟩ := List.mem_map.1 hx
    by_contra hne
    simp [Diagnostic.ofClass, hne] at hcode
  · intro heq
    obtain ⟨e, he⟩ := Option.isSome_iff_exists.1 h
    simp [checkSuperclass, superclassProblem?, heq, he, Diagnostic.ofClass]

theorem circular_checkDeclarations_iff (h : r.contains d.name = true) :
    (∃ x ∈ d.checkDeclarations r, x.code = .circularInheritance) ↔ d.superclass = d.name := by
  rw [← circular_checkSuperclass_iff h]
  constructor
  · rintro ⟨x, hx, hcode⟩
    simp only [checkDeclarations, List.mem_append] at hx
    rcases hx with (((hx | hx) | hx) | hx) | hx
    · exact absurd hcode (ordinary_checkEnclosing.code_ne hx)
    · exact ⟨x, hx, hcode⟩
    · exact absurd hcode (ordinary_gatherFields.code_ne hx)
    · exact absurd hcode (ordinary_gatherMethods.code_ne hx)
    · exact absurd hcode (ordinary_gatherConstructors.code_ne hx)
  · rintro ⟨x, hx, hcode⟩
    exact ⟨x, by simp [checkDeclarations, hx], hcode⟩

theorem circular_checkInherited_iff :
    (∃ x ∈ d.checkInherited r, x.code = .circularInheritance) ↔
      d.superclass ≠ d.name ∧ r.inheritance.isCyclic d.name = true := by
  by_cases h : (d.superclass ≠ d.name && r.inheritance.isCyclic d.name) = true
  · have hcircular : d.superclass ≠ d.name ∧ r.inheritance.isCyclic d.name = true := by simpa using h
    rw [checkInherited, if_pos h]
    exact iff_of_true ⟨_, List.mem_singleton_self _, rfl⟩ hcircular
  · refine iff_of_false ?_ fun hcircular => h (by simpa using hcircular)
    rintro ⟨x, hx, hcode⟩
    exact (ordinary_checkInherited h).code_ne hx hcode

end ClassDef

namespace Registry

variable {r : Registry} {a b n : Name}

/-! ## Links between classes -/

/-- A class is found to be cyclic iff superclass links lead from it back to it. -/
theorem isCyclic_iff_extends (hnodup : (r.classes.map (·.name)).Nodup) :
    r.inheritance.isCyclic n = true ↔ TransGen r.Extends n n := by
  have hlinks : r.inheritance.Links = r.Extends := by
    funext a b
    rw [← Inheritance.mem_parents_iff, parents_inheritance hnodup, Option.mem_toList]
    rfl
  rw [Inheritance.isCyclic_iff, hlinks]

/-- If every superclass is registered and only the root class has none, the line of a registered class ends in the root
class. -/
theorem Line.getLast?_eq {es : List ClassEntry} (hregistered : ∀ a b, r.Extends a b → r.contains b = true)
    (hroot : ∀ a e, r.get? a = some e → e.superclass = none → a = .object) (h : r.Line n es) (hn : r.contains n = true) :
    es.getLast?.map (·.name) = some .object := by
  induction h with
  | unregistered hnone =>
    rw [contains, hnone] at hn
    cases hn
  | root hget hs =>
    obtain rfl := hroot _ _ hget hs
    rw [List.getLast?_singleton, Option.map_some, (get?_eq_some hget).2]
  | @step n s e es hget hs _ ih =>
    have hlast := ih (hregistered n s (by rw [Extends, hget]; exact hs))
    cases es with
    | nil => cases hlast
    | cons e' es => rwa [List.getLast?_cons_cons]

/-! ## What is reported about a list of classes -/

section Resolved

variable {ds : List ClassDef} (hnodup : (ds.map ClassDef.name).Nodup)
  (hhost : ∀ d ∈ ds, HostClass.ofName? d.name = none)

/-- A link to a class that itself extends another one is a link between the classes at hand. -/
theorem extends_of_extends_entries {c : Name} (hab : (entries ds).Extends a b) (hbc : (entries ds).Extends b c) :
    ClassDef.Extends ds a b := by
  obtain ⟨e, he, hs⟩ := Option.bind_eq_some_iff.1 hab
  obtain ⟨hmem, rfl⟩ := get?_eq_some he
  rcases mem_entries hmem with hmem | ⟨d, hd, rfl⟩
  · obtain rfl := superclass_host hmem hs
    exact absurd hbc not_extends_object
  · exact ⟨d, hd, rfl, Option.some.inj hs⟩

theorem transGen_of_transGen_entries {c : Name} (h : TransGen (entries ds).Extends a b) (hbc : (entries ds).Extends b c) :
    TransGen (ClassDef.Extends ds) a b := by
  induction h generalizing c with
  | single hab => exact .single (extends_of_extends_entries hab hbc)
  | tail _ hlast ih => exact (ih hlast).tail (extends_of_extends_entries hlast hbc)

include hnodup hhost

/-- The host library adds no cycles. -/
theorem transGen_extends_iff : TransGen (entries ds).Extends n n ↔ TransGen (ClassDef.Extends ds) n n := by
  constructor
  · intro h
    obtain ⟨c, hc, -⟩ := TransGen.head'_iff.1 h
    exact transGen_of_transGen_entries h hc
  · refine TransGen.mono ?_ _ _
    rintro _ _ ⟨d, hd, rfl, rfl⟩
    rw [Extends, get?_entries hnodup hhost hd]
    rfl

/-- A class is reported for circular inheritance with its declaration or when its inherited members are looked at. -/
theorem circular_iff_kinds {d : ClassDef} (hd : d ∈ ds) :
    (∃ x ∈ (host.resolve ds).2, x.code = .circularInheritance ∧ x.cls = d.name.text) ↔
      (∃ x ∈ d.checkDeclarations (headers ds), x.code = .circularInheritance) ∨
        ∃ x ∈ d.checkInherited (entries ds), x.code = .circularInheritance := by
  have hmem : ∀ x, x ∈ (host.resolve ds).2 ∧ x.cls = d.name.text ↔
      (x ∈ d.checkModifiers ∨ x ∈ d.checkDeclarations (headers ds)) ∨ x ∈ d.checkInherited (entries ds) := by
    intro x
    rw [← List.mem_append, ← List.mem_append, ← findings_eq hnodup hhost hd, List.mem_filter, decide_eq_true_iff]
  constructor
  · rintro ⟨x, hx, hcode, hcls⟩
    rcases (hmem x).1 ⟨hx, hcls⟩ with (hx | hx) | hx
    · exact absurd hcode (ClassDef.ordinary_checkModifiers.code_ne hx)
    · exact .inl ⟨x, hx, hcode⟩
    · exact .inr ⟨x, hx, hcode⟩
  · rintro (⟨x, hx, hcode⟩ | ⟨x, hx, hcode⟩)
    · obtain ⟨hx, hcls⟩ := (hmem x).2 (.inl (.inr hx))
      exact ⟨x, hx, hcode, hcls⟩
    · obtain ⟨hx, hcls⟩ := (hmem x).2 (.inr hx)
      exact ⟨x, hx, hcode, hcls⟩

/-- One of the classes is reported for circular inheritance iff superclass links lead from it back to it. -/
theorem circular_iff_of_mem {d : ClassDef} (hd : d ∈ ds) :
    (∃ x ∈ (host.resolve ds).2, x.code = .circularInheritance ∧ x.cls = d.name.text) ↔
      TransGen (ClassDef.Extends ds) d.name d.name := by
  have hdeclared : (headers ds).contains d.name = true :=
    contains_of_mem (e := d.header) (List.mem_append_right _ (List.mem_map_of_mem hd))
  rw [circular_iff_kinds hnodup hhost hd, ClassDef.circular_checkDeclarations_iff hdeclared,
    ClassDef.circular_checkInherited_iff, isCyclic_iff_extends (nodup_entries hnodup hhost), transGen_extends_iff hnodup hhost]
  constructor
  · rintro (hself | ⟨-, hcycle⟩)
    · exact .single ⟨d, hd, rfl, hself⟩
    · exact hcycle
  · intro hcycle
    by_cases hself : d.superclass = d.name
    · exact .inl hself
    · exact .inr ⟨hself, hcycle⟩

/-- A name is reported for circular inheritance iff superclass links lead from it back to it. -/
theorem circular_iff : (∃ x ∈ (host.resolve ds).2, x.code = .circularInheritance ∧ x.cls = n.text) ↔
    TransGen (ClassDef.Extends ds) n n := by
  constructor
  · rintro ⟨x, hx, hcode, hcls⟩
    obtain ⟨-, d, hd, hname⟩ := host.aboutSome_resolve ds x hx
    obtain rfl : d.name = n := Name.text_inj.1 (hname.symm.trans hcls)
    exact (circular_iff_of_mem hnodup hhost hd).1 ⟨x, hx, hcode, hcls⟩
  · intro hcycle
    obtain ⟨_, ⟨d, hd, rfl, -⟩, -⟩ := TransGen.head'_iff.1 hcycle
    exact (circular_iff_of_mem hnodup hhost hd).2 hcycle

/-- If nothing is found, every chain ends in the root class. -/
theorem getLast?_chain_entries (hnone : (host.resolve ds).2 = []) {e : ClassEntry} (he : e ∈ (entries ds).classes) :
    ((entries ds).chain e.name).getLast?.map (·.name) = some .object := by
  rw [(host_resolve hnodup hhost).2] at hnone
  simp only [List.append_eq_nil_iff, List.flatMap_eq_nil_iff] at hnone
  obtain ⟨⟨-, hdeclarations⟩, hinherited⟩ := hnone
  have hr := acyclic_entries hnodup hhost hdeclarations hinherited
  refine Line.getLast?_eq (fun a b hab => ?_) (fun a e hget hs => ?_) (hr.line_chain e.name) (contains_of_mem he)
  · obtain ⟨e, hget, hs⟩ := Option.bind_eq_some_iff.1 hab
    rcases mem_entries (get?_eq_some hget).1 with hmem | ⟨d, hd, rfl⟩
    · obtain rfl := superclass_host hmem hs
      exact contains_of_mem (e := Host.objectEntry) (List.mem_append_left _ (by simp [Host.classes]))
    · obtain rfl : d.superclass = b := Option.some.inj hs
      have hsuper : d.checkSuperclass (headers ds) = [] := by
        have hnone := hdeclarations d hd
        simp only [ClassDef.checkDeclarations, List.append_eq_nil_iff] at hnone
        exact hnone.1.1.1.2
      obtain ⟨e, he, -⟩ := ClassDef.exists_superclass hsuper
      rw [contains_entries, contains, he]
      rfl
  · obtain ⟨hmem, rfl⟩ := get?_eq_some hget
    rcases mem_entries hmem with hmem | ⟨d, hd, rfl⟩
    · have hall : ∀ e ∈ Host.classes, e.superclass = none → e.name = .object := by decide
      exact hall e hmem hs
    · cases hs

/-- Inheritance cycles are found exactly. In a graph a name is cyclic iff links lead from it back to it. The cycles are the
lists, in strict order, of all names that links lead to and back from a name on a cycle; they are in strict order themselves,
they depend only on which links there are, and they are what a search among strongly connected components finds. Of classes
beside the host library those are reported that superclass links lead back to, and where nothing is found every chain ends
in the root class. -/
theorem cycles_exact (g : Inheritance) :
    ((∀ n, g.isCyclic n = true ↔ TransGen g.Links n n) ∧
      (∀ n, g.isCyclic n = true ↔ ∃ group ∈ g.cycles, n ∈ group) ∧
      (∀ group, group ∈ g.cycles ↔ group.Pairwise (Name.cmp · · = .lt) ∧
        ∃ n, TransGen g.Links n n ∧ ∀ m, m ∈ group ↔ TransGen g.Links n m ∧ TransGen g.Links m n) ∧
      g.cycles.Pairwise (List.compareLex Name.cmp · · = .lt) ∧
      (∀ g' : Inheritance, (∀ edge, edge ∈ g.edges ↔ edge ∈ g'.edges) → g.cycles = g'.cycles) ∧
      (∃ cs, g.IsComponents cs) ∧ ∀ cs, g.IsComponents cs → g.cyclesIn cs = g.cycles) ∧
    (∀ n, (∃ x ∈ (host.resolve ds).2, x.code = .circularInheritance ∧ x.cls = n.text) ↔
      TransGen (ClassDef.Extends ds) n n) ∧
    ((host.resolve ds).2 = [] → ∀ e ∈ (host.resolve ds).1.classes,
      ((host.resolve ds).1.chain e.name).getLast?.map (·.name) = some .object) := by
  refine ⟨⟨fun _ => Inheritance.isCyclic_iff, fun _ => Inheritance.isCyclic_iff_mem_cycles,
    fun _ => Inheritance.mem_cycles_iff_increasing, Inheritance.increasing_cycles, fun _ => Inheritance.cycles_congr,
    g.exists_isComponents, fun _ h => h.cyclesIn_eq⟩, fun _ => circular_iff hnodup hhost, fun hnone e he => ?_⟩
  rw [(host_resolve hnodup hhost).2] at he ⊢
  exact getLast?_chain_entries hnodup hhost hnone he

end Resolved

end Registry

/-! ## An example -/

namespace Tangle

/-- Links among the classes and to the root class, one of them twice. -/
def links : Inheritance := ⟨[(tailName, headName), (biteName, .object), (headName, tailName), (tailName, headName)]⟩

/-- The class that the others are nested in or extend, if it extended the root class, and the one nested in it. -/
def untied : List ClassDef := [bite, { name := tailName }]

theorem reaches_head : TransGen (ClassDef.Extends classes) headName headName :=
  .tail (.single ⟨head, by simp [classes], rfl, rfl⟩) ⟨tail, by simp [classes], rfl, rfl⟩

theorem not_reaches_bite : ¬ TransGen (ClassDef.Extends classes) biteName biteName := by
  intro h
  have hobject : ∀ d ∈ classes, d.name ≠ .object := by decide
  have hbite : ∀ d ∈ classes, d.name = biteName → d.superclass = .object := by decide
  obtain ⟨_, ⟨d, hd, hname, rfl⟩, hreach⟩ := TransGen.head'_iff.1 h
  rw [hbite d hd hname] at hreach
  rcases ReflTransGen.cases_head hreach with heq | ⟨_, ⟨d', hd', hname', -⟩, -⟩
  · exact absurd heq (by decide)
  · exact hobject d' hd' hname'

end Tangle

theorem Registry.cycles_exact_tangle :
    ((Tangle.classes.map ClassDef.name).Nodup ∧ (∀ d ∈ Tangle.classes, HostClass.ofName? d.name = none) ∧
      Tangle.links.cycles = [[Tangle.headName, Tangle.tailName]] ∧ TransGen Tangle.links.Links Tangle.tailName Tangle.tailName ∧
      (∃ x ∈ (host.resolve Tangle.classes).2, x.code = .circularInheritance ∧ x.cls = Tangle.headName.text) ∧
      ¬ ∃ x ∈ (host.resolve Tangle.classes).2, x.code = .circularInheritance ∧ x.cls = Tangle.biteName.text) ∧
    (Tangle.untied.map ClassDef.name).Nodup ∧ (∀ d ∈ Tangle.untied, HostClass.ofName? d.name = none) ∧
      (host.resolve Tangle.untied).2 = [] ∧ ∀ e ∈ (host.resolve Tangle.untied).1.classes,
        ((host.resolve Tangle.untied).1.chain e.name).getLast?.map (·.name) = some .object := by
  have hnodup : (Tangle.classes.map ClassDef.name).Nodup := by decide
  have hhost : ∀ d ∈ Tangle.classes, HostClass.ofName? d.name = none := by decide
  have hcycles : Tangle.links.cycles = [[Tangle.headName, Tangle.tailName]] := by cbv
  obtain ⟨⟨hlinks, hmem, -⟩, hreported, -⟩ := cycles_exact hnodup hhost Tangle.links
  refine ⟨⟨hnodup, hhost, hcycles, ?_, (hreported _).2 Tangle.reaches_head, mt (hreported _).1 Tangle.not_reaches_bite⟩, ?_⟩
  · rw [← hlinks, hmem, hcycles]
    exact ⟨_, List.mem_singleton_self _, by simp⟩
  · have hnodup : (Tangle.untied.map ClassDef.name).Nodup := by decide
    have hhost : ∀ d ∈ Tangle.untied, HostClass.ofName? d.name = none := by decide
    have hnone : (host.resolve Tangle.untied).2 = [] := by decide +kernel
    exact ⟨hnodup, hhost, hnone, (cycles_exact hnodup hhost Tangle.links).2.2 hnone⟩

end ClassTree
