import ClassTree.Proofs.Compilation.Stages

/-!
# What is found, class by class

* `Compilation.Attributed`: every finding is an error about the class of the module that it is in. All phases keep that
  (`Compilation.Attributed.runPhase`), so it holds of every compilation that is reached (`Compilation.Reached.attributed`).
* Hence a compilation fails iff the modules of some classes have errors, and names these (`Compilation.Attributed.result_eq`).
* However the phases are run, one after the other or several at a time, they end alike, with class files for the classes
  without errors (`Compilation.Reached.compile_stages`).
-/

namespace ClassTree

/-! ## Modules -/

/-- All that was found in a module are errors about its class, which goes by its name after it was lowered, too. -/
structure Module.Sound (m : Module) : Prop where
  found : About m.cls.name m.found
  lowered : ∀ l, m.lowered = some l → l.name = m.cls.name

namespace Module.Sound

variable {m : Module} {f : Module → Module}

theorem of_fresh (h : m.Fresh) : m.Sound := by
  refine ⟨?_, fun l hl => ?_⟩
  · rw [h.found]
    exact .nil
  · rw [h.lowered] at hl
    cases hl

theorem report (h : m.Sound) {ds : List Diagnostic} (hds : About m.cls.name ds) : (m.report ds).Sound :=
  ⟨h.found.append hds, h.lowered⟩

theorem check (h : m.Sound) (r : Registry) : (m.check r).Sound := h.report (ClassDef.about_check m.cls)

theorem lower (h : m.Sound) (optimize : Bool) : (m.lower optimize).Sound := by
  refine ⟨h.found, fun l hl => ?_⟩
  cases hl
  cases optimize <;> rfl

theorem generate (h : m.Sound) (b : Binding) (r : Registry) : (m.generate b r).Sound := by
  unfold Module.generate
  split
  · exact h
  · rename_i l hl
    split
    · exact ⟨h.found, h.lowered⟩
    · rename_i ds hds
      exact h.report (h.lowered l hl ▸ (LoweredClass.about_generate hds).1)

theorem unlessFailed (h : m.Sound) (hf : (f m).Sound) : (m.unlessFailed f).Sound := unlessFailed_of h hf

end Module.Sound

/-! ## Compilations -/

namespace Compilation

variable {c : Compilation}

/-- Every finding is an error about the class of the module that it is in. -/
structure Attributed (c : Compilation) : Prop where
  unattributed : c.unattributed = []
  modules : ∀ m ∈ c.modules, m.Sound

namespace Attributed

theorem onModules (h : c.Attributed) {f : Module → Module} (hf : ∀ m : Module, m.Sound → (f m).Sound) :
    (c.onModules f).Attributed := by
  refine ⟨h.unattributed, fun m hm => ?_⟩
  obtain ⟨m₀, hm₀, rfl⟩ := List.mem_map.1 hm
  exact (h.modules m₀ hm₀).unlessFailed (hf m₀ (h.modules m₀ hm₀))

/-- Findings about the classes all find the modules of these. -/
theorem distribute (h : c.Attributed) (hindexed : c.Indexed) {ds : List Diagnostic} (hds : AboutSome c.defs ds) :
    (c.distribute ds).Attributed := by
  rw [hindexed.distribute_eq]
  refine ⟨?_, fun m hm => ?_⟩
  · have hnone : ds.filter (fun d => (c.module? d.cls).isNone) = [] := by
      refine List.filter_eq_nil_iff.2 fun x hx => ?_
      obtain ⟨-, d, hd, hcls⟩ := hds x hx
      obtain ⟨m, hm, rfl⟩ := List.mem_map.1 hd
      rw [hcls, show m.cls.name.text = m.className from rfl, hindexed.module?_of_mem hm]
      exact Bool.false_ne_true
    rw [h.unattributed, hnone, List.append_nil]
  · obtain ⟨m₀, hm₀, rfl⟩ := List.mem_map.1 hm
    refine (h.modules m₀ hm₀).report fun x hx => ?_
    obtain ⟨hx, hcls⟩ := List.mem_filter.1 hx
    exact ⟨(hds x hx).1, of_decide_eq_true hcls⟩

theorem runPhase (h : c.Attributed) (hindexed : c.Indexed) (p : Phase) : (c.runPhase p).Attributed := by
  cases p with
  | initialization | parsing => exact h
  | resolution =>
    exact distribute (c := { c with registry := c.resolved }) ⟨h.unattributed, h.modules⟩ hindexed
      (c.registry.aboutSome_resolve c.defs)
  | typeChecking =>
    rw [Compilation.runPhase]
    split
    · exact h.onModules fun m hm => hm.check c.registry
    · exact h
  | lowering => exact h.onModules fun m hm => hm.lower c.config.optimize
  | classGeneration => exact h.onModules fun m hm => hm.generate c.config.binding c.registry

theorem runTo (h : c.Attributed) (hindexed : c.Indexed) (upTo : Phase) : (c.runTo upTo).Attributed := by
  have hall : ∀ (ps : List Phase) (c : Compilation), c.Attributed → c.Indexed → (ps.foldl advance c).Attributed := by
    intro ps
    induction ps with
    | nil => exact fun _ h _ => h
    | cons p ps ih =>
      refine fun c h hindexed => ih _ ?_ ((c.carries_advance p).indexed hindexed)
      unfold advance
      split
      · exact h
      · exact ⟨(h.runPhase hindexed p).unattributed, (h.runPhase hindexed p).modules⟩
  exact hall _ c h hindexed

theorem withhold (h : c.Attributed) : c.withhold.Attributed := by
  unfold Compilation.withhold
  split
  · refine ⟨h.unattributed, fun m hm => ?_⟩
    obtain ⟨m₀, hm₀, rfl⟩ := List.mem_map.1 hm
    exact ⟨(h.modules m₀ hm₀).found, (h.modules m₀ hm₀).lowered⟩
  · exact h

theorem compile (h : c.Attributed) (hindexed : c.Indexed) (upTo : Phase) : (c.compile upTo).2.Attributed := by
  unfold Compilation.compile
  split
  · exact h
  · exact (h.runTo hindexed upTo).withhold

theorem hasErrors_iff (h : c.Attributed) : c.hasErrors = true ↔ ∃ m ∈ c.modules, m.hasErrors = true := by
  rw [hasErrors, h.unattributed]
  simp [Diagnostic.hasErrors]

/-- The result of a compilation tells the classes whose modules have errors. -/
theorem result_eq (h : c.Attributed) : c.result =
    if ∃ m ∈ c.modules, m.hasErrors = true then .error (.semantic (c.modules.flatMap (·.found)) c.failed) else .ok () := by
  rw [result, diagnostics, h.unattributed, List.nil_append]
  simp only [h.hasErrors_iff]

end Attributed

theorem Reached.attributed (h : Reached c) : c.Attributed := by
  induction h with
  | start config moduleName => exact ⟨rfl, nofun⟩
  | add _ hadd ih =>
    obtain ⟨classes, -, rfl⟩ := add_eq_ok hadd
    obtain ⟨index, heq⟩ := foldl_enter classes _
    rw [heq]
    refine ⟨ih.unattributed, fun m hm => ?_⟩
    rcases List.mem_append.1 hm with hm | hm
    · exact ih.modules m hm
    · obtain ⟨d, -, rfl⟩ := List.mem_map.1 hm
      exact .of_fresh ⟨rfl, rfl, rfl⟩
  | compile upTo hc ih => exact ih.compile hc.indexed upTo

theorem compile_result (hne : c.modules.isEmpty = false) (p : Phase) : (c.compile p).1 = (c.compile p).2.result := by
  rw [compile_of_ne hne]

/-! ## Class files -/

/-- What all phases make of a module has a class file iff it has no errors. -/
theorem artifact_pass_iff {m : Module} (hm : m.Fresh) :
    (∃ bytes, (c.pass m).artifact = some bytes) ↔ (c.pass m).hasErrors = false := by
  refine ⟨fun ⟨bytes, hbytes⟩ => ?_, exists_artifact_of_pass⟩
  rw [pass] at hbytes ⊢
  have hreport : (m.report (c.resolutionFindings.filter (·.cls = m.className))).artifact = none := hm.artifact
  refine Module.hasErrors_of_artifact (Module.unlessFailed_of (P := fun m => m.artifact = none) ?_ ?_) hbytes
  all_goals
    split
    · exact Module.unlessFailed_of (P := fun m => m.artifact = none) hreport hreport
    · exact hreport

/-! ## Stages -/

/-- Runs the phases up to each of a list, one after the other. -/
def runStages (c : Compilation) (ps : List Phase) : Compilation := ps.foldl (fun c p => (c.compile p).2) c

/-- Running all phases comes to the same after some phases have been run. -/
theorem Reached.compile_compile (h : Reached c) (p : Phase) :
    (c.compile p).2.compile .classGeneration = c.compile .classGeneration := by
  cases hne : c.modules.isEmpty with
  | true =>
    have hsame : c.compile p = (.error .empty, c) := if_pos hne
    rw [hsame]
  | false =>
    -- From a compilation to which only classes were added, the phases that were run first make no difference.
    have hall : ∀ {c₀ : Compilation}, Built c₀ → c₀.modules.isEmpty = false → ∀ q,
        (c₀.compile q).2.compile .classGeneration = c₀.compile .classGeneration := by
      intro c₀ hc₀ hne₀ q
      rw [hc₀.fresh.compile_compile hne₀]
      cases q <;> rfl
    obtain ⟨c₀, hc₀, rfl | ⟨hne₀, q, rfl⟩⟩ := h.exists_built
    · exact hall hc₀ hne p
    · rw [hc₀.fresh.compile_compile hne₀, hall hc₀ hne₀, hall hc₀ hne₀]

theorem Reached.compile_runStages (h : Reached c) (ps : List Phase) :
    (c.runStages ps).compile .classGeneration = c.compile .classGeneration := by
  induction ps generalizing c with
  | nil => rfl
  | cons p ps ih => exact (ih (h.compile p)).trans (h.compile_compile p)

/-- Once all phases have been run, nothing is left to be done. -/
theorem Reached.compile_again (h : Reached c) (hne : c.modules.isEmpty = false) (p : Phase) :
    (c.compile .classGeneration).2.compile p = c.compile .classGeneration := by
  obtain ⟨c₀, hc₀, hcarries, heq⟩ := h.compile_eq
  rw [heq, hc₀.fresh.compile_compile (hcarries.isEmpty.symm.trans hne)]
  cases p <;> rfl

/-- However the phases are run, a few at a time or all at once, they end alike, and nothing is left to be done after all have
been run. Then every finding is in the module of the class that it names. A class has its class file iff it has no errors, or
none has one if errors take away the class files of all. The result of every run names the classes that have errors, in the
order in which they were added. -/
theorem Reached.compile_stages (h : Reached c) (hne : c.modules ≠ []) :
    (∀ ps, (c.runStages ps).compile .classGeneration = c.compile .classGeneration) ∧
      (∀ p, (c.compile .classGeneration).2.compile p = c.compile .classGeneration) ∧
      (c.compile .classGeneration).2.completed = some .classGeneration ∧
      (c.compile .classGeneration).2.unattributed = [] ∧
      (∀ m ∈ (c.compile .classGeneration).2.modules, ∀ x ∈ m.found, x.cls = m.className) ∧
      (c.config.atomic = false → ∀ m ∈ (c.compile .classGeneration).2.modules,
        (∃ bytes, m.artifact = some bytes) ↔ m.hasErrors = false) ∧
      (c.config.atomic = true → (∃ m ∈ (c.compile .classGeneration).2.modules, m.hasErrors = true) →
        ∀ m ∈ (c.compile .classGeneration).2.modules, m.artifact = none) ∧
      ∀ p, (c.compile p).2.defs = c.defs ∧
        (c.compile p).1 = if ∃ m ∈ (c.compile p).2.modules, m.hasErrors = true then
            .error (.semantic ((c.compile p).2.modules.flatMap (·.found))
              (((c.compile p).2.modules.filter (·.hasErrors)).map (·.className)))
          else .ok () := by
  have hne' : c.modules.isEmpty = false := List.isEmpty_eq_false_iff.2 hne
  have hattributed := (h.compile .classGeneration).attributed
  obtain ⟨c₀, hc₀, hcarries, heq⟩ := h.compile_eq
  have hne₀ : c₀.modules.isEmpty = false := hcarries.isEmpty.symm.trans hne'
  obtain ⟨c', hc', hconfig, hmodules, -⟩ := hc₀.fresh.compile_eq hne₀
  refine ⟨h.compile_runStages, h.compile_again hne', ?_, hattributed.unattributed, fun m hm x hx =>
    ((hattributed.modules m hm).found x hx).2, fun hatomic m hm => ?_, fun hatomic hfailed m hm => ?_, fun p =>
    ⟨(c.carries_compile p).defs, ?_⟩⟩
  · rw [heq, hc₀.fresh.completed_compile hne₀]
  · rw [heq, hc'] at hm
    have hkept : c'.withhold = c' := by simp [withhold, hconfig, ← hcarries.config, hatomic]
    rw [hkept, hmodules] at hm
    obtain ⟨m₀, hm₀, rfl⟩ := List.mem_map.1 hm
    exact artifact_pass_iff (hc₀.fresh.modules m₀ hm₀)
  · rw [← hattributed.hasErrors_iff, heq, hc', hasErrors_withhold] at hfailed
    rw [heq, hc', withhold, hconfig, ← hcarries.config, hatomic, hfailed] at hm
    obtain ⟨m₀, -, rfl⟩ := List.mem_map.1 hm
    rfl
  · rw [compile_result hne', (h.compile p).attributed.result_eq]
    rfl

end Compilation

/-! ## An example -/

namespace Weather

def calmName : Name := .ofPath ["Calm"] (Eq.refl true)

def stormName : Name := .ofPath ["Storm"] (Eq.refl true)

/-- A class with a method that gives a number. -/
def calm : ClassDef where
  name := calmName
  members := [.method ⟨"wind", .pub, [], .int, some [.ret (some (.lit (.int 1)))]⟩]

/-- A class with a method that should give a number, too. -/
def storm (wind : Literal) : ClassDef where
  name := stormName
  members := [.method ⟨"wind", .pub, [], .int, some [.ret (some (.lit wind))]⟩]

def compilation (atomic : Bool) (wind : Literal) : Compilation where
  config := { atomic }
  modules := [
    { name := Module.syntheticName calmName, cls := calm }, { name := Module.syntheticName stormName, cls := storm wind }]
  index := [("Storm", 1), ("Calm", 0)]

theorem reached (atomic : Bool) (wind : Literal) : (compilation atomic wind).Reached :=
  .add (d := storm wind) (.add (d := calm) (.start { atomic } Module.syntheticName) rfl) rfl

end Weather

/-- A text in the place of a number is found when classes are checked, and running the phases in stages changes nothing. -/
theorem Compilation.Reached.compile_stages_weather :
    (Weather.compilation true (.str "gale")).Reached ∧ (Weather.compilation true (.str "gale")).modules ≠ [] ∧
      (∃ found, ((Weather.compilation true (.str "gale")).compile .typeChecking).1 = .error (.semantic found ["Storm"])) ∧
      ((Weather.compilation true (.str "gale")).runStages [.resolution, .parsing, .typeChecking]).compile .classGeneration =
        (Weather.compilation true (.str "gale")).compile .classGeneration := by
  have hreached := Weather.reached true (.str "gale")
  have hne : (Weather.compilation true (.str "gale")).modules ≠ [] := List.cons_ne_nil _ _
  obtain ⟨hstages, -, -, -, -, -, -, hresult⟩ := hreached.compile_stages hne
  have hsome : ∃ m ∈ ((Weather.compilation true (.str "gale")).compile .typeChecking).2.modules, m.hasErrors = true := by
    decide +kernel
  have hfailed : ((((Weather.compilation true (.str "gale")).compile .typeChecking).2.modules.filter (·.hasErrors)).map
      (·.className)) = ["Storm"] := by decide +kernel
  have herror := (hresult .typeChecking).2
  rw [if_pos hsome, hfailed] at herror
  exact ⟨hreached, hne, ⟨_, herror⟩, hstages _⟩

end ClassTree
