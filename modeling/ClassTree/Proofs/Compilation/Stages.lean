import ClassTree.Proofs.Compile.Failures
import ClassTree.Proofs.Resolution

/-!
# Compilations in stages

`Compilation.Reached` are the compilations that adding classes and running phases, a few at a time, leads to. Each is a
compilation to which only classes were added, or what running phases of one comes to (`Reached.exists_built`), and running
all phases from there comes to the same (`Reached.compile_eq`). When that succeeds, every class has its class file
(`Built.exists_artifact`).
-/

namespace ClassTree

/-- A class that was lowered gets its class file unless there are errors. -/
theorem Module.exists_artifact_of_generate {m : Module} {l : LoweredClass} {b : Binding} {r : Registry}
    (hl : m.lowered = some l) (h : (m.generate b r).hasErrors = false) : ∃ bytes, (m.generate b r).artifact = some bytes := by
  unfold generate at h ⊢
  rw [hl] at h ⊢
  dsimp only at h ⊢
  split
  · exact ⟨_, rfl⟩
  · rename_i ds hfailed
    have herrors := LoweredClass.hasErrors_of_generate hfailed
    simp only [hfailed, Module.hasErrors, Module.report, Diagnostic.hasErrors, List.any_append, Bool.or_eq_false_iff] at h
    exact absurd (h.2.symm.trans herrors) Bool.false_ne_true

namespace Compilation

/-- The compilations that adding classes and running phases leads to. -/
inductive Reached : Compilation → Prop
  | start (config : Config) (moduleName : Name → String) : Reached { config, moduleName }
  | add {c c' : Compilation} {d : ClassDef} : Reached c → c.add d = .ok c' → Reached c'
  | compile {c : Compilation} (upTo : Phase) : Reached c → Reached (c.compile upTo).2

/-! ## Running phases -/

/-- The phases up to one. -/
def phasesTo (upTo : Phase) : List Phase := Phase.all.filter (·.rank ≤ upTo.rank)

/-- Runs the phases up to one, as far as they have not been run. -/
def runTo (c : Compilation) (upTo : Phase) : Compilation := (phasesTo upTo).foldl advance c

theorem compile_of_ne {c : Compilation} (hne : c.modules.isEmpty = false) (upTo : Phase) :
    c.compile upTo = ((c.runTo upTo).withhold.result, (c.runTo upTo).withhold) := by
  rw [compile, hne, if_neg Bool.false_ne_true]
  rfl

/-- What phases keep: how classes are compiled, and the classes in their order, each in its module. -/
structure Carries (c c' : Compilation) : Prop where
  config : c'.config = c.config
  moduleName : c'.moduleName = c.moduleName
  index : c'.index = c.index
  names : c'.modules.map Module.name = c.modules.map Module.name
  defs : c'.defs = c.defs

namespace Carries

variable {c c' c'' : Compilation}

theorem refl (c : Compilation) : c.Carries c := ⟨rfl, rfl, rfl, rfl, rfl⟩

theorem trans (h : c.Carries c') (h' : c'.Carries c'') : c.Carries c'' where
  config := h'.config.trans h.config
  moduleName := h'.moduleName.trans h.moduleName
  index := h'.index.trans h.index
  names := h'.names.trans h.names
  defs := h'.defs.trans h.defs

theorem isEmpty (h : c.Carries c') : c'.modules.isEmpty = c.modules.isEmpty := by
  have heq := congrArg List.isEmpty h.defs
  simpa only [Compilation.defs, List.isEmpty_map] using heq

theorem indexed (h : c.Carries c') (hc : c.Indexed) : c'.Indexed := by
  have hnames := congrArg (List.map fun d : ClassDef => d.name.text) h.defs
  rw [Compilation.defs, Compilation.defs, List.map_map, List.map_map] at hnames
  intro name i
  rw [position?, h.index]
  exact (hc name i).trans (iff_of_eq (congrArg (fun names => names[i]? = some name) hnames.symm))

end Carries

theorem carries_onModules (c : Compilation) {f : Module → Module} (hf : ∀ m, (f m).name = m.name ∧ (f m).cls = m.cls) :
    c.Carries (c.onModules f) := by
  refine ⟨rfl, rfl, rfl, ?_, ?_⟩
  · simp only [onModules, List.map_map]
    exact List.map_congr_left fun m _ => Module.unlessFailed_of (P := fun m' => m'.name = m.name) rfl (hf m).1
  · simp only [defs, onModules, List.map_map]
    exact List.map_congr_left fun m _ => Module.cls_unlessFailed fun m => (hf m).2

theorem carries_distribute (c : Compilation) (ds : List Diagnostic) : c.Carries (c.distribute ds) := by
  have hkept : ∀ {α : Type} (g : Module → α), (∀ m ds, g (m.report ds) = g m) →
      (c.distribute ds).modules.map g = c.modules.map g := by
    intro α g hg
    refine List.ext_getElem? fun i => ?_
    simp [distribute, hg, Function.comp_def]
  exact ⟨rfl, rfl, rfl, hkept _ fun _ _ => rfl, hkept _ fun _ _ => rfl⟩

theorem carries_runPhase (c : Compilation) (p : Phase) : c.Carries (c.runPhase p) := by
  cases p with
  | initialization | parsing => exact .refl c
  | resolution =>
    have hregistry : c.Carries { c with registry := c.resolved } := ⟨rfl, rfl, rfl, rfl, rfl⟩
    exact hregistry.trans (carries_distribute _ _)
  | typeChecking =>
    rw [runPhase]
    split
    · exact c.carries_onModules fun _ => ⟨rfl, rfl⟩
    · exact .refl c
  | lowering => exact c.carries_onModules fun _ => ⟨rfl, rfl⟩
  | classGeneration => exact c.carries_onModules fun _ => ⟨Module.name_generate, Module.cls_generate⟩

theorem carries_advance (c : Compilation) (p : Phase) : c.Carries (c.advance p) := by
  unfold advance
  split
  · exact .refl c
  · exact (c.carries_runPhase p).trans ⟨rfl, rfl, rfl, rfl, rfl⟩

theorem carries_runTo (c : Compilation) (upTo : Phase) : c.Carries (c.runTo upTo) := by
  have h : ∀ (ps : List Phase) (c : Compilation), c.Carries (ps.foldl advance c) := by
    intro ps
    induction ps with
    | nil => exact .refl
    | cons p ps ih => exact fun c => (c.carries_advance p).trans (ih _)
  exact h _ c

theorem carries_withhold (c : Compilation) : c.Carries c.withhold := by
  unfold withhold
  split
  · exact ⟨rfl, rfl, rfl, by simp, by simp [defs]⟩
  · exact .refl c

theorem carries_compile (c : Compilation) (upTo : Phase) : c.Carries (c.compile upTo).2 := by
  unfold compile
  split
  · exact .refl c
  · exact (c.carries_runTo upTo).trans (carries_withhold _)

theorem Reached.indexed {c : Compilation} (h : Reached c) : c.Indexed := by
  induction h with
  | start config moduleName => simp [Indexed, position?]
  | add _ hadd ih => exact ih.add hadd
  | compile upTo _ ih => exact (carries_compile _ upTo).indexed ih

/-- All phases up to one have been run, and none after it. -/
theorem completed_runTo {c : Compilation} (hc : c.completed = none) (upTo : Phase) :
    (c.runTo upTo).completed = some upTo := by
  -- Before a phase is run, only phases of lower rank have been.
  have hbefore : ∀ (ps : List Phase) (n : Nat), (∀ p ∈ ps, p.rank < n) → ∀ c : Compilation,
      (∀ p, c.completed = some p → p.rank < n) → ∀ p, (ps.foldl advance c).completed = some p → p.rank < n := by
    intro ps n
    induction ps with
    | nil => exact fun _ c hc => hc
    | cons q ps ih =>
      intro hps c hc
      refine ih (fun p hp => hps p (List.mem_cons_of_mem _ hp)) _ fun p hp => ?_
      unfold advance at hp
      split at hp
      · exact hc p hp
      · obtain rfl : q = p := Option.some.inj hp
        exact hps q List.mem_cons_self
  have hlast : phasesTo upTo = Phase.all.filter (·.rank < upTo.rank) ++ [upTo] := by cases upTo <;> decide
  rw [runTo, hlast, List.foldl_append, List.foldl_cons, List.foldl_nil, advance, if_neg]
  intro hdone
  obtain ⟨p, hp, hle⟩ := (Option.any_eq_true ..).1 hdone
  have hlt := hbefore _ upTo.rank (fun p hp => by simpa using (List.mem_filter.1 hp).2) c (by simp [hc]) p hp
  simp at hle
  omega

/-- Phases that have been run are not run again. -/
theorem foldl_advance_of_isDone {ps : List Phase} {c : Compilation} (h : ∀ p ∈ ps, c.isDone p = true) :
    ps.foldl advance c = c := by
  induction ps with
  | nil => rfl
  | cons p ps ih =>
    rw [List.foldl_cons, advance, if_pos (h p List.mem_cons_self)]
    exact ih fun q hq => h q (List.mem_cons_of_mem _ hq)

theorem isDone_of_completed {c : Compilation} {p q : Phase} (hc : c.completed = some q) (hle : p.rank ≤ q.rank) :
    c.isDone p = true := by
  rw [isDone, hc]
  simpa using hle

theorem runTo_of_completed {c : Compilation} {p q : Phase} (hc : c.completed = some q) (hle : p.rank ≤ q.rank) :
    c.runTo p = c := by
  refine foldl_advance_of_isDone fun x hx => isDone_of_completed hc ?_
  have hrank : x.rank ≤ p.rank := by simpa using (List.mem_filter.1 hx).2
  omega

/-- Running phases in two stages is running them at once. -/
theorem runTo_runTo {c : Compilation} (hc : c.completed = none) {p q : Phase} (hle : p.rank ≤ q.rank) :
    (c.runTo p).runTo q = c.runTo q := by
  have hsplit : phasesTo q = phasesTo p ++ Phase.all.filter fun x => p.rank < x.rank && x.rank ≤ q.rank := by
    cases p <;> cases q <;> first | decide | exact absurd hle (by decide)
  have hdone : (phasesTo p).foldl advance (c.runTo p) = c.runTo p := runTo_of_completed (completed_runTo hc p) (Nat.le_refl _)
  rw [runTo, hsplit, List.foldl_append, hdone, runTo, ← List.foldl_append, ← hsplit, runTo]

/-! ## Class files that are withheld -/

@[simp] theorem hasErrors_withhold (c : Compilation) : c.withhold.hasErrors = c.hasErrors := by
  unfold withhold
  split
  · simp only [hasErrors, List.any_map]
    rfl
  · rfl

@[simp] theorem completed_withhold (c : Compilation) : c.withhold.completed = c.completed := by
  unfold withhold
  split <;> rfl

theorem withhold_withhold (c : Compilation) : c.withhold.withhold = c.withhold := by
  rw [withhold, hasErrors_withhold, c.carries_withhold.config]
  split
  · rename_i h
    simp [withhold, h]
  · rfl

theorem withhold_of_artifact {c : Compilation} (h : ∀ m ∈ c.modules, m.artifact = none) : c.withhold = c := by
  unfold withhold
  split
  · have hmodules : c.modules.map ({ · with artifact := none }) = c.modules := by
      refine (List.map_congr_left fun m hm => ?_).trans (List.map_id _)
      rw [← h m hm]
      rfl
    rw [hmodules]
  · rfl

theorem withhold_of_hasErrors {c : Compilation} (h : c.hasErrors = false) : c.withhold = c := by simp [withhold, h]

/-- Only the last phase makes class files. -/
theorem artifact_advance {c : Compilation} (h : ∀ m ∈ c.modules, m.artifact = none) {p : Phase} (hp : p ≠ .classGeneration) :
    ∀ m ∈ (c.advance p).modules, m.artifact = none := by
  have honModules : ∀ f : Module → Module, (∀ m, (f m).artifact = m.artifact) →
      ∀ m ∈ (c.onModules f).modules, m.artifact = none := by
    intro f hf m hm
    obtain ⟨m₀, hm₀, rfl⟩ := List.mem_map.1 hm
    exact Module.unlessFailed_of (P := fun m => m.artifact = none) (h m₀ hm₀) ((hf m₀).trans (h m₀ hm₀))
  unfold advance
  split
  · exact h
  · cases p with
    | initialization | parsing => exact h
    | resolution =>
      intro m hm
      obtain ⟨i, hi, rfl⟩ := List.mem_mapIdx.1 hm
      exact h c.modules[i] (List.getElem_mem hi)
    | typeChecking =>
      dsimp only [runPhase]
      split
      · exact honModules _ fun _ => rfl
      · exact h
    | lowering => exact honModules _ fun _ => rfl
    | classGeneration => exact absurd rfl hp

theorem artifact_runTo {c : Compilation} (h : ∀ m ∈ c.modules, m.artifact = none) {upTo : Phase}
    (hlt : upTo.rank < Phase.classGeneration.rank) : ∀ m ∈ (c.runTo upTo).modules, m.artifact = none := by
  have hall : ∀ (ps : List Phase) (c : Compilation), (∀ p ∈ ps, p ≠ .classGeneration) →
      (∀ m ∈ c.modules, m.artifact = none) → ∀ m ∈ (ps.foldl advance c).modules, m.artifact = none := by
    intro ps
    induction ps with
    | nil => exact fun _ _ h => h
    | cons p ps ih =>
      exact fun c hps h => ih _ (fun q hq => hps q (List.mem_cons_of_mem _ hq))
        (artifact_advance h (hps p List.mem_cons_self))
  refine hall _ c (fun p hp heq => ?_) h
  have hle : p.rank ≤ upTo.rank := by simpa using (List.mem_filter.1 hp).2
  rw [heq] at hle
  omega

/-! ## Stages -/

theorem Fresh.completed_compile {c : Compilation} (hc : c.Fresh) (hne : c.modules.isEmpty = false) (p : Phase) :
    (c.compile p).2.completed = some p := by
  rw [compile_of_ne hne, completed_withhold, completed_runTo hc.completed]

/-- Compiling in two stages is compiling up to the later one at once. -/
theorem Fresh.compile_compile {c : Compilation} (hc : c.Fresh) (hne : c.modules.isEmpty = false) (p q : Phase) :
    (c.compile p).2.compile q = c.compile (if p.rank < q.rank then q else p) := by
  have hcompleted := completed_runTo hc.completed p
  rw [compile_of_ne hne p]
  split
  · rename_i hlt
    have hgeneration : q.rank ≤ Phase.classGeneration.rank := by cases q <;> decide
    have hwithhold : (c.runTo p).withhold = c.runTo p :=
      withhold_of_artifact (artifact_runTo (fun m hm => (hc.modules m hm).artifact) (by omega))
    rw [hwithhold, compile_of_ne ((c.carries_runTo p).isEmpty.trans hne), runTo_runTo hc.completed (by omega),
      compile_of_ne hne q]
  · rename_i hle
    rw [compile_of_ne (((c.carries_runTo p).trans (carries_withhold _)).isEmpty.trans hne),
      runTo_of_completed ((completed_withhold _).trans hcompleted) (by omega), withhold_withhold, compile_of_ne hne p]

/-- A compilation that was reached has only had classes added to it, or is what phases made of one that has. -/
theorem Reached.exists_built {c : Compilation} (h : Reached c) :
    ∃ c₀, Built c₀ ∧ (c = c₀ ∨ c₀.modules.isEmpty = false ∧ ∃ p, c = (c₀.compile p).2) := by
  induction h with
  | start config moduleName => exact ⟨_, .start config moduleName, .inl rfl⟩
  | @add c c' d _ hadd ih =>
    obtain ⟨c₀, hc₀, rfl | ⟨hne, p, rfl⟩⟩ := ih
    · exact ⟨c', hc₀.add hadd, .inl rfl⟩
    · -- Once a phase has run, nothing can be added.
      obtain ⟨_, hvetted, -⟩ := add_eq_ok hadd
      cases (hc₀.fresh.completed_compile hne p).symm.trans (vetted_eq_ok.1 hvetted).1
  | @compile c upTo _ ih =>
    obtain ⟨c₀, hc₀, rfl | ⟨hne, p, rfl⟩⟩ := ih
    · cases hne : c.modules.isEmpty with
      | true =>
        refine ⟨c, hc₀, .inl ?_⟩
        rw [Compilation.compile, if_pos hne]
      | false => exact ⟨c, hc₀, .inr ⟨hne, upTo, rfl⟩⟩
    · rw [hc₀.fresh.compile_compile hne]
      exact ⟨c₀, hc₀, .inr ⟨hne, _, rfl⟩⟩

/-- Running all phases comes to the same from wherever it is done. -/
theorem Reached.compile_eq {c : Compilation} (h : Reached c) : ∃ c₀, Built c₀ ∧ c₀.Carries c ∧
    c.compile .classGeneration = c₀.compile .classGeneration := by
  obtain ⟨c₀, hc₀, rfl | ⟨hne, p, rfl⟩⟩ := h.exists_built
  · exact ⟨c, hc₀, .refl c, rfl⟩
  · refine ⟨c₀, hc₀, c₀.carries_compile p, ?_⟩
    rw [hc₀.fresh.compile_compile hne]
    cases p <;> rfl

/-! ## Success -/

/-- A module without errors has got its class file. -/
theorem exists_artifact_of_pass {c : Compilation} {m : Module} (h : (c.pass m).hasErrors = false) :
    ∃ bytes, (c.pass m).artifact = some bytes := by
  rw [pass] at h ⊢
  obtain ⟨hlowered, hgenerate⟩ := Module.unlessFailed_of_hasErrors h
  obtain ⟨-, hlower⟩ := Module.unlessFailed_of_hasErrors hlowered
  rw [hgenerate] at h ⊢
  rw [hlower] at h ⊢
  exact Module.exists_artifact_of_generate rfl h

/-- After a success every class has its class file. -/
theorem Built.exists_artifact {c : Compilation} (hc : Built c) (hok : (c.compile .classGeneration).1 = .ok ())
    {d : ClassDef} (hd : d ∈ c.defs) :
    ∃ bytes, ⟨d.name, bytes⟩ ∈ (c.compile .classGeneration).2.artifacts ∧ c.Passed d bytes := by
  obtain ⟨m, hm, rfl⟩ := List.mem_map.1 hd
  have hne : c.modules.isEmpty = false := List.isEmpty_eq_false_iff.2 (List.ne_nil_of_mem hm)
  obtain ⟨c', heq, -, hmodules, -⟩ := hc.fresh.compile_eq hne
  rw [heq] at hok ⊢
  have herrors : c'.hasErrors = false := by
    rw [← hasErrors_withhold]
    unfold result at hok
    split at hok
    · cases hok
    · rename_i h
      simpa using h
  have hpass : c.pass m ∈ c'.modules := hmodules ▸ List.mem_map_of_mem hm
  obtain ⟨bytes, hbytes⟩ := exists_artifact_of_pass (m := m) (c := c) <| by
    simp only [hasErrors, Bool.or_eq_false_iff, List.any_eq_false] at herrors
    simpa using herrors.2 _ hpass
  refine ⟨bytes, ?_, passed_of_artifact (hc.fresh.modules m hm) hbytes⟩
  rw [withhold_of_hasErrors herrors]
  refine List.mem_filterMap.2 ⟨_, hpass, ?_⟩
  rw [hbytes, cls_pass]
  rfl

end Compilation

end ClassTree
