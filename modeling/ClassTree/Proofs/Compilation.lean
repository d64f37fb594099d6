import ClassTree.Compilation
import ClassTree.Proofs.Descriptor
import ClassTree.Proofs.Typing.Findings

/-!
# What compiling a set of classes comes to

`Compilation.Built` are the compilations to which only classes were added. Their index tells where the module of each class
stands (`Compilation.Indexed`), so that findings get to the modules of the classes that they are about. When all phases are run
on one, every class goes through them by itself, over the registry of all (`Compilation.Fresh.compile_eq`). A class gets a class
file only if resolution and check found nothing wrong with it, and the class file is then the one that was generated
(`Compilation.Built.passed`).
-/

namespace ClassTree

/-- A module to which no phase has done anything. -/
structure Module.Fresh (m : Module) : Prop where
  found : m.found = []
  lowered : m.lowered = none
  artifact : m.artifact = none

namespace Compilation

/-- The compilations to which only classes were added. -/
inductive Built : Compilation → Prop
  | start (config : Config) (moduleName : Name → String) : Built { config, moduleName }
  | add {c c' : Compilation} {d : ClassDef} : Built c → c.add d = .ok c' → Built c'

/-! ## Adding classes -/

/-- Classes are new iff their names differ, are no host classes' and were not taken before. -/
theorem checkNew_eq_ok {taken : List String} {ds : List ClassDef} {u : Unit} : checkNew taken ds = .ok u ↔
    (ds.map ClassDef.name).Nodup ∧ ∀ d ∈ ds, d.name.text ∉ taken ∧ HostClass.ofName? d.name = none := by
  induction ds generalizing taken with
  | nil => simp [checkNew]
  | cons d ds ih =>
    have hnew : (d.name.text ∈ taken || (HostClass.ofName? d.name).isSome) = true ↔
        ¬ (d.name.text ∉ taken ∧ HostClass.ofName? d.name = none) := by
      rw [Bool.or_eq_true, decide_eq_true_eq, Option.isSome_iff_ne_none, not_and_or, Classical.not_not]
    -- A later class is not taken by then iff it was not before and has another name.
    have hlater : (∀ d' ∈ ds, d'.name.text ∉ d.name.text :: taken ∧ HostClass.ofName? d'.name = none) ↔
        d.name ∉ ds.map ClassDef.name ∧ ∀ d' ∈ ds, d'.name.text ∉ taken ∧ HostClass.ofName? d'.name = none := by
      simp only [List.mem_cons, not_or, Name.text_inj, List.mem_map, not_exists, not_and]
      exact ⟨fun h => ⟨fun d' hd' heq => (h d' hd').1.1 heq, fun d' hd' => ⟨(h d' hd').1.2, (h d' hd').2⟩⟩,
        fun h d' hd' => ⟨⟨h.1 d' hd', (h.2 d' hd').1⟩, (h.2 d' hd').2⟩⟩
    rw [checkNew, List.map_cons, List.nodup_cons, List.forall_mem_cons]
    split
    · rename_i htaken
      exact iff_of_false (by simp) fun h => hnew.1 htaken h.2.1
    · rename_i hfree
      rw [hnew, Classical.not_not] at hfree
      rw [ih, hlater]
      exact ⟨fun ⟨hnodup, hother, hall⟩ => ⟨⟨hother, hnodup⟩, hfree, hall⟩,
        fun ⟨⟨hother, hnodup⟩, _, hall⟩ => ⟨hnodup, hother, hall⟩⟩

/-- Classes that are entered have their modules after those that were there, and nothing else but the index is changed. -/
theorem foldl_enter (classes : List ClassDef) (c : Compilation) : ∃ index, classes.foldl enter c =
    { c with modules := c.modules ++ classes.map (fun d => { name := c.moduleName d.name, cls := d }), index } := by
  induction classes generalizing c with
  | nil => exact ⟨c.index, by simp⟩
  | cons d classes ih =>
    obtain ⟨index, heq⟩ := ih (c.enter d)
    exact ⟨index, by rw [List.foldl_cons, heq]; simp [enter]⟩

theorem forM_enter (classes : List ClassDef) (c : Compilation) :
    (classes.forM fun d => modify (·.enter d) : EStateM ConstructionError Compilation Unit) c =
      .ok () (classes.foldl enter c) := by
  induction classes generalizing c with
  | nil => rfl
  | cons d classes ih => exact ih (c.enter d)

/-- An addition enters all classes of the tree, or it fails before it has entered any. -/
theorem addClass_eq (d : ClassDef) (c : Compilation) : addClass d c =
    match c.vetted d with
    | .ok classes => .ok () (classes.foldl enter c)
    | .error e => .error e c := by
  change (ofExcept (c.vetted d) >>= fun classes => classes.forM fun d => modify (·.enter d) :
    EStateM ConstructionError Compilation Unit) c = _
  cases c.vetted d with
  | error e => rfl
  | ok classes => exact forM_enter classes c

/-- A tree can be added as long as no phase was run, if it can be split and its classes are new. -/
theorem vetted_eq_ok {c : Compilation} {d : ClassDef} {classes : List ClassDef} : c.vetted d = .ok classes ↔
    c.completed = none ∧ d.split = .ok classes ∧ checkNew (c.index.map Prod.fst) classes = .ok () := by
  unfold vetted
  split
  · rename_i hdone
    refine iff_of_false (fun h => ?_) fun h => by simp [h.1] at hdone
    cases h
  · rename_i hnone
    simp only [bind_eq_ok, pure_eq_ok]
    constructor
    · rintro ⟨classes, hsplit, _, hnew, rfl⟩
      exact ⟨by simpa using hnone, hsplit, hnew⟩
    · rintro ⟨-, hsplit, hnew⟩
      exact ⟨classes, hsplit, (), hnew, rfl⟩

/-- What adding a class comes to. -/
theorem add_eq_ok {c c' : Compilation} {d : ClassDef} (h : c.add d = .ok c') :
    ∃ classes, c.vetted d = .ok classes ∧ c' = classes.foldl enter c := by
  rw [add, addClass_eq] at h
  cases hvetted : c.vetted d with
  | error e =>
    rw [hvetted] at h
    cases h
  | ok classes =>
    rw [hvetted] at h
    cases h
    exact ⟨classes, rfl, rfl⟩

/-! ## The index -/

/-- The index tells the place of the module of every class, and of nothing else. -/
def Indexed (c : Compilation) : Prop :=
  ∀ name i, c.position? name = some i ↔ (c.modules.map Module.className)[i]? = some name

theorem position?_eq_none_iff {c : Compilation} {name : String} : c.position? name = none ↔ name ∉ c.index.map Prod.fst := by
  rw [position?, List.lookup_eq_none_iff, List.mem_map]
  simp only [bne_iff_ne, ne_eq]
  exact ⟨fun h ⟨p, hp, heq⟩ => h p hp heq.symm, fun h p hp heq => h ⟨p, hp, heq.symm⟩⟩

namespace Indexed

variable {c : Compilation} (h : c.Indexed)
include h

/-- No class has two modules. -/
theorem nodup : (c.modules.map Module.className).Nodup := by
  rw [List.nodup_iff_pairwise_ne, List.pairwise_iff_getElem]
  intro i j hi hj hlt heq
  have hfirst := (h _ i).2 (List.getElem?_eq_getElem hi)
  have hsecond := (h _ j).2 (List.getElem?_eq_getElem hj)
  rw [heq, hsecond, Option.some.injEq] at hfirst
  omega

theorem mem_index_iff {name : String} : name ∈ c.index.map Prod.fst ↔ name ∈ c.modules.map Module.className := by
  rw [← not_iff_not, ← position?_eq_none_iff, Option.eq_none_iff_forall_ne_some, List.mem_iff_getElem?]
  simp only [ne_eq, h name, not_exists]

theorem position?_iff {m : Module} {i : Nat} (hm : c.modules[i]? = some m) (name : String) :
    c.position? name = some i ↔ name = m.className := by
  rw [h, List.getElem?_map, hm, Option.map_some, Option.some.injEq, eq_comm]

/-- A class that is entered under a new name has its place after the others. -/
theorem enter {d : ClassDef} (hnew : d.name.text ∉ c.index.map Prod.fst) : (c.enter d).Indexed := by
  intro name i
  have hlength : (c.modules.map Module.className).length = c.modules.length := List.length_map ..
  rw [h.mem_index_iff] at hnew
  simp only [position?, Compilation.enter, List.map_append, List.map_cons, List.map_nil, List.lookup_cons]
  have hname : Module.className { name := c.moduleName d.name, cls := d } = d.name.text := rfl
  rw [hname]
  by_cases heq : name = d.name.text
  · subst heq
    rw [beq_self_eq_true]
    constructor
    · rintro ⟨⟩
      rw [← hlength, List.getElem?_concat_length]
    · intro hi
      rw [List.getElem?_append] at hi
      split at hi
      · exact absurd (List.mem_of_getElem? hi) hnew
      · have hi' := (List.getElem?_eq_some_iff.1 hi).1
        simp only [List.length_cons, List.length_nil] at hi'
        rw [Option.some.injEq]
        omega
  · rw [beq_false_of_ne heq]
    refine (h name i).trans ?_
    rw [List.getElem?_append]
    split
    · rfl
    · rename_i hge
      rw [List.getElem?_eq_none (by omega)]
      refine iff_of_false (by simp) fun hi => heq ?_
      exact List.mem_singleton.1 (List.mem_of_getElem? hi)

theorem foldl_enter {classes : List ClassDef} (hnodup : (classes.map ClassDef.name).Nodup)
    (hnew : ∀ d ∈ classes, d.name.text ∉ c.index.map Prod.fst) : (classes.foldl Compilation.enter c).Indexed := by
  induction classes generalizing c with
  | nil => exact h
  | cons d classes ih =>
    rw [List.map_cons, List.nodup_cons] at hnodup
    refine ih (h.enter (hnew d List.mem_cons_self)) hnodup.2 fun d' hd' hmem => ?_
    rcases List.mem_cons.1 hmem with heq | hmem
    · exact hnodup.1 (Name.text_inj.1 heq ▸ List.mem_map_of_mem hd')
    · exact hnew d' (List.mem_cons_of_mem _ hd') hmem

theorem add {c' : Compilation} {d : ClassDef} (hadd : c.add d = .ok c') : c'.Indexed := by
  obtain ⟨classes, hvetted, rfl⟩ := add_eq_ok hadd
  obtain ⟨hnodup, hall⟩ := checkNew_eq_ok.1 (vetted_eq_ok.1 hvetted).2.2
  exact h.foldl_enter hnodup fun d hd => (hall d hd).1

theorem module?_of_mem {m : Module} (hm : m ∈ c.modules) : c.module? m.className = some m := by
  obtain ⟨i, hi⟩ := List.mem_iff_getElem?.1 hm
  rw [module?, (h.position?_iff hi _).2 rfl, Option.bind_some, hi]

/-- A class that the index knows has a module. -/
theorem isNone_module? (name : String) : (c.module? name).isNone = (c.position? name).isNone := by
  rw [module?]
  cases hposition : c.position? name with
  | none => rfl
  | some i =>
    obtain ⟨m, hm, -⟩ := Option.map_eq_some_iff.1 ((List.getElem?_map ..).symm.trans ((h name i).1 hposition))
    rw [Option.bind_some, hm]
    rfl

/-- Findings go to the modules of the classes that they are about, wherever these are. -/
theorem distribute_eq (ds : List Diagnostic) : c.distribute ds =
    { c with
      modules := c.modules.map fun m => m.report (ds.filter (·.cls = m.className))
      unattributed := c.unattributed ++ ds.filter fun d => (c.module? d.cls).isNone } := by
  have hmodules : (c.modules.mapIdx fun i m => m.report (ds.filter fun d => c.position? d.cls = some i)) =
      c.modules.map fun m => m.report (ds.filter (·.cls = m.className)) := by
    refine List.mapIdx_eq_iff.2 fun i => ?_
    rw [List.getElem?_map]
    cases hm : c.modules[i]? with
    | none => rfl
    | some m => simp only [Option.map_some, h.position?_iff hm]
  simp only [distribute, hmodules, h.isNone_module?]

end Indexed

/-! ## Compilations that have not begun -/

/-- A compilation of which no phase has been run. -/
structure Fresh (c : Compilation) : Prop where
  completed : c.completed = none
  registry : c.registry = .host
  unattributed : c.unattributed = []
  modules : ∀ m ∈ c.modules, m.Fresh
  indexed : c.Indexed

theorem Built.fresh {c : Compilation} (h : Built c) : c.Fresh := by
  induction h with
  | start config moduleName => exact ⟨rfl, rfl, rfl, by simp, by simp [Indexed, position?]⟩
  | add _ hadd ih =>
    have hindexed := ih.indexed.add hadd
    obtain ⟨classes, -, rfl⟩ := add_eq_ok hadd
    obtain ⟨index, heq⟩ := foldl_enter classes _
    rw [heq] at hindexed ⊢
    refine ⟨ih.completed, ih.registry, ih.unattributed, fun m hm => ?_, hindexed⟩
    rcases List.mem_append.1 hm with hm | hm
    · exact ih.modules m hm
    · obtain ⟨d, -, rfl⟩ := List.mem_map.1 hm
      exact ⟨rfl, rfl, rfl⟩

/-! ## All phases -/

/-- The registry in which all classes are entered. -/
def resolved (c : Compilation) : Registry := (c.registry.resolve (c.modules.map (·.cls))).1

/-- What is found when the classes are entered. -/
def resolutionFindings (c : Compilation) : List Diagnostic := (c.registry.resolve (c.modules.map (·.cls))).2

/-- What all phases make of a module. -/
def pass (c : Compilation) (m : Module) : Module :=
  let m := m.report (c.resolutionFindings.filter (·.cls = m.className))
  let m := if c.config.staticChecking then m.unlessFailed (·.check c.resolved) else m
  let m := m.unlessFailed (·.lower c.config.optimize)
  m.unlessFailed (·.generate c.config.binding c.resolved)

/-- Running all phases does to every module what they do to it by itself. -/
theorem Fresh.compile_eq {c : Compilation} (h : c.Fresh) (hne : c.modules.isEmpty = false) :
    ∃ c' : Compilation, c.compile .classGeneration = (c'.withhold.result, c'.withhold) ∧ c'.config = c.config ∧
      c'.modules = c.modules.map c.pass ∧
      c'.unattributed = c.resolutionFindings.filter fun d => (c.module? d.cls).isNone := by
  have hphases : Phase.all.filter (·.rank ≤ Phase.classGeneration.rank) = Phase.all := by decide
  have hfirst : ∀ p, c.advance p = { c.runPhase p with completed := some p } := by
    intro p
    rw [advance, isDone, h.completed]
    rfl
  -- Each phase has a higher rank than the one before it, so none of them is taken to be done.
  have hnext : ∀ (c : Compilation) (p q : Phase), p.rank < q.rank →
      ({ c with completed := some p } : Compilation).advance q =
        { ({ c with completed := some p } : Compilation).runPhase q with completed := some q } := by
    intro c p q hlt
    rw [advance, isDone]
    simp [Nat.not_le.2 hlt]
  have hdistribute : ∀ registry completed ds, ({ c with registry, completed } : Compilation).distribute ds =
      { c with
        registry, completed
        modules := c.modules.map fun m => m.report (ds.filter (·.cls = m.className))
        unattributed := c.unattributed ++ ds.filter fun d => (c.module? d.cls).isNone } :=
    fun registry completed => Indexed.distribute_eq (c := { c with registry, completed }) h.indexed
  rw [compile, hne, if_neg Bool.false_ne_true, hphases]
  simp only [Phase.all, List.foldl_cons, List.foldl_nil]
  rw [hfirst, hnext _ _ _ (by decide), hnext _ _ _ (by decide), hnext _ _ _ (by decide), hnext _ _ _ (by decide),
    hnext _ _ _ (by decide)]
  cases hstatic : c.config.staticChecking with
  | true =>
    refine ⟨_, rfl, ?_, ?_, ?_⟩
    · simp [runPhase, onModules, resolve, hdistribute, hstatic]
    · simp [runPhase, onModules, resolve, hdistribute, pass, resolved, resolutionFindings, hstatic, Function.comp_def]
    · simpa [runPhase, onModules, resolve, hdistribute, resolutionFindings, hstatic] using h.unattributed
  | false =>
    refine ⟨_, rfl, ?_, ?_, ?_⟩
    · simp [runPhase, onModules, resolve, hdistribute, hstatic]
    · simp [runPhase, onModules, resolve, hdistribute, pass, resolved, resolutionFindings, hstatic, Function.comp_def]
    · simpa [runPhase, onModules, resolve, hdistribute, resolutionFindings, hstatic] using h.unattributed

/-! ## Class files -/

/-- A class that gets a class file passed every phase without an error. -/
structure Passed (c : Compilation) (d : ClassDef) (bytes : Bytes) : Prop where
  resolved : Diagnostic.hasErrors (c.resolutionFindings.filter (·.cls = d.name.text)) = false
  checked : c.config.staticChecking = true → d.check c.resolved = []
  generated : (d.lower c.config.optimize).generate c.config.binding c.resolved = .ok bytes

end Compilation

namespace Module

variable {m : Module} {f : Module → Module} {bytes : Bytes}

/-- What holds of a module whether something is done to it or not. -/
theorem unlessFailed_of {P : Module → Prop} (h : P m) (hf : P (f m)) : P (m.unlessFailed f) := by
  unfold unlessFailed
  split
  · exact h
  · exact hf

/-- What is without errors after something was done unless there were errors, was without errors, and it was done. -/
theorem unlessFailed_of_hasErrors (h : (m.unlessFailed f).hasErrors = false) :
    m.hasErrors = false ∧ m.unlessFailed f = f m := by
  unfold unlessFailed at h ⊢
  split
  · rename_i herr
    rw [if_pos herr, herr] at h
    cases h
  · rename_i herr
    exact ⟨by simpa using herr, rfl⟩

/-- What keeps the class of a module does so unless there were errors, too. -/
theorem cls_unlessFailed (hf : ∀ m, (f m).cls = m.cls) : (m.unlessFailed f).cls = m.cls :=
  unlessFailed_of (P := fun m' => m'.cls = m.cls) rfl (hf m)

theorem cls_generate {b : Binding} {r : Registry} : (m.generate b r).cls = m.cls := by
  unfold generate
  repeat' split
  all_goals rfl

theorem name_generate {b : Binding} {r : Registry} : (m.generate b r).name = m.name := by
  unfold generate
  repeat' split
  all_goals rfl

/-- A class file is made only of a class that was lowered and has no errors. -/
theorem artifact_generate {b : Binding} {r : Registry} (hnone : m.artifact = none)
    (h : (m.unlessFailed (·.generate b r)).artifact = some bytes) :
    m.hasErrors = false ∧ ∃ l, m.lowered = some l ∧ l.generate b r = .ok bytes := by
  unfold unlessFailed at h
  split at h
  · rw [hnone] at h
    cases h
  · rename_i herr
    refine ⟨by simpa using herr, ?_⟩
    simp only [generate] at h
    split at h
    · rw [hnone] at h
      cases h
    · rename_i l hl
      split at h
      · rename_i hgen
        cases h
        exact ⟨l, hl, hgen⟩
      · rw [report, hnone] at h
        cases h

theorem hasErrors_of_artifact {b : Binding} {r : Registry} (hnone : m.artifact = none)
    (h : (m.unlessFailed (·.generate b r)).artifact = some bytes) :
    (m.unlessFailed (·.generate b r)).hasErrors = false := by
  obtain ⟨hok, l, hl, hgen⟩ := artifact_generate hnone h
  rw [unlessFailed, hok, if_neg Bool.false_ne_true, generate, hl]
  simp only [hgen]
  exact hok

end Module

namespace Compilation

theorem cls_pass (c : Compilation) (m : Module) : (c.pass m).cls = m.cls := by
  have hlower : ∀ m' : Module, (m'.unlessFailed (·.lower c.config.optimize)).cls = m'.cls :=
    fun _ => Module.cls_unlessFailed fun _ => rfl
  rw [pass, Module.cls_unlessFailed fun _ => Module.cls_generate, hlower]
  split
  · exact Module.cls_unlessFailed fun _ => rfl
  · rfl

/-- A module to which nothing was done gets a class file only if it passes every phase. -/
theorem passed_of_artifact {c : Compilation} {m : Module} {bytes : Bytes} (hm : m.Fresh)
    (h : (c.pass m).artifact = some bytes) : c.Passed m.cls bytes := by
  rw [pass] at h
  generalize hreported : m.report (c.resolutionFindings.filter (·.cls = m.className)) = reported at h
  have hfound : reported.found = c.resolutionFindings.filter (·.cls = m.className) := by
    rw [← hreported, Module.report, hm.found, List.nil_append]
  have hcls : reported.cls = m.cls := by
    rw [← hreported]
    rfl
  -- Whether the class is checked or not, it goes to the next phase as it is, and only if there were no errors so far.
  have hchecked : ∀ m' : Module, (if c.config.staticChecking then reported.unlessFailed (·.check c.resolved) else reported)
      = m' → m'.artifact = none ∧ m'.cls = m.cls ∧ (m'.hasErrors = false → reported.hasErrors = false ∧
        (c.config.staticChecking = true → m.cls.check c.resolved = [])) := by
    intro m' hm'
    have hartifact : reported.artifact = none := by
      rw [← hreported]
      exact hm.artifact
    split at hm'
    · subst hm'
      refine ⟨?_, ?_, fun herr => ?_⟩
      · exact Module.unlessFailed_of (P := fun m' => m'.artifact = none) hartifact hartifact
      · exact Module.unlessFailed_of (P := fun m' => m'.cls = m.cls) hcls hcls
      · obtain ⟨hok, hcheck⟩ := Module.unlessFailed_of_hasErrors herr
        rw [hcheck, Module.hasErrors, Module.check, Module.report, hcls, Diagnostic.hasErrors, List.any_append,
          Bool.or_eq_false_iff] at herr
        exact ⟨hok, fun _ => ClassDef.check_eq_nil herr.2⟩
    · rename_i hstatic
      subst hm'
      exact ⟨hartifact, hcls, fun herr => ⟨herr, fun h => absurd h hstatic⟩⟩
  generalize hm' : (if c.config.staticChecking then reported.unlessFailed (·.check c.resolved) else reported) = m' at h
  obtain ⟨hartifact, hcls', hok⟩ := hchecked m' hm'
  obtain ⟨herr, l, hl, hgen⟩ := Module.artifact_generate
    (Module.unlessFailed_of (P := fun m => m.artifact = none) hartifact hartifact) h
  obtain ⟨herr, hlower⟩ := Module.unlessFailed_of_hasErrors herr
  obtain ⟨hresolved, hcheck⟩ := hok herr
  rw [hlower, Module.lower, hcls'] at hl
  cases hl
  rw [Module.hasErrors, hfound] at hresolved
  exact ⟨hresolved, hcheck, hgen⟩

/-- The class files that are left are those of classes that passed every phase. -/
theorem Built.passed {c : Compilation} (hc : Built c) {m : Module} {bytes : Bytes}
    (hm : m ∈ (c.compile .classGeneration).2.modules) (hbytes : m.artifact = some bytes) :
    ∃ m₀ ∈ c.modules, m.cls = m₀.cls ∧ c.Passed m₀.cls bytes := by
  cases hne : c.modules.isEmpty with
  | true =>
    rw [compile, if_pos hne] at hm
    rw [List.isEmpty_iff.1 hne] at hm
    cases hm
  | false =>
    obtain ⟨c', heq, -, hmodules, -⟩ := hc.fresh.compile_eq hne
    rw [heq] at hm
    simp only [withhold] at hm
    split at hm
    · obtain ⟨_, -, rfl⟩ := List.mem_map.1 hm
      cases hbytes
    · rw [hmodules] at hm
      obtain ⟨m₀, hm₀, rfl⟩ := List.mem_map.1 hm
      exact ⟨m₀, hm₀, c.cls_pass m₀, passed_of_artifact (hc.fresh.modules m₀ hm₀) hbytes⟩

end Compilation

end ClassTree
