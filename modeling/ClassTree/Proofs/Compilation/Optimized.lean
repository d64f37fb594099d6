import Mathlib
import ClassTree.Proofs.Compilation.Results
import ClassTree.Proofs.Compile.Optimized
import ClassTree.Proofs.Compile.Small

/-!
# Compiling with folding and without

What is found when classes are entered and checked does not depend on folding, so a class that gets a class file without folding
comes as far as code generation with it, and there only limits can prevent its class file (`Compilation.Built.pass_folds`). If
an error in one class takes away the class files of all, such a limit may be met in another class
(`Compilation.Built.artifact_withOptimize`).

`Doubled` is a class that meets such a limit: it joins a text to itself that is short enough for a class file, and the text that
folding makes of the two is not.
-/

namespace ClassTree

@[simp] theorem Module.report_nil (m : Module) : m.report [] = m := by simp [report]

namespace Compilation

/-- The same compilation, with folding or without. -/
def withOptimize (c : Compilation) (optimize : Bool) : Compilation := { c with config := { c.config with optimize } }

theorem add_withOptimize {c c' : Compilation} {d : ClassDef} (h : c.add d = .ok c') (optimize : Bool) :
    (c.withOptimize optimize).add d = .ok (c'.withOptimize optimize) := by
  have henter : ∀ (classes : List ClassDef) (c : Compilation),
      classes.foldl enter (c.withOptimize optimize) = (classes.foldl enter c).withOptimize optimize := by
    intro classes
    induction classes with
    | nil => exact fun _ => rfl
    | cons d classes ih => exact fun c => ih (c.enter d)
  obtain ⟨classes, hvetted, rfl⟩ := add_eq_ok h
  have hsame : (c.withOptimize optimize).vetted d = .ok classes := hvetted
  rw [add, addClass_eq, hsame]
  exact congrArg Except.ok (henter classes c)

theorem Built.withOptimize {c : Compilation} (h : Built c) (optimize : Bool) : Built (c.withOptimize optimize) := by
  induction h with
  | start config moduleName => exact .start _ moduleName
  | add _ hadd ih => exact .add ih (add_withOptimize hadd optimize)

/-! ## One class -/

theorem filter_resolutionFindings_eq_nil {c : Compilation} {p : Diagnostic → Bool}
    (hnone : Diagnostic.hasErrors (c.resolutionFindings.filter p) = false) : c.resolutionFindings.filter p = [] := by
  refine List.eq_nil_iff_forall_not_mem.2 fun x hx => ?_
  exact List.any_eq_false.1 hnone x hx (c.registry.aboutSome_resolve _ x (List.mem_filter.1 hx).1).1

/-- A class in which nothing was found is lowered, and its class file is generated. -/
theorem pass_of_clean {c : Compilation} {m : Module} (hm : m.Fresh)
    (hresolution : c.resolutionFindings.filter (·.cls = m.className) = [])
    (hcheck : c.config.staticChecking = true → m.cls.check c.resolved = []) :
    c.pass m = ({ m with lowered := some (m.cls.lower c.config.optimize) } : Module).generate c.config.binding c.resolved := by
  have hnone : m.hasErrors = false := by
    rw [Module.hasErrors, hm.found]
    rfl
  have hunless : ∀ f : Module → Module, m.unlessFailed f = f m := by
    intro f
    rw [Module.unlessFailed, if_neg (by simp [hnone])]
  have hchecked : (if c.config.staticChecking = true then m.unlessFailed (·.check c.resolved) else m) = m := by
    split
    · rename_i hstatic
      rw [hunless, Module.check, hcheck hstatic, Module.report_nil]
    · rfl
  rw [pass, hresolution, Module.report_nil, hchecked, hunless]
  exact if_neg (Bool.eq_false_iff.1 hnone)

/-- A class that gets a class file without folding has one with folding and nothing is found in it, or else what is found in it
are limits. -/
theorem Built.pass_folds {c : Compilation} (hc : Built c) {m : Module} (hm : m ∈ c.modules) {bytes : Bytes}
    (h : ((c.withOptimize false).pass m).artifact = some bytes) :
    (((c.withOptimize true).pass m).found = [] ∧ ∃ bytes', ((c.withOptimize true).pass m).artifact = some bytes') ∨
      ((c.withOptimize true).pass m).found ≠ [] ∧ ∀ x ∈ ((c.withOptimize true).pass m).found, x.code = .codegenLimit := by
  have hfresh := hc.fresh.modules m hm
  have hpassed := passed_of_artifact hfresh h
  have hpass : (c.withOptimize true).pass m =
      ({ m with lowered := some (m.cls.lower true) } : Module).generate c.config.binding c.resolved :=
    pass_of_clean hfresh (filter_resolutionFindings_eq_nil hpassed.resolved) hpassed.checked
  have hgenerate : (m.cls.lower false).generate c.config.binding c.resolved = .ok bytes := hpassed.generated
  rw [hpass, Module.generate]
  dsimp only
  rw [ClassDef.lower_true]
  rcases LoweredClass.generate_folds hgenerate with ⟨bytes', hbytes'⟩ | ⟨ds, herror, hds⟩
  · rw [hbytes']
    exact .inl ⟨hfresh.found, bytes', rfl⟩
  · rw [herror]
    have hfound : (Module.report { m with lowered := some (m.cls.lower false).fold } ds).found = ds := by
      rw [Module.report, hfresh.found, List.nil_append]
    refine .inr ⟨fun hnil => ?_, fun x hx => hds x (hfound ▸ hx)⟩
    have herrors := LoweredClass.hasErrors_of_generate herror
    rw [← hfound, hnil] at herrors
    cases herrors

/-! ## All classes -/

theorem exists_mem_withhold {c : Compilation} {m : Module} (hm : m ∈ c.modules) :
    ∃ m' ∈ c.withhold.modules, m'.cls = m.cls ∧ m'.found = m.found := by
  unfold withhold
  split
  · exact ⟨_, List.mem_map_of_mem hm, rfl, rfl⟩
  · exact ⟨m, hm, rfl, rfl⟩

/-- Class files are left only if there are no errors that take them away. -/
theorem of_mem_artifacts_withhold {c : Compilation} {a : Artifact} (h : a ∈ c.withhold.artifacts) :
    (c.config.atomic = true → c.hasErrors = false) ∧ ∃ m ∈ c.modules, m.cls.name = a.name ∧ m.artifact = some a.bytes := by
  obtain ⟨m, hm, ha⟩ := List.mem_filterMap.1 h
  obtain ⟨bytes, hbytes, rfl⟩ := Option.map_eq_some_iff.1 ha
  unfold withhold at hm
  split at hm
  · obtain ⟨_, -, rfl⟩ := List.mem_map.1 hm
    cases hbytes
  · rename_i hkept
    exact ⟨by simpa using hkept, m, hm, rfl, hbytes⟩

theorem mem_artifacts_withhold {c : Compilation} (hkept : (c.config.atomic && c.hasErrors) = false) {m : Module}
    (hm : m ∈ c.modules) {bytes : Bytes} (hbytes : m.artifact = some bytes) :
    ⟨m.cls.name, bytes⟩ ∈ c.withhold.artifacts := by
  rw [withhold, hkept, if_neg Bool.false_ne_true]
  refine List.mem_filterMap.2 ⟨m, hm, ?_⟩
  rw [hbytes]
  rfl

/-- A class that went through all phases has its class file, unless errors take away the class files of all. -/
theorem Built.mem_artifacts {c : Compilation} (hc : Built c) (hatomic : c.config.atomic = false) {d : ClassDef}
    (hd : d ∈ c.defs) {bytes : Bytes} (hpassed : c.Passed d bytes) :
    ⟨d.name, bytes⟩ ∈ (c.compile .classGeneration).2.artifacts := by
  obtain ⟨m, hm, rfl⟩ := List.mem_map.1 hd
  have hne : c.modules.isEmpty = false := List.isEmpty_eq_false_iff.2 (List.ne_nil_of_mem hm)
  obtain ⟨c', heq, hconfig, hmodules, -⟩ := hc.fresh.compile_eq hne
  have hkept : (c'.config.atomic && c'.hasErrors) = false := by rw [hconfig, hatomic, Bool.false_and]
  have hartifact : (c.pass m).artifact = some bytes := by
    rw [pass_of_clean (hc.fresh.modules m hm) (filter_resolutionFindings_eq_nil hpassed.resolved) hpassed.checked, Module.generate]
    dsimp only
    rw [hpassed.generated]
  have hmem := mem_artifacts_withhold hkept (hmodules ▸ List.mem_map_of_mem hm) hartifact
  rw [cls_pass] at hmem
  rw [heq]
  exact hmem

/-- If errors are found with folding only, some class is too large for a class file. -/
theorem Built.exists_limits {c c₀ c₁ : Compilation} (hc : Built c)
    (hmodules₀ : c₀.modules = c.modules.map (c.withOptimize false).pass)
    (hmodules₁ : c₁.modules = c.modules.map (c.withOptimize true).pass) (hunattributed : c₁.unattributed = c₀.unattributed)
    (hnone : c₀.hasErrors = false) (herrors : c₁.hasErrors = true) :
    ∃ m ∈ c.modules, ((c.withOptimize true).pass m).found ≠ [] ∧
      ∀ x ∈ ((c.withOptimize true).pass m).found, x.code = .codegenLimit := by
  simp only [hasErrors, hmodules₀, Bool.or_eq_false_iff, List.any_eq_false, List.mem_map] at hnone
  simp only [hasErrors, hmodules₁, hunattributed, Bool.or_eq_true, List.any_eq_true, List.mem_map] at herrors
  rcases herrors with herrors | ⟨_, ⟨m, hm, rfl⟩, herrors⟩
  · exact absurd (herrors.symm.trans hnone.1) Bool.noConfusion
  · obtain ⟨bytes, hbytes⟩ := exists_artifact_of_pass (c := c.withOptimize false) (m := m)
      (by simpa using hnone.2 _ ⟨m, hm, rfl⟩)
    rcases hc.pass_folds hm hbytes with ⟨hclean, -⟩ | hlimits
    · rw [Module.hasErrors, hclean] at herrors
      cases herrors
    · exact ⟨m, hm, hlimits⟩

/-- Every class that gets a class file without folding gets one with folding, or else a limit of class files is all that is
found in it, or in some class where an error takes away the class files of all. -/
theorem Built.artifact_withOptimize {c : Compilation} (hc : Built c) {n : Name} {bytes : Bytes}
    (h : ⟨n, bytes⟩ ∈ ((c.withOptimize false).compile .classGeneration).2.artifacts) :
    (∃ bytes', ⟨n, bytes'⟩ ∈ ((c.withOptimize true).compile .classGeneration).2.artifacts) ∨
      ∃ m ∈ ((c.withOptimize true).compile .classGeneration).2.modules, (m.cls.name = n ∨ c.config.atomic = true) ∧
        m.found ≠ [] ∧ ∀ x ∈ m.found, x.code = .codegenLimit := by
  cases hne : c.modules.isEmpty with
  | true =>
    have hempty : (c.withOptimize false).compile .classGeneration = (.error .empty, c.withOptimize false) := if_pos hne
    have hnil : (c.withOptimize false).modules = [] := List.isEmpty_iff.1 hne
    rw [hempty] at h
    dsimp only [artifacts] at h
    rw [hnil] at h
    cases h
  | false =>
    obtain ⟨c₀, heq₀, hconfig₀, hmodules₀, hunattributed₀⟩ := (hc.withOptimize false).fresh.compile_eq hne
    obtain ⟨c₁, heq₁, hconfig₁, hmodules₁, hunattributed₁⟩ := (hc.withOptimize true).fresh.compile_eq hne
    rw [heq₀] at h
    rw [heq₁]
    obtain ⟨hatomic, m', hm', rfl, hbytes⟩ := of_mem_artifacts_withhold h
    rw [hmodules₀] at hm'
    obtain ⟨m, hm, rfl⟩ := List.mem_map.1 hm'
    have hmem : ∀ {m}, m ∈ c.modules → (c.withOptimize true).pass m ∈ c₁.modules :=
      fun hm => hmodules₁ ▸ List.mem_map_of_mem hm
    -- A class in which limits are found is among those that are left, with what was found.
    have hlimits : ∀ {m}, m ∈ c.modules → ((c.withOptimize true).pass m).found ≠ [] →
        (∀ x ∈ ((c.withOptimize true).pass m).found, x.code = .codegenLimit) →
        ∃ m' ∈ c₁.withhold.modules, m'.cls = m.cls ∧ m'.found ≠ [] ∧ ∀ x ∈ m'.found, x.code = .codegenLimit := by
      intro m hm hfound hall
      obtain ⟨m', hm', hcls, hsame⟩ := exists_mem_withhold (hmem hm)
      exact ⟨m', hm', hcls.trans (cls_pass _ m), by rwa [hsame], by rwa [hsame]⟩
    rcases hc.pass_folds hm hbytes with ⟨-, bytes', hbytes'⟩ | ⟨hfound, hall⟩
    · cases hwithheld : c₁.config.atomic && c₁.hasErrors with
      | true =>
        -- The class file was made but taken away: an error was found in another class, which had none without folding.
        rw [Bool.and_eq_true, hconfig₁] at hwithheld
        have hnone := hatomic (by rw [hconfig₀]; exact hwithheld.1)
        obtain ⟨other, hother, hfound, hall⟩ :=
          hc.exists_limits hmodules₀ hmodules₁ (hunattributed₁.trans hunattributed₀.symm) hnone hwithheld.2
        obtain ⟨m', hm', -, hm'found⟩ := hlimits hother hfound hall
        exact .inr ⟨m', hm', .inr hwithheld.1, hm'found⟩
      | false =>
        have hkept := mem_artifacts_withhold hwithheld (hmem hm) hbytes'
        rw [cls_pass] at hkept ⊢
        exact .inl ⟨bytes', hkept⟩
    · obtain ⟨m', hm', hcls, hm'found⟩ := hlimits hm hfound hall
      exact .inr ⟨m', hm', .inl (by rw [hcls, cls_pass]), hm'found⟩

end Compilation

/-! ## A class that folding makes too large -/

open Gen Pool

namespace Doubled

def className : Name := .ofPath ["A"] (Eq.refl true)

/-- A class with a method that joins a text to itself. -/
def cls (s : String) : ClassDef where
  name := className
  members := [.method ⟨"joined", .pub ||| .static, [], .string,
    some [.ret (some (.binary .add (.lit (.str s)) (.lit (.str s))))]⟩]

def compilation (s : String) : Compilation where
  modules := [{ name := Module.syntheticName className, cls := cls s }]
  index := [("A", 0)]

theorem built (s : String) : (compilation s).Built := .add (d := cls s) (.start {} Module.syntheticName) rfl

def entry : ClassEntry where
  name := className
  modifiers := .pub
  superclass := some .object
  methods := [⟨className, "joined", .pub ||| .static, [], .string, false⟩]
  constructors := [.constructor className .pub []]

def registry : Registry := ⟨Host.classes ++ [entry]⟩

theorem resolve_eq (s : String) : Registry.host.resolve [cls s] = (registry, []) := by cbv

theorem check_eq (s : String) : (cls s).check registry = [] := by cbv

/-! ### Without folding -/

def constructor : LoweredMethod where
  name := constructorName
  modifiers := .pub
  params := []
  ret := .void
  body := .constructor [] [] [.ret none]

def joined (s : String) : LoweredMethod where
  name := "joined"
  modifiers := .pub ||| .static
  params := []
  ret := .string
  body := .method [.ret (some (.binary .add (.lit (.str s)) (.lit (.str s))))]

def lowered (s : String) : LoweredClass where
  name := className
  modifiers := .pub
  superclass := .object
  enclosing := none
  fields := []
  methods := [constructor, joined s]

theorem lower_false (s : String) : (cls s).lower false = lowered s := rfl

theorem short (s : String) : (lowered s).Short registry where
  name := rfl
  superclass := rfl
  enclosing := nofun
  nested := by
    change ∀ n ∈ registry.classes, n.enclosing = some className → _
    decide
  fields := nofun
  methods := by
    intro m hm
    rcases List.mem_pair.1 hm with rfl | rfl
    · decide
    · exact ⟨rfl, rfl⟩

theorem constructor_affords :
    Affords 5 (compileMethod .static (LoweredClass.context registry entry constructor) constructor)
      fun made => made.code.size < 4294967296 := by
  have hsuper : (LoweredClass.context registry entry constructor).superConstructor [] =
      .ok (.constructor .object .pub []) := by cbv
  have htexts : ∀ s ∈ Item.texts (.method ⟨"lang.Object", constructorName, "()V"⟩), textFits s = true := by decide
  refine Affords.bind (n := 0) (j := 5) (Affords.pure (Q := fun scope => scope = Scope.ofInstance) rfl) ?_
  rintro _ rfl
  have hcall : Affords 5 (compileSuperCall .static (LoweredClass.context registry entry constructor) .ofInstance [])
      fun code => ∃ index, code = loadThis ++ Block.empty ++ Block.one (.invoke .special index) := by
    refine Affords.ofExcept_bind (a := []) rfl ?_
    refine Affords.ofExcept_bind hsuper ?_
    refine Affords.bind (n := 0) (j := 5) (Affords.pure (Q := fun code => code = .empty) rfl) ?_
    rintro _ rfl
    refine Affords.bind (j := 0) (Affords.instr (.invoke .special) htexts) ?_
    rintro _ ⟨index, rfl⟩
    exact .pure ⟨index, rfl⟩
  refine hcall.bind (j := 0) ?_
  rintro _ ⟨index, rfl⟩
  refine Affords.pure (a := MethodCode.mk _ _) ?_
  change 7 < _
  decide

section Joined

variable {s : String} (hs : textFits s = true) (c : Context) (scope : Scope)
include hs

theorem text_affords :
    Affords 2 (Typed.expr c scope true (.lit (.str s))) fun made => ∃ index, made = (.one (.ldc index), .string) := by
  rw [Typed.expr, Context.literal, if_pos hs]
  refine Affords.bind (j := 0) (Affords.instr (i := .string s) .ldc fun _ h => List.mem_singleton.1 h ▸ hs) ?_
  rintro _ ⟨index, rfl⟩
  exact .pure ⟨index, rfl⟩

theorem join_affords :
    Affords 4 (Typed.expr c scope true (.binary .add (.lit (.str s)) (.lit (.str s)))) fun made =>
      ∃ left right, made = (.one (.ldc left) ++ .one (.ldc right) ++ .one .concat, .string) := by
  rw [Typed.expr]
  refine Affords.ofExcept_bind (a := .string) rfl ?_
  refine Affords.ofExcept_bind (a := .string) rfl ?_
  refine Affords.ofExcept_bind (a := ⟨none, .string, true⟩) rfl ?_
  refine Affords.bind (n := 2) (j := 2) (text_affords hs c scope) ?_
  rintro _ ⟨left, rfl⟩
  refine Affords.bind (n := 2) (j := 0) (text_affords hs c scope) ?_
  rintro _ ⟨right, rfl⟩
  exact .pure ⟨left, right, rfl⟩

theorem joined_affords :
    Affords 4 (compileMethod .static (LoweredClass.context registry entry (joined s)) (joined s))
      fun made => made.code.size < 4294967296 := by
  have hstatic : (LoweredClass.context registry entry (joined s)).isStatic = true := by cbv
  have hvoid : (LoweredClass.context registry entry (joined s)).ret.isVoid = false := rfl
  rw [compileMethod, if_pos hstatic]
  refine Affords.bind (n := 0) (j := 4) (Affords.pure (Q := fun scope => scope = Scope.ofStatic) rfl) ?_
  rintro _ rfl
  have hvalue : Affords 4 (compileValue .static (LoweredClass.context registry entry (joined s)) Scope.ofStatic.enter
      (.binary .add (.lit (.str s)) (.lit (.str s))) .string)
      fun code => ∃ left right, code = .one (.ldc left) ++ .one (.ldc right) ++ .one .concat := by
    refine (join_affords hs _ _).bind (j := 0) ?_
    rintro _ ⟨left, right, rfl⟩
    exact .pure ⟨left, right, rfl⟩
  have hbody : Affords 4 (compileStmt .static (LoweredClass.context registry entry (joined s))
      (.block [.ret (some (.binary .add (.lit (.str s)) (.lit (.str s))))]) Scope.ofStatic)
      fun made => ∃ left right,
        made.1 = Block.empty ++ (.one (.ldc left) ++ .one (.ldc right) ++ .one .concat ++ .one .ret) := by
    rw [compileStmt, compileStmts, compileStmt, hvoid, if_neg Bool.false_ne_true]
    simp only [bind_assoc, pure_bind, compileStmts]
    refine hvalue.bind (j := 0) ?_
    rintro _ ⟨left, right, rfl⟩
    exact .pure ⟨left, right, rfl⟩
  refine hbody.bind (j := 0) ?_
  rintro ⟨_, scope⟩ ⟨left, right, rfl⟩
  refine Affords.pure (a := MethodCode.mk _ _) ?_
  change 8 < _
  decide

theorem exists_generate : ∃ bytes, (lowered s).generate .static registry = .ok bytes := by
  have hentry : registry.get? (lowered s).name = some entry := by cbv
  have hmethods : ∀ m ∈ (lowered s).methods,
      Affords 5 (compileMethod .static (LoweredClass.context registry entry m) m)
        fun made => made.code.size < 4294967296 := by
    intro m hm
    rcases List.mem_pair.1 hm with rfl | rfl
    · exact constructor_affords
    · exact (joined_affords hs).mono (by decide)
  have hcost : (lowered s).cost registry (fun _ => 5) ≤ maxEntries := by
    have hnested : registry.classes.filter (·.enclosing = some className) = [] := by decide
    rw [LoweredClass.cost, show (lowered s).name = className from rfl, hnested]
    exact Nat.le_of_ble_eq_true rfl
  exact LoweredClass.exists_generate hentry (short s) hmethods hcost

theorem exists_artifact :
    ∃ bytes, ⟨className, bytes⟩ ∈ (((compilation s).withOptimize false).compile .classGeneration).2.artifacts := by
  obtain ⟨bytes, hbytes⟩ := exists_generate hs
  have hresolved : ((compilation s).withOptimize false).resolved = registry := congrArg Prod.fst (resolve_eq s)
  have hfindings : ((compilation s).withOptimize false).resolutionFindings = [] := congrArg Prod.snd (resolve_eq s)
  have hpassed : ((compilation s).withOptimize false).Passed (cls s) bytes := by
    constructor
    · rw [hfindings]
      rfl
    · intro _
      rw [hresolved]
      exact check_eq s
    · rw [hresolved]
      exact hbytes
  exact ⟨bytes, ((built s).withOptimize false).mem_artifacts rfl List.mem_cons_self hpassed⟩

end Joined

/-! ### With folding -/

/-- A text that is given back is short. -/
theorem textFits_of_gives {c : Context} (hvoid : c.ret.isVoid = false) {scope : Scope} {t : String} {made : Block × Scope}
    (h : Gives (compileStmt .static c (.block [.ret (some (.lit (.str t)))]) scope) made) : textFits t = true := by
  rw [compileStmt, compileStmts, compileStmt, hvoid, if_neg Bool.false_ne_true] at h
  obtain ⟨⟨_, _⟩, hstmts, -⟩ := h.bind
  obtain ⟨⟨_, _⟩, hret, -⟩ := hstmts.bind
  obtain ⟨_, hvalue, -⟩ := hret.bind
  obtain ⟨_, hexpr, -⟩ := Gives.bind hvalue
  rw [Typed.expr] at hexpr
  obtain ⟨_, hliteral, -⟩ := hexpr.bind
  rw [Context.literal] at hliteral
  split at hliteral
  · assumption
  · exact hliteral.throw.elim

/-- There is a class file only if the text that folding makes is short. -/
theorem textFits_of_generate {s : String} {r : Registry} {bytes : Bytes}
    (h : ((cls s).lower true).generate .static r = .ok bytes) : textFits (s ++ s) = true := by
  rw [ClassDef.lower_true, lower_false] at h
  obtain ⟨entry, f, -, hassemble, -⟩ := LoweredClass.generate_eq_ok h
  have hm : (joined s).fold ∈ (lowered s).fold.methods := List.mem_cons_of_mem _ List.mem_cons_self
  obtain ⟨info, -, hmade⟩ := exists_right (LoweredClass.assemble_made hassemble).methods hm
  obtain ⟨p, q, hcode, -⟩ := hmade.code
  have hgives : Gives _ _ := ⟨p, q, hcode⟩
  obtain ⟨scope, -, hgives⟩ := hgives.bind
  obtain ⟨_, hbody, -⟩ := Gives.bind (f := fun made => _) hgives
  exact textFits_of_gives rfl hbody

/-- A text that is short, although twice the text is not. -/
def half : String := String.ofList (List.replicate 32768 'a')

theorem utf8ByteSize_replicate (n : Nat) : (String.ofList (List.replicate n 'a')).utf8ByteSize = n := by
  induction n with
  | zero => rfl
  | succ n ih =>
    rw [List.replicate_succ', String.ofList_append, String.utf8ByteSize_append, ih]
    rfl

theorem textFits_half : textFits half = true ∧ textFits (half ++ half) = false := by
  have hsize : half.utf8ByteSize = 32768 := utf8ByteSize_replicate 32768
  rw [textFits, textFits, String.utf8ByteSize_append, hsize]
  exact ⟨rfl, rfl⟩

end Doubled

theorem Compilation.Built.artifact_withOptimize_doubled :
    (Doubled.compilation Doubled.half).Built ∧
      ∃ bytes, ⟨Doubled.className, bytes⟩ ∈
        (((Doubled.compilation Doubled.half).withOptimize false).compile .classGeneration).2.artifacts ∧
      ((∃ bytes', ⟨Doubled.className, bytes'⟩ ∈
          (((Doubled.compilation Doubled.half).withOptimize true).compile .classGeneration).2.artifacts) ∨
        ∃ m ∈ (((Doubled.compilation Doubled.half).withOptimize true).compile .classGeneration).2.modules,
          (m.cls.name = Doubled.className ∨ (Doubled.compilation Doubled.half).config.atomic = true) ∧
            m.found ≠ [] ∧ ∀ x ∈ m.found, x.code = .codegenLimit) := by
  have hc := Doubled.built Doubled.half
  obtain ⟨bytes, hbytes⟩ := Doubled.exists_artifact Doubled.textFits_half.1
  exact ⟨hc, bytes, hbytes, hc.artifact_withOptimize hbytes⟩

/-- Folding can take away a class file. -/
theorem Compilation.exists_artifact_lost : ¬∀ c : Compilation, c.Built → ∀ (n : Name) (bytes : Bytes),
    ⟨n, bytes⟩ ∈ ((c.withOptimize false).compile .classGeneration).2.artifacts →
      ∃ bytes', ⟨n, bytes'⟩ ∈ ((c.withOptimize true).compile .classGeneration).2.artifacts := by
  intro h
  obtain ⟨bytes, hbytes⟩ := Doubled.exists_artifact Doubled.textFits_half.1
  obtain ⟨bytes', hbytes'⟩ := h _ (Doubled.built Doubled.half) _ _ hbytes
  have hc := (Doubled.built Doubled.half).withOptimize true
  obtain ⟨c', heq, -, hmodules, -⟩ := hc.fresh.compile_eq rfl
  rw [heq] at hbytes'
  obtain ⟨-, _, hm', -, hartifact⟩ := of_mem_artifacts_withhold hbytes'
  rw [hmodules] at hm'
  obtain ⟨m, hm, rfl⟩ := List.mem_map.1 hm'
  have hpassed := passed_of_artifact (hc.fresh.modules m hm) hartifact
  obtain rfl := List.mem_singleton.1 hm
  have hshort := Doubled.textFits_of_generate hpassed.generated
  rw [Doubled.textFits_half.2] at hshort
  cases hshort

end ClassTree
