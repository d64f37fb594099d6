import ClassTree.Proofs.Loader.Typed
import ClassTree.Proofs.Machine.TypedRun

/-!
# Runs of checked classes

What was compiled with types, and then loaded beside the host library, runs as its types say
(`Compilation.Reached.runs_typed`): from a machine that has not run yet, and from every machine that such a run leaves, a call
that is given what it declares comes to a value of the declared type, or it ends for one of a few reasons. No code is found
to be at odds with a class on the way.

This holds of classes in which no static method takes the place of an instance method, and which leave the names alone that the
compiler makes; neither is checked.
-/

namespace ClassTree

namespace Compilation

/-- Calls of methods and constructors of classes that were checked, compiled and loaded: a machine that has not run yet is
typed, and a call from a typed machine keeps it so, and ends with a value of the declared type, or because the fuel is used up,
or with a null reference, a division by zero or a stack overflow. -/
theorem Reached.runs_typed {c : Compilation} (hc : Reached c) (hstatic : c.config.staticChecking = true)
    (hok : (c.compile .classGeneration).1 = .ok ()) (hunreserved : ∀ d ∈ c.defs, d.Unreserved)
    (hreceivers : (c.compile .classGeneration).2.registry.KeepsReceivers) {loaded : List LoadedClass} {l : Loader}
    (hload : (c.compile .classGeneration).2.loadInto .boot = (.ok loaded, l)) :
    (∀ identity, Machine.Typed l { loader := l, heap := .empty identity }) ∧
      ∀ m : Machine, m.Typed l → ∀ t : Target, l.Holds t.cls → t.method ∈ t.cls.methods →
      t.method.body ≠ .abstract → ∀ receiver, t.Receives m.heap receiver → ∀ args passed,
        args.length = t.method.params.length → m.heap.coerceAll args t.method.params = .ok passed → ∀ fuel,
          Triple (Run.call fuel t receiver args) m (fun w m' => m.Onward l m' ∧ m'.heap.Conforms w t.method.ret)
            fun e m' => m.Onward l m' ∧ e.Expected := by
  refine ⟨Machine.typed_start l, fun m hm t hholds hmem hbody receiver hreceiver args passed hlength hpassed fuel => ?_⟩
  obtain ⟨c₀, hc₀, hcarries, heq⟩ := hc.compile_eq
  rw [heq] at hok hreceivers hload
  rw [hcarries.defs] at hunreserved
  have hne : c₀.modules.isEmpty = false := by
    cases hempty : c₀.modules.isEmpty with
    | false => rfl
    | true =>
      rw [Compilation.compile, hempty] at hok
      cases hok
  rw [hc₀.registry_compile hne] at hreceivers
  have htyped := hc₀.typed_loadInto hok (congrArg Prod.fst hload) hunreserved hreceivers (hcarries.config ▸ hstatic)
  rw [hload] at htyped
  have hserves : t.Serves l ⟨t.method.params, t.method.ret⟩ := ⟨hholds, hmem, hbody, rfl, rfl⟩
  exact hm.call htyped fuel hserves hreceiver hlength hpassed

end Compilation

/-! ## A class that is taken for an instance of the root class -/

namespace Hashed

def className : Name := .ofPath ["A"] (Eq.refl true)

/-- `int hashCode()`, which takes the place of the method of the root class. -/
def hashed : MethodDef where
  name := "hashCode"
  modifiers := .pub
  params := []
  ret := .int
  body := some [.ret (some (.lit (.int 7)))]

/-- `static int run()`, which calls it on a variable of the type of the root class. -/
def run : MethodDef where
  name := "run"
  modifiers := .pub ||| .static
  params := []
  ret := .int
  body := some [
    .decl "x" .object (some (.new className [])),
    .ret (some (.call (.var "x") "hashCode" []))]

def cls : ClassDef := { name := className, members := [.method hashed, .method run] }

def compilation : Compilation := { modules := [{ name := Module.syntheticName className, cls }], index := [("A", 0)] }

theorem built : compilation.Built := .add (d := cls) (.start {} Module.syntheticName) rfl

theorem reached : compilation.Reached := .add (d := cls) (.start {} Module.syntheticName) rfl

/-- The class file that the class is compiled to. -/
def file : ClassFile where
  constants := #[.utf8 "A", .cls 1, .utf8 "lang.Object", .cls 3, .utf8 "<init>", .utf8 "()V", .methodRef 4 5 6,
    .int 7, .utf8 "hashCode", .utf8 "()I", .methodRef 2 5 6, .methodRef 4 9 10, .utf8 "run"]
  access := .pub
  thisClass := 2
  superClass := 4
  inner := []
  fields := []
  methods := [
    { access := .pub, name := 5, descriptor := 6, maxLocals := 1, code := #[9, 0, 0, 17, 0, 7, 43] },
    { access := .pub, name := 9, descriptor := 10, maxLocals := 1, code := #[0, 0, 8, 42] },
    { access := .pub ||| .static, name := 13, descriptor := 10, maxLocals := 1, code := #[
      15, 0, 2, 7, 17, 0, 11, 10, 0, 0, 9, 0, 0, 16, 0, 12, 42] }]

theorem verify_file : file.verify = .ok () := by
  have hconstants : file.constants.verify = .ok () := by
    have hcs : file.constants.toList = Constants.belowRoot className ++
        [.methodRef 4 5 6, .int 7, .utf8 "hashCode", .utf8 "()I", .methodRef 2 5 6, .methodRef 4 9 10, .utf8 "run"] := rfl
    have hvoid : Signature.ofDescriptor? "()V" = some ⟨[], .void⟩ :=
      Signature.ofDescriptor?_of_isValue (s := ⟨[], .void⟩) (by decide) Ty.noConfusion
    have hint : Signature.ofDescriptor? "()I" = some ⟨[], .int⟩ :=
      Signature.ofDescriptor?_of_isValue (s := ⟨[], .int⟩) (by decide) Ty.noConfusion
    have hconstructor : file.constants.verifyAt 11 (.methodRef 2 5 6) = .ok () := by
      simp only [Constants.verifyAt, bind_eq_ok, orFail_eq_ok, require_eq_ok]
      exact ⟨_, rfl, _, className.parse?_text, (), rfl, _, hvoid, rfl⟩
    have hmethod : file.constants.verifyAt 12 (.methodRef 4 9 10) = .ok () := by
      simp only [Constants.verifyAt, bind_eq_ok, orFail_eq_ok, require_eq_ok]
      exact ⟨_, rfl, _, Name.object.parse?_text, (), rfl, _, hint, rfl⟩
    refine Constants.verify_belowRoot hcs ?_
    simp only [Constants.verifyFrom, bind_eq_ok]
    exact ⟨(), Constants.verifyAt_superConstructor hcs, (), rfl, (), rfl, (), rfl, (), hconstructor, (), hmethod, (), rfl,
      trivial⟩
  have hheader : file.verifyHeader = .ok className := rfl
  have hmethods : file.verifyMethods = .ok () := by cbv
  simp only [ClassFile.verify, bind_eq_ok]
  exact ⟨(), hconstants, className, hheader, (), rfl, (), rfl, hmethods⟩

/-- The bytes of the class file. -/
def bytes : Bytes := file.encode.toOption.getD []

theorem encode_file : file.encode = .ok bytes := by cbv

theorem compile_eq : (compilation.compile .classGeneration).1 = .ok () ∧
    (compilation.compile .classGeneration).2.modules =
      [{ name := Module.syntheticName className, cls, lowered := some (cls.lower true), artifact := some bytes }] := by
  cbv

/-- The class with its class file. -/
def artifact : Artifact := ⟨className, bytes⟩

theorem accepted : artifact.Accepted file where
  decoded := (Reads.classFile rfl (by decide) encode_file).decode
  verified := verify_file
  named := rfl

theorem fits : Loader.boot.Fits [artifact] :=
  Loader.fits_singleton Loader.wellFormed_boot accepted (Loader.contains_boot (by decide)) rfl

theorem exists_loadInto : ∃ loaded, ((compilation.compile .classGeneration).2.loadInto .boot).1 = .ok loaded := by
  have hartifacts : (compilation.compile .classGeneration).2.artifacts = [artifact] := by
    rw [Compilation.artifacts, compile_eq.2]
    rfl
  rw [Compilation.loadInto, hartifacts]
  exact (fits.exists_defineAllBy_iff Dependencies.toposort_sorted?).2 (.inr (List.pairwise_singleton _ _))

theorem unreserved : ∀ d ∈ compilation.defs, d.Unreserved := by
  intro d hd
  obtain rfl := List.mem_singleton.1 hd
  exact ⟨by decide, nofun⟩

/-- The static method has a name that is not inherited. -/
theorem firstMethod?_run : Registry.firstMethod? (compilation.resolved.chain .object) "run" [] = none := by
  with_unfolding_all rfl

theorem keepsReceivers : compilation.resolved.KeepsReceivers := by
  intro n e s he hs m hm base hbase hinstance
  rcases built.mem_resolved (Registry.get?_eq_some he).1 with hhost | ⟨d, hd, rfl⟩
  · have hall : ∀ e ∈ Host.classes, ∀ m ∈ e.methods, m.isStatic = false := by decide
    exact hall e hhost m hm
  · obtain rfl := List.mem_singleton.1 hd
    obtain rfl : Name.object = s := Option.some.inj hs
    have hmethods : (cls.entry compilation.declared).methods = [cls.methodEntry hashed, cls.methodEntry run] := by cbv
    rw [hmethods, List.mem_pair] at hm
    rcases hm with rfl | rfl
    · rfl
    · cases firstMethod?_run.symm.trans hbase

theorem findMethods_run :
    compilation.resolved.findMethods className "run" = [cls.methodEntry run] := by
  with_unfolding_all rfl

end Hashed

/-- So for a call of a static method, on its way to the method of an instance whose class the caller does not know. -/
theorem Compilation.Reached.runs_typed_hashed :
    Hashed.compilation.Reached ∧ (Hashed.compilation.compile .classGeneration).1 = .ok () ∧
      (∀ d ∈ Hashed.compilation.defs, d.Unreserved) ∧
      (Hashed.compilation.compile .classGeneration).2.registry.KeepsReceivers ∧ ∃ loaded l k t,
        (Hashed.compilation.compile .classGeneration).2.loadInto .boot = (.ok loaded, l) ∧
        l.resolve? Hashed.className.text = some k ∧ k.findMethod? "run" "()I" = some t ∧
        ∀ fuel, Triple (Run.call fuel t none []) { loader := l } (fun w m => m.Typed l ∧ m.heap.Conforms w .int)
          fun e m => m.Typed l ∧ e.Expected := by
  have hreceivers : (Hashed.compilation.compile .classGeneration).2.registry.KeepsReceivers := by
    rw [Hashed.built.registry_compile rfl]
    exact Hashed.keepsReceivers
  obtain ⟨loaded, hloaded⟩ := Hashed.exists_loadInto
  have hload : (Hashed.compilation.compile .classGeneration).2.loadInto .boot = (.ok loaded, _) := Prod.ext hloaded rfl
  have hmirrors := Hashed.built.mirrors Hashed.compile_eq.1 hloaded Hashed.unreserved Hashed.keepsReceivers
  have hmem : Hashed.cls.methodEntry Hashed.run ∈ Hashed.compilation.resolved.findMethods Hashed.className "run" :=
    Hashed.findMethods_run ▸ List.mem_singleton_self _
  obtain ⟨-, k, t, hk, ht, hstatic, hserves⟩ := hmirrors.hasStatic hmem rfl
  obtain ⟨hstart, hcalls⟩ := Hashed.reached.runs_typed rfl Hashed.compile_eq.1 Hashed.unreserved hreceivers hload
  have hreceives : t.Receives .empty none := by
    rw [Target.Receives, hstatic]
    exact .nil
  refine ⟨Hashed.reached, Hashed.compile_eq.1, Hashed.unreserved, hreceivers, loaded, _, k, t, hload, hk, ht, fun fuel => ?_⟩
  have hcall := hcalls _ (hstart Int32.ofNat) t hserves.holds hserves.mem hserves.body none hreceives [] [] (by rw [hserves.params]; rfl)
    (by rw [hserves.params]; rfl) fuel
  rw [hserves.ret] at hcall
  exact hcall.mono (fun w m h => ⟨h.1.typed, h.2⟩) fun e m h => ⟨h.1.typed, h.2⟩

end ClassTree
