import Mathlib
import ClassTree.Proofs.CallFree.Methods

/-!
# Methods without calls under both bindings

A static method without calls does the same whether its code names members by references or by name
(`Compilation.Built.static_agrees_dynamic`), if every variable gets values of its own type alone: the call comes to the same
result and leaves the same machine. If a text may be null, the method with names may fail instead, because an operand of `+`
is no number. Neither condition can be left out (`Counting.static_ne_dynamic`).
-/

namespace ClassTree

open Run

section Bindings

variable {texts : Bool} {scope : Scope} {ret : Ty} {lm lm' : LoadedMethod}

theorem Flow.Same.result_eq {flow flow' : Flow} (h : flow.Same texts scope ret flow') (hret : lm.ret = ret.erased)
    (hret' : lm'.ret = ret.erased) : flow.result lm = flow'.result lm' := by
  have hnone : handOver lm none = handOver lm' none := by
    funext m
    simp only [handOver_eq, Heap.finish, hret, hret']
  cases flow with
  | next slots =>
    cases flow' with
    | next slots' => exact hnone
    | ret w => exact h.elim
  | ret v =>
    cases flow' with
    | next slots' => cases v <;> exact h.elim
    | ret w =>
      cases v with
      | none =>
        cases w with
        | none => exact hnone
        | some w => exact h.elim
      | some v =>
        cases w with
        | none => exact h.elim
        | some w =>
          funext m
          have hcoerce : m.heap.coerce v ret.erased = m.heap.coerce w ret.erased := h m.heap
          simp only [Flow.result, handOver_eq, Heap.finish, hret, hret', hcoerce]

/-- A call comes to the same where types are known and where they are not, or it fails where they are not. -/
theorem MethodDef.outcome_agree {md : MethodDef} {optimize : Bool} {body : List Stmt} {c : Context}
    {held : Double → Double} {args : List Value} (hc : c.isStatic = true) (hcret : c.ret = md.ret)
    (hfree : Stmt.allCallFree body = true) (hw : (Stmt.block body).WellTyped c (afterParams md.params .ofStatic))
    (hreturns : c.ret.isVoid = true ∨ anyReturns body = true)
    (hexact : (Stmt.block body).storesExactly texts c (afterParams md.params .ofStatic) = true)
    (hslots : (Slots.ofArgs args).Typed texts (afterParams md.params .ofStatic)) (hret : lm.ret = md.ret.erased)
    (hret' : lm'.ret = md.ret.erased) (fuel : Nat) (m : Machine) :
    md.outcome optimize body (some c) held lm args fuel m = md.outcome optimize body none held lm' args fuel m ∨
      texts = false ∧ (md.outcome optimize body none held lm' args fuel).FailsOnOperands m := by
  have hblock : (Stmt.block (lowerBody optimize body)).isCallFree = true := by
    rw [Stmt.isCallFree]
    exact lowerBody_callFree optimize hfree
  have hmeaning := Stmt.perform_agree (s := ⟨some c, held, textsAt fuel, fuel⟩) hc rfl hblock
    (lowerBody_wellTyped optimize hw hreturns) (lowerBody_storesExactly optimize hc hfree hw hexact) hslots
  rw [hcret] at hmeaning
  have hresult : Agree (texts = false) (fun v w => v = w) (md.outcome optimize body (some c) held lm args fuel)
      (md.outcome optimize body none held lm' args fuel) := by
    refine .bind hmeaning fun flow flow' h => ?_
    rw [h.result_eq hret hret']
    exact .same fun _ _ _ _ => rfl
  refine (hresult m).imp_left fun h => ?_
  split at h
  · rename_i v m' hv
    obtain ⟨w, hw, rfl⟩ := h
    rw [hv, hw]
  · rename_i e m' he
    rw [he, h]

end Bindings

/-- Whether the method uses local variables and operators alone. -/
def MethodDef.isCallFree (md : MethodDef) : Bool := md.body.any Stmt.allCallFree

/-- Whether the variables of a static method get values of their own types alone. -/
def MethodDef.storesExactly (texts : Bool) (r : Registry) (entry : ClassEntry) (md : MethodDef) : Bool :=
  md.body.all fun body => (Stmt.block body).storesExactly texts (.ofMethod r entry md) (afterParams md.params .ofStatic)

/-- A method without calls of a class that was compiled with names, and of one that was compiled with references. -/
theorem agree_of_loadedAs {c c' : Compilation} {d : ClassDef} {cls cls' : LoadedClass} {entry entry' : ClassEntry}
    {md : MethodDef} {lm lm' : LoadedMethod} (h : c.LoadedAs d cls entry md lm) (h' : c'.LoadedAs d cls' entry' md lm')
    (hstatic : c.config.staticChecking = true) (hdynamic : c'.config.staticChecking = false)
    (hoptimize : c'.config.optimize = c.config.optimize) {body : List Stmt} (hbody : md.body = some body)
    (hmdStatic : md.modifiers.isStatic = true) (hfree : Stmt.allCallFree body = true) {texts : Bool}
    (hexact : md.storesExactly texts c.resolved entry = true) {args : List Value}
    (htexts : texts = true → passesTexts md.params args = true) (machine : Machine) :
    (∀ r, Ends (fun fuel => Run.call fuel ⟨cls, lm⟩ none args) machine r ↔
      Ends (fun fuel => Run.call fuel ⟨cls', lm'⟩ none args) machine r) ∨
    texts = false ∧ ∃ actual machine', Ends (fun fuel => Run.call fuel ⟨cls', lm'⟩ none args) machine
      (.error (.failure (.typeMismatch "numeric operands" actual)) machine') := by
  have hmethod := h.method
  have hmethod' := h'.method
  rw [show c.config.binding = .static by rw [Config.binding, hstatic]; rfl] at hmethod
  rw [show c'.config.binding = .dynamic by rw [Config.binding, hdynamic]; rfl, hoptimize] at hmethod'
  obtain ⟨hparams, hret⟩ := hmethod.signature_eq h.params
  obtain ⟨hparams', hret'⟩ := hmethod'.signature_eq h.params
  -- What the check says of the body that was written, holds of the one that was lowered.
  obtain ⟨hdeclares, hw, hreturns⟩ := (ClassDef.checkMethod_eq_nil hbody).1 (h.checked hstatic)
  have hfirst : (Context.ofMethod c.resolved entry md).firstScope = .ofStatic := by
    simp [Context.firstScope, Context.ofMethod, hmdStatic]
  rw [hfirst] at hdeclares hw
  -- Both classes hold the same doubles.
  have hdoubles : cls'.constants.doubles = cls.constants.doubles := by
    rw [h.loaded.doubles, h'.loaded.doubles, hoptimize]
  have hdistinct : (cls.constants.doubles.map Double.canonical).Nodup := by
    rw [h.loaded.doubles]
    exact nodup_holdAll (by simp) _
  obtain ⟨maxLocals, code, hcode, hdoes⟩ := hmethod.does h.loaded.verified h.member hdistinct hbody hmdStatic h.concrete hfree
    fun _ => lowerBody_wellTyped _ hw hreturns
  obtain ⟨maxLocals', code', hcode', hdoes'⟩ := hmethod'.does h'.loaded.verified h'.member (hdoubles ▸ hdistinct) hbody
    hmdStatic h.concrete hfree nofun
  rw [hdoubles] at hdoes'
  have hrefusal : Target.refusal? ⟨cls, lm⟩ args machine = Target.refusal? ⟨cls', lm'⟩ args machine := by
    refine Target.refusal?_congr ?_ (hmethod.name.trans hmethod'.name.symm) (hparams.trans hparams'.symm)
    exact h.loaded.name.trans h'.loaded.name.symm
  cases hrefuse : Target.refusal? ⟨cls, lm⟩ args machine with
  | some e =>
    left
    intro r
    simp only [Ends, Target.call_of_refusal? (t := ⟨cls, lm⟩) hcode hrefuse,
      Target.call_of_refusal? (t := ⟨cls', lm'⟩) hcode' (hrefusal.symm.trans hrefuse)]
  | none =>
    obtain ⟨hdepth, hlength, hnested, passed, hargs⟩ := Target.refusal?_eq_none hrefuse
    obtain ⟨-, hlength', -, passed', hargs'⟩ := Target.refusal?_eq_none (hrefusal.symm.trans hrefuse)
    obtain rfl : passed = passed' := by
      have hsame : machine.heap.coerceAll args lm.params = machine.heap.coerceAll args lm'.params := by
        rw [hparams, hparams']
      exact Except.ok.inj ((hargs.symm.trans hsame).trans hargs')
    have htypes : List.Forall₂ (fun p v => Value.HasType texts v p.ty) md.params passed := by
      refine hasTypes_of_coerceAll (h := machine.heap) ?_ h.params ?_ htexts
      · rw [hlength]
        exact (congrArg List.length hparams).trans (List.length_map _)
      · rw [← hparams]
        exact hargs
    have hslots := Slots.typed_ofArgs hdeclares htypes
    generalize heldFor cls.constants.doubles = held at hdoes hdoes'
    -- Each call comes to what its method means.
    have hends : ∀ r, Ends (fun fuel => Run.call fuel ⟨cls, lm⟩ none args) machine r ↔ _ :=
      ends_call_iff (z := md.outcome c.config.optimize body (some (.ofMethod c.resolved entry md)) held lm passed) hcode hlength
        hargs hdepth hnested rfl fun n => by
          obtain ⟨o, hrun⟩ := hdoes passed _ rfl (textsAt n) n machine.inside
          exact hrun.drive fun _ _ => MethodDef.meaning_ne_next
    have hends' : ∀ r, Ends (fun fuel => Run.call fuel ⟨cls', lm'⟩ none args) machine r ↔ _ :=
      ends_call_iff (z := md.outcome c.config.optimize body none held lm' passed) hcode' hlength' hargs' hdepth hnested rfl
        fun n => by
          obtain ⟨o, hrun⟩ := hdoes' passed _ rfl (textsAt n) n machine.inside
          exact hrun.drive fun _ _ => MethodDef.meaning_ne_next
    have hexact' : (Stmt.block body).storesExactly texts (.ofMethod c.resolved entry md) (afterParams md.params .ofStatic) =
        true := by simpa only [MethodDef.storesExactly, hbody, Option.all_some] using hexact
    by_cases hfails : texts = false ∧ ∃ n,
        (md.outcome c.config.optimize body none held lm' passed n).FailsOnOperands machine.inside
    · obtain ⟨hlax, n, actual, m', hm'⟩ := hfails
      refine .inr ⟨hlax, actual, { m' with depth := machine.depth, nestedRuns := m'.nestedRuns - 1 },
        (hends' _).2 ⟨n, ?_, ?_⟩⟩
      · rw [hm']
        nofun
      · rw [hm']
        rfl
    · left
      intro r
      have hsame : ∀ n, md.outcome c.config.optimize body (some (.ofMethod c.resolved entry md)) held lm passed n
          machine.inside = md.outcome c.config.optimize body none held lm' passed n machine.inside := by
        intro n
        refine (MethodDef.outcome_agree hmdStatic rfl hfree hw hreturns hexact' hslots hret hret' n
          machine.inside).resolve_right ?_
        exact fun hn => hfails ⟨hn.1, n, hn.2⟩
      rw [hends, hends']
      simp only [hsame]

/-- A static method without calls whose variables get values of their own types alone does the same with references that are
resolved beforehand and with names, unless a text may be null: then it may fail with names, because an operand is no number. -/
theorem Compilation.Built.static_agrees_dynamic {c c' : Compilation} (hc : c.Built) (hc' : c'.Built)
    (hstatic : c.config.staticChecking = true) (hdynamic : c'.config.staticChecking = false)
    (hoptimize : c'.config.optimize = c.config.optimize) {m m' : Module} {bytes bytes' : Bytes}
    (hm : m ∈ (c.compile .classGeneration).2.modules) (hbytes : m.artifact = some bytes)
    (hm' : m' ∈ (c'.compile .classGeneration).2.modules) (hbytes' : m'.artifact = some bytes') (hcls : m'.cls = m.cls)
    {l l' : Loader} {name name' : String} {cls cls' : LoadedClass} (hdefine : (l.define name bytes).1 = .ok cls)
    (hdefine' : (l'.define name' bytes').1 = .ok cls') {entry : ClassEntry}
    (hentry : c.resolved.get? m.cls.name = some entry) {md : MethodDef} (hmd : md ∈ m.cls.methods)
    (hmdStatic : md.modifiers.isStatic = true) (hfree : md.isCallFree = true)
    (hexact : md.storesExactly false c.resolved entry = true) :
    ∃ lm lm', cls.ownMethod? md.name (Signature.mk (md.params.map (·.ty)) md.ret).descriptor = some lm ∧
      cls'.ownMethod? md.name (Signature.mk (md.params.map (·.ty)) md.ret).descriptor = some lm' ∧
      ∀ (args : List Value) (machine : Machine),
        (∀ r, Ends (fun fuel => Run.call fuel ⟨cls, lm⟩ none args) machine r ↔
          Ends (fun fuel => Run.call fuel ⟨cls', lm'⟩ none args) machine r) ∨
        (md.storesExactly true c.resolved entry && passesTexts md.params args) = false ∧
          ∃ actual machine', Ends (fun fuel => Run.call fuel ⟨cls', lm'⟩ none args) machine
            (.error (.failure (.typeMismatch "numeric operands" actual)) machine') := by
  obtain ⟨body, hbody, hcallFree⟩ : ∃ body, md.body = some body ∧ Stmt.allCallFree body = true := by
    simpa only [MethodDef.isCallFree, Option.any_eq_true] using hfree
  obtain ⟨entry', lm, h⟩ := hc.exists_loadedAs hm hbytes hdefine hmd hbody
  obtain rfl : entry = entry' := Option.some.inj (hentry.symm.trans h.registered)
  obtain ⟨entry', lm', h'⟩ := hc'.exists_loadedAs hm' hbytes' hdefine' (hcls ▸ hmd) hbody
  rw [hcls] at h'
  refine ⟨lm, lm', h.own, h'.own, fun args machine => ?_⟩
  cases htexts : md.storesExactly true c.resolved entry && passesTexts md.params args with
  | true =>
    rw [Bool.and_eq_true] at htexts
    refine (agree_of_loadedAs h h' hstatic hdynamic hoptimize hbody hmdStatic hcallFree htexts.1 (fun _ => htexts.2)
      machine).imp_right ?_
    rintro ⟨hfalse, -⟩
    cases hfalse
  | false =>
    refine (agree_of_loadedAs h h' hstatic hdynamic hoptimize hbody hmdStatic hcallFree hexact nofun machine).imp_right ?_
    exact fun ⟨_, hfails⟩ => ⟨rfl, hfails⟩

/-! ## A class in which the bindings differ -/

namespace Counting

def className : Name := .ofPath ["A"] (Eq.refl true)

/-- `static boolean counted(int n)`: whether the numbers from `n` down to 1, joined to a text, are `21`. -/
def counted : MethodDef where
  name := "counted"
  modifiers := .pub ||| .static
  params := [⟨"n", .int⟩]
  ret := .boolean
  body := some [
    .decl "s" .string (some (.lit (.str ""))),
    .loop (.binary .lt (.lit (.int 0)) (.var "n")) (.block [
      .expr (.assign (.var "s") (.binary .add (.var "s") (.var "n"))),
      .expr (.assign (.var "n") (.binary .sub (.var "n") (.lit (.int 1))))]),
    .ret (some (.binary .eq (.var "s") (.lit (.str "21"))))]

/-- `static long widened()`, which puts the greatest `int` in a `long` variable and adds 1. -/
def widened : MethodDef where
  name := "widened"
  modifiers := .pub ||| .static
  params := []
  ret := .long
  body := some [
    .decl "x" .long (some (.lit (.int 2147483647))),
    .ret (some (.binary .add (.var "x") (.lit (.int 1))))]

/-- `static boolean joined()`, which joins 1 to a text variable that holds null. -/
def joined : MethodDef where
  name := "joined"
  modifiers := .pub ||| .static
  params := []
  ret := .boolean
  body := some [
    .decl "s" .string none,
    .ret (some (.binary .eq (.binary .add (.var "s") (.lit (.int 1))) (.lit (.str "null1"))))]

def cls : ClassDef := { name := className, members := [.method counted, .method widened, .method joined] }

def compilation (staticChecking : Bool) : Compilation :=
  { config := { staticChecking }, modules := [{ name := Module.syntheticName className, cls }], index := [("A", 0)] }

/-- The class file with references. -/
def typed : ClassFile where
  constants := #[.utf8 "A", .cls 1, .utf8 "lang.Object", .cls 3, .utf8 "<init>", .utf8 "()V", .methodRef 4 5 6, .utf8 "",
    .string 8, .utf8 "21", .string 10, .utf8 "counted", .utf8 "(I)Z", .int 2147483647, .utf8 "widened", .utf8 "()J",
    .utf8 "null1", .string 17, .utf8 "joined", .utf8 "()Z"]
  access := .pub
  thisClass := 2
  superClass := 4
  inner := []
  fields := []
  methods := [
    { access := .pub, name := 5, descriptor := 6, maxLocals := 1, code := #[9, 0, 0, 17, 0, 7, 43] },
    { access := .pub ||| .static, name := 12, descriptor := 13, maxLocals := 2, code := #[
      0, 0, 9, 10, 0, 1, 4, 9, 0, 0, 34, 40, 0, 21, 9, 0, 1, 9, 0, 0, 28, 10, 0, 1, 9, 0, 0, 5, 23, 10, 0, 0,
      41, 0, 29, 9, 0, 1, 0, 0, 11, 32, 42] },
    { access := .pub ||| .static, name := 15, descriptor := 16, maxLocals := 1, code := #[
      0, 0, 14, 29, 10, 0, 0, 9, 0, 0, 5, 29, 22, 42] },
    { access := .pub ||| .static, name := 19, descriptor := 20, maxLocals := 1, code := #[
      1, 10, 0, 0, 9, 0, 0, 5, 28, 0, 0, 18, 32, 42] }]

/-- The class file with names: it widens nothing, and adds where the other joins. -/
def named : ClassFile where
  constants := #[.utf8 "A", .cls 1, .utf8 "lang.Object", .cls 3, .utf8 "<init>", .utf8 "()V", .utf8 "", .string 7,
    .utf8 "21", .string 9, .utf8 "counted", .utf8 "(I)Z", .int 2147483647, .utf8 "widened", .utf8 "()J", .utf8 "null1",
    .string 16, .utf8 "joined", .utf8 "()Z"]
  access := .pub
  thisClass := 2
  superClass := 4
  inner := []
  fields := []
  methods := [
    { access := .pub, name := 5, descriptor := 6, maxLocals := 1, code := #[9, 0, 0, 20, 0, 4, 0, 6, 43] },
    { access := .pub ||| .static, name := 11, descriptor := 12, maxLocals := 2, code := #[
      0, 0, 8, 10, 0, 1, 4, 9, 0, 0, 34, 40, 0, 21, 9, 0, 1, 9, 0, 0, 22, 10, 0, 1, 9, 0, 0, 5, 23, 10, 0, 0,
      41, 0, 29, 9, 0, 1, 0, 0, 10, 32, 42] },
    { access := .pub ||| .static, name := 14, descriptor := 15, maxLocals := 1, code := #[
      0, 0, 13, 10, 0, 0, 9, 0, 0, 5, 22, 42] },
    { access := .pub ||| .static, name := 18, descriptor := 19, maxLocals := 1, code := #[
      1, 10, 0, 0, 9, 0, 0, 5, 22, 0, 0, 17, 32, 42] }]

theorem parse_name : Name.parse? "A" = some className := className.parse?_text

/-- Both class files are of the same class. -/
theorem verify_header {f : ClassFile} (hname : f.name? = some "A") (haccess : f.access = .pub)
    (hsuper : f.superName? = some "lang.Object") : f.verifyHeader = .ok className := by
  simp only [ClassFile.verifyHeader, bind_eq_ok, orFail_eq_ok, require_eq_ok, pure_eq_ok, haccess]
  exact ⟨_, hname, _, parse_name, (), by decide, (), by decide, _, hsuper, (), by decide, rfl⟩

theorem verify_methods : typed.verifyMethods = .ok () ∧ named.verifyMethods = .ok () := ⟨by cbv, by cbv⟩

theorem verify_typed : typed.verify = .ok () := by
  have hconstants : typed.constants.verify = .ok () := by
    have hcs : typed.constants.toList =
        Constants.belowRoot className ++ .methodRef 4 5 6 :: typed.constants.toList.drop 7 := rfl
    refine Constants.verify_belowRoot hcs ?_
    simp only [Constants.verifyFrom, bind_eq_ok]
    exact ⟨(), Constants.verifyAt_superConstructor hcs, rfl⟩
  simp only [ClassFile.verify, bind_eq_ok]
  exact ⟨(), hconstants, className, verify_header rfl rfl rfl, (), rfl, (), rfl, verify_methods.1⟩

theorem verify_named : named.verify = .ok () := by
  have hcs : named.constants.toList = Constants.belowRoot className ++ named.constants.toList.drop 6 := rfl
  have hconstants : named.constants.verify = .ok () := Constants.verify_belowRoot hcs rfl
  simp only [ClassFile.verify, bind_eq_ok]
  exact ⟨(), hconstants, className, verify_header rfl rfl rfl, (), rfl, (), rfl, verify_methods.2⟩

/-- The bytes of a class file. -/
def bytes (f : ClassFile) : Bytes := f.encode.toOption.getD []

/-- The class of a class file below the root class. -/
def loaded (f : ClassFile) : LoadedClass := (f.load? .object).getD .object

/-- Both class files have bytes, and can be loaded below the root class. -/
theorem encode_and_load : ∀ f ∈ [typed, named], f.encode.isOk = true ∧ (f.load? .object).isSome = true := by
  intro f hf
  simp only [List.mem_cons, List.not_mem_nil, or_false] at hf
  rcases hf with rfl | rfl
  · exact ⟨by cbv, by cbv⟩
  · exact ⟨by cbv, by cbv⟩

theorem encode_eq {f : ClassFile} (hf : f ∈ [typed, named]) : f.encode = .ok (bytes f) := by
  have hok := (encode_and_load f hf).1
  rw [bytes]
  cases h : f.encode with
  | ok bs => rfl
  | error e => rw [h] at hok; cases hok

theorem load?_eq {f : ClassFile} (hf : f ∈ [typed, named]) : f.load? .object = some (loaded f) := by
  obtain ⟨c, hc⟩ := Option.isSome_iff_exists.1 (encode_and_load f hf).2
  rw [loaded, hc, Option.getD_some]

/-- The class with the class file that it was compiled to. -/
def compiled (f : ClassFile) : Module where
  name := Module.syntheticName className
  cls
  lowered := some (cls.lower true)
  artifact := some (bytes f)

theorem modules_compile (staticChecking : Bool) : ((compilation staticChecking).compile .classGeneration).2.modules =
    [compiled (bif staticChecking then typed else named)] := by
  cases staticChecking <;> cbv

theorem compiled_typed : compiled typed ∈ ((compilation true).compile .classGeneration).2.modules :=
  modules_compile true ▸ List.mem_singleton.2 rfl

theorem compiled_named : compiled named ∈ ((compilation false).compile .classGeneration).2.modules :=
  modules_compile false ▸ List.mem_singleton.2 rfl

theorem define_eq {f : ClassFile} (hf : f ∈ [typed, named]) (hverify : f.verify = .ok ()) :
    (Loader.boot.define "A" (bytes f)).1 = .ok (loaded f) := by
  have hnew : Loader.boot.contains "A" = false := Loader.contains_boot (by decide)
  simp only [List.mem_cons, List.not_mem_nil, or_false] at hf
  rcases hf with rfl | rfl
  all_goals exact Loader.define_boot (encode_eq (by simp)) rfl (by decide) hverify rfl hnew rfl (load?_eq (by simp))

theorem define_typed : (Loader.boot.define "A" (bytes typed)).1 = .ok (loaded typed) :=
  define_eq (by simp) verify_typed

theorem define_named : (Loader.boot.define "A" (bytes named)).1 = .ok (loaded named) :=
  define_eq (by simp) verify_named

theorem built (staticChecking : Bool) : (compilation staticChecking).Built :=
  .add (d := cls) (.start { staticChecking } Module.syntheticName) rfl

/-- The variables of `counted` get values of their own types alone. -/
theorem storesExactly_counted (texts : Bool) (r : Registry) (entry : ClassEntry) :
    counted.storesExactly texts r entry = true := by
  cases texts <;> cbv

theorem exists_entry : ∃ entry, (compilation true).resolved.get? className = some entry := ⟨_, rfl⟩

/-- The value that a call came to, if it did. -/
def value? : EStateM.Result Halt Machine Value → Option Value
  | .ok v _ => some v
  | .error .. => none

theorem exists_of_value? {r : EStateM.Result Halt Machine Value} {v : Value} (h : value? r = some v) :
    ∃ machine, r = .ok v machine := by
  cases r with
  | ok v' machine => exact ⟨machine, by rw [Option.some.inj h]⟩
  | error => cases h

theorem exists_counted : ∃ lm, (loaded typed).ownMethod? "counted" "(I)Z" = some lm ∧ ∃ machine,
    Run.call 45 ⟨loaded typed, lm⟩ none [.int 2] unwatched { loader := .boot } = .ok (.bool true) machine := by
  have hrun : ((loaded typed).ownMethod? "counted" "(I)Z").any (fun lm =>
      value? (Run.call 45 ⟨loaded typed, lm⟩ none [.int 2] unwatched { loader := .boot }) = some (.bool true)) = true := by
    decide +kernel
  obtain ⟨lm, hlm, hends⟩ := (Option.any_eq_true _ _).1 hrun
  exact ⟨lm, hlm, exists_of_value? (of_decide_eq_true hends)⟩

theorem static_agrees_dynamic_counted :
    (compilation true).Built ∧ compiled typed ∈ ((compilation true).compile .classGeneration).2.modules ∧
      (compilation false).Built ∧ compiled named ∈ ((compilation false).compile .classGeneration).2.modules ∧
      (Loader.boot.define "A" (bytes typed)).1 = .ok (loaded typed) ∧
      (Loader.boot.define "A" (bytes named)).1 = .ok (loaded named) ∧ ∃ lm lm',
        (loaded typed).ownMethod? "counted" "(I)Z" = some lm ∧ (loaded named).ownMethod? "counted" "(I)Z" = some lm' ∧
          ∃ machine, Ends (fun fuel => Run.call fuel ⟨loaded typed, lm⟩ none [.int 2]) { loader := .boot }
              (.ok (.bool true) machine) ∧
            Ends (fun fuel => Run.call fuel ⟨loaded named, lm'⟩ none [.int 2]) { loader := .boot }
              (.ok (.bool true) machine) := by
  obtain ⟨entry, hentry⟩ := exists_entry
  obtain ⟨lm, lm', hlm, hlm', hcalls⟩ := Compilation.Built.static_agrees_dynamic (built true) (built false) rfl rfl rfl
    compiled_typed rfl compiled_named rfl rfl define_typed define_named hentry (show counted ∈ cls.methods from List.mem_cons_self ..)
    (by decide) (by decide) (storesExactly_counted false _ entry)
  obtain ⟨lm₀, hlm₀, machine, hcall⟩ := exists_counted
  obtain rfl : lm₀ = lm := Option.some.inj (hlm₀.symm.trans hlm)
  have hends : Ends (fun fuel => Run.call fuel ⟨loaded typed, lm₀⟩ none [.int 2]) { loader := .boot }
      (.ok (.bool true) machine) := ⟨⟨45, hcall⟩, nofun⟩
  have hsame := (hcalls [.int 2] { loader := .boot }).resolve_right ?_
  · exact ⟨built true, compiled_typed, built false, compiled_named, define_typed, define_named, lm₀, lm', hlm₀, hlm', machine,
      hends, (hsame _).1 hends⟩
  · rw [storesExactly_counted]
    exact fun h => Bool.false_ne_true h.1.symm

/-- What a call without arguments of a method of the class comes to. -/
def outcome (f : ClassFile) (name descriptor : String) : Option (Except RuntimeError Value) :=
  (loaded f).ownMethod? name descriptor |>.bind fun lm =>
    match Run.call 20 ⟨loaded f, lm⟩ none [] unwatched { loader := .boot } with
    | .ok v _ => some (.ok v)
    | .error (.failure e) _ => some (.error e)
    | .error .outOfFuel _ => none

/-- The call with references and the call with names differ if a number was widened, and if a text is null. -/
theorem static_ne_dynamic :
    (compilation true).Built ∧ compiled typed ∈ ((compilation true).compile .classGeneration).2.modules ∧
      (compilation false).Built ∧ compiled named ∈ ((compilation false).compile .classGeneration).2.modules ∧
      (Loader.boot.define "A" (bytes typed)).1 = .ok (loaded typed) ∧
      (Loader.boot.define "A" (bytes named)).1 = .ok (loaded named) ∧
      widened.isCallFree = true ∧ outcome typed "widened" "()J" = some (.ok (.long 2147483648)) ∧
      outcome named "widened" "()J" = some (.ok (.long (-2147483648))) ∧
      joined.isCallFree = true ∧ outcome typed "joined" "()Z" = some (.ok (.bool true)) ∧
      outcome named "joined" "()Z" = some (.error (.typeMismatch "numeric operands" "null and int")) := by
  refine ⟨built true, compiled_typed, built false, compiled_named, define_typed, define_named, ?_, ?_, ?_, ?_, ?_, ?_⟩
  all_goals decide +kernel

end Counting

end ClassTree
