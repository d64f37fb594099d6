import Mathlib
import ClassTree.Proofs.Loader.Compiled
import ClassTree.Proofs.Machine.Entry
import ClassTree.Proofs.Scalar.Statements

/-!
# Calls of methods over booleans and integers

A compiled static method whose parameters, variables and result are `boolean`, `int` or `long` does what the evaluation of
its body says: it returns a value exactly if the evaluation returns that value, and divides by zero exactly if the
evaluation does (`Compilation.Built.call_iff_evaluate`).
-/

namespace ClassTree

open Run

/-! ## Bodies that return on every way -/

mutual

/-- A statement that returns on every way does not go on. -/
theorem Stmt.exec_ne_ok {ret : Ty} {n : Nat} : ∀ {x : Stmt}, x.alwaysReturns = true → ∀ {env env' : Env},
    x.exec ret n env ≠ .ok env'
  | .ret none, _, env, env' => by
    rw [Stmt.exec]
    exact fun h => nomatch h
  | .ret (some e), _, env, env' => by
    rw [Stmt.exec]
    intro h
    obtain ⟨r, -, h⟩ := bind_eq_ok.1 h
    obtain ⟨v, -, h⟩ := bind_eq_ok.1 h
    cases h
  | .block stmts, h, env, env' => by
    rw [Stmt.alwaysReturns] at h
    rw [Stmt.exec]
    intro hexec
    obtain ⟨inner, hinner, -⟩ := bind_eq_ok.1 hexec
    exact Stmt.execAll_ne_ok h hinner
  | .cond test t (some e), h, env, env' => by
    rw [Stmt.alwaysReturns, Bool.and_eq_true] at h
    rw [Stmt.exec]
    intro hexec
    obtain ⟨r, -, hexec⟩ := bind_eq_ok.1 hexec
    obtain ⟨b, -, hexec⟩ := bind_eq_ok.1 hexec
    split at hexec
    · obtain ⟨inner, hinner, -⟩ := bind_eq_ok.1 hexec
      exact Stmt.exec_ne_ok h.1 hinner
    · obtain ⟨inner, hinner, -⟩ := bind_eq_ok.1 hexec
      exact Stmt.exec_ne_ok h.2 hinner

theorem Stmt.execAll_ne_ok {ret : Ty} {n : Nat} : ∀ {xs : List Stmt}, anyReturns xs = true → ∀ {env env' : Env},
    Stmt.execAll ret n xs env ≠ .ok env'
  | x :: rest, h, env, env' => by
    rw [anyReturns, Bool.or_eq_true] at h
    rw [Stmt.execAll]
    intro hexec
    obtain ⟨mid, hmid, hexec⟩ := bind_eq_ok.1 hexec
    rcases h with h | h
    · exact Stmt.exec_ne_ok h hmid
    · exact Stmt.execAll_ne_ok h hexec

end

/-! ## Arguments -/

/-- The parameters hold the arguments if these stand in the slots that come next. -/
theorem Models.declareParams {params : List Param} {args : List Scalar} {scope : Scope} {env : Env} {locals : Array Value}
    (h : Models scope env locals) (hparams : scope.DeclaresAll params) (htypes : args.map Scalar.ty = params.map (·.ty))
    (hlocals : ∀ (i : Nat) v, args[i]? = some v → locals[scope.nextSlot + i]? = some v.value) :
    Models (afterParams params scope)
      ((params.zipWith (fun p v => (⟨p.name, p.ty, v⟩ : Var)) args).reverse ++ env) locals := by
  induction params generalizing args scope env with
  | nil => simpa [afterParams] using h
  | cons p params ih =>
    obtain ⟨v, args, rfl⟩ : ∃ v rest, args = v :: rest := by
      cases args with
      | nil => simp at htypes
      | cons v rest => exact ⟨v, rest, rfl⟩
    rw [List.map_cons, List.map_cons, List.cons.injEq] at htypes
    obtain ⟨⟨slot, hslot⟩, hrest⟩ := hparams
    have hd : scope.declare p.name p.ty = (.ok slot, (scope.declare p.name p.ty).2) := Prod.ext hslot rfl
    obtain ⟨-, hnumber, hscope⟩ := Scope.declare_eq_ok hd
    have hfirst : locals[slot.toNat]? = some v.value := by
      rw [hnumber]
      exact hlocals 0 v rfl
    -- The value stands in the slot already, so storing it changes nothing.
    have hsame : locals.setIfInBounds slot.toNat v.value = locals := by
      apply Array.ext_getElem?
      intro i
      by_cases hi : slot.toNat = i
      · subst hi
        rw [hfirst, Array.getElem?_setIfInBounds_self_of_lt (Array.getElem?_eq_some_iff.1 hfirst).1]
      · rw [Array.getElem?_setIfInBounds_ne hi]
    have hmodels := h.declare hd htypes.1 (Array.getElem?_eq_some_iff.1 hfirst).1
    rw [hsame] at hmodels
    have hnext : (scope.declare p.name p.ty).2.nextSlot = scope.nextSlot + 1 := by rw [hscope]
    have hall := ih hmodels hrest htypes.2 fun i w hw => by
      rw [hnext, show scope.nextSlot + 1 + i = scope.nextSlot + (i + 1) by omega]
      exact hlocals (i + 1) w hw
    simpa [afterParams] using hall

/-- The slots at the start of a call hold the arguments. -/
theorem models_entry {params : List Param} {args : List Scalar} (hparams : Scope.ofStatic.DeclaresAll params)
    (htypes : args.map Scalar.ty = params.map (·.ty)) (maxLocals : UInt16) :
    Models (afterParams params .ofStatic) (params.zipWith (fun p v => (⟨p.name, p.ty, v⟩ : Var)) args).reverse
      (initialLocals none (args.map Scalar.value) maxLocals) := by
  have hlocals : ∀ (i : Nat) v, args[i]? = some v →
      (initialLocals none (args.map Scalar.value) maxLocals)[Scope.ofStatic.nextSlot + i]? = some v.value := by
    intro i v hv
    obtain ⟨hi, rfl⟩ := List.getElem?_eq_some_iff.1 hv
    simp [initialLocals, Scope.ofStatic, List.getElem?_append_left, hi]
  have h := Models.declareParams ⟨[], Scope.shows_ofStatic, .nil⟩ hparams htypes hlocals
  simpa using h

theorem Heap.coerce_value (h : Heap) (v : Scalar) : h.coerce v.value v.ty = .ok v.value := by
  cases v <;> rfl

theorem Heap.coerceAll_values (h : Heap) (args : List Scalar) :
    h.coerceAll (args.map Scalar.value) (args.map Scalar.ty) = .ok (args.map Scalar.value) := by
  induction args with
  | nil => rfl
  | cons v args ih =>
    rw [List.map_cons, List.map_cons, Heap.coerceAll, h.coerce_value, ih]
    rfl

/-! ## Runs -/

/-- A frame that a call from outside begins with, whose run follows an evaluation. -/
structure Follows (f : Frame) (ret : Ty) (x : Nat → Except Stop Env) : Prop where
  simulates : ∀ n, Simulates f.target ret n f (x n) fun _ _ => True
  returns : ∀ n env, x n ≠ .ok env
  result : ∀ v : Scalar, v.ty = ret → ∀ h : Heap, h.finish f.target.method (some v.value) = .ok v.value

namespace Follows

variable {f : Frame} {ret : Ty} {x : Nat → Except Stop Env}

/-- What the run of the frame comes to, if it ends: what the evaluation says that may go round as often as the run takes
steps. -/
theorem drive (h : Follows f ret x) (render : Value → Run String) (fuel : Nat) (m : Machine) :
    (∃ m', drive unwatched render fuel f [] m = .error .outOfFuel m') ∨
      (∃ v, x fuel = .error (.returned v) ∧ drive unwatched render fuel f [] m = .ok v.value { m with depth := m.depth - 1 }) ∨
      (x fuel = .error .divisionByZero ∧ drive unwatched render fuel f [] m = .error (.failure .divisionByZero) m) := by
  by_cases hfuel : ∃ m', Run.drive unwatched render fuel f [] m = .error .outOfFuel m'
  · exact .inl hfuel
  -- If it ends, it ends in the same way with more fuel, and with enough of it as the evaluation says.
  have hmore := drive_add fun m' heq => hfuel ⟨m', heq⟩
  have hsim := h.simulates fuel
  match hx : x fuel with
  | .ok env => exact absurd hx (h.returns fuel env)
  | .error (.returned v) =>
    rw [hx] at hsim
    obtain ⟨k, g, hk, hret, htarget, hty⟩ := hsim
    refine .inr (.inl ⟨v, rfl, ?_⟩)
    rw [← hmore (k + 1), show fuel + (k + 1) = k + (1 + fuel) by omega, hk, hret.drive, htarget, h.result v hty]
  | .error .divisionByZero =>
    rw [hx] at hsim
    obtain ⟨k, hk⟩ := hsim
    refine .inr (.inr ⟨rfl, ?_⟩)
    rw [← hmore k, Nat.add_comm fuel k, hk]
  | .error .outOfFuel =>
    rw [hx] at hsim
    obtain ⟨k, g, hle, hk⟩ := hsim
    refine absurd ⟨m, ?_⟩ hfuel
    rw [← hmore (k - fuel), show fuel + (k - fuel) = k + 0 by omega, hk]
    rfl
  | .error .stuck =>
    rw [hx] at hsim
    exact hsim.elim

theorem exists_drive_returned (h : Follows f ret x) {n : Nat} {v : Scalar} (hx : x n = .error (.returned v)) :
    ∃ fuel, ∀ render m, Run.drive unwatched render fuel f [] m = .ok v.value { m with depth := m.depth - 1 } := by
  have hsim := h.simulates n
  rw [hx] at hsim
  obtain ⟨k, g, hk, hret, htarget, hty⟩ := hsim
  refine ⟨k + (1 + 0), fun render m => ?_⟩
  rw [hk, hret.drive, htarget, h.result v hty]

theorem exists_drive_divisionByZero (h : Follows f ret x) {n : Nat} (hx : x n = .error .divisionByZero) :
    ∃ fuel, ∀ render m, Run.drive unwatched render fuel f [] m = .error (.failure .divisionByZero) m := by
  have hsim := h.simulates n
  rw [hx] at hsim
  obtain ⟨k, hk⟩ := hsim
  exact ⟨k + 0, fun render m => hk render 0 [] m⟩

end Follows

/-- A call of a method whose frame follows an evaluation returns what this returns, and divides by zero where it does. -/
theorem Follows.call_iff {t : Target} {maxLocals : UInt16} {code : Array UInt8} {args : List Value} {ret : Ty}
    {x : Nat → Except Stop Env}
    (h : Follows { target := t, code, locals := initialLocals none args maxLocals } ret x)
    (hbody : t.method.body = .code maxLocals code) (hlength : args.length = t.method.params.length) {m : Machine}
    (hargs : m.heap.coerceAll args t.method.params = .ok args) (hdepth : m.depth < m.maxDepth)
    (hnested : m.nestedRuns < maxNestedRuns) :
    (∀ v, (∃ fuel m', Run.call fuel t none args unwatched m = .ok v m') ↔
      ∃ n s, v = Scalar.value s ∧ x n = .error (.returned s)) ∧
    ((∃ fuel m', Run.call fuel t none args unwatched m = .error (.failure .divisionByZero) m') ↔
      ∃ n, x n = .error .divisionByZero) := by
  have hcall := call_eq_nest hbody hlength hargs hdepth
  refine ⟨fun v => ⟨?_, ?_⟩, ⟨?_, ?_⟩⟩
  · rintro ⟨fuel, m', hrun⟩
    rw [hcall, nest_eq hnested] at hrun
    rcases h.drive _ fuel _ with ⟨m'', heq⟩ | ⟨s, hs, heq⟩ | ⟨-, heq⟩
    · rw [heq] at hrun
      cases hrun
    · rw [heq] at hrun
      cases hrun
      exact ⟨fuel, s, rfl, hs⟩
    · rw [heq] at hrun
      cases hrun
  · rintro ⟨n, s, rfl, hs⟩
    obtain ⟨fuel, hrun⟩ := h.exists_drive_returned hs
    have hend := hcall fuel
    rw [nest_eq hnested, hrun] at hend
    exact ⟨fuel, _, hend⟩
  · rintro ⟨fuel, m', hrun⟩
    rw [hcall, nest_eq hnested] at hrun
    rcases h.drive _ fuel _ with ⟨m'', heq⟩ | ⟨s, -, heq⟩ | ⟨hzero, -⟩
    · rw [heq] at hrun
      cases hrun
    · rw [heq] at hrun
      cases hrun
    · exact ⟨fuel, hzero⟩
  · rintro ⟨n, hzero⟩
    obtain ⟨fuel, hrun⟩ := h.exists_drive_divisionByZero hzero
    have hend := hcall fuel
    rw [nest_eq hnested, hrun] at hend
    exact ⟨fuel, _, hend⟩

/-! ## Compiled methods -/

/-- The code of a method of the fragment follows the execution of its body. -/
theorem compileMethod_executes {c : Context} {cs : Constants} {m : LoweredMethod} {body : List Stmt}
    (hc : c.isStatic = true) (hret : c.ret.isScalar = true) (hbody : m.body = .method body)
    (hscalar : Stmt.allScalar body = true) (hw : (Stmt.block body).WellTyped c (afterParams m.params .ofStatic)) :
    Gen.Makes (fun _ => True) cs (compileMethod .static c m) fun mc => ∃ (code : Block) (scope : Scope),
      code.overflowed = false ∧ mc.code = code.encode ∧ ∀ n, Executes cs c.ret n (afterParams m.params .ofStatic) scope code
        fun env => (Stmt.block body).exec c.ret n env := by
  unfold compileMethod
  rw [hc, if_pos rfl]
  refine .bind_of (declareParams_yields c m.params .ofStatic) (declareParams_silent c m.params .ofStatic).makes ?_
  rintro scope ⟨rfl, -⟩
  rw [hbody]
  have hblock : (Stmt.block body).isScalar = true := by
    rw [Stmt.isScalar]
    exact hscalar
  refine .bind (compileStmt_executes hc hret hblock hw) fun r => ?_
  dsimp only
  unfold compileMethod.finish
  split
  · exact .throw
  · rename_i hover
    exact .pure fun hexec _ => ⟨r.1, _, by simpa using hover, rfl, hexec⟩

/-- The frame with which a call of a compiled method of the fragment begins follows the evaluation of the method. -/
theorem Compilation.LoadedAs.follows {c : Compilation} {d : ClassDef} {cls : LoadedClass} {entry : ClassEntry}
    {md : MethodDef} {lm : LoadedMethod} (h : c.LoadedAs d cls entry md lm) (hchecking : c.config.staticChecking = true)
    (hstatic : md.modifiers.isStatic = true) (hscalar : md.isScalar = true) :
    lm.params = md.params.map (·.ty) ∧ ∃ maxLocals code, lm.body = .code maxLocals code ∧
      ∀ args : List Scalar, args.map Scalar.ty = md.params.map (·.ty) →
        Follows { target := ⟨cls, lm⟩, code, locals := initialLocals none (args.map Scalar.value) maxLocals } md.ret
          fun n => md.evaluate n args := by
  simp only [MethodDef.isScalar, Bool.and_eq_true] at hscalar
  obtain ⟨⟨hparams, hret⟩, hbody⟩ := hscalar
  obtain ⟨body, hbody, hscalar⟩ : ∃ body, md.body = some body ∧ Stmt.allScalar body = true := by
    cases hb : md.body with
    | none => simp [hb] at hbody
    | some body => exact ⟨body, rfl, by simpa [hb] using hbody⟩
  have hvoid : md.ret.isVoid = false := by
    cases hty : md.ret <;> first | rfl | (rw [hty] at hret; cases hret)
  have herased : ∀ {t : Ty}, t.isScalar = true → t.erased = t := by
    intro t ht
    cases t <;> first | rfl | cases ht
  have hloaded := h.method
  rw [show c.config.binding = .static by rw [Config.binding, hchecking]; rfl] at hloaded
  -- The signature comes back from the descriptor as it was.
  obtain ⟨hlmParams, hlmRet⟩ := hloaded.signature_eq h.params
  rw [List.map_congr_left fun p hp => herased (List.all_eq_true.1 hparams p hp)] at hlmParams
  rw [herased hret] at hlmRet
  -- What the check says of the body that was written, holds of the one that was lowered.
  obtain ⟨hdeclares, hw, hreturns⟩ := (ClassDef.checkMethod_eq_nil hbody).1 (h.checked hchecking)
  have hreturns : anyReturns body = true := hreturns.resolve_left (by rw [hvoid]; exact Bool.false_ne_true)
  have hfirst : (Context.ofMethod c.resolved entry md).firstScope = .ofStatic := by
    simp [Context.firstScope, Context.ofMethod, hstatic]
  rw [hfirst] at hdeclares hw
  have hlower : ClassDef.lowerMethod c.config.optimize md = ⟨md.name, md.modifiers, md.params, md.ret,
      .method (body.map (Stmt.mapExpr (Expr.optimized c.config.optimize)))⟩ := by
    rw [ClassDef.lowerMethod, hbody]
    simp [lowerBody, Stmt.mapExprAll_eq, anyReturns_mapExpr, hreturns]
  rw [hlower] at hloaded
  have hsame : ∀ n, Stmt.Same md.ret n (.block body) ((Stmt.block body).mapExpr (Expr.optimized c.config.optimize)) := by
    intro n
    exact Stmt.same_optimized (by rw [Stmt.isScalar]; exact hscalar)
  have hw' : ((Stmt.block body).mapExpr (Expr.optimized c.config.optimize)).WellTyped (.ofMethod c.resolved entry md)
      (afterParams md.params .ofStatic) := hw.optimized
  rw [Stmt.mapExpr_block] at hw' hsame
  have hscalar' := (hsame 0).scalar
  rw [Stmt.isScalar] at hscalar'
  obtain ⟨mc, p, q, hlmBody, hcompile, hwithin⟩ := hloaded.code h.concrete
  obtain ⟨-, hmade⟩ :=
    compileMethod_executes (c := .ofMethod c.resolved entry md) hstatic hret rfl hscalar' hw' p mc q hcompile
  obtain ⟨code, scope, hover, hcode, hexec⟩ := hmade hwithin
  refine ⟨hlmParams, mc.maxLocals, mc.code, hlmBody, fun args htypes => ⟨fun n => ?_, fun n env => ?_, fun v hv heap => ?_⟩⟩
  · have hin := Block.in_entered h.loaded.verified h.member (hcode ▸ hlmBody) hover (args.map Scalar.value)
    rw [← hcode] at hin
    have hevaluate : md.evaluate n args =
        (Stmt.block (body.map (Stmt.mapExpr (Expr.optimized c.config.optimize)))).exec md.ret n (md.entry args) := by
      rw [MethodDef.evaluate, hbody, (hsame n).exec]
      rfl
    rw [hevaluate]
    refine (hexec n _ 0 _ _ rfl hin ⟨_, rfl, rfl, models_entry hdeclares htypes mc.maxLocals⟩).followed ?_
    exact fun _ g _ => ⟨0, g, .refl g, trivial⟩
  · rw [MethodDef.evaluate, hbody]
    exact Stmt.exec_ne_ok (by rw [Stmt.alwaysReturns]; exact hreturns)
  · change (if lm.ret.isVoid then _ else heap.coerce v.value lm.ret) = _
    rw [hlmRet, hvoid, ← hv]
    exact heap.coerce_value v

/-- A compiled static method of the fragment returns what the evaluation of its body returns, and divides by zero where that
does. -/
theorem Compilation.Built.call_iff_evaluate {c : Compilation} (hc : c.Built) (hstatic : c.config.staticChecking = true)
    {m : Module} {bytes : Bytes} (hm : m ∈ (c.compile .classGeneration).2.modules) (hbytes : m.artifact = some bytes)
    {l : Loader} {name : String} {cls : LoadedClass} (hdefine : (l.define name bytes).1 = .ok cls) {md : MethodDef}
    (hmd : md ∈ m.cls.methods) (hmdStatic : md.modifiers.isStatic = true) (hscalar : md.isScalar = true) :
    ∃ lm, cls.ownMethod? md.name (Signature.mk (md.params.map (·.ty)) md.ret).descriptor = some lm ∧
      ∀ args : List Scalar, args.map Scalar.ty = md.params.map (·.ty) → ∀ machine : Machine,
        machine.depth < machine.maxDepth → machine.nestedRuns < maxNestedRuns →
          (∀ v, (∃ fuel machine', Run.call fuel ⟨cls, lm⟩ none (args.map Scalar.value) unwatched machine = .ok v machine') ↔
            ∃ n s, v = Scalar.value s ∧ md.evaluate n args = .error (.returned s)) ∧
          ((∃ fuel machine', Run.call fuel ⟨cls, lm⟩ none (args.map Scalar.value) unwatched machine =
              .error (.failure .divisionByZero) machine') ↔ ∃ n, md.evaluate n args = .error .divisionByZero) := by
  obtain ⟨body, hbody⟩ : ∃ body, md.body = some body := by
    cases hb : md.body with
    | none => simp [MethodDef.isScalar, hb] at hscalar
    | some body => exact ⟨body, rfl⟩
  obtain ⟨entry, lm, hloaded⟩ := hc.exists_loadedAs hm hbytes hdefine hmd hbody
  obtain ⟨hparams, maxLocals, code, hcode, hfollows⟩ := hloaded.follows hstatic hmdStatic hscalar
  refine ⟨lm, hloaded.own, fun args htypes machine hdepth hnested => ?_⟩
  refine (hfollows args htypes).call_iff hcode ?_ ?_ hdepth hnested
  · change (args.map Scalar.value).length = lm.params.length
    rw [hparams, ← htypes, List.length_map, List.length_map]
  · change machine.heap.coerceAll _ lm.params = _
    rw [hparams, ← htypes]
    exact machine.heap.coerceAll_values args

/-! ## An example -/

namespace Sum

def className : Name := .ofPath ["A"] (Eq.refl true)

/-- `static long sum(int n)`, which adds up the numbers from `n` down to 1. -/
def method : MethodDef where
  name := "sum"
  modifiers := .pub ||| .static
  params := [⟨"n", .int⟩]
  ret := .long
  body := some [
    .decl "s" .long none,
    .loop (.binary .lt (.lit (.int 0)) (.var "n")) (.block [
      .expr (.assign (.var "s") (.binary .add (.var "s") (.var "n"))),
      .expr (.assign (.var "n") (.binary .sub (.var "n") (.lit (.int 1))))]),
    .ret (some (.var "s"))]

def cls : ClassDef := { name := className, members := [.method method] }

def compilation : Compilation := { modules := [{ name := Module.syntheticName className, cls }], index := [("A", 0)] }

/-- The class file that the class is compiled to. -/
def file : ClassFile where
  constants := #[.utf8 "A", .cls 1, .utf8 "lang.Object", .cls 3, .utf8 "<init>", .utf8 "()V", .methodRef 4 5 6, .long 0,
    .utf8 "sum", .utf8 "(I)J"]
  access := .pub
  thisClass := 2
  superClass := 4
  inner := []
  fields := []
  methods := [
    { access := .pub, name := 5, descriptor := 6, maxLocals := 1, code := #[9, 0, 0, 17, 0, 7, 43] },
    { access := .pub ||| .static, name := 9, descriptor := 10, maxLocals := 2, code := #[
      0, 0, 8, 10, 0, 1, 4, 9, 0, 0, 34, 40, 0, 22, 9, 0, 1, 9, 0, 0, 29, 22, 10, 0, 1, 9, 0, 0, 5, 23, 10, 0, 0,
      41, 0, 30, 9, 0, 1, 42] }]

theorem verify_file : file.verify = .ok () := by
  have hconstants : file.constants.verify = .ok () := by
    have hcs : file.constants.toList =
        Constants.belowRoot className ++ [.methodRef 4 5 6, .long 0, .utf8 "sum", .utf8 "(I)J"] := rfl
    refine Constants.verify_belowRoot hcs ?_
    simp only [Constants.verifyFrom, bind_eq_ok]
    exact ⟨(), Constants.verifyAt_superConstructor hcs, (), rfl, (), rfl, (), rfl, trivial⟩
  have hheader : file.verifyHeader = .ok className := rfl
  have hinner : file.verifyInner className = .ok () := rfl
  have hmethods : file.verifyMethods = .ok () := by cbv
  simp only [ClassFile.verify, bind_eq_ok]
  exact ⟨(), hconstants, className, hheader, (), hinner, (), rfl, hmethods⟩

/-- The bytes of the class file. -/
def bytes : Bytes := file.encode.toOption.getD []

theorem encode_file : file.encode = .ok bytes := by cbv

/-- The class is compiled to the class file. -/
theorem modules_compile : (compilation.compile .classGeneration).2.modules =
    [{ name := Module.syntheticName className, cls, lowered := some (cls.lower true), artifact := some bytes }] := by
  cbv

/-- The class file can be loaded. -/
theorem exists_define : ∃ c, (Loader.boot.define "A" bytes).1 = .ok c := by
  obtain ⟨c, hload⟩ : ∃ c, file.load? .object = some c := ⟨_, by cbv⟩
  have hnew : Loader.boot.contains "A" = false := Loader.contains_boot (by decide)
  exact ⟨c, Loader.define_boot encode_file rfl (by decide) verify_file rfl hnew rfl hload⟩

end Sum

theorem Compilation.Built.call_iff_evaluate_sum :
    Sum.compilation.Built ∧ ∃ c lm, (Loader.boot.define "A" Sum.bytes).1 = .ok c ∧
      (Sum.compilation.compile .classGeneration).2.artifacts = [⟨Sum.className, Sum.bytes⟩] ∧
      c.ownMethod? "sum" "(I)J" = some lm ∧ ∃ fuel machine,
        Run.call fuel ⟨c, lm⟩ none [.int 3] unwatched { loader := .boot } = .ok (.long 6) machine := by
  have hbuilt : Sum.compilation.Built := .add (d := Sum.cls) (.start {} Module.syntheticName) rfl
  have hmodules := Sum.modules_compile
  obtain ⟨c, hdefine⟩ := Sum.exists_define
  obtain ⟨lm, hlm, hcall⟩ := hbuilt.call_iff_evaluate rfl (hmodules ▸ List.mem_singleton.2 rfl) rfl hdefine
    (show Sum.method ∈ _ from List.mem_singleton.2 rfl) (by decide) (by decide)
  refine ⟨hbuilt, c, lm, hdefine, by rw [Compilation.artifacts, hmodules]; rfl, hlm, ?_⟩
  exact ((hcall [.int 3] rfl { loader := .boot } (by decide) (by decide)).1 _).2 ⟨4, .long 6, rfl, rfl⟩

end ClassTree
