import ClassTree.Proofs.Compile.Limits
import ClassTree.Proofs.Pool.Doubles
import ClassTree.Proofs.Typing.Chosen

/-!
# What making code adds to the pool

`Gen.Collects x ds`: whenever `x` succeeds, the pool has grown, and among what was added are the doubles `ds` in this order.
The code of an expression adds the double constants of the expression in the order in which they are evaluated, and so on
up to methods (`compileMethod_collects`): the doubles of a class do not depend on how references are bound.
-/

namespace ClassTree

/-! ## Syntax -/

def Literal.doubles : Literal → List Double
  | .double d => [d]
  | _ => []

mutual

/-- The double constants of an expression, in the order in which they are evaluated. -/
def Expr.doubles : Expr → List Double
  | .lit l => l.doubles
  | .var _ | .this | .outer => []
  | .field target _ => target.doubles
  | .assign (.field object _) value => object.doubles ++ value.doubles
  | .assign _ value => value.doubles
  | .call receiver _ args => receiver.doubles ++ doublesAll args
  | .staticCall _ _ args | .new _ args => doublesAll args
  | .binary _ left right => left.doubles ++ right.doubles
  | .unary _ operand => operand.doubles

def Expr.doublesAll : List Expr → List Double
  | [] => []
  | e :: rest => e.doubles ++ doublesAll rest

end

/-- The double that a variable of a type holds before any value is assigned. -/
def Ty.defaultDoubles : Ty → List Double
  | .double => [.zero false]
  | _ => []

mutual

/-- The double constants of a statement, in their order. -/
def Stmt.doubles : Stmt → List Double
  | .block stmts => doublesAll stmts
  | .decl _ ty none => ty.defaultDoubles
  | .decl _ _ (some e) | .expr e | .ret (some e) => e.doubles
  | .ret none => []
  | .cond test t none => test.doubles ++ t.doubles
  | .cond test t (some e) => test.doubles ++ (t.doubles ++ e.doubles)
  | .loop test body => test.doubles ++ body.doubles
  | .superCall _ => []

def Stmt.doublesAll : List Stmt → List Double
  | [] => []
  | s :: rest => s.doubles ++ doublesAll rest

end

def LoweredMethod.doubles (m : LoweredMethod) : List Double :=
  match m.body with
  | .abstract => []
  | .method body => (Stmt.block body).doubles
  | .constructor superArgs initializers body =>
    Expr.doublesAll superArgs ++ (Stmt.doublesAll initializers ++ (Stmt.block body).doubles)

/-! ## Making code -/

namespace Gen

/-- Whenever it succeeds, the pool grows by the doubles of a list, in their order. -/
def Collects {α : Type} (x : Gen α) (ds : List Double) : Prop := ∀ p a q, x p = .ok a q → p.GrowsBy ds q

/-- No double is added to the pool. -/
abbrev Silent {α : Type} (x : Gen α) : Prop := Collects x []

namespace Collects

variable {α β : Type} {ds ds' : List Double} {x : Gen α} {f : α → Gen β}

theorem pure {a : α} : Silent (Pure.pure a : Gen α) := by
  intro p b q heq
  cases heq
  exact .refl p

theorem throw {d : Diagnostic} : Collects (MonadExcept.throw d : Gen α) ds := by
  intro p b q heq
  cases heq

theorem bind (hx : Collects x ds) (hf : ∀ a, Collects (f a) ds') : Collects (x >>= f) (ds ++ ds') := by
  intro p b q heq
  obtain ⟨a, p', hxp, hfp⟩ := bind_ok_cases heq
  exact (hx p a p' hxp).trans (hf a p' b q hfp)

/-- The rule for what comes after something that adds no double. -/
theorem after (hx : Silent x) (hf : ∀ a, Collects (f a) ds) : Collects (x >>= f) ds := bind hx hf

/-- The rule for what is made of something and adds no double. -/
theorem andThen (hx : Collects x ds) (hf : ∀ a, Silent (f a)) : Collects (x >>= f) ds := by
  have h := bind hx hf
  rwa [List.append_nil] at h

theorem ofExcept {x : Except Diagnostic α} : Silent (Gen.ofExcept x) := by
  cases x with
  | ok a => exact pure
  | error d => exact throw

theorem ofExcept_bind {x : Except Diagnostic α} (hf : ∀ a, x = .ok a → Collects (f a) ds) :
    Collects (Gen.ofExcept x >>= f) ds := by
  cases x with
  | ok a => exact hf a rfl
  | error d =>
    intro p b q heq
    cases heq

theorem instr {make : Pool → Instr × Pool} {f : UInt16 → Instr} (item : Item)
    (hmake : ∀ p, make p = Pool.instr f (p.put item)) : Collects (Gen.instr make) item.doubles := by
  intro p b q heq
  obtain ⟨-, rfl⟩ := instr_ok_cases heq
  rw [hmake]
  exact .single item

theorem pushInt (n : Int32) : Silent (Gen.instr (·.pushInt n)) := by
  intro p b q heq
  obtain ⟨-, rfl⟩ := instr_ok_cases heq
  unfold Pool.pushInt
  split
  · exact .refl p
  · split
    · exact .refl p
    · exact .single (.int n)

theorem invokeStaticDyn (cls name : String) (argc : UInt8) :
    Silent (Gen.instr (·.invokeStaticDyn cls name argc)) := by
  intro p b q heq
  obtain ⟨-, rfl⟩ := instr_ok_cases heq
  rw [Pool.invokeStaticDyn_eq]
  exact Pool.GrowsBy.put (.cls cls) (.put (.utf8 name) (.refl _))

end Collects

end Gen

open Gen

theorem Context.literal_collects (c : Context) (l : Literal) : Collects (c.literal l) l.doubles := by
  cases l with
  | null => exact .pure
  | bool b => exact .pure
  | int n => exact .pushInt n
  | long n => exact .instr (.long n) fun _ => rfl
  | double d => exact .instr (.double d) fun _ => rfl
  | str s =>
    rw [Context.literal]
    split
    · exact .instr (.string s) fun _ => rfl
    · exact .throw

theorem pushDefault_collects (t : Ty) : Collects (pushDefault t) t.defaultDoubles := by
  cases t with
  | int => exact .pushInt 0
  | long => exact .instr (.long 0) fun _ => rfl
  | double => exact .instr (.double (.zero false)) fun _ => rfl
  | _ => exact .pure

namespace Typed

variable (c : Context) (scope : Scope)

theorem accessField_silent (access : FieldAccess) (f : FieldEntry) : Silent (accessField access f) :=
  .instr (.field ⟨f.owner.text, f.name, f.ty.descriptor⟩) fun _ => rfl

theorem invoke_silent (kind : CallKind) (m : MethodEntry) : Silent (invoke kind m) :=
  .instr (.method ⟨m.owner.text, m.name, m.descriptor⟩) fun _ => rfl

theorem loadOuter_silent (outer : Ty) : Silent (loadOuter c outer) :=
  .after (.instr (.field ⟨c.cls.name.text, outerField, outer.descriptor⟩) fun _ => rfl) fun _ => .pure

theorem storeField_silent (keep : Bool) (f : FieldEntry) : Silent (storeField keep f) :=
  .after (accessField_silent .put f) fun _ => .pure

theorem newOuter_silent (cls : ClassEntry) : Silent (newOuter c cls) := by
  unfold newOuter
  split
  · exact .pure
  · refine .after .ofExcept fun source => ?_
    cases source with
    | this => exact .pure
    | outerOfThis => exact .after (loadOuter_silent c _) fun _ => .pure

theorem length_typesOf {c : Context} {scope : Scope} {es : List Expr} {ts : List Ty} (h : c.typesOf scope es = .ok ts) :
    es.length = ts.length := by
  induction es generalizing ts with
  | nil => cases h; rfl
  | cons e es ih =>
    simp only [Context.typesOf, bind_eq_ok] at h
    obtain ⟨t, -, ts, hts, heq⟩ := h
    cases heq
    rw [List.length_cons, List.length_cons, ih hts]

mutual

theorem expr_collects (keep : Bool) : ∀ e, Collects (expr c scope keep e) e.doubles
  | .lit l => by
    rw [Expr.doubles]
    exact .andThen (c.literal_collects l) fun _ => .pure
  | .var name => by
    rw [expr, Expr.doubles]
    refine .after .ofExcept fun target => ?_
    cases target with
    | slot v => exact .pure
    | field f => exact .after (accessField_silent .get f) fun _ => .pure
  | .this => by
    rw [Expr.doubles]
    exact .after .ofExcept fun _ => .pure
  | .outer => by
    rw [Expr.doubles]
    exact .after .ofExcept fun _ => .after (loadOuter_silent c _) fun _ => .pure
  | .field target name => by
    rw [Expr.doubles]
    exact .andThen (expr_collects true target) fun _ => .after .ofExcept fun f => .after (accessField_silent .get f) fun _ => .pure
  | .assign (.var name) value => by
    rw [expr, Expr.doubles]
    · refine .after .ofExcept fun target => ?_
      cases target with
      | slot v => exact .andThen (expr_collects true value) fun _ => .pure
      | field f => exact .andThen (expr_collects true value) fun _ => .after (storeField_silent keep f) fun _ => .pure
    · nofun
  | .assign (.field object name) value => by
    rw [expr, Expr.doubles]
    exact .after .ofExcept fun _ => .bind (expr_collects true object) fun _ => .after .ofExcept fun f =>
      .andThen (expr_collects true value) fun _ => .after (storeField_silent keep f) fun _ => .pure
  | .assign (.lit _) _ | .assign .this _ | .assign .outer _ | .assign (.assign ..) _ | .assign (.call ..) _
  | .assign (.staticCall ..) _ | .assign (.new ..) _ | .assign (.binary ..) _ | .assign (.unary ..) _ =>
    .after .ofExcept fun _ => .throw
  | .call receiver method args => by
    rw [expr, Expr.doubles]
    refine .after .ofExcept fun r => .ofExcept_bind fun ts hts => .ofExcept_bind fun m hm => ?_
    obtain ⟨-, -, -, -, -, hpasses⟩ := Context.method_eq_ok hm
    have hlen : args.length = m.params.length := (length_typesOf hts).trans hpasses.length_eq
    refine .bind (expr_collects true receiver) fun _ => ?_
    dsimp only
    split
    · exact .andThen (exprs_collects hlen _) fun _ => .after (invoke_silent .static m) fun _ => .pure
    · exact .andThen (exprs_collects hlen _) fun _ => .after (invoke_silent .virtual m) fun _ => .pure
  | .staticCall cls method args => by
    rw [expr, Expr.doubles]
    refine .ofExcept_bind fun ts hts => .ofExcept_bind fun m hm => ?_
    obtain ⟨-, -, hpasses⟩ := Context.staticMethod_eq_ok hm
    exact .andThen (exprs_collects ((length_typesOf hts).trans hpasses.length_eq) _) fun _ =>
      .after (invoke_silent .static m) fun _ => .pure
  | .new cls args => by
    rw [expr, Expr.doubles]
    refine .ofExcept_bind fun ts hts => .ofExcept_bind fun k hk => .after .ofExcept fun entry => ?_
    obtain ⟨-, -, -, -, -, hpasses⟩ := Context.constructor_eq_ok hk
    refine .after (.instr (.cls cls.text) fun _ => rfl) fun _ => .after (newOuter_silent c entry) fun outer => ?_
    refine .andThen (exprs_collects ((length_typesOf hts).trans hpasses.length_eq) _) fun _ => ?_
    exact .after (.instr (.method ⟨cls.text, constructorName, (Signature.mk (outer.2 ++ k.params) .void).descriptor⟩)
      fun _ => rfl) fun _ => .pure
  | .binary op left right => by
    rw [expr, Expr.doubles]
    split
    · exact .bind (expr_collects true left) fun _ => .andThen (expr_collects true right) fun _ => .pure
    · exact .after .ofExcept fun _ => .after .ofExcept fun _ => .after .ofExcept fun _ =>
        .bind (expr_collects true left) fun _ => .andThen (expr_collects true right) fun _ => .pure
  | .unary op operand => by
    rw [expr, Expr.doubles]
    exact .andThen (expr_collects true operand) fun _ => .after .ofExcept fun _ => .pure

theorem exprs_collects : ∀ {es : List Expr} {ts : List Ty}, es.length = ts.length → ∀ done,
    Collects (exprs c scope es ts done) (Expr.doublesAll es)
  | [], _, _, _ => by
    rw [Expr.doublesAll]
    exact .pure
  | e :: rest, [], h, _ => nomatch h
  | e :: rest, t :: ts, h, done => by
    rw [exprs, Expr.doublesAll]
    exact .bind (expr_collects true e) fun _ => exprs_collects (Nat.succ.inj h) _

end

theorem superCall_collects (superclass : Name) (args : List Expr) :
    Collects (superCall c scope superclass args) (Expr.doublesAll args) := by
  refine .ofExcept_bind fun ts hts => .ofExcept_bind fun k hk => ?_
  obtain ⟨-, -, -, -, -, hpasses⟩ := Context.superConstructor_eq_ok hk
  refine .andThen (exprs_collects c scope ((length_typesOf hts).trans hpasses.length_eq) _) fun _ => ?_
  exact .after (.instr (.method ⟨superclass.text, constructorName, k.descriptor⟩) fun _ => rfl) fun _ => .pure

end Typed

namespace ByName

variable (c : Context) (scope : Scope)

theorem getField_silent (name : String) : Silent (getField name) := .instr (.utf8 name) fun _ => rfl

theorem storeField_silent (keep : Bool) (name : String) : Silent (storeField keep name) :=
  .after (.instr (.utf8 name) fun _ => rfl) fun _ => .pure

theorem loadOuter_silent : Silent loadOuter := .after (getField_silent outerField) fun _ => .pure

theorem argCount_silent (n : Nat) : Silent (c.argCount n) := by
  unfold Context.argCount
  split
  · exact .pure
  · exact .throw

theorem outerSource?_silent (cls : ClassEntry) : Silent (outerSource? c cls) := by
  unfold outerSource?
  split
  · exact .after .ofExcept fun _ => .pure
  · exact .pure

theorem newOuter_silent (source : Option OuterSource) : Silent (newOuter source) := by
  unfold newOuter
  split
  · exact .pure
  · exact .pure
  · exact loadOuter_silent

mutual

theorem expr_collects (keep : Bool) : ∀ e, Collects (expr c scope keep e) e.doubles
  | .lit l => by
    rw [Expr.doubles]
    exact c.literal_collects l
  | .var name => by
    rw [expr, Expr.doubles]
    split
    · exact .pure
    · exact .after .ofExcept fun _ => .after (getField_silent name) fun _ => .pure
  | .this => by
    rw [Expr.doubles]
    exact .after .ofExcept fun _ => .pure
  | .outer => by
    rw [expr, Expr.doubles]
    refine .after .ofExcept fun _ => ?_
    dsimp only
    split
    · exact .after .throw fun _ => loadOuter_silent
    · exact loadOuter_silent
  | .field target name => by
    rw [Expr.doubles]
    exact .andThen (expr_collects true target) fun _ => .after (getField_silent name) fun _ => .pure
  | .assign (.var name) value => by
    rw [expr, Expr.doubles]
    · split
      · exact .andThen (expr_collects true value) fun _ => .pure
      · exact .after .ofExcept fun _ => .andThen (expr_collects true value) fun _ =>
          .after (storeField_silent keep name) fun _ => .pure
    · nofun
  | .assign (.field object name) value => by
    rw [expr, Expr.doubles]
    exact .bind (expr_collects true object) fun _ => .andThen (expr_collects true value) fun _ =>
      .after (storeField_silent keep name) fun _ => .pure
  | .assign (.lit _) _ | .assign .this _ | .assign .outer _ | .assign (.assign ..) _ | .assign (.call ..) _
  | .assign (.staticCall ..) _ | .assign (.new ..) _ | .assign (.binary ..) _ | .assign (.unary ..) _ => .throw
  | .call receiver method args => by
    rw [expr, Expr.doubles]
    exact .after (argCount_silent c _) fun _ => .bind (expr_collects true receiver) fun _ =>
      .andThen (exprs_collects args _) fun _ => .after (.instr (.utf8 method) fun _ => rfl) fun _ => .pure
  | .staticCall cls method args => by
    rw [expr, Expr.doubles]
    exact .after (argCount_silent c _) fun _ => .andThen (exprs_collects args _) fun _ =>
      .after (.invokeStaticDyn cls.text method _) fun _ => .pure
  | .new cls args => by
    rw [expr, Expr.doubles]
    exact .after .ofExcept fun entry => .after (outerSource?_silent c entry) fun source => .after (argCount_silent c _) fun _ =>
      .after (.instr (.cls cls.text) fun _ => rfl) fun _ => .after (newOuter_silent source) fun _ =>
        .andThen (exprs_collects args _) fun _ => .after (.instr (.cls cls.text) fun _ => rfl) fun _ => .pure
  | .binary op left right => by
    rw [expr, Expr.doubles]
    refine .bind (expr_collects true left) fun _ => .andThen (expr_collects true right) fun _ => ?_
    split
    · exact .pure
    · exact .pure
  | .unary op operand => by
    rw [expr, Expr.doubles]
    exact .andThen (expr_collects true operand) fun _ => .pure

theorem exprs_collects : ∀ (es : List Expr) (done : Block), Collects (exprs c scope es done) (Expr.doublesAll es)
  | [], _ => by
    rw [Expr.doublesAll]
    exact .pure
  | e :: rest, _ => by
    rw [exprs, Expr.doublesAll]
    exact .bind (expr_collects true e) fun _ => exprs_collects rest _

end

theorem superCall_collects (superclass : Name) (args : List Expr) :
    Collects (superCall c scope superclass args) (Expr.doublesAll args) :=
  .after (argCount_silent c _) fun _ => .andThen (exprs_collects c scope args _) fun _ =>
    .after (.instr (.cls superclass.text) fun _ => rfl) fun _ => .pure

end ByName

section Bodies

variable (b : Binding) (c : Context)

theorem compileValue_collects (scope : Scope) (e : Expr) (expected : Ty) :
    Collects (compileValue b c scope e expected) e.doubles := by
  cases b with
  | static => exact .andThen (Typed.expr_collects c scope true e) fun _ => .pure
  | dynamic => exact ByName.expr_collects c scope true e

theorem compileDiscarded_collects (scope : Scope) (e : Expr) : Collects (compileDiscarded b c scope e) e.doubles := by
  cases b with
  | static => exact .andThen (Typed.expr_collects c scope false e) fun _ => .pure
  | dynamic => exact .andThen (ByName.expr_collects c scope false e) fun _ => .pure

theorem declareVar_silent (scope : Scope) (name : String) (ty : Ty) : Silent (declareVar c scope name ty) := by
  unfold declareVar
  split
  · exact .pure
  · exact .throw

mutual

theorem compileStmt_collects : ∀ s scope, Collects (compileStmt b c s scope) s.doubles
  | .block stmts, _ => by
    rw [compileStmt, Stmt.doubles]
    exact .andThen (compileStmts_collects stmts _ _) fun _ => .pure
  | .decl name ty none, scope => by
    rw [compileStmt, Stmt.doubles]
    exact .andThen (pushDefault_collects ty) fun _ => .after (declareVar_silent c scope name ty) fun _ => .pure
  | .decl name ty (some e), scope => by
    rw [compileStmt, Stmt.doubles]
    exact .andThen (compileValue_collects b c scope e ty) fun _ => .after (declareVar_silent c scope name ty) fun _ => .pure
  | .expr e, scope => by
    rw [compileStmt, Stmt.doubles]
    exact .andThen (compileDiscarded_collects b c scope e) fun _ => .pure
  | .ret none, _ => by
    rw [compileStmt, Stmt.doubles]
    exact .pure
  | .ret (some e), scope => by
    rw [compileStmt, Stmt.doubles]
    split
    · exact .andThen (compileDiscarded_collects b c scope e) fun _ => .pure
    · exact .andThen (compileValue_collects b c scope e c.ret) fun _ => .pure
  | .cond test t none, scope => by
    rw [compileStmt, Stmt.doubles]
    exact .bind (compileValue_collects b c scope test .boolean) fun _ => .andThen (compileStmt_collects t _) fun _ => .pure
  | .cond test t (some e), scope => by
    rw [compileStmt, Stmt.doubles]
    exact .bind (compileValue_collects b c scope test .boolean) fun _ => .bind (compileStmt_collects t _) fun _ =>
      .andThen (compileStmt_collects e _) fun _ => .pure
  | .loop test body, scope => by
    rw [compileStmt, Stmt.doubles]
    exact .bind (compileValue_collects b c scope test .boolean) fun _ => .andThen (compileStmt_collects body _) fun _ => .pure
  | .superCall _, _ => .throw

theorem compileStmts_collects : ∀ stmts scope done, Collects (compileStmts b c stmts scope done) (Stmt.doublesAll stmts)
  | [], _, _ => by
    rw [compileStmts, Stmt.doublesAll]
    exact .pure
  | s :: rest, scope, _ => by
    rw [compileStmts, Stmt.doublesAll]
    exact .bind (compileStmt_collects s scope) fun _ => compileStmts_collects rest _ _

end

theorem declareParams_silent (params : List Param) (scope : Scope) : Silent (declareParams c params scope) := by
  induction params generalizing scope with
  | nil => exact .pure
  | cons p rest ih => exact .after (declareVar_silent c scope p.name p.ty) fun _ => ih _

theorem compileSuperCall_collects (scope : Scope) (args : List Expr) :
    Collects (compileSuperCall b c scope args) (Expr.doublesAll args) := by
  unfold compileSuperCall
  split
  · exact .throw
  · cases b with
    | static => exact Typed.superCall_collects c _ _ _
    | dynamic => exact ByName.superCall_collects c _ _ _

/-- Making the code of a method adds its doubles, however references are bound. -/
theorem compileMethod_collects (m : LoweredMethod) : Collects (compileMethod b c m) m.doubles := by
  have hfinish : ∀ code scope, Silent (compileMethod.finish c code scope) := by
    intro code scope
    unfold compileMethod.finish
    split
    · exact .throw
    · exact .pure
  unfold compileMethod
  refine .after (declareParams_silent c m.params _) fun scope => ?_
  rw [LoweredMethod.doubles]
  cases m.body with
  | abstract => exact .pure
  | method body => exact .andThen (compileStmt_collects b c _ _) fun _ => hfinish _ _
  | constructor superArgs initializers body =>
    exact .bind (compileSuperCall_collects b c _ _) fun _ => .bind (compileStmts_collects b c _ _ _) fun _ =>
      .andThen (compileStmt_collects b c _ _) fun _ => hfinish _ _

end Bodies

end ClassTree
