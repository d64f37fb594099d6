import ClassTree.Proofs.Compile.Limits
import ClassTree.Proofs.Typing.Findings

/-!
# Failures to make code are errors about the class

`Gen.Grave c x`: what ends the making of `x` is an error about the class of the context `c`, never a mere warning. So is all
that prevents the class file of a class (`LoweredClass.about_generate`), however references are bound, and a class without
errors is one whose class file was made (`LoweredClass.hasErrors_of_generate`).
-/

namespace ClassTree

namespace Gen

/-- Whatever ends the making is an error about the class of the context. -/
def Grave {α : Type} (c : Context) (x : Gen α) : Prop :=
  ∀ p d q, x p = .error d q → d.isError = true ∧ d.cls = c.cls.name.text

namespace Grave

variable {α β : Type} {c : Context}

theorem pure {a : α} : Grave c (Pure.pure a) := by
  intro p d q heq
  cases heq

theorem throw {d : Diagnostic} (h : d.isError = true ∧ d.cls = c.cls.name.text) : Grave c (MonadExcept.throw d : Gen α) := by
  intro p d' q heq
  cases heq
  exact h

theorem bind {x : Gen α} {f : α → Gen β} (hx : Grave c x) (hf : ∀ a, Grave c (f a)) : Grave c (x >>= f) := by
  intro p d q heq
  rcases bind_error_cases heq with hxp | ⟨a, p', -, hfp⟩
  · exact hx p d q hxp
  · exact hf a p' d q hfp

theorem ofExcept {x : Except Diagnostic α} (h : Faults c x) : Grave c (Gen.ofExcept x) := by
  cases x with
  | ok a => exact pure
  | error d => exact throw (h d rfl)

theorem instr (make : Pool → Instr × Pool) : Grave c (Gen.instr make) := by
  intro p d q heq
  cases heq

end Grave

end Gen

open Gen

theorem Context.literal_grave (c : Context) (l : Literal) : Grave c (c.literal l) := by
  cases l with
  | null | bool b => exact .pure
  | int n => exact .instr (·.pushInt n)
  | long n => exact .instr (·.pushLong n)
  | double d => exact .instr (·.pushDouble d)
  | str s =>
    rw [Context.literal]
    split
    · exact .instr _
    · exact .throw ⟨rfl, rfl⟩

theorem pushDefault_grave {c : Context} (t : Ty) : Grave c (pushDefault t) := by
  cases t with
  | int => exact .instr (·.pushInt 0)
  | long => exact .instr (·.pushLong 0)
  | double => exact .instr (·.pushDouble (.zero false))
  | _ => exact .pure

namespace Typed

variable (c : Context) (scope : Scope)

theorem loadOuter_grave (outer : Ty) : Grave c (loadOuter c outer) := .bind (.instr _) fun _ => .pure

theorem storeField_grave (keep : Bool) (f : FieldEntry) : Grave c (storeField keep f) := .bind (.instr _) fun _ => .pure

theorem newOuter_grave (cls : ClassEntry) : Grave c (newOuter c cls) := by
  unfold newOuter
  split
  · exact .pure
  · refine .bind (.ofExcept (c.faults_outerInstance cls)) fun source => ?_
    cases source with
    | this => exact .pure
    | outerOfThis => exact .bind (loadOuter_grave c _) fun _ => .pure

mutual

theorem expr_grave (keep : Bool) : ∀ e, Grave c (expr c scope keep e)
  | .lit l => .bind (c.literal_grave l) fun _ => .pure
  | .var name => by
    rw [expr]
    refine .bind (.ofExcept (c.faults_lookupVar name)) fun target => ?_
    cases target with
    | slot v => exact .pure
    | field f => exact .bind (.instr _) fun _ => .pure
  | .this => .bind (.ofExcept (c.faults_requireInstance _)) fun _ => .pure
  | .outer => .bind (.ofExcept c.faults_outerType) fun _ => .bind (loadOuter_grave c _) fun _ => .pure
  | .field target name => by
    rw [expr]
    exact .bind (expr_grave true target) fun r => .bind (.ofExcept (c.faults_field r.2 name)) fun _ => .bind (.instr _) fun _ => .pure
  | .assign (.var name) value => by
    rw [expr]
    refine .bind (.ofExcept (c.faults_lookupVar name)) fun target => ?_
    cases target with
    | slot v => exact .bind (expr_grave true value) fun _ => .pure
    | field f => exact .bind (expr_grave true value) fun _ => .bind (storeField_grave c keep f) fun _ => .pure
  | .assign (.field object name) value => by
    rw [expr]
    exact .bind (.ofExcept (c.faults_typeOf _)) fun _ => .bind (expr_grave true object) fun r =>
      .bind (.ofExcept (c.faults_field r.2 name)) fun f => .bind (expr_grave true value) fun _ =>
        .bind (storeField_grave c keep f) fun _ => .pure
  | .assign (.lit _) _ | .assign .this _ | .assign .outer _ | .assign (.assign ..) _ | .assign (.call ..) _
  | .assign (.staticCall ..) _ | .assign (.new ..) _ | .assign (.binary ..) _ | .assign (.unary ..) _ =>
    .bind (.ofExcept (c.faults_typeOf _)) fun _ => .throw ⟨rfl, rfl⟩
  | .call receiver method args => by
    rw [expr]
    refine .bind (.ofExcept (c.faults_typeOf receiver)) fun r => .bind (.ofExcept (c.faults_typesOf args)) fun ts => ?_
    refine .bind (.ofExcept (c.faults_method r method ts)) fun m => .bind (expr_grave true receiver) fun _ => ?_
    dsimp only
    split
    · exact .bind (exprs_grave args _ _) fun _ => .bind (.instr _) fun _ => .pure
    · exact .bind (exprs_grave args _ _) fun _ => .bind (.instr _) fun _ => .pure
  | .staticCall cls method args => by
    rw [expr]
    exact .bind (.ofExcept (c.faults_typesOf args)) fun ts => .bind (.ofExcept (c.faults_staticMethod cls method ts)) fun m =>
      .bind (exprs_grave args _ _) fun _ => .bind (.instr _) fun _ => .pure
  | .new cls args => by
    rw [expr]
    refine .bind (.ofExcept (c.faults_typesOf args)) fun ts => .bind (.ofExcept (c.faults_constructor cls ts)) fun k => ?_
    refine .bind (.ofExcept (c.faults_classEntry cls)) fun e => .bind (.instr _) fun _ => ?_
    exact .bind (newOuter_grave c e) fun _ => .bind (exprs_grave args _ _) fun _ => .bind (.instr _) fun _ => .pure
  | .binary op left right => by
    rw [expr]
    split
    · exact .bind (expr_grave true left) fun _ => .bind (expr_grave true right) fun _ => .pure
    · refine .bind (.ofExcept (c.faults_typeOf left)) fun l => .bind (.ofExcept (c.faults_typeOf right)) fun r => ?_
      exact .bind (.ofExcept (c.faults_binary op l r)) fun _ => .bind (expr_grave true left) fun _ =>
        .bind (expr_grave true right) fun _ => .pure
  | .unary op operand => by
    rw [expr]
    exact .bind (expr_grave true operand) fun r => .bind (.ofExcept (c.faults_unary op r.2)) fun _ => .pure

theorem exprs_grave : ∀ (es : List Expr) (ts : List Ty) (done : Block), Grave c (exprs c scope es ts done)
  | e :: rest, t :: ts, done => by
    rw [exprs]
    exact .bind (expr_grave true e) fun _ => exprs_grave rest ts _
  | [], _, _ => .pure
  | _ :: _, [], _ => .pure

end

theorem superCall_grave (superclass : Name) (args : List Expr) : Grave c (superCall c scope superclass args) :=
  .bind (.ofExcept (c.faults_typesOf args)) fun ts => .bind (.ofExcept (c.faults_superConstructor ts)) fun k =>
    .bind (exprs_grave c scope args k.params _) fun _ => .bind (.instr _) fun _ => .pure

end Typed

namespace ByName

variable (c : Context) (scope : Scope)

theorem storeField_grave (keep : Bool) (name : String) : Grave c (storeField keep name) := .bind (.instr _) fun _ => .pure

theorem loadOuter_grave : Grave c loadOuter := .bind (.instr _) fun _ => .pure

theorem argCount_grave (n : Nat) : Grave c (c.argCount n) := by
  unfold Context.argCount
  split
  · exact .pure
  · exact .throw ⟨rfl, rfl⟩

theorem outerSource?_grave (cls : ClassEntry) : Grave c (outerSource? c cls) := by
  unfold outerSource?
  split
  · exact .bind (.ofExcept (c.faults_outerInstance cls)) fun _ => .pure
  · exact .pure

theorem newOuter_grave (source : Option OuterSource) : Grave c (newOuter source) := by
  unfold newOuter
  split
  · exact .pure
  · exact .pure
  · exact loadOuter_grave c

mutual

theorem expr_grave (keep : Bool) : ∀ e, Grave c (expr c scope keep e)
  | .lit l => c.literal_grave l
  | .var name => by
    rw [expr]
    split
    · exact .pure
    · exact .bind (.ofExcept (c.faults_requireInstance _)) fun _ => .bind (.instr _) fun _ => .pure
  | .this => .bind (.ofExcept (c.faults_requireInstance _)) fun _ => .pure
  | .outer => by
    rw [expr]
    refine .bind (.ofExcept (c.faults_requireInstance _)) fun _ => ?_
    dsimp only
    split
    · exact .bind (.throw ⟨rfl, rfl⟩) fun _ => loadOuter_grave c
    · exact loadOuter_grave c
  | .field target name => .bind (expr_grave true target) fun _ => .bind (.instr _) fun _ => .pure
  | .assign (.var name) value => by
    rw [expr]
    split
    · exact .bind (expr_grave true value) fun _ => .pure
    · exact .bind (.ofExcept (c.faults_requireInstance _)) fun _ => .bind (expr_grave true value) fun _ =>
        .bind (storeField_grave c keep name) fun _ => .pure
  | .assign (.field object name) value => .bind (expr_grave true object) fun _ => .bind (expr_grave true value) fun _ =>
      .bind (storeField_grave c keep name) fun _ => .pure
  | .assign (.lit _) _ | .assign .this _ | .assign .outer _ | .assign (.assign ..) _ | .assign (.call ..) _
  | .assign (.staticCall ..) _ | .assign (.new ..) _ | .assign (.binary ..) _ | .assign (.unary ..) _ => .throw ⟨rfl, rfl⟩
  | .call receiver method args => by
    rw [expr]
    exact .bind (argCount_grave c _) fun _ => .bind (expr_grave true receiver) fun _ => .bind (exprs_grave args _) fun _ =>
      .bind (.instr _) fun _ => .pure
  | .staticCall cls method args => by
    rw [expr]
    exact .bind (argCount_grave c _) fun _ => .bind (exprs_grave args _) fun _ => .bind (.instr _) fun _ => .pure
  | .new cls args => by
    rw [expr]
    refine .bind (.ofExcept (c.faults_classEntry cls)) fun e => .bind (outerSource?_grave c e) fun source => ?_
    refine .bind (argCount_grave c _) fun _ => .bind (.instr _) fun _ => .bind (newOuter_grave c source) fun _ => ?_
    exact .bind (exprs_grave args _) fun _ => .bind (.instr _) fun _ => .pure
  | .binary op left right => by
    rw [expr]
    refine .bind (expr_grave true left) fun _ => .bind (expr_grave true right) fun _ => ?_
    split
    · exact .pure
    · exact .pure
  | .unary op operand => .bind (expr_grave true operand) fun _ => .pure

theorem exprs_grave : ∀ (es : List Expr) (done : Block), Grave c (exprs c scope es done)
  | [], _ => .pure
  | e :: rest, _ => .bind (expr_grave true e) fun _ => exprs_grave rest _

end

theorem superCall_grave (superclass : Name) (args : List Expr) : Grave c (superCall c scope superclass args) :=
  .bind (argCount_grave c _) fun _ => .bind (exprs_grave c scope args _) fun _ => .bind (.instr _) fun _ => .pure

end ByName

/-! ## Bodies -/

section Bodies

variable (b : Binding) (c : Context)

theorem compileValue_grave (scope : Scope) (e : Expr) (expected : Ty) : Grave c (compileValue b c scope e expected) := by
  cases b with
  | static => exact .bind (Typed.expr_grave c scope true e) fun _ => .pure
  | dynamic => exact ByName.expr_grave c scope true e

theorem compileDiscarded_grave (scope : Scope) (e : Expr) : Grave c (compileDiscarded b c scope e) := by
  cases b with
  | static => exact .bind (Typed.expr_grave c scope false e) fun _ => .pure
  | dynamic => exact .bind (ByName.expr_grave c scope false e) fun _ => .pure

theorem declareVar_grave (scope : Scope) (name : String) (ty : Ty) : Grave c (declareVar c scope name ty) := by
  unfold declareVar
  split
  · exact .pure
  · rename_i e _ _
    cases e <;> exact .throw ⟨rfl, rfl⟩

mutual

theorem compileStmt_grave : ∀ x scope, Grave c (compileStmt b c x scope)
  | .block stmts, _ => by
    rw [compileStmt]
    exact .bind (compileStmts_grave stmts _ _) fun _ => .pure
  | .decl name ty none, scope => by
    rw [compileStmt]
    exact .bind (pushDefault_grave ty) fun _ => .bind (declareVar_grave c scope name ty) fun _ => .pure
  | .decl name ty (some e), scope => by
    rw [compileStmt]
    exact .bind (compileValue_grave b c scope e ty) fun _ => .bind (declareVar_grave c scope name ty) fun _ => .pure
  | .expr e, scope => .bind (compileDiscarded_grave b c scope e) fun _ => .pure
  | .ret none, _ => .pure
  | .ret (some e), scope => by
    rw [compileStmt]
    split
    · exact .bind (compileDiscarded_grave b c scope e) fun _ => .pure
    · exact .bind (compileValue_grave b c scope e c.ret) fun _ => .pure
  | .cond test t none, scope => by
    rw [compileStmt]
    exact .bind (compileValue_grave b c scope test .boolean) fun _ => .bind (compileStmt_grave t _) fun _ => .pure
  | .cond test t (some e), scope => by
    rw [compileStmt]
    exact .bind (compileValue_grave b c scope test .boolean) fun _ => .bind (compileStmt_grave t _) fun _ =>
      .bind (compileStmt_grave e _) fun _ => .pure
  | .loop test body, scope => by
    rw [compileStmt]
    exact .bind (compileValue_grave b c scope test .boolean) fun _ => .bind (compileStmt_grave body _) fun _ => .pure
  | .superCall _, _ => .throw ⟨rfl, rfl⟩

theorem compileStmts_grave : ∀ xs scope done, Grave c (compileStmts b c xs scope done)
  | [], _, _ => .pure
  | x :: rest, scope, _ => by
    rw [compileStmts]
    exact .bind (compileStmt_grave x scope) fun _ => compileStmts_grave rest _ _

end

theorem declareParams_grave (params : List Param) (scope : Scope) : Grave c (declareParams c params scope) := by
  induction params generalizing scope with
  | nil => exact .pure
  | cons p rest ih => exact .bind (declareVar_grave c scope p.name p.ty) fun _ => ih _

theorem compileSuperCall_grave (scope : Scope) (args : List Expr) : Grave c (compileSuperCall b c scope args) := by
  unfold compileSuperCall
  split
  · exact .throw ⟨rfl, rfl⟩
  · cases b with
    | static => exact Typed.superCall_grave c _ _ _
    | dynamic => exact ByName.superCall_grave c _ _ _

theorem compileMethod_grave (m : LoweredMethod) : Grave c (compileMethod b c m) := by
  have hfinish : ∀ code scope, Grave c (compileMethod.finish c code scope) := by
    intro code scope
    unfold compileMethod.finish
    split
    · exact .throw ⟨rfl, rfl⟩
    · exact .pure
  unfold compileMethod
  refine .bind (declareParams_grave c m.params _) fun scope => ?_
  split
  · exact .pure
  · exact .bind (compileStmt_grave b c _ _) fun r => hfinish r.1 r.2
  · exact .bind (compileSuperCall_grave b c _ _) fun _ => .bind (compileStmts_grave b c _ _ _) fun _ =>
      .bind (compileStmt_grave b c _ _) fun r => hfinish _ r.2

end Bodies

/-! ## Class files -/

namespace LoweredClass

variable {b : Binding} {r : Registry} {entry : ClassEntry}

theorem methodInfo_grave (m : LoweredMethod) : Grave (context r entry m) (methodInfo b r entry m) := by
  refine .bind (compileMethod_grave b _ m) fun _ => .bind ?_ fun _ => .bind ?_ fun _ => .pure
  all_goals
    intro p d q heq
    cases heq

theorem about_methodTable {ms : List LoweredMethod} {done : Array MethodInfo} {found : Array Diagnostic} {p : Pool}
    (hfound : About entry.name found.toList) : About entry.name (methodTable b r entry ms done found p).1.2.toList := by
  induction ms generalizing done found p with
  | nil => exact hfound
  | cons m ms ih =>
    rw [methodTable]
    split
    · exact ih hfound
    · rename_i d _ heq
      obtain ⟨herror, hcls⟩ := methodInfo_grave m _ _ _ heq
      refine ih ?_
      rw [Array.toList_push]
      exact hfound.append (.singleton herror hcls)

theorem about_limitErrors (name : Name) (f : ClassFile) (overflowed : Bool) :
    About name (limitErrors name.text f overflowed) := by
  have hmap : ∀ {α : Type} (xs : List α) (message : α → String),
      About name (xs.map fun x => .ofClass .codegenLimit name.text (message x)) := by
    intro α xs message d hd
    obtain ⟨x, -, rfl⟩ := List.mem_map.1 hd
    exact ⟨rfl, rfl⟩
  unfold limitErrors
  refine (About.append (hmap _ _) (hmap _ _)).append ?_
  split
  · exact .singleton rfl rfl
  · exact .nil

theorem about_assemble {l : LoweredClass} {ds : List Diagnostic} (hname : entry.name = l.name)
    (h : l.assemble b r entry = .error ds) : About l.name ds ∧ ds ≠ [] := by
  simp only [assemble] at h
  split at h
  · cases h
  · rename_i hne
    cases h
    exact ⟨(hname ▸ about_methodTable .nil).append (about_limitErrors _ _ _), hne⟩

/-- What prevents the class file of a class is an error about the class. -/
theorem about_generate {l : LoweredClass} {ds : List Diagnostic} (h : l.generate b r = .error ds) :
    About l.name ds ∧ ds ≠ [] := by
  unfold generate at h
  split at h
  · cases h
    exact ⟨.singleton rfl rfl, by simp⟩
  · rename_i entry hentry
    cases hassemble : l.assemble b r entry with
    | error ds' =>
      rw [hassemble] at h
      cases h
      exact about_assemble (Registry.get?_eq_some hentry).2 hassemble
    | ok file =>
      rw [hassemble] at h
      dsimp only [Bind.bind, Except.bind] at h
      split at h
      · cases h
      · cases h
        exact ⟨.singleton rfl rfl, by simp⟩

theorem hasErrors_of_generate {l : LoweredClass} {ds : List Diagnostic} (h : l.generate b r = .error ds) :
    Diagnostic.hasErrors ds = true := by
  obtain ⟨habout, hne⟩ := about_generate h
  obtain ⟨d, rest, rfl⟩ := List.exists_cons_of_ne_nil hne
  rw [Diagnostic.hasErrors, List.any_cons, (habout d List.mem_cons_self).1, Bool.true_or]

end LoweredClass

end ClassTree
