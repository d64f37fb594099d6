import ClassTree.Proofs.CallFree.Simulation
import ClassTree.Proofs.Compile.Typed
import ClassTree.Proofs.Pool.Doubles

/-!
# Code of bodies without calls

The code of an expression or a statement without calls does what its meaning says, in code of both bindings: with references
that are resolved beforehand this is the meaning where types are known, and with names it is the meaning where they are not
(`Binding.context?`).
-/

namespace ClassTree

open Run

/-- The types that code of a binding goes by. -/
def Binding.context? (b : Binding) (c : Context) : Option Context :=
  match b with
  | .static => some c
  | .dynamic => none

/-- What constants stand for in code that refers to the constants of a class. -/
structure Setting.In (s : Setting) (cs : Constants) : Prop where
  held : s.held = heldFor cs.doubles
  distinct : (cs.doubles.map Double.canonical).Nodup

namespace Setting

variable {s : Setting} {c : Context} {scope : Scope}

theorem typeOf_eq (hs : s.types = some c) {e : Expr} {t : Ty} (h : c.typeOf scope e = .ok t) : s.typeOf scope e = t := by
  simp only [typeOf, known, hs, h, Except.toOption, Option.getD_some]

theorem typing_eq (hs : s.types = some c) {op : BinaryOp} {l r : Expr} {t u : Ty} {bt : BinaryTyping}
    (hl : c.typeOf scope l = .ok t) (hr : c.typeOf scope r = .ok u) (h : c.binary op t u = .ok bt) :
    s.typing scope op l r = bt := by
  simp only [typing, typeOf_eq hs hl, typeOf_eq hs hr, known, hs, h, Except.toOption, Option.getD_some]

theorem typeOf_none (hs : s.types = none) (e : Expr) : s.typeOf scope e = .void := by
  simp only [typeOf, known, hs]

theorem typing_none (hs : s.types = none) (op : BinaryOp) (l r : Expr) : s.typing scope op l r = .unknown := by
  simp only [typing, known, hs]

/-- The class holds a double for each double that it refers to. -/
theorem In.held_eq {cs : Constants} (h : s.In cs) {i : UInt16} {d : Double} (hd : cs.Has i (.double d)) :
    ∃ d', cs.get? i = some (.double d') ∧ s.held d = d' := by
  obtain ⟨d', hget, heq⟩ := hd
  exact ⟨d', hget, by rw [h.held]; exact heldFor_eq h.distinct (Pool.mem_doubles_of_get? hget) heq⟩

end Setting

/-- If nothing is known of the type of a value, it is not widened. -/
theorem Value.widen_void (expected : Ty) (v : Value) : v.widen expected .void = pure v := by
  cases expected <;> rfl

/-! ## Constants -/

section Constants

variable {cs : Constants} {s : Setting}

theorem Computes.ldc {i : UInt16} {v : Value} (h : ∀ f : Frame, f.constants = cs → f.constant i = .ok v) :
    Computes cs s.render (.one (.ldc i)) fun slots => pure (v, slots) :=
  .one fun f _ _ _ hcs hat => .ldc hat fun o stack locals => h (f.move o stack locals) hcs

theorem constant_double {f : Frame} {i : UInt16} {d : Double} (h : f.constants.get? i = some (.double d)) :
    f.constant i = .ok (.double d) := by rw [Frame.constant, h]

theorem constant_string {f : Frame} {i : UInt16} {t : String} (h : f.constants.string? i = some t) :
    f.constant i = .ok (.str t) := by
  have hget : ∃ j, f.constants.get? i = some (.string j) := by
    unfold Constants.string? at h
    split at h
    · rename_i j hj
      exact ⟨j, hj⟩
    · cases h
  obtain ⟨j, hj⟩ := hget
  rw [Frame.constant, hj]
  dsimp only
  rw [h]

/-- The code of a double pushes the one that the class holds for it. -/
theorem pushDouble_computes (hs : s.In cs) (d : Double) :
    Gen.Makes (fun _ => True) cs (Gen.instr (·.pushDouble d)) fun code =>
      Computes cs s.render code fun slots => pure (.double (s.held d), slots) := by
  refine .instr (.double d) (fun _ => rfl) trivial fun i hi => .ldc fun f hcs => ?_
  obtain ⟨d', hget, hheld⟩ := hs.held_eq hi
  rw [hheld]
  exact constant_double (hcs ▸ hget)

theorem pushInt_computes (n : Int32) :
    Gen.Makes (fun _ => True) cs (Gen.instr (·.pushInt n)) fun code =>
      Computes cs s.render code fun slots => pure (.int n, slots) := by
  refine .pushInt trivial (fun h => ?_) (fun h => ?_) fun i hi => .ldc fun f hcs => Typed.constant_int (hcs ▸ hi)
  all_goals
    rw [h]
    exact .one fun _ _ _ _ _ hat => .push hat

theorem pushLong_computes (n : Int64) :
    Gen.Makes (fun _ => True) cs (Gen.instr (·.pushLong n)) fun code =>
      Computes cs s.render code fun slots => pure (.long n, slots) :=
  .instr (.long n) (fun _ => rfl) trivial fun _ hi => .ldc fun _ hcs => Typed.constant_long (hcs ▸ hi)

theorem Context.literal_computes (hs : s.In cs) (c : Context) (l : Literal) :
    Gen.Makes (fun _ => True) cs (c.literal l) fun code =>
      Computes cs s.render code fun slots => pure (s.constant l, slots) := by
  cases l with
  | null => exact .pure (.one fun _ _ _ _ _ hat => .push hat)
  | bool b => exact .pure (.pushBool b)
  | int n => exact pushInt_computes n
  | long n => exact pushLong_computes n
  | double d => exact pushDouble_computes hs d
  | str t =>
    rw [Context.literal]
    split
    · exact .instr (.string t) (fun _ => rfl) trivial fun i hi => .ldc fun f hcs => constant_string (hcs ▸ hi)
    · exact .throw

theorem pushDefault_computes (hs : s.In cs) (ty : Ty) :
    Gen.Makes (fun _ => True) cs (pushDefault ty) fun code =>
      Computes cs s.render code fun slots => pure (s.default ty, slots) := by
  cases ty with
  | boolean => exact .pure (.pushBool false)
  | int => exact pushInt_computes 0
  | long => exact pushLong_computes 0
  | double => exact pushDouble_computes hs (.zero false)
  | void | null | ref _ => exact .pure (.one fun _ _ _ _ _ hat => .push hat)

end Constants

/-! ## Expressions -/

theorem UnaryOp.exec_instr (op : UnaryOp) (g : Frame) (render : Value → Run String) :
    g.exec render op.instr = g.unary op.onHeap := by
  cases op <;> rfl

namespace Typed

variable {cs : Constants} {s : Setting} {c : Context} {scope : Scope}

/-- The code of an assignment stores the widened value of an expression. -/
theorem assign_computes (hc : c.isStatic = true) (hs : s.types = some c) (keep : Bool) {x : String} {e : Expr} {t : Ty}
    (ht : c.typeOf scope e = .ok t)
    (ih : Gen.Makes (fun _ => True) cs (expr c scope true e) fun r => Computes cs s.render r.1 (e.compute s scope)) :
    Gen.Makes (fun _ => True) cs (expr c scope keep (.assign (.var x) e)) fun r =>
      ∃ v code, scope.lookup? x = some v ∧ Computes cs s.render code (e.value s scope v.ty) ∧
        r.1 = Evaluates.storing keep code v.slot := by
  rw [expr]
  refine .ofExcept_bind fun target htarget => ?_
  obtain ⟨v, rfl, hv⟩ := Context.lookupVar_static hc htarget
  refine .bind_of (expr_yields true ht) ih ?_
  rintro ⟨code, u⟩ (hu : u = _)
  rw [Expr.kept_true] at hu
  subst hu
  refine .pure fun hcode => ⟨v, _, hv, ?_, rfl⟩
  have hvalue := hcode.widenTo (t := u) v.ty
  rw [← Setting.typeOf_eq hs ht] at hvalue ⊢
  exact hvalue

/-- The code of a typed expression without calls does what its meaning says where types are known. -/
theorem expr_computes (hc : c.isStatic = true) (hs : s.types = some c) (hcs : s.In cs) : ∀ {e : Expr} {t : Ty},
    e.isCallFree = true → c.typeOf scope e = .ok t →
    Gen.Makes (fun _ => True) cs (expr c scope true e) fun r => Computes cs s.render r.1 (e.compute s scope)
  | .lit l, t, he, ht => by
    rw [expr]
    refine .bind (c.literal_computes hcs l) fun code => .pure fun hcode => ?_
    simp only [Expr.compute]
    exact hcode
  | .var x, t, he, ht => by
    rw [expr]
    refine .ofExcept_bind fun target htarget => ?_
    obtain ⟨v, rfl, hv⟩ := Context.lookupVar_static hc htarget
    refine .pure ?_
    simp only [Expr.compute, hv]
    exact .load v.slot
  | .assign (.var x) e, t, he, ht => by
    rw [Expr.isCallFree] at he
    obtain ⟨-, u, -, -, hu, -⟩ := Context.typeOf_assign_static hc ht
    refine (assign_computes hc hs true hu (expr_computes hc hs hcs he hu)).mono ?_
    rintro r ⟨v, code, hv, hcode, hr⟩
    rw [hr]
    have hstore := hcode.storing v.slot
    simpa only [Expr.compute, Expr.value, hv, bind_assoc, pure_bind] using hstore
  | .binary op l r, t, he, ht => by
    rw [Expr.isCallFree, Bool.and_eq_true] at he
    obtain ⟨a, b, bt, ha, hb, hbt, rfl⟩ := Context.typeOf_binary_eq_ok ht
    have hl := expr_computes hc hs hcs he.1 ha
    have hr := expr_computes hc hs hcs he.2 hb
    rw [expr]
    cases hop : op.instr? with
    | none =>
      refine .bind hl fun x => .bind hr fun y => .pure fun hy hx => ?_
      simpa only [Expr.compute, hop] using hx.shortCircuit hy
    | some i =>
      rw [ha, hb]
      refine .ofExcept_bind fun _ ha' => .ofExcept_bind fun _ hb' => ?_
      cases ha'
      cases hb'
      rw [hbt]
      refine .ofExcept_bind fun _ hbt' => ?_
      cases hbt'
      refine .bind hl fun x => .bind hr fun y => .pure fun hy hx => ?_
      have hi : (bt.instr i).isOperator = true := by
        unfold BinaryTyping.instr
        split
        · rfl
        · exact BinaryOp.isOperator_instr? hop
      have hboth := Computes.operator hi (hx.operand (t := a) bt) (hy.operand (t := b) bt)
      simp only [bind_assoc, pure_bind] at hboth
      simp only [Expr.compute, hop, Setting.typing_eq hs ha hb hbt, Setting.typeOf_eq hs ha, Setting.typeOf_eq hs hb]
      exact hboth
  | .unary op e, t, he, ht => by
    rw [Expr.isCallFree] at he
    obtain ⟨u, hu, -⟩ := Context.typeOf_unary_eq_ok ht
    rw [expr]
    refine .bind (expr_computes hc hs hcs he hu) fun r => .ofExcept_bind fun _ _ => .pure fun hr => ?_
    simpa only [Expr.compute] using hr.unary op.exec_instr

end Typed

namespace ByName

variable {cs : Constants} {s : Setting} {c : Context} {scope : Scope}

theorem makes_of_requireInstance (hc : c.isStatic = true) (what : String) {x : Gen Block} {Q : Block → Prop} :
    Gen.Makes (fun _ => True) cs (requireInstance c what >>= fun _ => x) Q := by
  refine .ofExcept_bind fun _ h => ?_
  rw [Context.requireInstance, if_pos hc] at h
  cases h

/-- The code of an assignment stores the value of an expression. -/
theorem assign_computes (hc : c.isStatic = true) (keep : Bool) {x : String} {e : Expr}
    (ih : Gen.Makes (fun _ => True) cs (expr c scope true e) fun code => Computes cs s.render code (e.compute s scope)) :
    Gen.Makes (fun _ => True) cs (expr c scope keep (.assign (.var x) e)) fun r =>
      ∃ v code, scope.lookup? x = some v ∧ Computes cs s.render code (e.compute s scope) ∧
        r = Evaluates.storing keep code v.slot := by
  rw [expr]
  split
  · rename_i v hv
    exact .bind ih fun code => .pure fun hcode => ⟨v, code, hv, hcode, rfl⟩
  · exact makes_of_requireInstance hc x

/-- The code of an expression without calls does what its meaning says where no types are known. -/
theorem expr_computes (hc : c.isStatic = true) (hs : s.types = none) (hcs : s.In cs) : ∀ {e : Expr},
    e.isCallFree = true →
    Gen.Makes (fun _ => True) cs (expr c scope true e) fun code => Computes cs s.render code (e.compute s scope)
  | .lit l, he => by
    rw [expr]
    refine (c.literal_computes hcs l).mono fun code hcode => ?_
    simp only [Expr.compute]
    exact hcode
  | .var x, he => by
    rw [expr]
    split
    · rename_i v hv
      refine .pure ?_
      simp only [Expr.compute, hv]
      exact .load v.slot
    · exact makes_of_requireInstance hc x
  | .assign (.var x) e, he => by
    rw [Expr.isCallFree] at he
    refine (assign_computes hc true (expr_computes hc hs hcs he)).mono ?_
    rintro r ⟨v, code, hv, hcode, rfl⟩
    simpa only [Expr.compute, hv, Setting.typeOf_none hs, Value.widen_void, pure_bind] using hcode.storing v.slot
  | .binary op l r, he => by
    rw [Expr.isCallFree, Bool.and_eq_true] at he
    rw [expr]
    refine .bind (expr_computes hc hs hcs he.1) fun x => .bind (expr_computes hc hs hcs he.2) fun y => ?_
    cases hop : op.instr? with
    | none =>
      refine .pure fun hy hx => ?_
      simpa only [Expr.compute, hop] using hx.shortCircuit hy
    | some i =>
      refine .pure fun hy hx => ?_
      have hboth := Computes.operator (BinaryOp.isOperator_instr? hop) hx hy
      simpa only [Expr.compute, hop, Setting.typing_none hs, BinaryTyping.widen, BinaryTyping.instr, BinaryTyping.unknown,
        pure_bind, Bool.false_eq_true, if_false] using hboth
  | .unary op e, he => by
    rw [Expr.isCallFree] at he
    rw [expr]
    refine .bind (expr_computes hc hs hcs he) fun code => .pure fun hcode => ?_
    simpa only [Expr.compute] using hcode.unary op.exec_instr

end ByName

theorem ByName.expr_eq_of_not_assign {c : Context} {scope : Scope} {e : Expr} (h : ∀ target value, e ≠ .assign target value)
    (keep : Bool) : expr c scope keep e = expr c scope true e := by
  cases e with
  | assign target value => exact absurd rfl (h target value)
  | _ => simp only [expr]

/-- If no types are known, an expression has the same value wherever it stands. -/
theorem Expr.value_eq_compute {s : Setting} (hs : s.types = none) {scope : Scope} {e : Expr} (expected : Ty) :
    e.value s scope expected = e.compute s scope := by
  funext slots
  simp only [Expr.value, Setting.typeOf_none hs, Value.widen_void, pure_bind, Computes.bind_pure_pair]

theorem Context.Accepts.exists_typeOf {c : Context} {scope : Scope} {e : Expr} {ty : Ty} (h : c.Accepts scope e ty) :
    ∃ t, c.typeOf scope e = .ok t := by
  obtain ⟨t, ht, -⟩ := h
  exact ⟨t, ht⟩

/-! ## Values in statements -/

section Values

variable {cs : Constants} {s : Setting} {b : Binding} {c : Context} {scope : Scope} {n : Nat}

theorem compileValue_computes (hc : c.isStatic = true) (hs : s.types = b.context? c) (hcs : s.In cs) {e : Expr}
    (he : e.isCallFree = true) (ht : b = .static → ∃ t, c.typeOf scope e = .ok t) (expected : Ty) :
    Gen.Makes (fun _ => True) cs (compileValue b c scope e expected) fun code =>
      Computes cs s.render code (e.value s scope expected) := by
  cases b with
  | static =>
    obtain ⟨t, ht⟩ := ht rfl
    refine .bind_of (Typed.expr_yields true ht) (Typed.expr_computes hc hs hcs he ht) ?_
    rintro ⟨code, u⟩ (hu : u = _)
    rw [Expr.kept_true] at hu
    subst hu
    refine .pure fun hcode => ?_
    have hvalue := hcode.widenTo (t := u) expected
    rw [← Setting.typeOf_eq hs ht] at hvalue ⊢
    exact hvalue
  | dynamic =>
    refine (ByName.expr_computes hc hs hcs he).mono fun code hcode => ?_
    rwa [Expr.value_eq_compute hs]

/-- The code of an assignment whose value is not used. -/
theorem Performs.assign {x : String} {v : Local} {e : Expr} {code : Block} (hv : scope.lookup? x = some v)
    (hcode : Computes cs s.render code (e.value s scope v.ty)) :
    Performs cs s.render n (Evaluates.storing false code v.slot) fun slots => do
      let (_, slots) ← (Expr.assign (.var x) e).compute s scope slots
      return .next slots := by
  have hstore : Performs cs s.render n (Evaluates.storing false code v.slot) _ := Performs.store v.slot hcode
  simpa only [Expr.compute, Expr.value, hv, bind_assoc, pure_bind] using hstore

/-- The code of an expression that is evaluated for its effects alone. -/
theorem compileDiscarded_performs (hc : c.isStatic = true) (hs : s.types = b.context? c) (hcs : s.In cs) {e : Expr}
    (he : e.isCallFree = true) (ht : b = .static → ∃ t, c.typeOf scope e = .ok t) :
    Gen.Makes (fun _ => True) cs (compileDiscarded b c scope e) fun code =>
      Performs cs s.render n code fun slots => do
        let (_, slots) ← e.compute s scope slots
        return .next slots := by
  by_cases hassign : ∃ target value, e = .assign target value
  · obtain ⟨target, value, rfl⟩ := hassign
    cases target with
    | var x =>
      rw [Expr.isCallFree] at he
      cases b with
      | static =>
        obtain ⟨t, ht⟩ := ht rfl
        obtain ⟨-, u, -, -, hu, -⟩ := Context.typeOf_assign_static hc ht
        refine .bind_of (Typed.expr_yields false ht)
          (Typed.assign_computes hc hs false hu (Typed.expr_computes hc hs hcs he hu)) fun r hr => .pure ?_
        rintro ⟨v, code, hv, hcode, hblock⟩
        rw [hr, Expr.kept_assign, hblock]
        exact .assign hv hcode
      | dynamic =>
        refine .bind (ByName.assign_computes hc false (ByName.expr_computes hc hs hcs he)) fun r => .pure ?_
        rintro ⟨v, code, hv, hcode, rfl⟩
        rw [← Expr.value_eq_compute hs v.ty] at hcode
        exact .assign hv hcode
    | _ => simp [Expr.isCallFree] at he
  · simp only [not_exists] at hassign
    cases b with
    | static =>
      obtain ⟨t, ht⟩ := ht rfl
      rw [compileDiscarded, Typed.discarded, Typed.expr_eq_of_not_assign hassign]
      refine .bind (Typed.expr_computes hc hs hcs he ht) fun r => .pure fun hcode => ?_
      -- A value of a variable of type `void` is left on the stack.
      split
      · exact .left hcode
      · exact .popped hcode
    | dynamic =>
      have hnot : e.isAssign = false := by
        cases e with
        | assign target value => exact absurd rfl (hassign target value)
        | _ => rfl
      rw [compileDiscarded, ByName.discarded, ByName.expr_eq_of_not_assign hassign, hnot]
      exact .bind (ByName.expr_computes hc hs hcs he) fun code => .pure fun hcode => .popped hcode

end Values

/-! ## Statements -/

section Statements

variable {cs : Constants} {s : Setting} {b : Binding} {c : Context}

mutual

/-- The code of a statement without calls does what its meaning says. -/
theorem compileStmt_performs (hc : c.isStatic = true) (hs : s.types = b.context? c) (hcs : s.In cs) :
    ∀ {x : Stmt} {scope : Scope}, x.isCallFree = true → (b = .static → x.WellTyped c scope) →
    Gen.Makes (fun _ => True) cs (compileStmt b c x scope) fun r =>
      Performs cs s.render s.rounds r.1 (x.perform s c.ret scope)
  | .block stmts, scope, hx, hw => by
    rw [Stmt.isCallFree] at hx
    rw [Stmt.WellTyped] at hw
    rw [compileStmt]
    refine .bind (compileStmts_performs hc hs hcs .empty hx hw) fun r => .pure ?_
    rintro ⟨code, hr, hcode⟩
    rw [hr, Block.empty_append]
    simpa only [Stmt.perform] using hcode
  | .decl name ty none, scope, hx, hw => by
    rw [compileStmt]
    refine .bind (pushDefault_computes hcs ty) fun code => ?_
    refine .bind_of (declareVar_yields c scope name ty) (declareVar_silent c scope name ty).makes fun r hr => .pure ?_
    rintro - hcode
    simpa only [Stmt.perform, hr, pure_bind] using Performs.store (n := s.rounds) r.1 hcode
  | .decl name ty (some e), scope, hx, hw => by
    rw [Stmt.isCallFree] at hx
    rw [Stmt.WellTyped] at hw
    rw [compileStmt]
    refine .bind (compileValue_computes hc hs hcs hx (fun hb => (hw hb).1.exists_typeOf) ty) fun code => ?_
    refine .bind_of (declareVar_yields c scope name ty) (declareVar_silent c scope name ty).makes fun r hr => .pure ?_
    rintro - hcode
    simpa only [Stmt.perform, hr] using Performs.store (n := s.rounds) r.1 hcode
  | .expr e, scope, hx, hw => by
    rw [Stmt.isCallFree] at hx
    rw [Stmt.WellTyped] at hw
    rw [compileStmt]
    refine .bind (compileDiscarded_performs (n := s.rounds) hc hs hcs hx hw) fun code => .pure fun hcode => ?_
    simpa only [Stmt.perform] using hcode
  | .ret none, scope, hx, hw => by
    rw [compileStmt]
    refine .pure ?_
    simpa only [Stmt.perform] using Performs.retVoid
  | .ret (some e), scope, hx, hw => by
    rw [Stmt.isCallFree] at hx
    rw [Stmt.WellTyped] at hw
    have htype : b = .static → ∃ t, c.typeOf scope e = .ok t := fun hb => (hw hb).2.exists_typeOf
    rw [compileStmt]
    split
    · rename_i hvoid
      refine .bind (compileDiscarded_performs (n := s.rounds) hc hs hcs hx htype) fun code => .pure fun hcode => ?_
      have h := Performs.append hcode (Performs.retVoid (n := s.rounds))
      simpa only [Stmt.perform, hvoid, if_true, bind_assoc, pure_bind, Flow.andThen] using h
    · rename_i hvoid
      refine .bind (compileValue_computes hc hs hcs hx htype c.ret) fun code => .pure fun hcode => ?_
      simpa only [Stmt.perform, hvoid, Bool.false_eq_true, if_false] using Performs.ret (n := s.rounds) hcode
  | .cond test t none, scope, hx, hw => by
    rw [Stmt.isCallFree, Bool.and_eq_true] at hx
    rw [Stmt.WellTyped] at hw
    rw [compileStmt]
    refine .bind (compileValue_computes hc hs hcs hx.1 (fun hb => ⟨_, (hw hb).1⟩) .boolean) fun code =>
      .bind (compileStmt_performs hc hs hcs hx.2 fun hb => (hw hb).2) fun r => .pure fun ht htest => ?_
    simpa only [Stmt.perform, Expr.truth, bind_assoc, pure_bind] using Performs.ifThen htest ht
  | .cond test t (some e), scope, hx, hw => by
    simp only [Stmt.isCallFree, Bool.and_eq_true] at hx
    rw [Stmt.WellTyped] at hw
    rw [compileStmt]
    refine .bind (compileValue_computes hc hs hcs hx.1.1 (fun hb => ⟨_, (hw hb).1⟩) .boolean) fun code =>
      .bind_of (compileStmt_yields b c t _) (compileStmt_performs hc hs hcs hx.1.2 fun hb => (hw hb).2.1) ?_
    rintro ⟨code', scope'⟩ (rfl : scope' = _)
    refine .bind (compileStmt_performs hc hs hcs hx.2 fun hb => (hw hb).2.2) fun r => .pure fun he ht htest => ?_
    simpa only [Stmt.perform, Expr.truth, bind_assoc, pure_bind] using Performs.ifElse htest ht he
  | .loop test body, scope, hx, hw => by
    rw [Stmt.isCallFree, Bool.and_eq_true] at hx
    rw [Stmt.WellTyped] at hw
    rw [compileStmt]
    refine .bind (compileValue_computes hc hs hcs hx.1 (fun hb => ⟨_, (hw hb).1⟩) .boolean) fun code =>
      .bind (compileStmt_performs hc hs hcs hx.2 fun hb => (hw hb).2) fun r => .pure fun hbody htest => ?_
    simp only [Stmt.perform]
    exact .loop htest hbody
  | .superCall args, scope, hx, hw => by simp [Stmt.isCallFree] at hx

theorem compileStmts_performs (hc : c.isStatic = true) (hs : s.types = b.context? c) (hcs : s.In cs) (done : Block) :
    ∀ {xs : List Stmt} {scope : Scope}, Stmt.allCallFree xs = true → (b = .static → allWellTyped c xs scope) →
    Gen.Makes (fun _ => True) cs (compileStmts b c xs scope done) fun r => ∃ code, r.1 = done ++ code ∧
      Performs cs s.render s.rounds code (Stmt.performAll s c.ret xs scope)
  | [], scope, hx, hw => by
    rw [compileStmts]
    refine .pure ⟨.empty, (Block.append_empty done).symm, ?_⟩
    simpa only [Stmt.performAll] using Performs.empty
  | x :: rest, scope, hx, hw => by
    rw [Stmt.allCallFree, Bool.and_eq_true] at hx
    rw [allWellTyped] at hw
    rw [compileStmts]
    refine .bind_of (compileStmt_yields b c x scope) (compileStmt_performs hc hs hcs hx.1 fun hb => (hw hb).1) ?_
    rintro ⟨first, scope'⟩ (rfl : scope' = _)
    refine (compileStmts_performs hc hs hcs (done ++ first) hx.2 fun hb => (hw hb).2).mono ?_
    rintro r ⟨code, hr, hrest⟩ hfirst
    refine ⟨first ++ code, by rw [hr, Block.append_assoc], ?_⟩
    simpa only [Stmt.performAll] using hfirst.append hrest

end

/-- The code of a method without calls does what its body means. -/
theorem compileMethod_performs {m : LoweredMethod} {body : List Stmt} (hc : c.isStatic = true)
    (hs : s.types = b.context? c) (hcs : s.In cs) (hbody : m.body = .method body) (hfree : Stmt.allCallFree body = true)
    (hw : b = .static → (Stmt.block body).WellTyped c (afterParams m.params .ofStatic)) :
    Gen.Makes (fun _ => True) cs (compileMethod b c m) fun mc => ∃ code : Block,
      code.overflowed = false ∧ mc.code = code.encode ∧
        Performs cs s.render s.rounds code ((Stmt.block body).perform s c.ret (afterParams m.params .ofStatic)) := by
  unfold compileMethod
  rw [hc, if_pos rfl]
  refine .bind_of (declareParams_yields c m.params .ofStatic) (declareParams_silent c m.params .ofStatic).makes ?_
  rintro scope ⟨rfl, -⟩
  rw [hbody]
  have hblock : (Stmt.block body).isCallFree = true := by
    rw [Stmt.isCallFree]
    exact hfree
  refine .bind (compileStmt_performs hc hs hcs hblock hw) fun r => ?_
  dsimp only
  unfold compileMethod.finish
  split
  · exact .throw
  · rename_i hover
    exact .pure fun hcode _ => ⟨r.1, by simpa using hover, rfl, hcode⟩

end Statements

end ClassTree
