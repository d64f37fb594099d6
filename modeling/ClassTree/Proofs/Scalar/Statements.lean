import ClassTree.Proofs.Scalar.Expressions

/-!
# Code of statements follows their execution

`Executes cs ret n scope scope' code ex`: wherever the block `code` stands, and wherever the local slots hold the variables
that `scope` shows, the machine does what the execution `ex` says, and the slots then hold the variables that `scope'`
shows. The code of every well-typed statement of the fragment does so (`compileStmt_executes`); for loops this goes by
induction over the rounds that are allowed.
-/

namespace ClassTree

open Run

/-- The code does what the execution of a statement says. -/
def Executes (cs : Constants) (ret : Ty) (n : Nat) (scope scope' : Scope) (code : Block) (ex : Env → Except Stop Env) :
    Prop :=
  ∀ (f : Frame) (o : Nat) (env : Env) (g : Frame), f.constants = cs → code.In f o → f.Reached scope o [] env g →
    Simulates f.target ret n g (ex env) fun env' g' => f.Reached scope' (o + code.size) [] env' g'

namespace Executes

variable {cs : Constants} {ret : Ty} {n : Nat} {scope scope' scope'' : Scope} {code code' test : Block}
  {ex ex' : Env → Except Stop Env} {ev : Env → Except Stop (Scalar × Env)}

theorem of_adds (h : Executes cs ret n scope scope' code ex) (hadds : scope'.Adds [] scope'') :
    Executes cs ret n scope scope'' code ex := by
  intro f o env g hcs hin hg
  refine (h f o env g hcs hin hg).followed ?_
  rintro env g ⟨locals, rfl, hsize, hmodels⟩
  exact ⟨0, _, .refl _, locals, rfl, hsize, hmodels.of_adds hadds⟩

theorem of_adds_before (h : Executes cs ret n scope' scope'' code ex) (hadds : scope.Adds [] scope') :
    Executes cs ret n scope scope'' code ex := by
  rintro f o env g hcs hin ⟨locals, rfl, hsize, hmodels⟩
  exact h f o env _ hcs hin ⟨locals, rfl, hsize, hmodels.of_adds hadds⟩

theorem append (h : Executes cs ret n scope scope' code ex) (h' : Executes cs ret n scope' scope'' code' ex') :
    Executes cs ret n scope scope'' (code ++ code') fun env => ex env >>= ex' := by
  intro f o env g hcs hin hg
  obtain ⟨hfirst, hsecond⟩ := hin.append
  refine .bind (h f o env g hcs hfirst hg) fun env g hg => ?_
  rw [Block.size_append, ← Nat.add_assoc]
  exact h' f _ env g hcs hsecond hg

/-- The rule for a block: its variables are gone at its end. -/
theorem leave {news : List Local} (h : Executes cs ret n scope.enter scope' code ex) (hadds : scope.enter.Adds news scope') :
    Executes cs ret n scope scope code fun env => do return env.leave (← ex env) := by
  rintro f o env g hcs hin ⟨locals, rfl, hsize, hmodels⟩
  refine .bind (h f o env _ hcs hin ⟨locals, rfl, hsize, hmodels.enter⟩) ?_
  rintro inner g ⟨locals', rfl, hsize', hmodels'⟩
  exact .pure ⟨locals', rfl, hsize', hmodels.leave hadds hmodels'⟩

/-- The rule for a declaration. -/
theorem declare {x : String} {ty : Ty} {slot : UInt16} (h : Evaluates cs scope code ty ev)
    (hd : scope.declare x ty = (.ok slot, scope')) :
    Executes cs ret n scope scope' (code ++ .one (.store slot)) fun env => do
      let (v, env) ← ev env
      return ⟨x, ty, v⟩ :: env := by
  intro f o env g hcs hin hg
  obtain ⟨hcode, hstore⟩ := hin.append
  refine .bind (h f o [] env g ret n hcs hcode hg) ?_
  rintro ⟨v, env⟩ g ⟨hty, locals, rfl, hsize, hmodels⟩
  have hslot : slot.toNat < locals.size := by
    rw [hsize]
    exact hstore.slot rfl
  refine .step (.store hstore.one hslot) (.pure ⟨_, ?_, ?_, hmodels.declare hd hty hslot⟩)
  · rw [Block.size_append, Block.size_one, ← Nat.add_assoc]
  · rw [Array.size_setIfInBounds, hsize]

/-- The rule for a return. -/
theorem returns (h : Evaluates cs scope code ret ev) :
    Executes cs ret n scope scope' (code ++ .one .ret) (fun env => do
      let (v, _) ← ev env
      throw (.returned v)) := by
  intro f o env g hcs hin hg
  obtain ⟨hcode, hret⟩ := hin.append
  refine .bind (h f o [] env g ret n hcs hcode hg) ?_
  rintro ⟨v, env⟩ g ⟨hty, locals, rfl, hsize, hmodels⟩
  exact ⟨0, _, .refl _, ⟨hret.one, [], rfl⟩, rfl, hty⟩

theorem ifThen (htest : Evaluates cs scope test .boolean ev) (h : Executes cs ret n scope scope code ex) :
    Executes cs ret n scope scope (.ifThen test code) fun env => do
      let (b, env) ← ev env
      if ← b.truth then ex env else return env := by
  intro f o env g hcs hin hg
  obtain ⟨hin, hcode, w, hw, hskip⟩ := hin.ifThen
  refine htest.condition (x := fun b env => if b then ex env else return env) hcs hin hskip hg fun b env g hg => ?_
  rw [Block.size_ifThen]
  cases b with
  | true =>
    rw [if_pos rfl]
    simpa only [Nat.add_assoc] using h f _ env g hcs hcode hg
  | false =>
    rw [if_neg Bool.false_ne_true, hw] at hg
    refine .pure ?_
    simpa only [Nat.add_assoc] using hg

theorem ifElse (htest : Evaluates cs scope test .boolean ev) (h : Executes cs ret n scope scope' code ex)
    (h' : Executes cs ret n scope scope' code' ex') :
    Executes cs ret n scope scope' (.ifElse test code code') (fun env => do
      let (b, env) ← ev env
      if ← b.truth then ex env else ex' env) := by
  intro f o env g hcs hin hg
  have hsim := htest.ifElse (x := fun b env => if b then ex env else ex' env) (P := fun _ => True) hcs hin hg
    (fun o env g hin hg => (h f o env g hcs hin hg).followed fun a g h => ⟨0, g, .refl g, trivial, h⟩)
    fun o env g hin hg => (h' f o env g hcs hin hg).followed fun a g h => ⟨0, g, .refl g, trivial, h⟩
  exact hsim.followed fun a g h => ⟨0, g, .refl g, h.2⟩

/-- The rule for a loop, by induction over the rounds that are allowed. -/
theorem loop (htest : Evaluates cs scope test .boolean ev) (h : Executes cs ret n scope scope code ex) :
    Executes cs ret n scope scope (.repeatWhile test code) fun env =>
      goRound (fun env => do
        let (b, env) ← ev env
        if ← b.truth then return (true, ← ex env) else return (false, env)) n env := by
  intro f o env g hcs hin hg
  obtain ⟨hin, hcode, ⟨w, hw, hskip⟩, w', hw', hback⟩ := hin.repeatWhile
  rw [Block.size_repeatWhile]
  have hrounds : ∀ j ≤ n, ∀ env g, f.Reached scope o [] env g →
      Simulates f.target ret j g (goRound (fun env => do
        let (b, env) ← ev env
        if ← b.truth then return (true, ← ex env) else return (false, env)) j env) fun env' g' =>
        f.Reached scope (o + (test.size + Block.jumpSize + code.size + Block.jumpSize)) [] env' g' := by
    intro j
    induction j with
    | zero => exact fun _ env g _ => ⟨0, g, Nat.le_refl 0, .refl g⟩
    | succ j ih =>
      intro hj env g hg
      rw [goRound]
      refine .bind (Q := fun (r : Bool × Env) g' => f.Reached scope (if r.1 then o + test.size + Block.jumpSize + code.size
        else o + (test.size + Block.jumpSize + code.size + Block.jumpSize)) [] r.2 g') ?_ ?_
      · refine htest.condition (x := fun b env => if b then (do return (true, ← ex env)) else return (false, env)) hcs hin hskip
          hg fun b env g hg => ?_
        cases b with
        | true =>
          refine .bind ((h f _ env g hcs hcode hg).of_le hj) fun env g hg => ?_
          exact .pure hg
        | false =>
          rw [if_neg Bool.false_ne_true, hw] at hg
          refine .pure ?_
          rw [if_neg Bool.false_ne_true]
          simpa only [Nat.add_assoc] using hg
      · rintro ⟨again, env⟩ g hg
        cases again with
        | true =>
          obtain ⟨locals, rfl, hsize, hmodels⟩ := hg
          have hloop : Steps 1 (f.move (o + test.size + Block.jumpSize + code.size) [] locals) (f.move o [] locals) := by
            have htarget : o = o + test.size + Block.jumpSize + code.size + Block.jumpSize - w'.toNat := by omega
            nth_rewrite 2 [htarget]
            exact .loop hback (by omega)
          have hrest := ih (by omega) env _ ⟨locals, rfl, hsize, hmodels⟩
          have hsim := Simulates.of_steps hloop hrest
          rwa [Nat.add_comm] at hsim
        | false => exact .pure hg
  exact hrounds n (Nat.le_refl n) env g hg

end Executes

/-! ## Statements -/

section Statements

variable {cs : Constants} {c : Context}

/-- The code of a value that is expected to be of a scalar type follows its evaluation. -/
theorem compileValue_evaluates (hc : c.isStatic = true) {scope : Scope} {e : Expr} {ty : Ty} (he : e.isScalar = true)
    (hty : ty.isScalar = true) (h : c.Accepts scope e ty) :
    Gen.Makes (fun _ => True) cs (compileValue .static c scope e ty) fun code =>
      Evaluates cs scope code ty fun env => do
        let (v, env) ← e.eval env
        return (← Stop.need (v.widen? ty), env) := by
  obtain ⟨t, ht, hassignable⟩ := h
  refine .bind (Typed.expr_evaluates hc he ht) fun r => .pure ?_
  rintro ⟨hr, hcode⟩
  rw [show r = (r.1, t) by rw [← hr]]
  exact hcode.widenTo fun _ _ _ v hv => Scalar.exists_widen? hty (hv ▸ hassignable)

theorem compileCondition_evaluates (hc : c.isStatic = true) {scope : Scope} {e : Expr} (he : e.isScalar = true)
    (h : c.typeOf scope e = .ok .boolean) :
    Gen.Makes (fun _ => True) cs (compileValue .static c scope e .boolean) fun code =>
      Evaluates cs scope code .boolean fun env => e.eval env := by
  refine .bind (Typed.expr_evaluates hc he h) fun r => .pure ?_
  rintro ⟨hr, hcode⟩
  rw [show r = (r.1, Ty.boolean) by rw [← hr], widenTo_of_none rfl]
  exact hcode

theorem pushDefault_evaluates (scope : Scope) {ty : Ty} (hty : ty.isScalar = true) :
    Gen.Makes (fun _ => True) cs (pushDefault ty) fun code =>
      Evaluates cs scope code ty fun env => do return (← Stop.need (Scalar.default? ty), env) := by
  cases ty with
  | boolean => exact .pure (.pushBool false)
  | int =>
    rw [pushDefault]
    refine .pushInt trivial (fun _ => ?_) (fun h => nomatch h) fun i hi => ?_
    · exact .one (v := .int 0) (fun _ => rfl) fun f o stack locals _ hat => .push hat
    · refine .one (v := .int 0) (fun _ => rfl) ?_
      rintro f o stack locals rfl hat
      exact .ldc hat fun o stack locals => Typed.constant_int hi
  | long =>
    refine .instr (.long 0) (fun _ => rfl) trivial fun i hi => ?_
    refine .one (v := .long 0) (fun _ => rfl) ?_
    rintro f o stack locals rfl hat
    exact .ldc hat fun o stack locals => Typed.constant_long hi
  | _ => cases hty

mutual

/-- The code of a well-typed statement of the fragment follows its execution. -/
theorem compileStmt_executes (hc : c.isStatic = true) (hret : c.ret.isScalar = true) : ∀ {x : Stmt} {scope : Scope},
    x.isScalar = true → x.WellTyped c scope →
    Gen.Makes (fun _ => True) cs (compileStmt .static c x scope) fun r =>
      ∀ n, Executes cs c.ret n scope (x.after scope) r.1 fun env => x.exec c.ret n env
  | .block stmts, scope, hx, hw => by
    rw [Stmt.isScalar] at hx
    rw [Stmt.WellTyped] at hw
    obtain ⟨news, hadds⟩ := exists_adds_afterAll stmts scope.enter
    rw [compileStmt, Stmt.after]
    refine .bind (compileStmts_executes hc hret .empty hx hw) fun r => .pure ?_
    rintro ⟨code, hr, hcode⟩ n
    rw [hr, Block.empty_append]
    simp only [Stmt.exec]
    exact ((hcode n).leave hadds).of_adds hadds.pop
  | .decl name ty none, scope, hx, hw => by
    rw [Stmt.isScalar] at hx
    rw [compileStmt]
    refine .bind (pushDefault_evaluates scope hx) fun code => ?_
    refine .bind_of (declareVar_yields c scope name ty) (declareVar_silent c scope name ty).makes fun r hr => .pure ?_
    rintro - hcode n
    rw [Stmt.after_decl none hr]
    have h : Executes cs c.ret n scope r.2 (code ++ .one (.store r.1)) _ := .declare hcode hr
    simpa only [Stmt.exec, bind_assoc, pure_bind] using h
  | .decl name ty (some e), scope, hx, hw => by
    rw [Stmt.isScalar, Bool.and_eq_true] at hx
    rw [Stmt.WellTyped] at hw
    rw [compileStmt]
    refine .bind (compileValue_evaluates hc hx.2 hx.1 hw.1) fun code => ?_
    refine .bind_of (declareVar_yields c scope name ty) (declareVar_silent c scope name ty).makes fun r hr => .pure ?_
    rintro - hcode n
    rw [Stmt.after_decl (some e) hr]
    have h : Executes cs c.ret n scope r.2 (code ++ .one (.store r.1)) _ := .declare hcode hr
    simpa only [Stmt.exec, bind_assoc, pure_bind] using h
  | .expr e, scope, hx, hw => by
    rw [Stmt.isScalar] at hx
    rw [Stmt.WellTyped] at hw
    obtain ⟨t, ht⟩ := hw
    rw [compileStmt, Stmt.after]
    refine .bind (Typed.discarded_evaluates hc hx ht) fun code => .pure ?_
    intro hcode n f o env g hcs hin hg
    simp only [Stmt.exec]
    exact .bind (hcode f o [] env g c.ret n hcs hin hg) fun r g hg => .pure hg
  | .ret none, scope, hx, hw => by simp [Stmt.isScalar] at hx
  | .ret (some e), scope, hx, hw => by
    rw [Stmt.isScalar] at hx
    rw [Stmt.WellTyped] at hw
    rw [compileStmt, hw.1, Stmt.after]
    refine .bind (compileValue_evaluates hc hx hret hw.2) fun code => .pure ?_
    intro hcode n
    have h : Executes cs c.ret n scope scope (code ++ .one .ret) _ := .returns hcode
    simpa only [Stmt.exec, bind_assoc, pure_bind] using h
  | .cond test t none, scope, hx, hw => by
    rw [Stmt.isScalar, Bool.and_eq_true] at hx
    rw [Stmt.WellTyped] at hw
    obtain ⟨news, hadds⟩ := t.exists_adds_after scope.enter
    rw [compileStmt, Stmt.after]
    refine .bind (compileCondition_evaluates hc hx.1 hw.1) fun code =>
      .bind (compileStmt_executes hc hret hx.2 hw.2) fun r => .pure ?_
    intro ht htest n
    simp only [Stmt.exec]
    exact (Executes.ifThen htest ((ht n).leave hadds)).of_adds hadds.pop
  | .cond test t (some e), scope, hx, hw => by
    simp only [Stmt.isScalar, Bool.and_eq_true] at hx
    rw [Stmt.WellTyped] at hw
    obtain ⟨news, hadds⟩ := t.exists_adds_after scope.enter
    obtain ⟨news', hadds'⟩ := e.exists_adds_after (t.after scope.enter).pop.enter
    rw [compileStmt, Stmt.after]
    refine .bind (compileCondition_evaluates hc hx.1.1 hw.1) fun code =>
      .bind_of (compileStmt_yields .static c t _) (compileStmt_executes hc hret hx.1.2 hw.2.1) ?_
    rintro ⟨code', s⟩ (rfl : s = _)
    refine .bind (compileStmt_executes hc hret hx.2 hw.2.2) fun r' => .pure ?_
    intro he ht htest n
    have hyes := ((ht n).leave hadds).of_adds hadds.pop
    have hno := (he n).leave hadds'
    have h := (Executes.ifElse htest hyes (hno.of_adds_before hadds.pop)).of_adds hadds'.pop
    simpa only [Stmt.exec] using h
  | .loop test body, scope, hx, hw => by
    rw [Stmt.isScalar, Bool.and_eq_true] at hx
    rw [Stmt.WellTyped] at hw
    obtain ⟨news, hadds⟩ := body.exists_adds_after scope.enter
    rw [compileStmt, Stmt.after]
    refine .bind (compileCondition_evaluates hc hx.1 hw.1) fun code =>
      .bind (compileStmt_executes hc hret hx.2 hw.2) fun r => .pure ?_
    intro hbody htest n
    have h := (Executes.loop htest ((hbody n).leave hadds)).of_adds hadds.pop
    simpa only [Stmt.exec, bind_assoc, pure_bind] using h
  | .superCall args, scope, hx, hw => by simp [Stmt.isScalar] at hx

theorem compileStmts_executes (hc : c.isStatic = true) (hret : c.ret.isScalar = true) (done : Block) :
    ∀ {xs : List Stmt} {scope : Scope}, Stmt.allScalar xs = true → allWellTyped c xs scope →
    Gen.Makes (fun _ => True) cs (compileStmts .static c xs scope done) fun r => ∃ code, r.1 = done ++ code ∧
      ∀ n, Executes cs c.ret n scope (afterAll xs scope) code fun env => Stmt.execAll c.ret n xs env
  | [], scope, hx, hw => by
    rw [compileStmts, afterAll]
    refine .pure ⟨.empty, (Block.append_empty done).symm, fun n f o env g hcs hin hg => ?_⟩
    exact .pure hg
  | x :: rest, scope, hx, hw => by
    rw [Stmt.allScalar, Bool.and_eq_true] at hx
    rw [allWellTyped] at hw
    rw [compileStmts, afterAll]
    refine .bind_of (compileStmt_yields .static c x scope) (compileStmt_executes hc hret hx.1 hw.1) ?_
    rintro ⟨first, s⟩ (rfl : s = _)
    refine (compileStmts_executes hc hret (done ++ first) hx.2 hw.2).mono ?_
    rintro r' ⟨code, hr', hrest⟩ hfirst
    refine ⟨first ++ code, by rw [hr', Block.append_assoc], fun n => ?_⟩
    simp only [Stmt.execAll]
    exact (hfirst n).append (hrest n)

end

end Statements

end ClassTree
