import ClassTree.Proofs.Compile.Leaves

/-!
# The code of methods is orderly

The code of a statement leaves the stack as it found it, or ends in returns (`compileStmt_ends`). A loop and a condition of one
branch are taken to go on, whatever they hold, so what the analysis of returns says of a body is what its code does: a body that
always returns never lets control run off its end, and one that does not gets a return when it is lowered.

`LoweredMethod.Executes` and `LoweredMethod.Evaluates` are the statements and expressions that stand in a method, each with the
variables that are visible there. `LoweredMethod.Orderly`: the code of the method is orderly, and the code of whatever stands in
it is balanced at every depth. It is so for every method whose parts are sound (`compileMethod_orderly`).
-/

namespace ClassTree

open Gen

/-! ## Statements -/

/-- Where the code of the statement rests on types, it is well typed, and all variables and fields hold values. -/
def Stmt.Sound (b : Binding) (c : Context) (x : Stmt) (s : Scope) : Prop :=
  b = .static → c.registry.Valued ∧ x.Valued c s

namespace Stmt.Sound

variable {b : Binding} {c : Context} {x : Stmt} {s : Scope}

theorem context (h : x.Sound b c s) : c.Valued b s := fun hb => ⟨(h hb).1, (h hb).2.scope⟩

theorem part (h : x.Sound b c s) {y : Stmt} {t : Scope} (hy : (y, t) ∈ x.parts s) : y.Sound b c t :=
  fun hb => ⟨(h hb).1, (h hb).2.part hy⟩

theorem values (h : x.Sound b c s) {e : Expr} (he : e ∈ x.exprs) : ∃ n, e.Values b c s n := by
  cases b with
  | static =>
    obtain ⟨t, ht⟩ := (h rfl).2.typeOf_expr he
    exact ⟨_, t, ht, rfl⟩
  | dynamic => exact ⟨1, rfl⟩

/-- What is stored, returned or tested is one value. -/
theorem one_of_accepts {e : Expr} (h : b = .static → ∃ ty, c.Accepts s e ty) : e.Values b c s 1 := by
  cases b with
  | static =>
    obtain ⟨ty, t, ht, hassignable⟩ := h rfl
    exact ⟨t, ht, Ty.values_eq_one (Registry.isVoid_of_isAssignable hassignable).1⟩
  | dynamic => rfl

theorem one_of_boolean {e : Expr} (h : b = .static → c.typeOf s e = .ok .boolean) : e.Values b c s 1 := by
  cases b with
  | static => exact ⟨_, h rfl, rfl⟩
  | dynamic => rfl

theorem init {name : String} {ty : Ty} {e : Expr} (h : (Stmt.decl name ty (some e)).Sound b c s) : e.Values b c s 1 := by
  refine one_of_accepts fun hb => ?_
  have hw := (h hb).2.wellTyped
  rw [WellTyped] at hw
  exact ⟨ty, hw.1⟩

theorem result {e : Expr} (h : (Stmt.ret (some e)).Sound b c s) : e.Values b c s 1 := by
  refine one_of_accepts fun hb => ?_
  have hw := (h hb).2.wellTyped
  rw [WellTyped] at hw
  exact ⟨c.ret, hw.2⟩

theorem test {test : Expr} {t : Stmt} {e : Option Stmt} (h : (Stmt.cond test t e).Sound b c s) : test.Values b c s 1 := by
  refine one_of_boolean fun hb => ?_
  have hw := (h hb).2.wellTyped
  cases e <;> (rw [WellTyped] at hw; exact hw.1)

theorem loopTest {test : Expr} {body : Stmt} (h : (Stmt.loop test body).Sound b c s) : test.Values b c s 1 := by
  refine one_of_boolean fun hb => ?_
  have hw := (h hb).2.wellTyped
  rw [WellTyped] at hw
  exact hw.1

end Stmt.Sound

section Statements

variable {b : Binding} {c : Context} {r : Pool}

theorem declareVar_emits (c : Context) (scope : Scope) (name : String) (ty : Ty) :
    Emits r (declareVar c scope name ty) fun _ => True := by
  unfold declareVar
  split
  · exact .pure trivial
  · exact .throw

theorem declareParams_emits (c : Context) (params : List Param) (scope : Scope) :
    Emits r (declareParams c params scope) fun _ => True := by
  induction params generalizing scope with
  | nil => exact .pure trivial
  | cons p params ih => exact .bind (declareVar_emits c scope p.name p.ty) fun a => (ih a.2).mono fun _ h _ => h

mutual

/-- The code of a statement leaves the stack as it found it, or ends in returns. -/
theorem compileStmt_ends (hr : r.WellFormed) : ∀ {x : Stmt} {s : Scope}, x.Sound b c s →
    Emits r (compileStmt b c x s) fun a => a.1.Ends r x.alwaysReturns
  | .block stmts, s, h => by
    rw [compileStmt, Stmt.alwaysReturns]
    refine .bind (compileStmts_ends hr (fun y hy => h.part hy) .empty) fun a => .pure fun ha => ?_
    exact ha false Block.ends_empty
  | .decl name ty none, s, _ => by
    rw [compileStmt]
    simp only [Stmt.alwaysReturns]
    refine .bind (pushDefault_moves ty) fun code => .bind (declareVar_emits c s name ty) fun a => .pure fun _ hcode => ?_
    exact (hcode.append (moves_store a.1) (Nat.le_refl 1) rfl).ends
  | .decl name ty (some e), s, h => by
    rw [compileStmt]
    simp only [Stmt.alwaysReturns]
    refine .bind (compileValue_moves hr h.context h.init ty) fun code => ?_
    refine .bind (declareVar_emits c s name ty) fun a => .pure fun _ hcode => ?_
    exact (hcode.append (moves_store a.1) (Nat.le_refl 1) rfl).ends
  | .expr e, s, h => by
    obtain ⟨n, hn⟩ := h.values (List.mem_singleton_self e)
    rw [compileStmt]
    simp only [Stmt.alwaysReturns]
    exact .bind (compileDiscarded_moves hr h.context hn) fun code => .pure fun hcode => hcode.ends
  | .ret none, s, _ => by
    rw [compileStmt, Stmt.alwaysReturns]
    have hcode := (Block.moves_empty (p := r)).returns (i := .retVoid) (.inl rfl) (fun _ => rfl) rfl (Nat.le_refl 0)
    rw [Block.empty_append] at hcode
    exact .pure hcode
  | .ret (some e), s, h => by
    rw [compileStmt, Stmt.alwaysReturns]
    split
    · exact .bind (compileDiscarded_moves hr h.context h.result) fun code => .pure fun hcode =>
        hcode.returns (.inl rfl) (fun _ => rfl) rfl (Nat.le_refl 0)
    · exact .bind (compileValue_moves hr h.context h.result c.ret) fun code => .pure fun hcode =>
        hcode.returns (.inl rfl) (fun _ => rfl) rfl (Nat.le_refl 1)
  | .cond test t none, s, h => by
    rw [compileStmt]
    simp only [Stmt.alwaysReturns]
    refine .bind (compileValue_moves hr h.context h.test .boolean) fun code => ?_
    refine .bind (compileStmt_ends hr (h.part (by simp [Stmt.parts]))) fun a => .pure fun ha hcode => ?_
    exact Block.Ends.ifThen hcode ha
  | .cond test t (some e), s, h => by
    rw [compileStmt, Stmt.alwaysReturns]
    refine .bind (compileValue_moves hr h.context h.test .boolean) fun code => ?_
    refine .bind_of (compileStmt_yields b c t s.enter) (compileStmt_ends hr (h.part (by simp [Stmt.parts]))) fun a ha => ?_
    dsimp only
    rw [ha]
    refine .bind (compileStmt_ends hr (h.part (by simp [Stmt.parts]))) fun a' => .pure fun ha' ha hcode => ?_
    exact Block.Ends.ifElse hcode ha ha'
  | .loop test body, s, h => by
    rw [compileStmt]
    simp only [Stmt.alwaysReturns]
    refine .bind (compileValue_moves hr h.context h.loopTest .boolean) fun code => ?_
    refine .bind (compileStmt_ends hr (h.part (by simp [Stmt.parts]))) fun a => .pure fun ha hcode => ?_
    exact Block.Ends.repeatWhile hcode ha
  | .superCall _, _, _ => by
    rw [compileStmt]
    exact .throw

/-- The code of statements goes on where that before it does, and ends in returns if one of them always returns. -/
theorem compileStmts_ends (hr : r.WellFormed) : ∀ {xs : List Stmt} {s : Scope},
    (∀ y ∈ placed xs s, y.1.Sound b c y.2) → ∀ done : Block,
      Emits r (compileStmts b c xs s done) fun a => ∀ returns, done.Ends r returns → a.1.Ends r (returns || anyReturns xs)
  | [], s, _, done => by
    rw [compileStmts, anyReturns]
    exact .pure fun returns hdone => by rwa [Bool.or_false]
  | x :: rest, s, h, done => by
    rw [compileStmts, anyReturns]
    refine .bind_of (compileStmt_yields b c x s) (compileStmt_ends hr (h (x, s) List.mem_cons_self)) fun a ha => ?_
    dsimp only
    rw [ha]
    have hrest : ∀ y ∈ placed rest (x.after s), y.1.Sound b c y.2 := fun y hy => h y (List.mem_cons_of_mem _ hy)
    refine (compileStmts_ends hr hrest _).mono fun a' ha' ha returns hdone => ?_
    rw [← Bool.or_assoc]
    exact ha' _ (hdone.append ha)

end

end Statements

/-! ## Methods -/

/-- Whether every way through a body ends in a return. -/
def LoweredBody.returns : LoweredBody → Bool
  | .abstract => true
  | .method stmts | .constructor _ _ stmts => anyReturns stmts

namespace LoweredMethod

variable {b : Binding} {c : Context} {m : LoweredMethod} {first : Scope} {r : Pool}

/-- The statements that a method is made of, each with the variables that are visible before it; the parameters are declared
beside those of `first`. -/
def parts (m : LoweredMethod) (first : Scope) : List (Stmt × Scope) :=
  match m.body with
  | .abstract => []
  | .method body => [(.block body, afterParams m.params first)]
  | .constructor _ initializers body =>
    (.block body, afterParams m.params first) :: placed initializers (initializerScope m.params)

/-- The statement stands in the method, at any depth, where the variables of the scope are visible. -/
inductive Executes (m : LoweredMethod) (first : Scope) : Stmt → Scope → Prop
  | part {x : Stmt} {s : Scope} (h : (x, s) ∈ m.parts first) : Executes m first x s
  | inner {x y : Stmt} {s t : Scope} (h : Executes m first x s) (hy : (y, t) ∈ x.parts s) : Executes m first y t

/-- The expression is evaluated somewhere in the method, where the variables of the scope are visible. -/
inductive Evaluates (m : LoweredMethod) (first : Scope) : Expr → Scope → Prop
  | stmt {x : Stmt} {e : Expr} {s : Scope} (h : m.Executes first x s) (he : e ∈ x.exprs) : Evaluates m first e s
  | superArg {e : Expr} {args : List Expr} {initializers body : List Stmt}
      (h : m.body = .constructor args initializers body) (he : e ∈ args) : Evaluates m first e (afterParams m.params first)
  | inner {e e' : Expr} {s : Scope} (h : Evaluates m first e s) (he : e' ∈ e.parts) : Evaluates m first e' s

/-- Where the code of the method rests on types, its parts are well typed, and all variables and fields hold values. -/
structure Sound (b : Binding) (c : Context) (m : LoweredMethod) : Prop where
  parts : ∀ y ∈ m.parts c.firstScope, y.1.Sound b c y.2
  superArgs : b = .static → ∀ {args initializers body}, m.body = .constructor args initializers body →
    ∃ ts, c.typesOf (afterParams m.params c.firstScope) args = .ok ts

/-- The code `mc` of a method keeps the discipline of the stack by the constants of `r`. The code of a part is what is made of
it while the pool grows into `r`, as it is when the method is compiled. -/
structure Orderly (b : Binding) (c : Context) (m : LoweredMethod) (mc : MethodCode) (r : Pool) : Prop where
  code : ∃ code : Block, mc.code = code.encode ∧ code.overflowed = false ∧ code.Orderly r
  /-- The code of a statement leaves the stack as it found it, or control does not get to its end. -/
  stmts : ∀ x s, m.Executes c.firstScope x s → ∀ p code s' q, compileStmt b c x s p = .ok (code, s') q → q.Later r →
    code.overflowed = false → ∀ d, code.Balanced r d (if x.alwaysReturns then none else some d)
  /-- The code of an expression leaves its values above what it found. -/
  exprs : ∀ e s, m.Evaluates c.firstScope e s → ∃ n, e.Values b c s n ∧
    ∀ keep p code q, compileExpr b c s keep e p = .ok code q → q.Later r → code.overflowed = false →
      ∀ d, code.Balanced r d (some (d + e.left keep n))

namespace Sound

theorem executes (h : m.Sound b c) {x : Stmt} {s : Scope} (hx : m.Executes c.firstScope x s) : x.Sound b c s := by
  induction hx with
  | part hx => exact h.parts _ hx
  | inner _ hy ih => exact ih.part hy

theorem context (h : m.Sound b c) (hbody : m.body ≠ .abstract) : c.Valued b (afterParams m.params c.firstScope) := by
  cases hm : m.body with
  | abstract => exact absurd hm hbody
  | method body =>
    exact (h.parts (.block body, afterParams m.params c.firstScope) (by simp [LoweredMethod.parts, hm])).context
  | constructor args initializers body =>
    exact (h.parts (.block body, afterParams m.params c.firstScope) (by simp [LoweredMethod.parts, hm])).context

/-- Every expression in the method has values, and stands where all variables hold values. -/
theorem evaluates (h : m.Sound b c) {e : Expr} {s : Scope} (he : m.Evaluates c.firstScope e s) :
    c.Valued b s ∧ ∃ n, e.Values b c s n := by
  induction he with
  | stmt hx he => exact ⟨(h.executes hx).context, (h.executes hx).values he⟩
  | superArg hm he =>
    refine ⟨h.context (by simp [hm]), ?_⟩
    cases b with
    | static =>
      obtain ⟨ts, hts⟩ := h.superArgs rfl hm
      obtain ⟨t, ht⟩ := Context.exists_typeOf_of_typesOf hts he
      exact ⟨_, t, ht, rfl⟩
    | dynamic => exact ⟨1, rfl⟩
  | inner _ he ih =>
    obtain ⟨hc, n, hn⟩ := ih
    refine ⟨hc, ?_⟩
    cases b with
    | static =>
      obtain ⟨t, ht, -⟩ := hn
      obtain ⟨t', ht'⟩ := Context.typeOf_part ht he
      exact ⟨_, t', ht', rfl⟩
    | dynamic => exact ⟨1, rfl⟩

end Sound

end LoweredMethod

section Methods

variable {b : Binding} {c : Context} {m : LoweredMethod} {r : Pool}

/-- The code of a method whose parts are sound ends in returns. -/
theorem compileMethod_ends (hr : r.WellFormed) (h : m.Sound b c) (hreturns : m.body.returns = true) :
    Emits r (compileMethod b c m) fun mc =>
      m.body ≠ .abstract → ∃ code : Block, mc.code = code.encode ∧ code.overflowed = false ∧ code.Ends r true := by
  have hfinish : ∀ (code : Block) (scope : Scope), Emits r (compileMethod.finish c code scope) fun mc =>
      code.Ends r true → ∃ code : Block, mc.code = code.encode ∧ code.overflowed = false ∧ code.Ends r true := by
    intro code scope
    unfold compileMethod.finish
    split
    · exact .throw
    · rename_i hover
      exact .pure fun hcode => ⟨code, rfl, by simpa using hover, hcode⟩
  have hparts := h.parts
  have hcontext := h.context
  unfold LoweredMethod.parts at hparts
  unfold compileMethod
  refine .bind_of (declareParams_yields c m.params _) (declareParams_emits c m.params _) fun scope hscope => ?_
  obtain ⟨rfl, -⟩ := hscope
  change Emits r (match m.body with | .abstract => _ | .method body => _ | .constructor superArgs initializers body => _) _
  split
  · rename_i hm
    exact .pure fun _ hbody => absurd hm hbody
  · rename_i body hm
    rw [hm] at hparts hreturns
    have hbody := compileStmt_ends hr (hparts _ (List.mem_singleton_self _))
    rw [Stmt.alwaysReturns, show anyReturns body = true from hreturns] at hbody
    exact .bind hbody fun a => (hfinish a.1 a.2).mono fun mc hmc ha _ _ => hmc ha
  · rename_i superArgs initializers body hm
    rw [hm] at hparts hreturns
    obtain ⟨hbody, hinits⟩ := List.forall_mem_cons.1 hparts
    have hbody := compileStmt_ends hr hbody
    rw [Stmt.alwaysReturns, show anyReturns body = true from hreturns] at hbody
    refine .bind (compileSuperCall_moves hr (hcontext (by simp [hm])) fun hb => h.superArgs hb hm) fun call => ?_
    refine .bind (compileStmts_ends hr hinits .empty) fun inits => .bind hbody fun a => ?_
    refine (hfinish _ a.2).mono fun mc hmc ha hinits hcall _ _ => hmc ?_
    have hall := (hcall.ends.append (hinits false Block.ends_empty)).append ha
    rwa [Bool.or_true] at hall

/-- The code of a method whose parts are sound keeps the discipline of the stack. -/
theorem compileMethod_orderly {mc : MethodCode} {p q : Pool} (h : m.Sound b c) (hreturns : m.body.returns = true)
    (hbody : m.body ≠ .abstract) (hmade : compileMethod b c m p = .ok mc q) (hr : r.WellFormed) (hlater : q.Later r) :
    m.Orderly b c mc r := by
  obtain ⟨code, hcode, hover, hends⟩ := (compileMethod_ends hr h hreturns p mc q hmade).2 hlater hbody
  refine ⟨⟨code, hcode, hover, hends.orderly hover⟩, fun x s hx p code s' q hcode hq hover d => ?_, fun e s he => ?_⟩
  · exact ((compileStmt_ends hr (h.executes hx) p _ q hcode).2 hq).balanced hover d
  · obtain ⟨hc, n, hn⟩ := h.evaluates he
    exact ⟨n, hn, fun keep p code q hcode hq hover d =>
      ((compileExpr_moves hr hc keep hn p code q hcode).2 hq).balanced hover d⟩

end Methods

end ClassTree
