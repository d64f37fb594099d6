import ClassTree.Proofs.Compile.Checked
import ClassTree.Proofs.Typing.Renamed

/-!
# Code with renamed variables

Code names variables by their slots. So the code of an expression is the same with other names wherever these mean the same
(`Typed.expr_rename`). `Gen.Alike R x y`: `x` and `y` come to results in the relation `R`, with the same constants, or to the same
finding. In this sense statements are alike under two names of a variable (`compileStmt_rename`), and so are the declarations of
parameters (`declareParams_rename`). Hence the code of a method is the same under two names of a parameter, and that of a
constructor also, if the field initialisers make the same code beside both (`compileMethod_rename`).
-/

namespace ClassTree

open Gen

/-! ## Alike computations -/

namespace Gen

theorem bind_of_ok {α β : Type} {x : Gen α} {f : α → Gen β} {p q : Pool} {a : α} (h : x p = .ok a q) :
    (x >>= f) p = f a q := by
  change EStateM.bind x f p = _
  rw [EStateM.bind, h]

theorem bind_of_error {α β : Type} {x : Gen α} {f : α → Gen β} {p q : Pool} {d : Diagnostic} (h : x p = .error d q) :
    (x >>= f) p = .error d q := by
  change EStateM.bind x f p = _
  rw [EStateM.bind, h]

/-- From every pool both computations come to results in the relation `R`, with the same pool, or both to the same finding. -/
def Alike {α β : Type} (R : α → β → Prop) (x : Gen α) (y : Gen β) : Prop :=
  ∀ p, (∃ a b q, x p = .ok a q ∧ y p = .ok b q ∧ R a b) ∨ ∃ d q, x p = .error d q ∧ y p = .error d q

namespace Alike

variable {α β γ δ : Type} {R : α → β → Prop} {S : γ → δ → Prop} {x : Gen α} {y : Gen β}

theorem refl (x : Gen α) : Alike (fun a b => b = a) x x := by
  intro p
  cases h : x p with
  | ok a q => exact .inl ⟨a, a, q, rfl, rfl, rfl⟩
  | error d q => exact .inr ⟨d, q, rfl, rfl⟩

theorem eq {x y : Gen α} (h : Alike (fun a b => b = a) x y) : y = x := by
  funext p
  rcases h p with ⟨a, b, q, hx, hy, rfl⟩ | ⟨d, q, hx, hy⟩
  · rw [hx, hy]
  · rw [hx, hy]

theorem pure {a : α} {b : β} (h : R a b) : Alike R (Pure.pure a) (Pure.pure b) :=
  fun p => .inl ⟨a, b, p, rfl, rfl, h⟩

theorem throw (d : Diagnostic) : Alike R (MonadExcept.throw d) (MonadExcept.throw d) :=
  fun p => .inr ⟨d, p, rfl, rfl⟩

theorem bind {f : α → Gen γ} {g : β → Gen δ} (hx : Alike R x y) (hf : ∀ a b, R a b → Alike S (f a) (g b)) :
    Alike S (x >>= f) (y >>= g) := by
  intro p
  rcases hx p with ⟨a, b, q, hxp, hyp, hab⟩ | ⟨d, q, hxp, hyp⟩
  · rw [bind_of_ok hxp, bind_of_ok hyp]
    exact hf a b hab q
  · exact .inr ⟨d, q, bind_of_error hxp, bind_of_error hyp⟩

theorem mono {R' : α → β → Prop} (h : Alike R x y) (himp : ∀ {a b}, R a b → R' a b) : Alike R' x y := by
  intro p
  rcases h p with ⟨a, b, q, hx, hy, hab⟩ | herror
  · exact .inl ⟨a, b, q, hx, hy, himp hab⟩
  · exact .inr herror

/-- The rule for what begins with the same computation. -/
theorem after {x : Gen α} {f : α → Gen γ} {g : α → Gen δ} (hf : ∀ a, Alike S (f a) (g a)) : Alike S (x >>= f) (x >>= g) :=
  .bind (.refl x) fun a _ hba => hba ▸ hf a

end Alike

end Gen

/-! ## Expressions -/

namespace Typed

variable {c : Context} {f : String → String} {s s' : Scope}

mutual

/-- The code of an expression does not depend on the names of the variables in it. -/
theorem expr_rename : ∀ {e : Expr} (keep : Bool), (∀ n ∈ e.vars, s.Agrees f s' n) →
    expr c s' keep (e.rename f) = expr c s keep e
  | .lit _, _, _ | .this, _, _ | .outer, _, _ => rfl
  | .var name, _, h => by
    rw [Expr.rename, expr, expr]
    rcases Context.lookupVar_rename (c := c) (h name List.mem_cons_self) with ⟨v, v', hold, hnew, hty, hslot⟩ | hsame
    · simp only [hold, hnew, Gen.ofExcept, pure_bind, hty, hslot]
    · rw [hsame]
  | .field target name, _, h => by
    rw [Expr.vars] at h
    rw [Expr.rename, expr, expr, expr_rename true h]
  | .assign (.var name) value, _, h => by
    rw [Expr.vars, List.forall_mem_append] at h
    rw [Expr.rename, Expr.rename, expr, expr, expr_rename true h.2]
    rcases Context.lookupVar_rename (c := c) (h.1 name List.mem_cons_self) with ⟨v, v', hold, hnew, hty, hslot⟩ | hsame
    · simp only [hold, hnew, Gen.ofExcept, pure_bind, hty, hslot]
    · rw [hsame]
  | .assign (.field object name) value, _, h => by
    rw [Expr.vars, List.forall_mem_append] at h
    have htarget := Context.typeOf_rename (c := c) h.1
    rw [Expr.vars] at h
    rw [Expr.rename] at htarget
    rw [Expr.rename, Expr.rename, expr, expr, htarget, expr_rename true h.1, expr_rename true h.2]
  | .assign (.lit _) _, _, h | .assign .this _, _, h | .assign .outer _, _, h | .assign (.assign ..) _, _, h
  | .assign (.call ..) _, _, h | .assign (.staticCall ..) _, _, h | .assign (.new ..) _, _, h
  | .assign (.binary ..) _, _, h | .assign (.unary ..) _, _, h =>
    congrArg (fun t => Gen.ofExcept t >>= fun _ => throw c.invalidTarget)
      (Context.typeOf_rename (List.forall_mem_append.1 h).1)
  | .call receiver method args, _, h => by
    rw [Expr.vars, List.forall_mem_append] at h
    rw [Expr.rename, expr, expr, Context.typeOf_rename h.1, Context.typesOf_rename h.2, expr_rename true h.1]
    simp only [exprs_rename h.2]
  | .staticCall cls method args, _, h => by
    rw [Expr.vars] at h
    rw [Expr.rename, expr, expr, Context.typesOf_rename h]
    simp only [exprs_rename h]
  | .new cls args, _, h => by
    rw [Expr.vars] at h
    rw [Expr.rename, expr, expr, Context.typesOf_rename h]
    simp only [exprs_rename h]
  | .binary op left right, _, h => by
    rw [Expr.vars, List.forall_mem_append] at h
    rw [Expr.rename, expr, expr, Context.typeOf_rename h.1, Context.typeOf_rename h.2, expr_rename true h.1,
      expr_rename true h.2]
  | .unary op operand, _, h => by
    rw [Expr.vars] at h
    rw [Expr.rename, expr, expr, expr_rename true h]

theorem exprs_rename : ∀ {es : List Expr}, (∀ n ∈ Expr.varsAll es, s.Agrees f s' n) → ∀ (ts : List Ty) (done : Block),
    exprs c s' (Expr.renameAll f es) ts done = exprs c s es ts done
  | [], _, _, _ => rfl
  | e :: rest, h, [], done => rfl
  | e :: rest, h, t :: ts, done => by
    rw [Expr.varsAll, List.forall_mem_append] at h
    rw [Expr.renameAll, exprs, exprs, expr_rename true h.1]
    simp only [exprs_rename h.2]

end

theorem discarded_rename {e : Expr} (h : ∀ n ∈ e.vars, s.Agrees f s' n) : discarded c s' (e.rename f) = discarded c s e := by
  rw [discarded, discarded, expr_rename false h]

theorem superCall_rename {args : List Expr} (h : ∀ n ∈ Expr.varsAll args, s.Agrees f s' n) (superclass : Name) :
    superCall c s' superclass (Expr.renameAll f args) = superCall c s superclass args := by
  rw [superCall, superCall, Context.typesOf_rename h]
  simp only [exprs_rename h]

end Typed

/-! ## Statements -/

mutual

/-- The bare names in the expressions of a statement. -/
def Stmt.vars : Stmt → List String
  | .block stmts => varsAll stmts
  | .decl _ _ none | .ret none => []
  | .decl _ _ (some e) | .expr e | .ret (some e) => e.vars
  | .cond test t none => test.vars ++ t.vars
  | .cond test t (some e) => test.vars ++ (t.vars ++ e.vars)
  | .loop test body => test.vars ++ body.vars
  | .superCall args => Expr.varsAll args

def Stmt.varsAll : List Stmt → List String
  | [] => []
  | x :: rest => x.vars ++ varsAll rest

end

section Bodies

variable {c : Context} {x y : String} {s s' : Scope}

/-- The same code, and scopes at a depth that differ in one name. -/
structure Recoded (x y : String) (depth : Nat) (r r' : Block × Scope) : Prop where
  code : r'.1 = r.1
  depth : r.2.depth = depth
  scope : r.2.Renames x y r'.2

theorem Recoded.pop {r r' : Block × Scope} (h : Recoded x y s.enter.depth r r') :
    r.2.pop.depth = s.depth ∧ r.2.pop.Renames x y r'.2.pop := by
  have hdepth : r.2.depth = s.depth + 1 := h.depth
  refine ⟨?_, h.scope.pop (by omega)⟩
  change r.2.depth - 1 = s.depth
  omega

theorem compileValue_rename (h : s.Renames x y s') {e : Expr} (hvars : y ∉ e.vars) (ty : Ty) :
    compileValue .static c s' (e.rename (newName x y)) ty = compileValue .static c s e ty := by
  rw [compileValue, compileValue, Typed.expr_rename true fun _ hn => h.agrees (ne_of_mem_of_not_mem hn hvars)]

theorem compileDiscarded_rename (h : s.Renames x y s') {e : Expr} (hvars : y ∉ e.vars) :
    compileDiscarded .static c s' (e.rename (newName x y)) = compileDiscarded .static c s e :=
  Typed.discarded_rename fun _ hn => h.agrees (ne_of_mem_of_not_mem hn hvars)

theorem declareVar_eq (c : Context) (s : Scope) (n : String) (ty : Ty) :
    declareVar c s n ty = match (s.declare n ty).1 with
      | .ok slot => pure (slot, (s.declare n ty).2)
      | .error e => throw (c.declareError n e) := by
  unfold declareVar
  split <;> simp only [*]

theorem declareVar_rename (h : s.Renames x y s') {n : String} (hx : n ≠ x) (hy : n ≠ y) (ty : Ty) :
    Alike (fun r r' => r'.1 = r.1 ∧ r.2.depth = s.depth ∧ r.2.Renames x y r'.2) (declareVar c s n ty) (declareVar c s' n ty) := by
  obtain ⟨hfst, hrenames⟩ := h.declare hx hy ty
  rw [declareVar_eq, declareVar_eq, hfst]
  cases hslot : (s.declare n ty).1 with
  | ok slot => exact .pure ⟨rfl, s.depth_declare n ty, hrenames⟩
  | error e => exact .throw _

mutual

/-- A statement has the same code under two names of a variable, if it declares neither and does not use the second. -/
theorem compileStmt_rename : ∀ {z : Stmt} {s s' : Scope}, s.Renames x y s' → y ∉ z.vars → x ∉ z.declared → y ∉ z.declared →
    Alike (Recoded x y s.depth) (compileStmt .static c z s)
      (compileStmt .static c (z.mapExpr (Expr.rename (newName x y))) s')
  | .block stmts, s, s', h, hvars, hx, hy => by
    rw [Stmt.vars] at hvars
    rw [Stmt.declared] at hx hy
    rw [Stmt.mapExpr_block, compileStmt, compileStmt]
    refine .bind (compileStmts_rename h.enter hvars hx hy .empty) fun r r' hr => ?_
    exact .pure ⟨hr.code, hr.pop.1, hr.pop.2⟩
  | .decl name ty none, s, s', h, _, hx, hy => by
    rw [Stmt.declared, List.mem_singleton] at hx hy
    rw [Stmt.mapExpr, Option.map_none, compileStmt, compileStmt]
    refine .after fun code => .bind (declareVar_rename h (Ne.symm hx) (Ne.symm hy) ty) fun r r' hr => ?_
    exact .pure ⟨by rw [hr.1], hr.2.1, hr.2.2⟩
  | .decl name ty (some e), s, s', h, hvars, hx, hy => by
    rw [Stmt.vars] at hvars
    rw [Stmt.declared, List.mem_singleton] at hx hy
    rw [Stmt.mapExpr, Option.map_some, compileStmt, compileStmt]
    dsimp only
    rw [compileValue_rename h hvars]
    refine .after fun code => .bind (declareVar_rename h (Ne.symm hx) (Ne.symm hy) ty) fun r r' hr => ?_
    exact .pure ⟨by rw [hr.1], hr.2.1, hr.2.2⟩
  | .expr e, s, s', h, hvars, _, _ => by
    rw [Stmt.vars] at hvars
    rw [Stmt.mapExpr, compileStmt, compileStmt, compileDiscarded_rename h hvars]
    exact .after fun code => .pure ⟨rfl, rfl, h⟩
  | .ret none, s, s', h, _, _, _ => by
    rw [Stmt.mapExpr, Option.map_none, compileStmt, compileStmt]
    exact .pure ⟨rfl, rfl, h⟩
  | .ret (some e), s, s', h, hvars, _, _ => by
    rw [Stmt.vars] at hvars
    rw [Stmt.mapExpr, Option.map_some, compileStmt, compileStmt, compileDiscarded_rename h hvars, compileValue_rename h hvars]
    split
    · exact .after fun code => .pure ⟨rfl, rfl, h⟩
    · exact .after fun code => .pure ⟨rfl, rfl, h⟩
  | .cond test t none, s, s', h, hvars, hx, hy => by
    rw [Stmt.vars, List.mem_append, not_or] at hvars
    rw [Stmt.declared] at hx hy
    rw [Stmt.mapExpr, compileStmt, compileStmt, compileValue_rename h hvars.1]
    refine .after fun test => .bind (compileStmt_rename h.enter hvars.2 hx hy) fun r r' hr => ?_
    exact .pure ⟨by rw [hr.code], hr.pop.1, hr.pop.2⟩
  | .cond test t (some e), s, s', h, hvars, hx, hy => by
    rw [Stmt.vars, List.mem_append, not_or, List.mem_append, not_or] at hvars
    rw [Stmt.declared, List.mem_append, not_or] at hx hy
    rw [Stmt.mapExpr, compileStmt, compileStmt, compileValue_rename h hvars.1]
    refine .after fun test => .bind (compileStmt_rename h.enter hvars.2.1 hx.1 hy.1) fun r r' hr => ?_
    refine .bind (compileStmt_rename hr.pop.2.enter hvars.2.2 hx.2 hy.2) fun q q' hq => ?_
    have hpop := Recoded.pop hq
    exact .pure ⟨by rw [hr.code, hq.code], hpop.1.trans hr.pop.1, hpop.2⟩
  | .loop test body, s, s', h, hvars, hx, hy => by
    rw [Stmt.vars, List.mem_append, not_or] at hvars
    rw [Stmt.declared] at hx hy
    rw [Stmt.mapExpr, compileStmt, compileStmt, compileValue_rename h hvars.1]
    refine .after fun test => .bind (compileStmt_rename h.enter hvars.2 hx hy) fun r r' hr => ?_
    exact .pure ⟨by rw [hr.code], hr.pop.1, hr.pop.2⟩
  | .superCall args, s, s', h, _, _, _ => by
    rw [Stmt.mapExpr, compileStmt, compileStmt]
    exact .throw _

theorem compileStmts_rename : ∀ {zs : List Stmt} {s s' : Scope}, s.Renames x y s' → y ∉ Stmt.varsAll zs →
    x ∉ declaredAll zs → y ∉ declaredAll zs → ∀ done : Block,
    Alike (Recoded x y s.depth) (compileStmts .static c zs s done)
      (compileStmts .static c (zs.map (Stmt.mapExpr (Expr.rename (newName x y)))) s' done)
  | [], s, s', h, _, _, _, done => .pure ⟨rfl, rfl, h⟩
  | z :: rest, s, s', h, hvars, hx, hy, done => by
    rw [Stmt.varsAll, List.mem_append, not_or] at hvars
    rw [declaredAll, List.mem_append, not_or] at hx hy
    rw [List.map_cons, compileStmts, compileStmts]
    refine .bind (compileStmt_rename h hvars.1 hx.1 hy.1) fun r r' hr => ?_
    dsimp only
    rw [hr.code, ← hr.depth]
    exact compileStmts_rename hr.scope hvars.2 hx.2 hy.2 _

end

/-! ## Methods -/

/-- Changes the name of a parameter. -/
def Param.rename (f : String → String) (p : Param) : Param := { p with name := f p.name }

theorem Param.rename_of_ne {p : Param} (h : p.name ≠ x) : p.rename (newName x y) = p := by
  rw [Param.rename, newName, if_neg h]

theorem Param.map_rename_of_not_mem {params : List Param} (h : x ∉ params.map Param.name) :
    params.map (Param.rename (newName x y)) = params := by
  refine (List.map_congr_left fun p hp => ?_).trans (List.map_id params)
  exact Param.rename_of_ne (ne_of_mem_of_not_mem (List.mem_map_of_mem hp) h)

/-- The parameters behind the one that is renamed. -/
theorem declareParams_others {params : List Param} (h : s.Renames x y s') (hx : x ∉ params.map Param.name)
    (hy : y ∉ params.map Param.name) :
    Alike (fun t t' => t.depth = s.depth ∧ t.Renames x y t') (declareParams c params s) (declareParams c params s') := by
  induction params generalizing s s' with
  | nil => exact .pure ⟨rfl, h⟩
  | cons p params ih =>
    rw [List.map_cons, List.mem_cons, not_or] at hx hy
    rw [declareParams, declareParams]
    refine .bind (declareVar_rename h (Ne.symm hx.1) (Ne.symm hy.1) p.ty) fun r r' hr => ?_
    dsimp only
    rw [← hr.2.1]
    exact ih hr.2.2 hx.2 hy.2

/-- Neither of two names is visible, and no block is open. -/
structure Scope.Lacks (s : Scope) (x y : String) : Prop where
  depth : s.depth = 0
  left : s.lookup? x = none
  right : s.lookup? y = none

theorem declareVar_lacks (h : s.Lacks x y) {n : String} (hx : n ≠ x) (hy : n ≠ y) (ty : Ty) :
    Alike (fun r r' => r' = r ∧ r.2.Lacks x y) (declareVar c s n ty) (declareVar c s n ty) := by
  rw [declareVar_eq]
  cases hslot : (s.declare n ty).1 with
  | ok slot =>
    have hd := Scope.declare_of_fst hslot
    refine .pure ⟨rfl, (s.depth_declare n ty).trans h.depth, ?_, ?_⟩
    · rw [Scope.lookup?_declare hd, if_neg hx, h.left]
    · rw [Scope.lookup?_declare hd, if_neg hy, h.right]
  | error e => exact .throw _

/-- The parameter itself; a limit that prevents its declaration is found under both names. -/
theorem declareVar_newName (h : s.Lacks x y) (ty : Ty) :
    Alike (fun r r' => r.2.depth = 0 ∧ r.2.Renames x y r'.2) (declareVar c s x ty) (declareVar c s y ty) := by
  obtain ⟨hfst, hrenames⟩ := Scope.renames_declare h.left h.right h.depth ty
  rw [declareVar_eq, declareVar_eq, hfst]
  cases hslot : (s.declare x ty).1 with
  | ok slot => exact .pure ⟨(s.depth_declare x ty).trans h.depth, hrenames slot hslot⟩
  | error e =>
    rw [Scope.declare_fst, h.left] at hslot
    simp only [Option.isSome_none, Bool.false_eq_true, if_false] at hslot
    split at hslot
    · cases hslot
    · cases hslot
      exact .throw _

/-- Parameters are declared alike under two names of the one that has the name `x`. -/
theorem declareParams_rename {params : List Param} (h : s.Lacks x y) (hx : (params.map Param.name).count x = 1)
    (hy : y ∉ params.map Param.name) :
    Alike (fun t t' => t.depth = 0 ∧ t.Renames x y t') (declareParams c params s)
      (declareParams c (params.map (Param.rename (newName x y))) s) := by
  induction params generalizing s with
  | nil => cases hx
  | cons p params ih =>
    rw [List.map_cons, List.mem_cons, not_or] at hy
    rw [List.map_cons, declareParams, declareParams]
    by_cases hp : p.name = x
    · -- This is the parameter; those behind it have other names.
      have hrest : x ∉ params.map Param.name := by
        rw [List.map_cons, hp, List.count_cons_self] at hx
        exact List.count_eq_zero.1 (Nat.succ.inj hx)
      have hname : (p.rename (newName x y)).name = y := if_pos hp
      rw [hp, hname, Param.map_rename_of_not_mem hrest]
      refine .bind (declareVar_newName h p.ty) fun r r' hr => ?_
      dsimp only
      rw [← hr.1]
      exact declareParams_others hr.2 hrest hy.2
    · rw [List.map_cons, List.count_cons_of_ne hp] at hx
      rw [Param.rename_of_ne hp]
      refine .bind (declareVar_lacks h hp (Ne.symm hy.1) p.ty) fun r r' hr => ?_
      rw [hr.1]
      exact ih hr.2 hx hy.2

end Bodies

/-- Changes the bare names in a body; field initialisers are no part of a constructor's own code. -/
def LoweredBody.rename (f : String → String) : LoweredBody → LoweredBody
  | .abstract => .abstract
  | .method stmts => .method (stmts.map (Stmt.mapExpr (Expr.rename f)))
  | .constructor superArgs initializers body =>
    .constructor (Expr.renameAll f superArgs) initializers (body.map (Stmt.mapExpr (Expr.rename f)))

/-- The bare names in a body. -/
def LoweredBody.vars : LoweredBody → List String
  | .abstract => []
  | .method stmts => Stmt.varsAll stmts
  | .constructor superArgs _ body => Expr.varsAll superArgs ++ Stmt.varsAll body

/-- The names of the variables that are declared in a body. -/
def LoweredBody.declared : LoweredBody → List String
  | .abstract => []
  | .method stmts | .constructor _ _ stmts => declaredAll stmts

def LoweredMethod.rename (f : String → String) (m : LoweredMethod) : LoweredMethod :=
  { m with params := m.params.map (Param.rename f), body := m.body.rename f }

/-- A method has the same code under two names of a parameter, if its body declares neither and does not use the second, and if
the field initialisers of a constructor have the same code beside both. -/
theorem compileMethod_rename {c : Context} {m : LoweredMethod} {x y : String} (hx : (m.params.map Param.name).count x = 1)
    (hy : y ∉ m.params.map Param.name) (hvars : y ∉ m.body.vars) (hxbody : x ∉ m.body.declared) (hybody : y ∉ m.body.declared)
    (hinits : ∀ superArgs initializers body, m.body = .constructor superArgs initializers body →
      Alike (fun r r' => r'.1 = r.1) (compileStmts .static c initializers (initializerScope m.params) .empty)
        (compileStmts .static c initializers (initializerScope (m.params.map (Param.rename (newName x y)))) .empty)) :
    compileMethod .static c (m.rename (newName x y)) = compileMethod .static c m := by
  have hfirst : (if c.isStatic then Scope.ofStatic else .ofInstance).Lacks x y := by
    split
    · exact ⟨rfl, by simp [Scope.lookup?, Scope.ofStatic], by simp [Scope.lookup?, Scope.ofStatic]⟩
    · exact ⟨rfl, by simp [Scope.lookup?, Scope.ofInstance], by simp [Scope.lookup?, Scope.ofInstance]⟩
  have hblock : ∀ {body : List Stmt} {s s' : Scope}, s.Renames x y s' → y ∉ Stmt.varsAll body → x ∉ declaredAll body →
      y ∉ declaredAll body → Alike (Recoded x y s.depth) (compileStmt .static c (.block body) s)
        (compileStmt .static c (.block (body.map (Stmt.mapExpr (Expr.rename (newName x y))))) s') := by
    intro body s s' h hvars hx hy
    rw [← Stmt.mapExpr_block]
    exact compileStmt_rename h hvars hx hy
  -- All that the finished code takes from the scope is how many slots it hands out.
  have hmax : ∀ {s s' : Scope}, s.Renames x y s' → s'.maxLocals = s.maxLocals := by
    intro s s' h
    rw [Scope.maxLocals, Scope.maxLocals, h.nextSlot]
  have hfinish : ∀ {s s' : Scope} (code : Block), s.Renames x y s' →
      compileMethod.finish c code s' = compileMethod.finish c code s := by
    intro s s' code h
    rw [compileMethod.finish, compileMethod.finish, hmax h]
  apply Alike.eq
  unfold compileMethod
  refine .bind (declareParams_rename hfirst hx hy) fun s s' hs => ?_
  rw [LoweredMethod.rename]
  cases hbody : m.body with
  | abstract => exact .pure (by rw [hmax hs.2])
  | method stmts =>
    rw [hbody] at hvars hxbody hybody
    refine .bind (hblock hs.2 hvars hxbody hybody) fun r r' hr => ?_
    dsimp only
    rw [hr.code, hfinish _ hr.scope]
    exact .refl _
  | constructor superArgs initializers body =>
    rw [hbody] at hvars hxbody hybody
    rw [LoweredBody.vars, List.mem_append, not_or] at hvars
    have hargs : ∀ n ∈ Expr.varsAll superArgs, s.Agrees (newName x y) s' n :=
      fun n hn => hs.2.agrees (ne_of_mem_of_not_mem hn hvars.1)
    have hcall : compileSuperCall .static c s' (Expr.renameAll (newName x y) superArgs) =
        compileSuperCall .static c s superArgs := by
      unfold compileSuperCall
      split
      · rfl
      · exact Typed.superCall_rename hargs _
    dsimp only [LoweredBody.rename]
    rw [hcall]
    refine .after fun call => .bind (hinits _ _ _ hbody) fun inits inits' hcode => ?_
    refine .bind (hblock hs.2 hvars.2 hxbody hybody) fun r r' hr => ?_
    rw [hcode, hr.code, hfinish _ hr.scope]
    exact .refl _

end ClassTree
