import ClassTree.Proofs.Compile.Assembled
import ClassTree.Proofs.Compile.Folded

/-!
# Class files of folded classes

Lowering with folding is folding after lowering (`ClassDef.lower_true`). Wherever a statement has code, its folded form has code
that leaves the same variables visible, unless a limit is met (`compileStmt_folds`), and so has a method (`compileMethod_folds`).
Hence a class that has a class file when it is not folded has one when it is folded, or else all that
prevents it is limits (`LoweredClass.generate_folds`).
-/

namespace ClassTree

open Gen

/-! ## Folding after lowering -/

def LoweredBody.fold : LoweredBody → LoweredBody
  | .abstract => .abstract
  | .method stmts => .method (stmts.map (Stmt.mapExpr Expr.fold))
  | .constructor superArgs initializers body =>
    .constructor (Expr.foldAll superArgs) (initializers.map (Stmt.mapExpr Expr.fold)) (body.map (Stmt.mapExpr Expr.fold))

def LoweredMethod.fold (m : LoweredMethod) : LoweredMethod := { m with body := m.body.fold }

def LoweredClass.fold (l : LoweredClass) : LoweredClass := { l with methods := l.methods.map LoweredMethod.fold }

theorem Expr.optimized_true : Expr.optimized true = Expr.fold := rfl

theorem Expr.optimized_false : Expr.optimized false = id := rfl

mutual

theorem Stmt.mapExpr_id : ∀ x : Stmt, x.mapExpr id = x
  | .block stmts => by rw [Stmt.mapExpr_block, map_mapExpr_id]
  | .decl name ty init => by rw [Stmt.mapExpr, Option.map_id_fun, id]
  | .expr e => by rw [Stmt.mapExpr, id]
  | .ret value => by rw [Stmt.mapExpr, Option.map_id_fun, id]
  | .cond test t none => by rw [Stmt.mapExpr, Stmt.mapExpr_id, id]
  | .cond test t (some e) => by rw [Stmt.mapExpr, Stmt.mapExpr_id t, Stmt.mapExpr_id e, id]
  | .loop test body => by rw [Stmt.mapExpr, Stmt.mapExpr_id, id]
  | .superCall args => by rw [Stmt.mapExpr, List.map_id]

theorem map_mapExpr_id : ∀ xs : List Stmt, xs.map (Stmt.mapExpr id) = xs
  | [] => rfl
  | x :: rest => by rw [List.map_cons, Stmt.mapExpr_id, map_mapExpr_id]

end

theorem lowerBody_true (body : List Stmt) : lowerBody true body = (lowerBody false body).map (Stmt.mapExpr Expr.fold) := by
  rw [lowerBody_eq, lowerBody_eq, Expr.optimized_true, Expr.optimized_false, map_mapExpr_id, List.map_append]
  split
  · rfl
  · simp [Stmt.mapExpr]

namespace ClassDef

theorem initializers_true (d : ClassDef) :
    d.initializers true = (d.initializers false).map (Stmt.mapExpr Expr.fold) := by
  have hstore : ∀ (name : String) (value : Expr),
      (storeField name value).mapExpr Expr.fold = storeField name value.fold := by
    intro name value
    simp only [storeField, Stmt.mapExpr, Expr.fold]
  simp only [initializers, List.map_append, List.map_filterMap, Option.map_map]
  congr 1
  split
  · rw [List.map_singleton, hstore, Expr.fold]
  · rfl

theorem lowerConstructor_true (d : ClassDef) (k : ConstructorDef) :
    d.lowerConstructor true k = (d.lowerConstructor false k).fold := by
  simp only [lowerConstructor, LoweredMethod.fold, LoweredBody.fold, initializers_true, lowerBody_true,
    Expr.foldAll_eq_map, Expr.optimized_true, Expr.optimized_false, List.map_id]

theorem lowerMethod_true (m : MethodDef) : lowerMethod true m = (lowerMethod false m).fold := by
  unfold lowerMethod
  cases m.body with
  | none => rfl
  | some body => simp only [LoweredMethod.fold, LoweredBody.fold, lowerBody_true]

/-- Lowering with folding is folding after lowering. -/
theorem lower_true (d : ClassDef) : d.lower true = (d.lower false).fold := by
  have hconstructors : d.lowerConstructor true = LoweredMethod.fold ∘ d.lowerConstructor false :=
    funext d.lowerConstructor_true
  have hmethods : lowerMethod true = LoweredMethod.fold ∘ lowerMethod false := funext lowerMethod_true
  simp only [lower, LoweredClass.fold, List.map_append, List.map_map, hconstructors, hmethods]

end ClassDef

/-! ## Statements -/

section Bodies

variable {b : Binding} {c : Context}

theorem compileValue_folds (scope : Scope) (e : Expr) (ty : Ty) :
    Tracks (compileValue b c scope e ty) (compileValue b c scope e.fold ty) fun _ _ => True := by
  cases b with
  | static => exact .bind (Typed.expr_folds true e) fun _ _ _ => .pure trivial
  | dynamic => exact ByName.expr_folds true e

theorem compileDiscarded_folds (scope : Scope) (e : Expr) :
    Tracks (compileDiscarded b c scope e) (compileDiscarded b c scope e.fold) fun _ _ => True := by
  cases b with
  | static => exact .bind (Typed.expr_folds false e) fun _ _ _ => .pure trivial
  | dynamic => exact .bind (ByName.expr_folds false e) fun _ _ _ => .pure trivial

/-- What declaring a variable comes to does not depend on the pool. -/
theorem declareVar_tracks (scope : Scope) (name : String) (ty : Ty) :
    Tracks (declareVar c scope name ty) (declareVar c scope name ty) fun r r' => r'.2 = r.2 := by
  unfold declareVar
  split
  · exact .pure rfl
  · exact .throw

theorem declareParams_tracks (params : List Param) (scope : Scope) :
    Tracks (declareParams c params scope) (declareParams c params scope) fun s s' => s' = s := by
  induction params generalizing scope with
  | nil => exact .pure rfl
  | cons p params ih =>
    rw [declareParams]
    apply Tracks.bind (declareVar_tracks scope p.name p.ty)
    rintro ⟨_, _⟩ ⟨_, _⟩ rfl
    exact ih _

mutual

/-- The code of a folded statement leaves the same variables visible. -/
theorem compileStmt_folds : ∀ (x : Stmt) (scope : Scope),
    Tracks (compileStmt b c x scope) (compileStmt b c (x.mapExpr Expr.fold) scope) fun r r' => r'.2 = r.2
  | .block stmts, scope => by
    rw [Stmt.mapExpr_block, compileStmt, compileStmt]
    apply Tracks.bind (compileStmts_folds stmts _ _ _)
    rintro ⟨_, _⟩ ⟨_, _⟩ rfl
    exact .pure rfl
  | .decl name ty none, scope => by
    rw [Stmt.mapExpr, Option.map_none, compileStmt]
    refine .bind (.of_settles (pushDefault_settles ty)) fun _ _ _ => ?_
    exact .bind (declareVar_tracks scope name ty) fun _ _ h => .pure h
  | .decl name ty (some e), scope => by
    rw [Stmt.mapExpr, Option.map_some, compileStmt, compileStmt]
    refine .bind (compileValue_folds scope e ty) fun _ _ _ => ?_
    exact .bind (declareVar_tracks scope name ty) fun _ _ h => .pure h
  | .expr e, scope => by
    rw [Stmt.mapExpr, compileStmt, compileStmt]
    exact .bind (compileDiscarded_folds scope e) fun _ _ _ => .pure rfl
  | .ret none, scope => by
    rw [Stmt.mapExpr, Option.map_none, compileStmt]
    exact .pure rfl
  | .ret (some e), scope => by
    rw [Stmt.mapExpr, Option.map_some, compileStmt, compileStmt]
    split
    · exact .bind (compileDiscarded_folds scope e) fun _ _ _ => .pure rfl
    · exact .bind (compileValue_folds scope e c.ret) fun _ _ _ => .pure rfl
  | .cond test t none, scope => by
    rw [Stmt.mapExpr, compileStmt, compileStmt]
    refine .bind (compileValue_folds scope test .boolean) fun _ _ _ => .bind (compileStmt_folds t _) ?_
    rintro ⟨_, _⟩ ⟨_, _⟩ rfl
    exact .pure rfl
  | .cond test t (some e), scope => by
    rw [Stmt.mapExpr, compileStmt, compileStmt]
    refine .bind (compileValue_folds scope test .boolean) fun _ _ _ => .bind (compileStmt_folds t _) ?_
    rintro ⟨_, _⟩ ⟨_, _⟩ rfl
    apply Tracks.bind (compileStmt_folds e _)
    rintro ⟨_, _⟩ ⟨_, _⟩ rfl
    exact .pure rfl
  | .loop test body, scope => by
    rw [Stmt.mapExpr, compileStmt, compileStmt]
    refine .bind (compileValue_folds scope test .boolean) fun _ _ _ => .bind (compileStmt_folds body _) ?_
    rintro ⟨_, _⟩ ⟨_, _⟩ rfl
    exact .pure rfl
  | .superCall _, _ => .throw

theorem compileStmts_folds : ∀ (xs : List Stmt) (scope : Scope) (done done' : Block),
    Tracks (compileStmts b c xs scope done) (compileStmts b c (xs.map (Stmt.mapExpr Expr.fold)) scope done')
      fun r r' => r'.2 = r.2
  | [], _, _, _ => .pure rfl
  | x :: rest, scope, _, _ => by
    rw [List.map_cons, compileStmts, compileStmts]
    apply Tracks.bind (compileStmt_folds x scope)
    rintro ⟨_, _⟩ ⟨_, _⟩ rfl
    exact compileStmts_folds rest _ _ _

end

/-! ## Methods -/

theorem compileSuperCall_folds (scope : Scope) (args : List Expr) :
    Tracks (compileSuperCall b c scope args) (compileSuperCall b c scope (Expr.foldAll args)) fun _ _ => True := by
  unfold compileSuperCall
  split
  · exact .throw
  · cases b with
    | static => exact Typed.superCall_folds _ args
    | dynamic => exact ByName.superCall_folds _ args

/-- Wherever a method has code, so has the folded method, unless a limit is met. -/
theorem compileMethod_folds (m : LoweredMethod) : Tracks (compileMethod b c m) (compileMethod b c m.fold) fun _ _ => True := by
  have hblock : ∀ (body : List Stmt) (scope : Scope), Tracks (compileStmt b c (.block body) scope)
      (compileStmt b c (.block (body.map (Stmt.mapExpr Expr.fold))) scope) fun r r' => r'.2 = r.2 := by
    intro body scope
    rw [← Stmt.mapExpr_block]
    exact compileStmt_folds (.block body) scope
  unfold compileMethod
  apply Tracks.bind (declareParams_tracks _ _)
  rintro _ scope rfl
  rw [LoweredMethod.fold]
  cases m.body with
  | abstract => exact .pure trivial
  | method body => exact .bind (hblock body scope) fun _ _ _ => .of_settles (compileMethod_finish_settles _ _ _)
  | constructor superArgs initializers body =>
    exact .bind (compileSuperCall_folds scope superArgs) fun _ _ _ =>
      .bind (compileStmts_folds initializers _ _ _) fun _ _ _ =>
        .bind (hblock body scope) fun _ _ _ => .of_settles (compileMethod_finish_settles _ _ _)

end Bodies

/-! ## Class files -/

/-- A class with a class file has one also after folding, or else all that prevents it is limits. -/
theorem LoweredClass.generate_folds {b : Binding} {r : Registry} {l : LoweredClass} {bytes : Bytes}
    (h : l.generate b r = .ok bytes) :
    (∃ bytes', l.fold.generate b r = .ok bytes') ∨
      ∃ ds, l.fold.generate b r = .error ds ∧ ∀ d ∈ ds, d.IsLimit := by
  obtain ⟨entry, f, hentry, hassemble, -⟩ := generate_eq_ok h
  have hmethods := (assemble_made hassemble).methods
  have hsettles : ∀ m ∈ l.fold.methods, Settles Diagnostic.IsLimit (compileMethod b (context r entry m) m) fun _ => True := by
    intro m hm
    obtain ⟨m₀, hm₀, rfl⟩ := List.mem_map.1 hm
    obtain ⟨info, -, hmade⟩ := exists_right hmethods hm₀
    obtain ⟨p, q, hcode, -⟩ := hmade.code
    exact (compileMethod_folds m₀).settles ⟨p, q, hcode⟩
  rcases generate_settles (E := fun _ => Diagnostic.IsLimit) (l := l.fold) hentry hsettles with hok | ⟨ds, herror, hds⟩
  · exact .inl hok
  · exact .inr ⟨ds, herror, fun d hd => (hds d hd).elim id fun ⟨_, _, hlimit⟩ => hlimit⟩

end ClassTree
