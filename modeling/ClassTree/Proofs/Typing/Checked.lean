import ClassTree.Proofs.Scope
import ClassTree.Proofs.Typing.Fold

/-!
# What the check of bodies establishes

`Stmt.WellTyped c x s`: the statement `x` is well typed where the variables of `s` are visible. The check finds nothing
exactly in bodies that are well typed (`Check.clean_stmt`, `ClassDef.checkMethod_eq_nil`, `ClassDef.checkConstructor_eq_nil`),
and folding keeps them so (`allWellTyped_optimized`).
-/

namespace ClassTree

/-! ## Well-typed statements -/

/-- An expression can stand where a type is expected. -/
def Context.Accepts (c : Context) (s : Scope) (e : Expr) (ty : Ty) : Prop :=
  ∃ t, c.typeOf s e = .ok t ∧ c.registry.isAssignable t ty = true

mutual

/-- The statement is well typed where the variables of a scope are visible. -/
def Stmt.WellTyped (c : Context) : Stmt → Scope → Prop
  | .block stmts, s => allWellTyped c stmts s.enter
  | .decl name ty none, s => ∃ slot, s.Declares name ty slot
  | .decl name ty (some e), s => c.Accepts s e ty ∧ ∃ slot, s.Declares name ty slot
  | .expr e, s => ∃ t, c.typeOf s e = .ok t
  | .ret none, _ => c.ret.isVoid = true
  | .ret (some e), s => c.ret.isVoid = false ∧ c.Accepts s e c.ret
  | .cond test t none, s => c.typeOf s test = .ok .boolean ∧ t.WellTyped c s.enter
  | .cond test t (some e), s =>
    c.typeOf s test = .ok .boolean ∧ t.WellTyped c s.enter ∧ e.WellTyped c (t.after s.enter).pop.enter
  | .loop test body, s => c.typeOf s test = .ok .boolean ∧ body.WellTyped c s.enter
  | .superCall _, _ => True

def allWellTyped (c : Context) : List Stmt → Scope → Prop
  | [], _ => True
  | x :: rest, s => x.WellTyped c s ∧ allWellTyped c rest (x.after s)

end

/-! ## The check -/

namespace Check

variable {c : Context} {k : Check}

/-- Nothing has been found. -/
def Clean (k : Check) : Prop := k.found = #[]

theorem not_clean_report {d : Diagnostic} : ¬ (k.report d).Clean := by
  simp [Clean, report]

@[simp] theorem scope_note {α : Type} (x : Except Diagnostic α) : (k.note x).scope = k.scope := by
  cases x <;> rfl

theorem clean_note {α : Type} {x : Except Diagnostic α} : (k.note x).Clean ↔ k.Clean ∧ ∃ a, x = .ok a := by
  cases x with
  | ok a => simp [note]
  | error d => simp [note, not_clean_report]

@[simp] theorem scope_value (e : Expr) (ty : Ty) : (value c e ty k).scope = k.scope := scope_note _

theorem expectAssignable_eq_ok {source target : Ty} {u : Unit} :
    c.expectAssignable source target = .ok u ↔ c.registry.isAssignable source target = true := by
  unfold Context.expectAssignable
  split <;> simp [*]

theorem clean_value {e : Expr} {ty : Ty} : (value c e ty k).Clean ↔ k.Clean ∧ c.Accepts k.scope e ty := by
  simp only [value, clean_note, bind_eq_ok, expectAssignable_eq_ok, exists_const, Context.Accepts]

@[simp] theorem scope_condition (e : Expr) : (condition c e k).scope = k.scope := by
  unfold condition
  split <;> rfl

theorem clean_condition {e : Expr} : (condition c e k).Clean ↔ k.Clean ∧ c.typeOf k.scope e = .ok .boolean := by
  unfold condition
  split
  · rename_i h
    simp [h]
  · rename_i t hne h
    simp only [not_clean_report, h, Except.ok.injEq, false_iff, not_and]
    exact fun _ => hne
  · rename_i h
    simp [not_clean_report, h]

@[simp] theorem scope_declare (x : String) (ty : Ty) : (declare c x ty k).scope = (k.scope.declare x ty).2 := by
  unfold declare
  dsimp only
  split <;> simp [*]

theorem clean_declare {x : String} {ty : Ty} :
    (declare c x ty k).Clean ↔ k.Clean ∧ ∃ slot, k.scope.Declares x ty slot := by
  unfold declare Scope.Declares
  dsimp only
  split <;> simp [Clean, *]

@[simp] theorem scope_push : k.push.scope = k.scope.enter := rfl
@[simp] theorem scope_pop : k.pop.scope = k.scope.pop := rfl
theorem clean_push : k.push.Clean ↔ k.Clean := .rfl
theorem clean_pop : k.pop.Clean ↔ k.Clean := .rfl

mutual

@[simp] theorem scope_stmt : ∀ (x : Stmt) (k : Check), (stmt c x k).scope = x.after k.scope
  | .block stmts, k => by rw [stmt, scope_pop, scope_stmtList, scope_push, Stmt.after]
  | .decl name ty none, k => by rw [stmt, scope_declare, Stmt.after]
  | .decl name ty (some e), k => by rw [stmt, scope_declare, scope_value, Stmt.after]
  | .expr e, k => by rw [stmt, scope_note, Stmt.after]
  | .ret none, k => by
    rw [stmt, Stmt.after]
    split <;> rfl
  | .ret (some e), k => by
    rw [stmt, Stmt.after]
    split
    · rfl
    · exact scope_value e c.ret
  | .cond test t none, k => by rw [stmt, scope_pop, scope_stmt, scope_push, scope_condition, Stmt.after]
  | .cond test t (some e), k => by
    rw [stmt, scope_pop, scope_stmt, scope_push, scope_pop, scope_stmt, scope_push, scope_condition, Stmt.after]
  | .loop test body, k => by rw [stmt, scope_pop, scope_stmt, scope_push, scope_condition, Stmt.after]
  | .superCall _, k => by rw [stmt, Stmt.after]

@[simp] theorem scope_stmtList : ∀ (xs : List Stmt) (k : Check), (stmtList c xs k).scope = afterAll xs k.scope
  | [], k => by rw [stmtList, afterAll]
  | x :: rest, k => by rw [stmtList, scope_stmtList, scope_stmt, afterAll]

end

mutual

/-- The check of a statement finds nothing iff the statement is well typed. -/
theorem clean_stmt : ∀ (x : Stmt) (k : Check), (stmt c x k).Clean ↔ k.Clean ∧ x.WellTyped c k.scope
  | .block stmts, k => by rw [stmt, clean_pop, clean_stmtList, clean_push, scope_push, Stmt.WellTyped]
  | .decl name ty none, k => by rw [stmt, clean_declare, Stmt.WellTyped]
  | .decl name ty (some e), k => by
    rw [stmt, clean_declare, clean_value, scope_value, Stmt.WellTyped, and_assoc]
  | .expr e, k => by rw [stmt, clean_note, Stmt.WellTyped]
  | .ret none, k => by
    rw [stmt, Stmt.WellTyped]
    split <;> simp [not_clean_report, *]
  | .ret (some e), k => by
    rw [stmt, Stmt.WellTyped]
    split
    · simp [not_clean_report, *]
    · rename_i h
      rw [clean_value]
      simp [h]
  | .cond test t none, k => by
    rw [stmt, clean_pop, clean_stmt, clean_push, clean_condition, scope_push, scope_condition, Stmt.WellTyped, and_assoc]
  | .cond test t (some e), k => by
    rw [stmt, clean_pop, clean_stmt, clean_push, clean_pop, clean_stmt, clean_push, clean_condition]
    simp only [scope_push, scope_condition, scope_pop, scope_stmt, Stmt.WellTyped, and_assoc]
  | .loop test body, k => by
    rw [stmt, clean_pop, clean_stmt, clean_push, clean_condition, scope_push, scope_condition, Stmt.WellTyped, and_assoc]
  | .superCall _, k => by simp [stmt, Stmt.WellTyped]

theorem clean_stmtList : ∀ (xs : List Stmt) (k : Check), (stmtList c xs k).Clean ↔ k.Clean ∧ allWellTyped c xs k.scope
  | [], k => by simp [stmtList, allWellTyped]
  | x :: rest, k => by rw [stmtList, clean_stmtList, clean_stmt, scope_stmt, allWellTyped, and_assoc]

end

end Check

/-! ## Parameters -/

namespace Check

variable {c : Context}

theorem declareParams_cons (p : Param) (params : List Param) (k : Check) :
    declareParams c (p :: params) k = declareParams c params (declare c p.name p.ty k) := rfl

theorem scope_declareParams (params : List Param) (k : Check) :
    (declareParams c params k).scope = afterParams params k.scope := by
  induction params generalizing k with
  | nil => rfl
  | cons p params ih =>
    rw [declareParams_cons, ih, scope_declare]
    rfl

theorem clean_declareParams (params : List Param) (k : Check) :
    (declareParams c params k).Clean ↔ k.Clean ∧ k.scope.DeclaresAll params := by
  induction params generalizing k with
  | nil => simp [declareParams, Scope.DeclaresAll]
  | cons p params ih => rw [declareParams_cons, ih, clean_declare, scope_declare, Scope.DeclaresAll, and_assoc]

end Check

/-- The variables that the parameters of a method are declared beside. -/
def Context.firstScope (c : Context) : Scope := if c.isStatic then .ofStatic else .ofInstance

namespace Check

variable {c : Context} {k : Check}

theorem clean_ofScope (s : Scope) : (ofScope s).Clean := rfl

theorem found_eq_nil : k.found.toList = [] ↔ k.Clean := Array.toList_eq_nil_iff

theorem clean_block {body : List Stmt} : (k.block c body).Clean ↔ k.Clean ∧ (Stmt.block body).WellTyped c k.scope := by
  rw [← clean_stmt, stmt, block]

theorem clean_superCall {args : List Expr} :
    (k.superCall c args).Clean ↔ k.Clean ∧ ∃ ts m, c.typesOf k.scope args = .ok ts ∧ c.superConstructor ts = .ok m := by
  rw [superCall, clean_note]
  refine and_congr .rfl ⟨fun ⟨m, h⟩ => ?_, fun ⟨ts, m, hts, hm⟩ => ⟨m, bind_eq_ok.2 ⟨ts, hts, hm⟩⟩⟩
  obtain ⟨ts, hts, hm⟩ := bind_eq_ok.1 h
  exact ⟨ts, m, hts, hm⟩

@[simp] theorem scope_superCall (args : List Expr) : (k.superCall c args).scope = k.scope := scope_note _

end Check

namespace ClassDef

variable {r : Registry} {entry : ClassEntry}

/-- The check of a method with a body finds nothing iff parameters and body are well typed and no way through the body
misses a result. -/
theorem checkMethod_eq_nil {m : MethodDef} {body : List Stmt} (hbody : m.body = some body) :
    checkMethod r entry m = [] ↔
      let c := Context.ofMethod r entry m
      c.firstScope.DeclaresAll m.params ∧ (Stmt.block body).WellTyped c (afterParams m.params c.firstScope) ∧
        (m.ret.isVoid = true ∨ anyReturns body = true) := by
  simp only [checkMethod, hbody]
  split
  · rename_i hret
    rw [Check.found_eq_nil, Check.clean_block, Check.clean_declareParams, Check.scope_declareParams]
    simp only [Bool.or_eq_true] at hret
    simp only [Check.clean_ofScope, true_and, hret, and_true]
    rfl
  · rename_i hret
    simp only [Bool.or_eq_true] at hret
    simp [Check.report, hret]

/-- The check of a constructor finds nothing iff its parameters, the call of the superclass constructor and the rest of its
body are well typed. -/
theorem checkConstructor_eq_nil {k : ConstructorDef} :
    checkConstructor r entry k = [] ↔
      let c := Context.ofConstructor r entry
      let s := afterParams k.params .ofInstance
      Scope.ofInstance.DeclaresAll k.params ∧
        (∃ ts m, c.typesOf s (splitSuperCall k.body).1 = .ok ts ∧ c.superConstructor ts = .ok m) ∧
        (Stmt.block (splitSuperCall k.body).2).WellTyped c s := by
  unfold checkConstructor
  dsimp only
  rw [Check.found_eq_nil, Check.clean_block, Check.clean_superCall, Check.scope_superCall, Check.clean_declareParams,
    Check.scope_declareParams]
  simp only [Check.clean_ofScope, true_and, and_assoc]
  rfl

/-- The check of a field finds nothing iff its initial value can stand where the type of the field is expected. -/
theorem checkField_eq_nil {f : FieldDef} {e : Expr} (hinit : f.init = some e) :
    checkField r entry f = [] ↔ (Context.ofField r entry f).Accepts .ofInstance e f.ty := by
  simp only [checkField, hinit]
  rw [Check.found_eq_nil, Check.clean_value]
  simp only [Check.clean_ofScope, true_and]
  rfl

end ClassDef

/-! ## Folding -/

namespace Stmt

variable {f : Expr → Expr}

theorem mapExprFrom_eq (stmts acc : List Stmt) : mapExprFrom f stmts acc = acc.reverse ++ stmts.map (mapExpr f) := by
  induction stmts generalizing acc with
  | nil => simp [mapExprFrom]
  | cons x rest ih => simp [mapExprFrom, ih]

theorem mapExprAll_eq (stmts : List Stmt) : mapExprAll f stmts = stmts.map (mapExpr f) := by
  simp [mapExprAll, mapExprFrom_eq]

theorem mapExpr_block (stmts : List Stmt) : (block stmts).mapExpr f = .block (stmts.map (mapExpr f)) := by
  simp [mapExpr, mapExprFrom_eq]

end Stmt

mutual

theorem Stmt.after_mapExpr (f : Expr → Expr) : ∀ (x : Stmt) (s : Scope), (x.mapExpr f).after s = x.after s
  | .block stmts, s => by rw [Stmt.mapExpr_block, Stmt.after, Stmt.after, afterAll_mapExpr]
  | .decl name ty init, s => by rw [Stmt.mapExpr, Stmt.after, Stmt.after]
  | .expr e, s => by rw [Stmt.mapExpr, Stmt.after, Stmt.after]
  | .ret value, s => by rw [Stmt.mapExpr, Stmt.after, Stmt.after]
  | .superCall args, s => by rw [Stmt.mapExpr, Stmt.after, Stmt.after]
  | .cond test t none, s => by rw [Stmt.mapExpr, Stmt.after, Stmt.after, Stmt.after_mapExpr]
  | .cond test t (some e), s => by
    rw [Stmt.mapExpr, Stmt.after, Stmt.after, Stmt.after_mapExpr f t, Stmt.after_mapExpr f e]
  | .loop test body, s => by rw [Stmt.mapExpr, Stmt.after, Stmt.after, Stmt.after_mapExpr]

theorem afterAll_mapExpr (f : Expr → Expr) : ∀ (xs : List Stmt) (s : Scope),
    afterAll (xs.map (Stmt.mapExpr f)) s = afterAll xs s
  | [], s => rfl
  | x :: rest, s => by rw [List.map_cons, afterAll, afterAll, Stmt.after_mapExpr, afterAll_mapExpr]

end

mutual

theorem Stmt.alwaysReturns_mapExpr (f : Expr → Expr) : ∀ x : Stmt, (x.mapExpr f).alwaysReturns = x.alwaysReturns
  | .block stmts => by rw [Stmt.mapExpr_block, Stmt.alwaysReturns, Stmt.alwaysReturns, anyReturns_mapExpr]
  | .decl name ty init => by simp only [Stmt.mapExpr, Stmt.alwaysReturns]
  | .expr e => by simp only [Stmt.mapExpr, Stmt.alwaysReturns]
  | .ret value => by simp only [Stmt.mapExpr, Stmt.alwaysReturns]
  | .superCall args => by simp only [Stmt.mapExpr, Stmt.alwaysReturns]
  | .cond test t none => by simp only [Stmt.mapExpr, Stmt.alwaysReturns]
  | .cond test t (some e) => by
    rw [Stmt.mapExpr, Stmt.alwaysReturns, Stmt.alwaysReturns, Stmt.alwaysReturns_mapExpr f t,
      Stmt.alwaysReturns_mapExpr f e]
  | .loop test body => by simp only [Stmt.mapExpr, Stmt.alwaysReturns]

theorem anyReturns_mapExpr (f : Expr → Expr) : ∀ xs : List Stmt, anyReturns (xs.map (Stmt.mapExpr f)) = anyReturns xs
  | [] => rfl
  | x :: rest => by rw [List.map_cons, anyReturns, anyReturns, Stmt.alwaysReturns_mapExpr, anyReturns_mapExpr]

end

section Optimized

variable {c : Context} {optimize : Bool}

theorem Context.Accepts.optimized {s : Scope} {e : Expr} {ty : Ty} (h : c.Accepts s e ty) :
    c.Accepts s (e.optimized optimize) ty := by
  obtain ⟨t, ht, hassignable⟩ := h
  exact ⟨t, Context.typeOf_optimized ht, hassignable⟩

mutual

theorem Stmt.WellTyped.optimized : ∀ {x : Stmt} {s : Scope}, x.WellTyped c s →
    (x.mapExpr (Expr.optimized optimize)).WellTyped c s
  | .block stmts, s, h => by
    rw [Stmt.mapExpr_block, Stmt.WellTyped]
    rw [Stmt.WellTyped] at h
    exact allWellTyped_optimized h
  | .decl name ty none, s, h => by
    rw [Stmt.WellTyped] at h
    rw [Stmt.mapExpr, Option.map_none, Stmt.WellTyped]
    exact h
  | .decl name ty (some e), s, h => by
    rw [Stmt.WellTyped] at h
    rw [Stmt.mapExpr, Option.map_some, Stmt.WellTyped]
    exact ⟨h.1.optimized, h.2⟩
  | .expr e, s, h => by
    rw [Stmt.WellTyped] at h
    rw [Stmt.mapExpr, Stmt.WellTyped]
    obtain ⟨t, ht⟩ := h
    exact ⟨t, Context.typeOf_optimized ht⟩
  | .ret none, s, h => by
    rw [Stmt.WellTyped] at h
    rw [Stmt.mapExpr, Option.map_none, Stmt.WellTyped]
    exact h
  | .ret (some e), s, h => by
    rw [Stmt.WellTyped] at h
    rw [Stmt.mapExpr, Option.map_some, Stmt.WellTyped]
    exact ⟨h.1, h.2.optimized⟩
  | .cond test t none, s, h => by
    rw [Stmt.WellTyped] at h
    rw [Stmt.mapExpr, Stmt.WellTyped]
    exact ⟨Context.typeOf_optimized h.1, h.2.optimized⟩
  | .cond test t (some e), s, h => by
    rw [Stmt.WellTyped] at h
    rw [Stmt.mapExpr, Stmt.WellTyped, Stmt.after_mapExpr]
    exact ⟨Context.typeOf_optimized h.1, h.2.1.optimized, h.2.2.optimized⟩
  | .loop test body, s, h => by
    rw [Stmt.WellTyped] at h
    rw [Stmt.mapExpr, Stmt.WellTyped]
    exact ⟨Context.typeOf_optimized h.1, h.2.optimized⟩
  | .superCall args, s, h => by rw [Stmt.mapExpr, Stmt.WellTyped]; trivial

/-- Folding keeps statements well typed. -/
theorem allWellTyped_optimized : ∀ {xs : List Stmt} {s : Scope}, allWellTyped c xs s →
    allWellTyped c (xs.map (Stmt.mapExpr (Expr.optimized optimize))) s
  | [], s, h => h
  | x :: rest, s, h => by
    rw [allWellTyped] at h
    rw [List.map_cons, allWellTyped, Stmt.after_mapExpr]
    exact ⟨h.1.optimized, allWellTyped_optimized h.2⟩

end

end Optimized

/-! ## Lowered bodies -/

theorem lowerBody_eq (optimize : Bool) (body : List Stmt) :
    lowerBody optimize body =
      body.map (Stmt.mapExpr (Expr.optimized optimize)) ++ if anyReturns body then [] else [.ret none] := by
  simp only [lowerBody, Stmt.mapExprAll_eq, anyReturns_mapExpr]
  split <;> simp

/-- A lowered body returns on every way through it. -/
theorem anyReturns_lowerBody (optimize : Bool) (stmts : List Stmt) : anyReturns (lowerBody optimize stmts) = true := by
  have happend : ∀ xs : List Stmt, anyReturns (xs ++ [.ret none]) = true := by
    intro xs
    induction xs with
    | nil => rfl
    | cons x xs ih => rw [List.cons_append, anyReturns, ih, Bool.or_true]
  rw [lowerBody]
  split
  · assumption
  · exact happend _

theorem allWellTyped_append {c : Context} {xs ys : List Stmt} {scope : Scope} :
    allWellTyped c (xs ++ ys) scope ↔ allWellTyped c xs scope ∧ allWellTyped c ys (afterAll xs scope) := by
  induction xs generalizing scope with
  | nil => simp [allWellTyped, afterAll]
  | cons x xs ih => rw [List.cons_append, allWellTyped, allWellTyped, afterAll, ih, and_assoc]

theorem lowerBody_wellTyped {c : Context} {scope : Scope} {body : List Stmt} (optimize : Bool)
    (h : (Stmt.block body).WellTyped c scope)
    (hreturns : c.ret.isVoid = true ∨ anyReturns body = true) :
    (Stmt.block (lowerBody optimize body)).WellTyped c scope := by
  rw [Stmt.WellTyped] at h ⊢
  rw [lowerBody_eq, allWellTyped_append]
  refine ⟨allWellTyped_optimized h, ?_⟩
  split
  · trivial
  · rename_i hnot
    exact ⟨by rw [Stmt.WellTyped]; exact hreturns.resolve_right hnot, trivial⟩

end ClassTree
