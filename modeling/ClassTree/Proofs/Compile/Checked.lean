import Mathlib.Data.List.Duplicate
import ClassTree.Proofs.Compile.Limits
import ClassTree.Proofs.Typing.Checked
import ClassTree.Proofs.Typing.Extended

/-!
# Well-typed bodies make code

Code with resolved references is made by a traversal of its own, which looks up types, members and variables again. Where an
expression has a type it finds the same ones (`Typed.expr_settles`), so all that can end it is a limit of class files. A
statement that is well typed makes code also where more variables are visible, as it is in the constructors of an inner class
(`compileStmt_settles`), and so does the lowered form of a body (`lowerBody_settles`). The parameters of a method without a body
are declared though nothing has checked them (`compileMethod_settles_abstract`).
-/

namespace ClassTree

open Gen

/-! ## Expressions -/

namespace Typed

variable {c : Context} {scope : Scope}

theorem loadOuter_settles {E : Diagnostic → Prop} (c : Context) (outer : Ty) :
    Settles E (loadOuter c outer) fun _ => True :=
  .bind (.instr _) fun _ _ => .pure trivial

theorem storeField_settles {E : Diagnostic → Prop} (keep : Bool) (f : FieldEntry) :
    Settles E (storeField keep f) fun _ => True :=
  .bind (.instr _) fun _ _ => .pure trivial

theorem newOuter_settles {E : Diagnostic → Prop} {e : ClassEntry}
    (h : e.isInner = true → ∃ source, c.outerInstance e = .ok source) : Settles E (newOuter c e) fun _ => True := by
  unfold newOuter
  cases hinner : e.isInner with
  | false => exact .pure trivial
  | true =>
    obtain ⟨source, hsource⟩ := h hinner
    refine .ofExcept_bind hsource ?_
    cases source with
    | this => exact .pure trivial
    | outerOfThis => exact .bind (loadOuter_settles c _) fun _ _ => .pure trivial

mutual

/-- The code of an expression with a type comes with that type, unless a limit is met. -/
theorem expr_settles (keep : Bool) : ∀ {e : Expr} {t : Ty}, c.typeOf scope e = .ok t →
    Settles Diagnostic.IsLimit (expr c scope keep e) fun r => r.2 = e.kept keep t
  | .lit l, t, h => by
    rw [Context.typeOf] at h
    cases h
    exact .bind (c.literal_settles l) fun _ _ => .pure rfl
  | .var name, t, h => by
    obtain ⟨target, htarget, rfl⟩ := Context.typeOf_var_eq_ok h
    rw [expr]
    apply Settles.ofExcept_bind htarget
    cases target with
    | slot v => exact .pure rfl
    | field f => exact .bind (.instr _) fun _ _ => .pure rfl
  | .this, t, h => by
    rw [Context.typeOf] at h
    obtain ⟨u, hu, h⟩ := bind_eq_ok.1 h
    cases h
    rw [expr]
    exact .ofExcept_bind hu (.pure rfl)
  | .outer, t, h => by
    rw [Context.typeOf] at h
    rw [expr]
    exact .ofExcept_bind h (.bind (loadOuter_settles c t) fun _ _ => .pure rfl)
  | .field target name, t, h => by
    obtain ⟨t', f, ht', hf, rfl⟩ := Context.typeOf_field_eq_ok h
    rw [expr]
    apply Settles.bind (expr_settles true ht')
    intro r hr
    rw [Expr.kept_true] at hr
    subst hr
    exact .ofExcept_bind hf (.bind (.instr _) fun _ _ => .pure rfl)
  | .assign (.var name) value, t, h => by
    obtain ⟨-, ht, v, hv, -⟩ := Context.typeOf_assign_eq_ok h
    obtain ⟨target, htarget, rfl⟩ := Context.typeOf_var_eq_ok ht
    rw [expr, Expr.kept_assign]
    apply Settles.ofExcept_bind htarget
    cases target with
    | slot w => exact .bind (expr_settles true hv) fun _ _ => .pure rfl
    | field f => exact .bind (expr_settles true hv) fun _ _ => .bind (storeField_settles keep f) fun _ _ => .pure rfl
  | .assign (.field object name) value, t, h => by
    obtain ⟨-, ht, v, hv, -⟩ := Context.typeOf_assign_eq_ok h
    obtain ⟨t', f, ht', hf, -⟩ := Context.typeOf_field_eq_ok ht
    rw [expr, Expr.kept_assign]
    apply Settles.ofExcept_bind ht
    apply Settles.bind (expr_settles true ht')
    intro r hr
    rw [Expr.kept_true] at hr
    subst hr
    apply Settles.ofExcept_bind hf
    exact .bind (expr_settles true hv) fun _ _ => .bind (storeField_settles keep f) fun _ _ => .pure rfl
  | .assign (.lit _) _, _, h | .assign .this _, _, h | .assign .outer _, _, h | .assign (.assign ..) _, _, h
  | .assign (.call ..) _, _, h | .assign (.staticCall ..) _, _, h | .assign (.new ..) _, _, h
  | .assign (.binary ..) _, _, h | .assign (.unary ..) _, _, h => nomatch (Context.typeOf_assign_eq_ok h).1
  | .call receiver name args, t, h => by
    obtain ⟨r, ts, m, hr, hts, hm, rfl⟩ := Context.typeOf_call_eq_ok h
    rw [expr]
    apply Settles.ofExcept_bind hr
    apply Settles.ofExcept_bind hts
    apply Settles.ofExcept_bind hm
    apply Settles.bind (expr_settles true hr)
    intro r' _
    dsimp only
    split
    · exact .bind (exprs_settles hts _ _) fun _ _ => .bind (.instr _) fun _ _ => .pure rfl
    · exact .bind (exprs_settles hts _ _) fun _ _ => .bind (.instr _) fun _ _ => .pure rfl
  | .staticCall cls name args, t, h => by
    obtain ⟨ts, m, hts, hm, rfl⟩ := Context.typeOf_staticCall_eq_ok h
    rw [expr]
    apply Settles.ofExcept_bind hts
    apply Settles.ofExcept_bind hm
    exact .bind (exprs_settles hts _ _) fun _ _ => .bind (.instr _) fun _ _ => .pure rfl
  | .new cls args, t, h => by
    obtain ⟨ts, k, hts, hk, rfl⟩ := Context.typeOf_new_eq_ok h
    obtain ⟨e, he, -, hinner, -⟩ := Context.constructor_eq_ok hk
    rw [expr]
    apply Settles.ofExcept_bind hts
    apply Settles.ofExcept_bind hk
    apply Settles.ofExcept_bind (Context.classEntry_eq_ok.2 he)
    refine .bind (.instr _) fun _ _ => .bind (newOuter_settles hinner) fun _ _ => ?_
    exact .bind (exprs_settles hts _ _) fun _ _ => .bind (.instr _) fun _ _ => .pure rfl
  | .binary op left right, t, h => by
    obtain ⟨l, r, bt, hl, hr, hbt, rfl⟩ := Context.typeOf_binary_eq_ok h
    rw [expr]
    split
    · rename_i hop
      refine .bind (expr_settles true hl) fun _ _ => .bind (expr_settles true hr) fun _ _ => .pure ?_
      exact (Context.binary_of_instr?_none hop hbt).2.2.symm
    · apply Settles.ofExcept_bind hl
      apply Settles.ofExcept_bind hr
      apply Settles.ofExcept_bind hbt
      exact .bind (expr_settles true hl) fun _ _ => .bind (expr_settles true hr) fun _ _ => .pure rfl
  | .unary op operand, t, h => by
    obtain ⟨t', ht', hunary⟩ := Context.typeOf_unary_eq_ok h
    rw [expr]
    apply Settles.bind (expr_settles true ht')
    intro r hr
    rw [Expr.kept_true] at hr
    subst hr
    exact .ofExcept_bind hunary (.pure rfl)

theorem exprs_settles : ∀ {es : List Expr} {ts : List Ty}, c.typesOf scope es = .ok ts → ∀ (params : List Ty) (done : Block),
    Settles Diagnostic.IsLimit (exprs c scope es params done) fun _ => True
  | [], _, _, _, _ => .pure trivial
  | _ :: _, _, _, [], _ => .pure trivial
  | e :: rest, _, h, p :: params, done => by
    obtain ⟨t, ts, ht, hts, -⟩ := Context.typesOf_cons_eq_ok h
    rw [exprs]
    exact .bind (expr_settles true ht) fun _ _ => exprs_settles hts params _

end

theorem superCall_settles {superclass : Name} {args : List Expr} {ts : List Ty} {k : MethodEntry}
    (hts : c.typesOf scope args = .ok ts) (hk : c.superConstructor ts = .ok k) :
    Settles Diagnostic.IsLimit (superCall c scope superclass args) fun _ => True :=
  .ofExcept_bind hts (.ofExcept_bind hk (.bind (exprs_settles hts _ _) fun _ _ => .bind (.instr _) fun _ _ => .pure trivial))

end Typed

theorem compileValue_settles {c : Context} {scope : Scope} {e : Expr} {t : Ty} (h : c.typeOf scope e = .ok t)
    (expected : Ty) : Settles Diagnostic.IsLimit (compileValue .static c scope e expected) fun _ => True :=
  .bind (Typed.expr_settles true h) fun _ _ => .pure trivial

theorem compileDiscarded_settles {c : Context} {scope : Scope} {e : Expr} {t : Ty} (h : c.typeOf scope e = .ok t) :
    Settles Diagnostic.IsLimit (compileDiscarded .static c scope e) fun _ => True :=
  .bind (Typed.expr_settles false h) fun _ _ => .pure trivial

/-! ## Statements -/

mutual

/-- Whether the superclass constructor is called in a statement, at any depth. -/
def Stmt.callsSuper : Stmt → Bool
  | .block stmts => anyCallsSuper stmts
  | .decl _ _ _ | .expr _ | .ret _ => false
  | .cond _ t none => t.callsSuper
  | .cond _ t (some e) => t.callsSuper || e.callsSuper
  | .loop _ body => body.callsSuper
  | .superCall _ => true

def anyCallsSuper : List Stmt → Bool
  | [] => false
  | x :: rest => x.callsSuper || anyCallsSuper rest

end

section Statements

variable {c : Context} {s s' : Scope} {more : List Local}

theorem declareVar_settles (h : s.Extends more s') {x : String} {ty : Ty} {slot : UInt16}
    (hnew : x ∉ more.map Local.name) (hd : s.Declares x ty slot) :
    Settles Diagnostic.IsLimit (declareVar c s' x ty) fun r => (s.declare x ty).2.Extends more r.2 := by
  unfold declareVar
  rcases h.declare_cases hnew hd with ⟨slot', hd'⟩ | hd'
  · split
    · rename_i slot' t' heq
      exact .pure (h.declare hnew (Prod.ext hd rfl) heq)
    · rename_i e t' heq
      rw [Scope.Declares, heq] at hd'
      cases hd'
  · split
    · rename_i slot' t' heq
      rw [heq] at hd'
      cases hd'
    · rename_i e t' heq
      rw [heq] at hd'
      cases hd'
      exact .throw rfl

theorem declareParams_settles (h : s.Extends more s') {params : List Param}
    (hnew : ∀ p ∈ params, p.name ∉ more.map Local.name) (hd : s.DeclaresAll params) :
    Settles Diagnostic.IsLimit (declareParams c params s') fun t' => (afterParams params s).Extends more t' := by
  induction params generalizing s s' with
  | nil => exact .pure h
  | cons p params ih =>
    obtain ⟨⟨slot, hslot⟩, hrest⟩ := hd
    apply Settles.bind (declareVar_settles h (hnew p List.mem_cons_self) hslot)
    intro r hr
    exact ih hr (fun q hq => hnew q (List.mem_cons_of_mem _ hq)) hrest

theorem Stmt.extends_pop (x : Stmt) (h : (x.after s.enter).Extends more s') : (x.after s.enter).pop.Extends more s'.pop := by
  apply h.pop
  rw [x.depth_after]
  exact Nat.succ_pos _

variable (hnames : ∀ {s s'}, s.Extends more s' → c.KeepsNames c.member s s')

include hnames in
theorem Context.Accepts.exists_extends (h : s.Extends more s') {e : Expr} {ty : Ty} (he : c.Accepts s e ty) :
    ∃ t, c.typeOf s' e = .ok t := by
  obtain ⟨t, ht, -⟩ := he
  exact ⟨t, Context.typeOf_extends (hnames h) ht⟩

mutual

/-- A statement that is well typed makes code also where more variables are visible, if it declares none of their names. -/
theorem compileStmt_settles (hnames : ∀ {s s'}, s.Extends more s' → c.KeepsNames c.member s s') :
    ∀ {x : Stmt} {s s' : Scope}, x.WellTyped c s → x.callsSuper = false →
    (∀ y ∈ x.declared, y ∉ more.map Local.name) → s.Extends more s' →
    Settles Diagnostic.IsLimit (compileStmt .static c x s') fun r => (x.after s).Extends more r.2
  | .block stmts, s, s', hw, hsuper, hnew, h => by
    rw [Stmt.WellTyped] at hw
    rw [Stmt.callsSuper] at hsuper
    rw [Stmt.declared] at hnew
    rw [compileStmt, Stmt.after]
    apply Settles.bind (compileStmts_settles hnames hw hsuper hnew h.enter .empty)
    intro r hr
    apply Settles.pure
    apply hr.pop
    rw [depth_afterAll]
    exact Nat.succ_pos _
  | .decl name ty none, s, s', hw, _, hnew, h => by
    rw [Stmt.WellTyped] at hw
    obtain ⟨slot, hslot⟩ := hw
    rw [compileStmt, Stmt.after]
    apply Settles.bind (pushDefault_settles ty)
    intro _ _
    apply Settles.bind (declareVar_settles h (hnew name (by simp [Stmt.declared])) hslot)
    intro r hr
    exact .pure hr
  | .decl name ty (some e), s, s', hw, _, hnew, h => by
    rw [Stmt.WellTyped] at hw
    obtain ⟨he, slot, hslot⟩ := hw
    obtain ⟨t, ht⟩ := he.exists_extends hnames h
    rw [compileStmt, Stmt.after]
    apply Settles.bind (compileValue_settles ht ty)
    intro _ _
    apply Settles.bind (declareVar_settles h (hnew name (by simp [Stmt.declared])) hslot)
    intro r hr
    exact .pure hr
  | .expr e, s, s', hw, _, _, h => by
    rw [Stmt.WellTyped] at hw
    obtain ⟨t, ht⟩ := hw
    rw [compileStmt, Stmt.after]
    apply Settles.bind (compileDiscarded_settles (Context.typeOf_extends (hnames h) ht))
    intro _ _
    exact .pure h
  | .ret none, s, s', _, _, _, h => by
    rw [compileStmt, Stmt.after]
    exact .pure h
  | .ret (some e), s, s', hw, _, _, h => by
    rw [Stmt.WellTyped] at hw
    obtain ⟨t, ht⟩ := hw.2.exists_extends hnames h
    rw [compileStmt, Stmt.after]
    split
    · apply Settles.bind (compileDiscarded_settles ht)
      intro _ _
      exact .pure h
    · apply Settles.bind (compileValue_settles ht _)
      intro _ _
      exact .pure h
  | .cond test t none, s, s', hw, hsuper, hnew, h => by
    rw [Stmt.WellTyped] at hw
    rw [Stmt.callsSuper] at hsuper
    rw [Stmt.declared] at hnew
    rw [compileStmt, Stmt.after]
    apply Settles.bind (compileValue_settles (Context.typeOf_extends (hnames h) hw.1) _)
    intro _ _
    apply Settles.bind (compileStmt_settles hnames hw.2 hsuper hnew h.enter)
    intro r hr
    exact .pure (t.extends_pop hr)
  | .cond test t (some e), s, s', hw, hsuper, hnew, h => by
    rw [Stmt.WellTyped] at hw
    rw [Stmt.callsSuper, Bool.or_eq_false_iff] at hsuper
    rw [Stmt.declared] at hnew
    rw [compileStmt, Stmt.after]
    apply Settles.bind (compileValue_settles (Context.typeOf_extends (hnames h) hw.1) _)
    intro _ _
    apply Settles.bind (compileStmt_settles hnames hw.2.1 hsuper.1 (fun y hy => hnew y (List.mem_append_left _ hy)) h.enter)
    intro r hr
    have henter := (t.extends_pop hr).enter
    apply Settles.bind (compileStmt_settles hnames hw.2.2 hsuper.2 (fun y hy => hnew y (List.mem_append_right _ hy)) henter)
    intro r' hr'
    exact .pure (e.extends_pop hr')
  | .loop test body, s, s', hw, hsuper, hnew, h => by
    rw [Stmt.WellTyped] at hw
    rw [Stmt.callsSuper] at hsuper
    rw [Stmt.declared] at hnew
    rw [compileStmt, Stmt.after]
    apply Settles.bind (compileValue_settles (Context.typeOf_extends (hnames h) hw.1) _)
    intro _ _
    apply Settles.bind (compileStmt_settles hnames hw.2 hsuper hnew h.enter)
    intro r hr
    exact .pure (body.extends_pop hr)
  | .superCall _, _, _, _, hsuper, _, _ => by
    rw [Stmt.callsSuper] at hsuper
    cases hsuper

theorem compileStmts_settles (hnames : ∀ {s s'}, s.Extends more s' → c.KeepsNames c.member s s') :
    ∀ {xs : List Stmt} {s s' : Scope}, allWellTyped c xs s → anyCallsSuper xs = false →
    (∀ y ∈ declaredAll xs, y ∉ more.map Local.name) → s.Extends more s' → ∀ done,
    Settles Diagnostic.IsLimit (compileStmts .static c xs s' done) fun r => (afterAll xs s).Extends more r.2
  | [], s, s', _, _, _, h, done => by
    rw [compileStmts, afterAll]
    exact .pure h
  | x :: rest, s, s', hw, hsuper, hnew, h, done => by
    rw [allWellTyped] at hw
    rw [anyCallsSuper, Bool.or_eq_false_iff] at hsuper
    rw [declaredAll] at hnew
    rw [compileStmts, afterAll]
    apply Settles.bind (compileStmt_settles hnames hw.1 hsuper.1 (fun y hy => hnew y (List.mem_append_left _ hy)) h)
    intro r hr
    exact compileStmts_settles hnames hw.2 hsuper.2 (fun y hy => hnew y (List.mem_append_right _ hy)) hr _

end

end Statements

/-! ## Lowered bodies -/

mutual

theorem Stmt.callsSuper_mapExpr (f : Expr → Expr) : ∀ x : Stmt, (x.mapExpr f).callsSuper = x.callsSuper
  | .block stmts => by rw [Stmt.mapExpr_block, Stmt.callsSuper, Stmt.callsSuper, anyCallsSuper_mapExpr]
  | .decl .. => by simp only [Stmt.mapExpr, Stmt.callsSuper]
  | .expr _ => by simp only [Stmt.mapExpr, Stmt.callsSuper]
  | .ret _ => by simp only [Stmt.mapExpr, Stmt.callsSuper]
  | .superCall _ => by simp only [Stmt.mapExpr, Stmt.callsSuper]
  | .cond _ t none => by rw [Stmt.mapExpr, Stmt.callsSuper, Stmt.callsSuper, Stmt.callsSuper_mapExpr]
  | .cond _ t (some e) => by
    rw [Stmt.mapExpr, Stmt.callsSuper, Stmt.callsSuper, Stmt.callsSuper_mapExpr f t, Stmt.callsSuper_mapExpr f e]
  | .loop _ body => by rw [Stmt.mapExpr, Stmt.callsSuper, Stmt.callsSuper, Stmt.callsSuper_mapExpr]

theorem anyCallsSuper_mapExpr (f : Expr → Expr) : ∀ xs : List Stmt,
    anyCallsSuper (xs.map (Stmt.mapExpr f)) = anyCallsSuper xs
  | [] => rfl
  | x :: rest => by
    rw [List.map_cons, anyCallsSuper, anyCallsSuper, Stmt.callsSuper_mapExpr, anyCallsSuper_mapExpr]

end

mutual

theorem Stmt.declared_mapExpr (f : Expr → Expr) : ∀ x : Stmt, (x.mapExpr f).declared = x.declared
  | .block stmts => by rw [Stmt.mapExpr_block, Stmt.declared, Stmt.declared, declaredAll_mapExpr]
  | .decl .. => by simp only [Stmt.mapExpr, Stmt.declared]
  | .expr _ => by simp only [Stmt.mapExpr, Stmt.declared]
  | .ret _ => by simp only [Stmt.mapExpr, Stmt.declared]
  | .superCall _ => by simp only [Stmt.mapExpr, Stmt.declared]
  | .cond _ t none => by rw [Stmt.mapExpr, Stmt.declared, Stmt.declared, Stmt.declared_mapExpr]
  | .cond _ t (some e) => by
    rw [Stmt.mapExpr, Stmt.declared, Stmt.declared, Stmt.declared_mapExpr f t, Stmt.declared_mapExpr f e]
  | .loop _ body => by rw [Stmt.mapExpr, Stmt.declared, Stmt.declared, Stmt.declared_mapExpr]

theorem declaredAll_mapExpr (f : Expr → Expr) : ∀ xs : List Stmt,
    declaredAll (xs.map (Stmt.mapExpr f)) = declaredAll xs
  | [] => rfl
  | x :: rest => by rw [List.map_cons, declaredAll, declaredAll, Stmt.declared_mapExpr, declaredAll_mapExpr]

end

theorem anyCallsSuper_append (xs ys : List Stmt) : anyCallsSuper (xs ++ ys) = (anyCallsSuper xs || anyCallsSuper ys) := by
  induction xs with
  | nil => rfl
  | cons x xs ih => rw [List.cons_append, anyCallsSuper, anyCallsSuper, ih, Bool.or_assoc]

theorem declaredAll_append (xs ys : List Stmt) : declaredAll (xs ++ ys) = declaredAll xs ++ declaredAll ys := by
  induction xs with
  | nil => rfl
  | cons x xs ih => rw [List.cons_append, declaredAll, declaredAll, ih, List.append_assoc]

/-- The return that lowering adds neither calls the superclass constructor nor declares a variable. -/
theorem callsSuper_lowerBody (optimize : Bool) (body : List Stmt) :
    anyCallsSuper (lowerBody optimize body) = anyCallsSuper body := by
  rw [lowerBody_eq, anyCallsSuper_append, anyCallsSuper_mapExpr]
  split <;> simp [anyCallsSuper, Stmt.callsSuper]

theorem declaredAll_lowerBody (optimize : Bool) (body : List Stmt) :
    declaredAll (lowerBody optimize body) = declaredAll body := by
  rw [lowerBody_eq, declaredAll_append, declaredAll_mapExpr]
  split <;> simp [declaredAll, Stmt.declared]

/-! ## Members -/

section Members

variable {c : Context} {s s' : Scope} {more : List Local}

/-- The lowered form of a body that was checked makes code also where more variables are visible. -/
theorem lowerBody_settles (hnames : ∀ {s s'}, s.Extends more s' → c.KeepsNames c.member s s') (h : s.Extends more s')
    {body : List Stmt} (hw : (Stmt.block body).WellTyped c s) (hreturns : c.ret.isVoid = true ∨ anyReturns body = true)
    (hsuper : anyCallsSuper body = false) (hnew : ∀ y ∈ declaredAll body, y ∉ more.map Local.name) (optimize : Bool) :
    Settles Diagnostic.IsLimit (compileStmt .static c (.block (lowerBody optimize body)) s') fun _ => True := by
  have hblock : (Stmt.block (lowerBody optimize body)).callsSuper = false := by
    rw [Stmt.callsSuper, callsSuper_lowerBody, hsuper]
  have hdeclared : ∀ y ∈ (Stmt.block (lowerBody optimize body)).declared, y ∉ more.map Local.name := by
    rw [Stmt.declared, declaredAll_lowerBody]
    exact hnew
  exact (compileStmt_settles hnames (lowerBody_wellTyped optimize hw hreturns) hblock hdeclared h).imp fun _ _ => trivial

/-- Expressions with types make code as statements. -/
theorem compileStmts_settles_exprs {xs : List Stmt} (h : ∀ x ∈ xs, ∃ e t, x = .expr e ∧ c.typeOf s e = .ok t) (done : Block) :
    Settles Diagnostic.IsLimit (compileStmts .static c xs s done) fun _ => True := by
  induction xs generalizing done with
  | nil =>
    rw [compileStmts]
    exact .pure trivial
  | cons x xs ih =>
    obtain ⟨e, t, rfl, ht⟩ := h x List.mem_cons_self
    have hstmt : Settles Diagnostic.IsLimit (compileStmt .static c (.expr e) s) fun r => r.2 = s := by
      rw [compileStmt]
      exact .bind (compileDiscarded_settles ht) fun _ _ => .pure rfl
    rw [compileStmts]
    apply Settles.bind hstmt
    rintro ⟨code, scope⟩ rfl
    exact ih (fun x hx => h x (List.mem_cons_of_mem _ hx)) _

theorem declareParams_append (params params' : List Param) :
    declareParams c (params ++ params') s = declareParams c params s >>= declareParams c params' := by
  induction params generalizing s with
  | nil => rfl
  | cons p params ih => simp only [List.cons_append, declareParams, ih, bind_assoc]

/-- A method whose parameters and body were checked makes code. -/
theorem compileMethod_settles_method {m : LoweredMethod} {body : List Stmt} {optimize : Bool}
    (hm : m.body = .method (lowerBody optimize body)) (hparams : c.firstScope.DeclaresAll m.params)
    (hw : (Stmt.block body).WellTyped c (afterParams m.params c.firstScope))
    (hreturns : c.ret.isVoid = true ∨ anyReturns body = true) (hsuper : anyCallsSuper body = false) :
    Settles Diagnostic.IsLimit (compileMethod .static c m) fun _ => True := by
  have hnames : ∀ {s s'}, Scope.Extends s [] s' → c.KeepsNames c.member s s' :=
    fun h => Context.keepsNames_of_extends h (by simp)
  rw [compileMethod, hm]
  apply Settles.bind (declareParams_settles (.refl _) (by simp) hparams)
  intro s' hs'
  apply Settles.bind (lowerBody_settles hnames hs' hw hreturns hsuper (by simp) optimize)
  intro r _
  exact compileMethod_finish_settles c r.1 r.2

/-- Where a variable was not checked, all that prevents its declaration besides a limit is that its name is taken. -/
theorem declareVar_settles_taken (c : Context) (s : Scope) (x : String) (ty : Ty) :
    Settles (fun d => d.IsLimit ∨ d = c.declareError x .duplicate ∧ (s.lookup? x).isSome = true) (declareVar c s x ty)
      fun r => ∀ y, (r.2.lookup? y).isSome = true → x = y ∨ (s.lookup? y).isSome = true := by
  have hfst := s.declare_fst x ty
  unfold declareVar
  split
  · rename_i slot t hdeclare
    refine .pure fun y hy => ?_
    rw [Scope.lookup?_declare hdeclare] at hy
    by_cases hname : x = y
    · exact .inl hname
    · rw [if_neg hname] at hy
      exact .inr hy
  · rename_i e t hdeclare
    rw [hdeclare] at hfst
    apply Settles.throw
    cases e with
    | tooManyLocals => exact .inl rfl
    | duplicate =>
      refine .inr ⟨rfl, ?_⟩
      by_contra hnone
      rw [if_neg hnone] at hfst
      split at hfst <;> cases hfst

/-- So for parameters: the name is that of a visible variable, or of a parameter before it. -/
theorem declareParams_settles_taken (c : Context) (params : List Param) (s : Scope) :
    Settles (fun d => d.IsLimit ∨ ∃ x, d = c.declareError x .duplicate ∧
        ((params.map Param.name).Duplicate x ∨ x ∈ params.map Param.name ∧ (s.lookup? x).isSome = true))
      (declareParams c params s) fun _ => True := by
  induction params generalizing s with
  | nil => exact .pure trivial
  | cons p params ih =>
    rw [declareParams]
    refine .bind ((declareVar_settles_taken c s p.name p.ty).mono ?_ fun _ h => h) fun r hr => (ih r.2).mono ?_ fun _ h => h
    · rintro d (hlimit | ⟨rfl, hvisible⟩)
      · exact .inl hlimit
      · exact .inr ⟨p.name, rfl, .inr ⟨List.mem_cons_self, hvisible⟩⟩
    · rintro d (hlimit | ⟨x, rfl, hdup | ⟨hmem, hvisible⟩⟩)
      · exact .inl hlimit
      · exact .inr ⟨x, rfl, .inl (.cons_duplicate hdup)⟩
      · rcases hr x hvisible with rfl | hvisible
        · exact .inr ⟨p.name, rfl, .inl (.cons_mem hmem)⟩
        · exact .inr ⟨x, rfl, .inr ⟨List.mem_cons_of_mem _ hmem, hvisible⟩⟩

/-- A method without a body makes no code, but its parameters are declared, and nothing has checked them before. -/
theorem compileMethod_settles_abstract {m : LoweredMethod} (hm : m.body = .abstract) :
    Settles (fun d => d.IsLimit ∨ ∃ x, d = c.declareError x .duplicate ∧ (m.params.map Param.name).Duplicate x)
      (compileMethod .static c m) fun _ => True := by
  have hfirst : ∀ x, c.firstScope.lookup? x = none := by
    intro x
    unfold Context.firstScope
    split <;> simp [Scope.lookup?, Scope.ofStatic, Scope.ofInstance]
  rw [compileMethod, hm]
  refine Settles.bind ((declareParams_settles_taken c m.params c.firstScope).mono (fun d hd => ?_) fun _ h => h)
    fun _ _ => .pure trivial
  rcases hd with hlimit | ⟨x, rfl, hdup | ⟨-, hvisible⟩⟩
  · exact .inl hlimit
  · exact .inr ⟨x, rfl, hdup⟩
  · rw [hfirst] at hvisible
    cases hvisible

end Members

end ClassTree
