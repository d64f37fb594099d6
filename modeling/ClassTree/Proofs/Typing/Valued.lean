import ClassTree.Proofs.Compile.Typed
import ClassTree.Proofs.Scope.Extended
import ClassTree.Proofs.Typing.Checked

/-!
# Variables that hold values

`void` is the type of no value, yet a declaration may name it. `Registry.Valued`: no field has it, and constructors return
nothing else. `Scope.Valued`: no visible variable has it. `Stmt.Valued c x s`: where the variables of `s` are visible, the
statement `x` is well typed, and neither these variables nor those that it declares are of type `void`.

The statements that a statement is made of are as well typed and valued as it is, each where it stands (`Stmt.Valued.part`),
and the expressions that it evaluates have types (`Stmt.Valued.typeOf_expr`), and so have the parts of these
(`Context.typeOf_part`).
-/

namespace ClassTree

/-! ## Variables and fields -/

/-- All fields hold values, and constructors return nothing. -/
structure Registry.Valued (g : Registry) : Prop where
  fields : ∀ e ∈ g.classes, ∀ f ∈ e.fields, f.ty.isVoid = false
  constructors : ∀ e ∈ g.classes, ∀ k ∈ e.constructors, k.ret = .void

theorem Registry.Valued.findField? {g : Registry} (h : g.Valued) {n : Name} {name : String} {f : FieldEntry}
    (hf : g.findField? n name = some f) : f.ty.isVoid = false := by
  obtain ⟨e, he, hmem, -⟩ := exists_of_findField? hf
  exact h.fields e (mem_of_mem_chain he) f hmem

/-- All visible variables hold values. -/
def Scope.Valued (s : Scope) : Prop := ∀ x v, s.lookup? x = some v → v.ty.isVoid = false

namespace Scope

variable {s : Scope}

theorem valued_ofStatic : ofStatic.Valued := fun x v hv => by simp [lookup?, ofStatic] at hv

theorem valued_ofInstance : ofInstance.Valued := fun x v hv => by simp [lookup?, ofInstance] at hv

theorem Valued.enter (h : s.Valued) : s.enter.Valued := h

theorem Valued.pop (h : s.Valued) : s.pop.Valued := by
  intro x v hv
  rw [lookup?_pop] at hv
  exact h x v (Option.filter_eq_some_iff.1 hv).1

theorem Valued.declare (h : s.Valued) (x : String) {ty : Ty} (hty : ty.isVoid = false) : (s.declare x ty).2.Valued := by
  intro y v hv
  match hd : s.declare x ty with
  | (.error e, s') =>
    rw [hd, declare_eq_error hd] at hv
    exact h y v hv
  | (.ok slot, s') =>
    rw [hd, lookup?_declare hd] at hv
    split at hv
    · cases hv
      exact hty
    · exact h y v hv

theorem Valued.afterParams (h : s.Valued) {params : List Param} (hparams : ∀ p ∈ params, p.ty.isVoid = false) :
    (afterParams params s).Valued := by
  induction params generalizing s with
  | nil => exact h
  | cons p params ih =>
    exact ih (h.declare p.name (hparams p List.mem_cons_self)) fun q hq => hparams q (List.mem_cons_of_mem _ hq)

end Scope

/-! ## Types of operands -/

namespace Context

variable {c : Context}

/-- The operands of a binary operation are values, and so is its result. -/
theorem isVoid_of_binary {op : BinaryOp} {l r : Ty} {bt : BinaryTyping} (h : c.binary op l r = .ok bt) :
    l.isVoid = false ∧ r.isVoid = false ∧ bt.result.isVoid = false := by
  have hpromote : ∀ {t : Ty}, l.promote r = some t → l.isVoid = false ∧ r.isVoid = false ∧ t.isVoid = false := by
    intro t ht
    cases l <;> cases r <;> first | (cases ht; exact ⟨rfl, rfl, rfl⟩) | cases ht
  unfold binary at h
  dsimp only at h
  split at h
  · split at h
    · cases h
    · rename_i hvoid
      cases h
      simp only [Bool.or_eq_true, not_or, Bool.not_eq_true] at hvoid
      exact ⟨hvoid.1, hvoid.2, rfl⟩
  · split at h
    · split at h
      · rename_i t ht
        cases h
        obtain ⟨hl, hr, hresult⟩ := hpromote ht
        refine ⟨hl, hr, ?_⟩
        dsimp only
        split
        · rfl
        · exact hresult
      · cases h
    · split at h
      · split at h
        · rename_i t ht
          cases h
          obtain ⟨hl, hr, -⟩ := hpromote ht
          exact ⟨hl, hr, rfl⟩
        · split at h
          · rename_i hboth
            cases h
            refine ⟨?_, ?_, rfl⟩
            · cases l <;> simp_all [Ty.isVoid, Ty.isReference]
            · cases r <;> simp_all [Ty.isVoid, Ty.isReference]
          · cases h
      · split at h
        · rename_i hboth
          cases h
          simp only [Bool.and_eq_true, decide_eq_true_eq] at hboth
          rw [hboth.1, hboth.2]
          exact ⟨rfl, rfl, rfl⟩
        · cases h

theorem isVoid_of_unary {op : UnaryOp} {t t' : Ty} (h : c.unary op t = .ok t') : t.isVoid = false ∧ t' = t := by
  cases t with
  | void => cases op <;> cases h
  | _ => cases op <;> first | (cases h; exact ⟨rfl, rfl⟩) | cases h

end Context

/-! ## Parts of expressions -/

/-- The expressions that an expression evaluates first. The target of an assignment is none of them, but an object whose field
is assigned is. -/
def Expr.parts : Expr → List Expr
  | .lit _ | .var _ | .this | .outer => []
  | .field target _ => [target]
  | .assign (.field object _) value => [object, value]
  | .assign _ value => [value]
  | .call receiver _ args => receiver :: args
  | .staticCall _ _ args | .new _ args => args
  | .binary _ left right => [left, right]
  | .unary _ operand => [operand]

namespace Context

variable {c : Context} {s : Scope}

theorem exists_typeOf_of_typesOf {es : List Expr} {ts : List Ty} (h : c.typesOf s es = .ok ts) {e : Expr} (he : e ∈ es) :
    ∃ t, c.typeOf s e = .ok t := by
  induction es generalizing ts with
  | nil => cases he
  | cons e' es ih =>
    obtain ⟨t, ts', ht, hts', -⟩ := typesOf_cons_eq_ok h
    rcases List.mem_cons.1 he with rfl | he
    · exact ⟨t, ht⟩
    · exact ih hts' he

/-- The parts of an expression with a type have types. -/
theorem typeOf_part {e e' : Expr} {t : Ty} (h : c.typeOf s e = .ok t) (he : e' ∈ e.parts) :
    ∃ t', c.typeOf s e' = .ok t' := by
  cases e with
  | lit _ | var _ | this | outer => cases he
  | field target name =>
    obtain ⟨t', f, ht', -, -⟩ := typeOf_field_eq_ok h
    rw [List.mem_singleton.1 he]
    exact ⟨t', ht'⟩
  | assign target value =>
    obtain ⟨-, ht, v, hv, -⟩ := typeOf_assign_eq_ok h
    have hparts : e' = value ∨ ∃ name, target = .field e' name := by
      cases target <;> simp only [Expr.parts, List.mem_cons, List.not_mem_nil, or_false] at he
      case field object name =>
        rcases he with rfl | rfl
        · exact .inr ⟨name, rfl⟩
        · exact .inl rfl
      all_goals exact .inl he
    rcases hparts with rfl | ⟨name, rfl⟩
    · exact ⟨v, hv⟩
    · obtain ⟨t', f, ht', -, -⟩ := typeOf_field_eq_ok ht
      exact ⟨t', ht'⟩
  | call receiver name args =>
    obtain ⟨t', ts, m, ht', hts, -, -⟩ := typeOf_call_eq_ok h
    rcases List.mem_cons.1 he with rfl | he
    · exact ⟨t', ht'⟩
    · exact exists_typeOf_of_typesOf hts he
  | staticCall cls name args =>
    obtain ⟨ts, m, hts, -, -⟩ := typeOf_staticCall_eq_ok h
    exact exists_typeOf_of_typesOf hts he
  | new cls args =>
    obtain ⟨ts, k, hts, -, -⟩ := typeOf_new_eq_ok h
    exact exists_typeOf_of_typesOf hts he
  | binary op left right =>
    obtain ⟨l, r, bt, hl, hr, -, -⟩ := typeOf_binary_eq_ok h
    simp only [Expr.parts, List.mem_cons, List.not_mem_nil, or_false] at he
    rcases he with rfl | rfl
    · exact ⟨l, hl⟩
    · exact ⟨r, hr⟩
  | unary op operand =>
    obtain ⟨t', ht', -⟩ := typeOf_unary_eq_ok h
    rw [List.mem_singleton.1 he]
    exact ⟨t', ht'⟩

end Context

/-! ## Parts of statements -/

/-- The statements of a list, each with the variables that are visible before it. -/
def placed : List Stmt → Scope → List (Stmt × Scope)
  | [], _ => []
  | x :: rest, s => (x, s) :: placed rest (x.after s)

namespace Stmt

/-- The statements that a statement is made of, each with the variables that are visible before it. -/
def parts : Stmt → Scope → List (Stmt × Scope)
  | .block stmts, s => placed stmts s.enter
  | .cond _ t none, s => [(t, s.enter)]
  | .cond _ t (some e), s => [(t, s.enter), (e, (t.after s.enter).pop.enter)]
  | .loop _ body, s => [(body, s.enter)]
  | .decl .., _ | .expr _, _ | .ret _, _ | .superCall _, _ => []

/-- The expressions that a statement evaluates itself, apart from the statements that it is made of. -/
def exprs : Stmt → List Expr
  | .decl _ _ (some e) | .expr e | .ret (some e) => [e]
  | .cond test _ _ | .loop test _ => [test]
  | .decl _ _ none | .ret none | .block _ | .superCall _ => []

end Stmt

mutual

/-- The types of all variables that are declared in a statement, at any depth. -/
def Stmt.varTypes : Stmt → List Ty
  | .block stmts => varTypesAll stmts
  | .decl _ ty _ => [ty]
  | .cond _ t none => t.varTypes
  | .cond _ t (some e) => t.varTypes ++ e.varTypes
  | .loop _ body => body.varTypes
  | .expr _ | .ret _ | .superCall _ => []

def varTypesAll : List Stmt → List Ty
  | [] => []
  | x :: rest => x.varTypes ++ varTypesAll rest

end

mutual

theorem Scope.Valued.after : ∀ {x : Stmt} {s : Scope}, s.Valued → (∀ t ∈ x.varTypes, t.isVoid = false) →
    (x.after s).Valued
  | .block stmts, s, h, hx => by
    rw [Stmt.varTypes] at hx
    rw [Stmt.after]
    exact (Scope.Valued.afterAll h.enter hx).pop
  | .decl name ty init, s, h, hx => by
    rw [Stmt.after]
    exact h.declare name (hx ty (by simp [Stmt.varTypes]))
  | .expr _, s, h, _ | .ret _, s, h, _ | .superCall _, s, h, _ => by
    rw [Stmt.after]
    exact h
  | .cond _ t none, s, h, hx => by
    rw [Stmt.varTypes] at hx
    rw [Stmt.after]
    exact (Scope.Valued.after h.enter hx).pop
  | .cond _ t (some e), s, h, hx => by
    rw [Stmt.varTypes, List.forall_mem_append] at hx
    rw [Stmt.after]
    exact (Scope.Valued.after (Scope.Valued.after h.enter hx.1).pop.enter hx.2).pop
  | .loop _ body, s, h, hx => by
    rw [Stmt.varTypes] at hx
    rw [Stmt.after]
    exact (Scope.Valued.after h.enter hx).pop

theorem Scope.Valued.afterAll : ∀ {xs : List Stmt} {s : Scope}, s.Valued → (∀ t ∈ varTypesAll xs, t.isVoid = false) →
    (afterAll xs s).Valued
  | [], s, h, _ => by
    rw [ClassTree.afterAll]
    exact h
  | x :: rest, s, h, hx => by
    rw [varTypesAll, List.forall_mem_append] at hx
    rw [ClassTree.afterAll]
    exact Scope.Valued.afterAll (Scope.Valued.after h hx.1) hx.2

end

/-- The statement is well typed, and all variables that it sees or declares hold values. -/
structure Stmt.Valued (c : Context) (x : Stmt) (s : Scope) : Prop where
  wellTyped : x.WellTyped c s
  vars : ∀ t ∈ x.varTypes, t.isVoid = false
  scope : s.Valued

/-- So are the statements of a list. -/
theorem valued_of_mem_placed {c : Context} {xs : List Stmt} {s : Scope} (hw : allWellTyped c xs s)
    (hvars : ∀ t ∈ varTypesAll xs, t.isVoid = false) (hs : s.Valued) : ∀ y ∈ placed xs s, y.1.Valued c y.2 := by
  induction xs generalizing s with
  | nil => exact fun y hy => nomatch hy
  | cons x xs ih =>
    rw [allWellTyped] at hw
    rw [varTypesAll, List.forall_mem_append] at hvars
    intro y hy
    rcases List.mem_cons.1 hy with rfl | hy
    · exact ⟨hw.1, hvars.1, hs⟩
    · exact ih hw.2 hvars.2 (hs.after hvars.1) y hy

namespace Stmt.Valued

variable {c : Context} {x : Stmt} {s : Scope}

/-- The statements that a statement is made of are as it is. -/
theorem part (h : x.Valued c s) {y : Stmt} {t : Scope} (hy : (y, t) ∈ x.parts s) : y.Valued c t := by
  obtain ⟨hw, hvars, hs⟩ := h
  cases x with
  | block stmts =>
    rw [WellTyped] at hw
    rw [varTypes] at hvars
    exact valued_of_mem_placed hw hvars hs.enter (y, t) hy
  | cond test x e =>
    cases e with
    | none =>
      rw [WellTyped] at hw
      rw [varTypes] at hvars
      cases List.mem_singleton.1 hy
      exact ⟨hw.2, hvars, hs.enter⟩
    | some e =>
      rw [WellTyped] at hw
      rw [varTypes, List.forall_mem_append] at hvars
      simp only [parts, List.mem_cons, List.not_mem_nil, or_false] at hy
      rcases hy with hy | hy
      · cases hy
        exact ⟨hw.2.1, hvars.1, hs.enter⟩
      · cases hy
        exact ⟨hw.2.2, hvars.2, (hs.enter.after hvars.1).pop.enter⟩
  | loop test body =>
    rw [WellTyped] at hw
    rw [varTypes] at hvars
    cases List.mem_singleton.1 hy
    exact ⟨hw.2, hvars, hs.enter⟩
  | decl _ _ _ | expr _ | ret _ | superCall _ => cases hy

/-- The expressions that it evaluates have types. -/
theorem typeOf_expr (h : x.Valued c s) {e : Expr} (he : e ∈ x.exprs) : ∃ t, c.typeOf s e = .ok t := by
  have hw := h.wellTyped
  cases x with
  | decl name ty init =>
    cases init with
    | none => cases he
    | some e' =>
      rw [WellTyped] at hw
      rw [List.mem_singleton.1 he]
      obtain ⟨⟨t, ht, -⟩, -⟩ := hw
      exact ⟨t, ht⟩
  | expr e' =>
    rw [WellTyped] at hw
    rw [List.mem_singleton.1 he]
    exact hw
  | ret value =>
    cases value with
    | none => cases he
    | some e' =>
      rw [WellTyped] at hw
      rw [List.mem_singleton.1 he]
      obtain ⟨-, t, ht, -⟩ := hw
      exact ⟨t, ht⟩
  | cond test x' e' =>
    rw [List.mem_singleton.1 he]
    cases e' with
    | none =>
      rw [WellTyped] at hw
      exact ⟨_, hw.1⟩
    | some e' =>
      rw [WellTyped] at hw
      exact ⟨_, hw.1⟩
  | loop test body =>
    rw [WellTyped] at hw
    rw [List.mem_singleton.1 he]
    exact ⟨_, hw.1⟩
  | block _ | superCall _ => cases he

end Stmt.Valued

/-! ## Lowered bodies -/

mutual

theorem Stmt.varTypes_mapExpr (f : Expr → Expr) : ∀ x : Stmt, (x.mapExpr f).varTypes = x.varTypes
  | .block stmts => by rw [Stmt.mapExpr_block, Stmt.varTypes, Stmt.varTypes, varTypesAll_mapExpr]
  | .decl .. => by simp only [Stmt.mapExpr, Stmt.varTypes]
  | .expr _ => by simp only [Stmt.mapExpr, Stmt.varTypes]
  | .ret _ => by simp only [Stmt.mapExpr, Stmt.varTypes]
  | .superCall _ => by simp only [Stmt.mapExpr, Stmt.varTypes]
  | .cond _ t none => by rw [Stmt.mapExpr, Stmt.varTypes, Stmt.varTypes, Stmt.varTypes_mapExpr]
  | .cond _ t (some e) => by
    rw [Stmt.mapExpr, Stmt.varTypes, Stmt.varTypes, Stmt.varTypes_mapExpr f t, Stmt.varTypes_mapExpr f e]
  | .loop _ body => by rw [Stmt.mapExpr, Stmt.varTypes, Stmt.varTypes, Stmt.varTypes_mapExpr]

theorem varTypesAll_mapExpr (f : Expr → Expr) : ∀ xs : List Stmt,
    varTypesAll (xs.map (Stmt.mapExpr f)) = varTypesAll xs
  | [] => rfl
  | x :: rest => by rw [List.map_cons, varTypesAll, varTypesAll, Stmt.varTypes_mapExpr, varTypesAll_mapExpr]

end

theorem varTypesAll_append (xs ys : List Stmt) : varTypesAll (xs ++ ys) = varTypesAll xs ++ varTypesAll ys := by
  induction xs with
  | nil => rfl
  | cons x xs ih => rw [List.cons_append, varTypesAll, varTypesAll, ih, List.append_assoc]

/-- Lowering declares no variables. -/
theorem varTypesAll_lowerBody (optimize : Bool) (body : List Stmt) :
    varTypesAll (lowerBody optimize body) = varTypesAll body := by
  rw [lowerBody_eq, varTypesAll_append, varTypesAll_mapExpr]
  split <;> simp [varTypesAll, Stmt.varTypes]

end ClassTree
