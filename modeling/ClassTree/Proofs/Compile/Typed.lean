import ClassTree.Proofs.Compile.Makes
import ClassTree.Proofs.Typing.Chosen

/-!
# The type that comes with code

The type that comes with the code of an expression whose members are resolved beforehand is the static type of the
expression, except that an assignment whose value is not kept leaves nothing (`Typed.expr_yields`).
-/

namespace ClassTree

/-- The type of what the code of an expression of a type leaves. -/
def Expr.kept (e : Expr) (keep : Bool) (t : Ty) : Ty := if e.isAssign && !keep then .void else t

@[simp] theorem Expr.kept_true (e : Expr) (t : Ty) : e.kept true t = t := by simp [kept]

theorem Expr.kept_assign (target value : Expr) (keep : Bool) (t : Ty) :
    (Expr.assign target value).kept keep t = if keep then t else .void := by
  cases keep <;> rfl

namespace Context

variable {c : Context} {scope : Scope}

theorem typeOf_var_eq_ok {name : String} {t : Ty} (h : c.typeOf scope (.var name) = .ok t) :
    ∃ target, c.lookupVar scope name = .ok target ∧ t = match target with
      | .slot v => v.ty
      | .field f => f.ty := by
  obtain ⟨target, htarget, h⟩ := bind_eq_ok.1 h
  refine ⟨target, htarget, ?_⟩
  cases target <;> (cases h; rfl)

theorem typeOf_field_eq_ok {target : Expr} {name : String} {t : Ty} (h : c.typeOf scope (.field target name) = .ok t) :
    ∃ t' f, c.typeOf scope target = .ok t' ∧ c.field t' name = .ok f ∧ t = f.ty := by
  obtain ⟨t', ht', h⟩ := bind_eq_ok.1 h
  obtain ⟨f, hf, h⟩ := bind_eq_ok.1 h
  cases h
  exact ⟨t', f, ht', hf, rfl⟩

theorem typeOf_assign_eq_ok {target value : Expr} {t : Ty} (h : c.typeOf scope (.assign target value) = .ok t) :
    target.isAssignable = true ∧ c.typeOf scope target = .ok t ∧
      ∃ v, c.typeOf scope value = .ok v ∧ c.registry.isAssignable v t = true := by
  obtain ⟨_, hassignable, h⟩ := bind_eq_ok.1 h
  obtain ⟨t', ht', h⟩ := bind_eq_ok.1 h
  obtain ⟨v, hv, h⟩ := bind_eq_ok.1 h
  obtain ⟨_, hexpect, h⟩ := bind_eq_ok.1 h
  cases h
  refine ⟨?_, ht', v, hv, ?_⟩
  · unfold requireAssignable at hassignable
    split at hassignable
    · assumption
    · cases hassignable
  · unfold expectAssignable at hexpect
    split at hexpect
    · assumption
    · cases hexpect

theorem typeOf_call_eq_ok {receiver : Expr} {name : String} {args : List Expr} {t : Ty}
    (h : c.typeOf scope (.call receiver name args) = .ok t) :
    ∃ r ts m, c.typeOf scope receiver = .ok r ∧ c.typesOf scope args = .ok ts ∧ c.method r name ts = .ok m ∧
      t = m.ret := by
  obtain ⟨r, hr, h⟩ := bind_eq_ok.1 h
  obtain ⟨ts, hts, h⟩ := bind_eq_ok.1 h
  obtain ⟨m, hm, h⟩ := bind_eq_ok.1 h
  cases h
  exact ⟨r, ts, m, hr, hts, hm, rfl⟩

theorem typeOf_staticCall_eq_ok {cls : Name} {name : String} {args : List Expr} {t : Ty}
    (h : c.typeOf scope (.staticCall cls name args) = .ok t) :
    ∃ ts m, c.typesOf scope args = .ok ts ∧ c.staticMethod cls name ts = .ok m ∧ t = m.ret := by
  obtain ⟨ts, hts, h⟩ := bind_eq_ok.1 h
  obtain ⟨m, hm, h⟩ := bind_eq_ok.1 h
  cases h
  exact ⟨ts, m, hts, hm, rfl⟩

theorem typeOf_new_eq_ok {cls : Name} {args : List Expr} {t : Ty} (h : c.typeOf scope (.new cls args) = .ok t) :
    ∃ ts k, c.typesOf scope args = .ok ts ∧ c.constructor cls ts = .ok k ∧ t = .ref cls := by
  obtain ⟨ts, hts, h⟩ := bind_eq_ok.1 h
  obtain ⟨k, hk, h⟩ := bind_eq_ok.1 h
  cases h
  exact ⟨ts, k, hts, hk, rfl⟩

theorem typeOf_binary_eq_ok {op : BinaryOp} {left right : Expr} {t : Ty}
    (h : c.typeOf scope (.binary op left right) = .ok t) :
    ∃ l r bt, c.typeOf scope left = .ok l ∧ c.typeOf scope right = .ok r ∧ c.binary op l r = .ok bt ∧ t = bt.result := by
  obtain ⟨l, hl, h⟩ := bind_eq_ok.1 h
  obtain ⟨r, hr, h⟩ := bind_eq_ok.1 h
  obtain ⟨bt, hbt, h⟩ := bind_eq_ok.1 h
  cases h
  exact ⟨l, r, bt, hl, hr, hbt, rfl⟩

theorem typeOf_unary_eq_ok {op : UnaryOp} {operand : Expr} {t : Ty} (h : c.typeOf scope (.unary op operand) = .ok t) :
    ∃ t', c.typeOf scope operand = .ok t' ∧ c.unary op t' = .ok t := by
  exact bind_eq_ok.1 h

theorem typesOf_cons_eq_ok {e : Expr} {rest : List Expr} {ts : List Ty} (h : c.typesOf scope (e :: rest) = .ok ts) :
    ∃ t ts', c.typeOf scope e = .ok t ∧ c.typesOf scope rest = .ok ts' ∧ ts = t :: ts' := by
  obtain ⟨t, ht, h⟩ := bind_eq_ok.1 h
  obtain ⟨ts', hts', h⟩ := bind_eq_ok.1 h
  cases h
  exact ⟨t, ts', ht, hts', rfl⟩

/-- The type of an operator that may leave out its second operand. -/
theorem binary_of_instr?_none {op : BinaryOp} (hop : op.instr? = none) {l r : Ty} {bt : BinaryTyping}
    (h : c.binary op l r = .ok bt) : l = .boolean ∧ r = .boolean ∧ bt.result = .boolean := by
  have hlogical : op = .and ∨ op = .or := by
    cases op <;> first | (cases hop; done) | simp
  unfold binary at h
  rcases hlogical with rfl | rfl
  all_goals
    simp only [BinaryOp.isArithmetic, BinaryOp.isOrdering, BinaryOp.isEquality] at h
    simp at h
    split at h
    · rename_i hboth
      cases h
      exact ⟨hboth.1, hboth.2, rfl⟩
    · cases h

end Context

namespace Typed

variable {c : Context} {scope : Scope}

/-- The type that comes with the code of an expression is its static type. -/
theorem expr_yields (keep : Bool) : ∀ {e : Expr} {t : Ty}, c.typeOf scope e = .ok t →
    Gen.Yields (expr c scope keep e) fun r => r.2 = e.kept keep t
  | .lit l, t, h => by
    rw [Context.typeOf] at h
    cases h
    rw [expr]
    exact .bind .of_true fun _ _ => .pure rfl
  | .var name, t, h => by
    obtain ⟨target, htarget, rfl⟩ := Context.typeOf_var_eq_ok h
    rw [expr, htarget]
    refine .bind (.ofExcept fun a ha => (Except.ok.inj ha).symm) fun target' heq => ?_
    subst heq
    cases target' with
    | slot v => exact .pure rfl
    | field f => exact .bind .of_true fun _ _ => .pure rfl
  | .this, t, h => by
    rw [Context.typeOf] at h
    obtain ⟨_, -, h⟩ := bind_eq_ok.1 h
    cases h
    rw [expr]
    exact .bind .of_true fun _ _ => .pure rfl
  | .outer, t, h => by
    rw [Context.typeOf] at h
    rw [expr, h]
    refine .bind (.ofExcept fun a ha => (Except.ok.inj ha).symm) fun t' heq => ?_
    exact .bind .of_true fun _ _ => .pure heq
  | .field target name, t, h => by
    obtain ⟨t', f, ht', hf, rfl⟩ := Context.typeOf_field_eq_ok h
    rw [expr]
    refine .bind (expr_yields true ht') fun r hr => ?_
    rw [Expr.kept_true] at hr
    simp only [hr, hf]
    refine .bind (.ofExcept fun a ha => (Except.ok.inj ha).symm) fun f' heq => ?_
    exact .bind .of_true fun _ _ => .pure (by rw [heq]; rfl)
  | .assign (.var name) value, t, h => by
    obtain ⟨-, ht, -⟩ := Context.typeOf_assign_eq_ok h
    obtain ⟨target, htarget, rfl⟩ := Context.typeOf_var_eq_ok ht
    rw [expr, htarget]
    refine .bind (.ofExcept fun a ha => (Except.ok.inj ha).symm) fun target' heq => ?_
    subst heq
    rw [Expr.kept_assign]
    cases target' with
    | slot v => exact .bind .of_true fun _ _ => .pure rfl
    | field f => exact .bind .of_true fun _ _ => .bind .of_true fun _ _ => .pure rfl
  | .assign (.field object name) value, t, h => by
    obtain ⟨-, ht, -⟩ := Context.typeOf_assign_eq_ok h
    rw [expr, ht]
    refine .bind (.ofExcept fun a ha => (Except.ok.inj ha).symm) fun t' heq => ?_
    rw [Expr.kept_assign, ← heq]
    exact .bind .of_true fun _ _ => .bind .of_true fun _ _ => .bind .of_true fun _ _ => .bind .of_true fun _ _ => .pure rfl
  | .assign (.lit _) _, _, h | .assign .this _, _, h | .assign .outer _, _, h | .assign (.assign ..) _, _, h
  | .assign (.call ..) _, _, h | .assign (.staticCall ..) _, _, h | .assign (.new ..) _, _, h
  | .assign (.binary ..) _, _, h | .assign (.unary ..) _, _, h => nomatch (Context.typeOf_assign_eq_ok h).1
  | .call receiver name args, t, h => by
    obtain ⟨r, ts, m, hr, hts, hm, rfl⟩ := Context.typeOf_call_eq_ok h
    rw [expr, hr, hts]
    refine .bind (.ofExcept fun a ha => (Except.ok.inj ha).symm) fun r' hr' => ?_
    refine .bind (.ofExcept fun a ha => (Except.ok.inj ha).symm) fun ts' hts' => ?_
    rw [hr', hts', hm]
    refine .bind (.ofExcept fun a ha => (Except.ok.inj ha).symm) fun m' hm' => ?_
    rw [hm']
    refine .bind .of_true fun _ _ => ?_
    dsimp only
    split
    · exact .bind .of_true fun _ _ => .bind .of_true fun _ _ => .pure rfl
    · exact .bind .of_true fun _ _ => .bind .of_true fun _ _ => .pure rfl
  | .staticCall cls name args, t, h => by
    obtain ⟨ts, m, hts, hm, rfl⟩ := Context.typeOf_staticCall_eq_ok h
    rw [expr, hts]
    refine .bind (.ofExcept fun a ha => (Except.ok.inj ha).symm) fun ts' hts' => ?_
    rw [hts', hm]
    refine .bind (.ofExcept fun a ha => (Except.ok.inj ha).symm) fun m' hm' => ?_
    exact .bind .of_true fun _ _ => .bind .of_true fun _ _ => .pure (by rw [hm']; rfl)
  | .new cls args, t, h => by
    obtain ⟨ts, k, -, -, rfl⟩ := Context.typeOf_new_eq_ok h
    rw [expr]
    exact .bind .of_true fun _ _ => .bind .of_true fun _ _ => .bind .of_true fun _ _ => .bind .of_true fun _ _ =>
      .bind .of_true fun _ _ => .bind .of_true fun _ _ => .bind .of_true fun _ _ => .pure rfl
  | .binary op left right, t, h => by
    obtain ⟨l, r, bt, hl, hr, hbt, rfl⟩ := Context.typeOf_binary_eq_ok h
    rw [expr]
    split
    · rename_i hop
      exact .bind .of_true fun _ _ => .bind .of_true fun _ _ => .pure (Context.binary_of_instr?_none hop hbt).2.2.symm
    · rw [hl, hr]
      refine .bind (.ofExcept fun a ha => (Except.ok.inj ha).symm) fun l' hl' => ?_
      refine .bind (.ofExcept fun a ha => (Except.ok.inj ha).symm) fun r' hr' => ?_
      rw [hl', hr', hbt]
      refine .bind (.ofExcept fun a ha => (Except.ok.inj ha).symm) fun bt' hbt' => ?_
      exact .bind .of_true fun _ _ => .bind .of_true fun _ _ => .pure (by rw [hbt']; rfl)
  | .unary op operand, t, h => by
    obtain ⟨t', ht', hunary⟩ := Context.typeOf_unary_eq_ok h
    rw [expr]
    refine .bind (expr_yields true ht') fun r hr => ?_
    rw [Expr.kept_true] at hr
    simp only [hr, hunary]
    refine .bind (.ofExcept fun a ha => (Except.ok.inj ha).symm) fun t'' heq => ?_
    exact .pure heq

end Typed

end ClassTree
