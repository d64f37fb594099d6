import ClassTree.Lowered
import ClassTree.Proofs.Outcome

/-!
# Folding keeps types

An expression has the same type after folding, or fails with the same finding (`Context.typeOf_fold_eq`), because an operator
between constants that is replaced by its result has a type, and the result is of that type.
-/

namespace ClassTree

/-! ## Constants -/

namespace Literal

variable {op : BinaryOp} {l : Literal}

theorem ty_ofOrdering? {ord : Ordering} (h : ofOrdering? op ord = some l) : l.ty = .boolean ∧ op.isArithmetic = false := by
  cases op <;> cases h <;> exact ⟨rfl, rfl⟩

/-- The type of an operator between numbers of one type. -/
def folded (op : BinaryOp) (t : Ty) : Ty := if op.isArithmetic then t else .boolean

theorem folded_of_ordering {t : Ty} (h : l.ty = .boolean ∧ op.isArithmetic = false) : l.ty = folded op t := by
  rw [folded, h.1, h.2]
  rfl

theorem ty_foldInts? {a b : Int32} (h : foldInts? op a b = some l) : l.ty = folded op .int := by
  cases op
  case div | rem =>
    simp only [foldInts?] at h
    split at h
    · cases h
    · cases h; rfl
  case add | sub | mul => cases h; rfl
  case and | or => cases h
  all_goals exact folded_of_ordering (ty_ofOrdering? h)

theorem ty_foldLongs? {a b : Int64} (h : foldLongs? op a b = some l) : l.ty = folded op .long := by
  cases op
  case div | rem =>
    simp only [foldLongs?] at h
    split at h
    · cases h
    · cases h; rfl
  case add | sub | mul => cases h; rfl
  case and | or => cases h
  all_goals exact folded_of_ordering (ty_ofOrdering? h)

theorem ty_foldDoubles? {a b : Double} (h : foldDoubles? op a b = some l) : l.ty = folded op .double := by
  cases op
  case add | sub | mul | div | rem => cases h; rfl
  all_goals
    obtain ⟨ord, -, hord⟩ := Option.bind_eq_some_iff.1 h
    exact folded_of_ordering (ty_ofOrdering? hord)

theorem ty_foldBools? {a b : Bool} (h : foldBools? op a b = some l) : l.ty = .boolean := by
  cases op <;> cases h <;> rfl

end Literal

namespace Expr

theorem foldedBinary_cases (op : BinaryOp) (l r : Expr) :
    (∃ k, foldedBinary op l r = .lit k) ∨ foldedBinary op l r = .binary op l r := by
  unfold foldedBinary
  split
  · split
    · exact .inl ⟨_, rfl⟩
    · exact .inr rfl
  · exact .inr rfl

theorem foldedUnary_cases (op : UnaryOp) (e : Expr) :
    (∃ k, foldedUnary op e = .lit k) ∨ foldedUnary op e = .unary op e := by
  unfold foldedUnary
  split
  · split
    · exact .inl ⟨_, rfl⟩
    · exact .inr rfl
  · exact .inr rfl

/-- Folding makes no target of an assignment, and takes none away. -/
theorem isAssignable_fold (e : Expr) : e.fold.isAssignable = e.isAssignable := by
  cases e with
  | binary op left right =>
    rw [fold]
    rcases foldedBinary_cases op left.fold right.fold with ⟨l, hl⟩ | hkept
    · rw [hl]
      rfl
    · rw [hkept]
      rfl
  | unary op e =>
    rw [fold]
    rcases foldedUnary_cases op e.fold with ⟨l, hl⟩ | hkept
    · rw [hl]
      rfl
    · rw [hkept]
      rfl
  | _ => rfl

end Expr

namespace Ty

/-- Only numbers are brought to a common type. -/
theorem isNumeric_of_promote {l r t : Ty} (h : l.promote r = some t) : l.isNumeric = true ∧ r.isNumeric = true := by
  unfold promote at h
  split at h
  · rename_i hnum
    simpa using hnum
  · cases h

theorem isString_of_isNumeric {t : Ty} (h : t.isNumeric = true) : t.isString = false := by
  cases t <;> first | rfl | cases h

end Ty

namespace Context

variable {c : Context} {op : BinaryOp}

/-- What an operator between numbers works on. -/
theorem binary_of_promote {l r t : Ty} {bt : BinaryTyping} (h : c.binary op l r = .ok bt) (hp : l.promote r = some t) :
    bt = ⟨some t, Literal.folded op t, false⟩ := by
  obtain ⟨hl, hr⟩ := Ty.isNumeric_of_promote hp
  have hlstring := Ty.isString_of_isNumeric hl
  have hrstring := Ty.isString_of_isNumeric hr
  have hboolean : (l = .boolean && r = .boolean) = false := by cases l <;> first | rfl | cases hl
  simp only [binary, hlstring, hrstring, hboolean, hp, Bool.or_false, Bool.and_false, Bool.false_eq_true, if_false] at h
  cases op <;> cases h <;> rfl

/-- The result of an operator between constants is of the type that the operator has. -/
theorem result_of_foldBinary? {a b l : Literal} {bt : BinaryTyping} (h : Literal.foldBinary? op a b = some l)
    (hbt : c.binary op a.ty b.ty = .ok bt) : bt.result = l.ty := by
  unfold Literal.foldBinary? at h
  split at h
  · split at h
    · rename_i hop
      subst hop
      cases h
      cases hbt
      rfl
    · cases h
  · rw [Literal.ty_foldBools? h]
    cases op <;> cases h <;> cases hbt <;> rfl
  · split at h
    · rename_i x y hx hy
      have hfold : ∀ t, a.ty.promote b.ty = some t → l.ty = Literal.folded op t → bt.result = l.ty := by
        intro t hp hl
        rw [binary_of_promote hbt hp, hl]
      cases a <;> cases hx <;> cases b <;> cases hy
      · exact hfold _ rfl (Literal.ty_foldInts? h)
      · exact hfold _ rfl (Literal.ty_foldLongs? h)
      · exact hfold _ rfl (Literal.ty_foldDoubles? h)
      · exact hfold _ rfl (Literal.ty_foldLongs? h)
      · exact hfold _ rfl (Literal.ty_foldLongs? h)
      · exact hfold _ rfl (Literal.ty_foldDoubles? h)
      · exact hfold _ rfl (Literal.ty_foldDoubles? h)
      · exact hfold _ rfl (Literal.ty_foldDoubles? h)
      · exact hfold _ rfl (Literal.ty_foldDoubles? h)
    · cases h

/-- Operators between numbers have a type. -/
theorem exists_binary_of_promote {l r t : Ty} (hop : op.isLogical = false) (hp : l.promote r = some t) :
    ∃ bt, c.binary op l r = .ok bt := by
  have hlstring := Ty.isString_of_isNumeric (Ty.isNumeric_of_promote hp).1
  have hrstring := Ty.isString_of_isNumeric (Ty.isNumeric_of_promote hp).2
  simp only [binary, hlstring, hrstring, hp, Bool.or_false, Bool.and_false, Bool.false_eq_true, if_false]
  cases op <;> first | exact ⟨_, rfl⟩ | cases hop

/-- No operator of truth values is folded between numbers. -/
theorem isLogical_of_foldNumbers? {x y : Number} {l : Literal} (h : Literal.foldNumbers? op x y = some l) :
    op.isLogical = false := by
  have hdoubles : ∀ {a b : Double}, Literal.foldDoubles? op a b = some l → op.isLogical = false := by
    intro a b h
    cases op <;> first | rfl | (obtain ⟨ord, -, hord⟩ := Option.bind_eq_some_iff.1 h; cases hord)
  cases x <;> cases y <;> first | exact hdoubles h | (cases op <;> first | rfl | cases h)

/-- An operator between constants that has a result has a type, and the result is of it. -/
theorem exists_binary_of_foldBinary? {a b l : Literal} (h : Literal.foldBinary? op a b = some l) :
    ∃ bt, c.binary op a.ty b.ty = .ok bt ∧ bt.result = l.ty := by
  suffices hok : ∃ bt, c.binary op a.ty b.ty = .ok bt by
    obtain ⟨bt, hbt⟩ := hok
    exact ⟨bt, hbt, result_of_foldBinary? h hbt⟩
  unfold Literal.foldBinary? at h
  split at h
  · split at h
    · rename_i hop
      subst hop
      exact ⟨_, rfl⟩
    · cases h
  · cases op <;> first | exact ⟨_, rfl⟩ | cases h
  · split at h
    · rename_i x y hx hy
      refine exists_binary_of_promote (t := (a.ty.promote b.ty).getD .void) (isLogical_of_foldNumbers? h) ?_
      cases a <;> cases hx <;> cases b <;> cases hy <;> rfl
    · cases h

/-- An operator on a constant that has a result has the type of the result. -/
theorem unary_of_foldUnary? {op : UnaryOp} {a l : Literal} (h : Literal.foldUnary? op a = some l) :
    c.unary op a.ty = .ok l.ty := by
  cases op <;> cases a <;> cases h <;> rfl

theorem result_of_foldUnary? {op : UnaryOp} {a l : Literal} {t : Ty} (h : Literal.foldUnary? op a = some l)
    (ht : c.unary op a.ty = .ok t) : t = l.ty := by
  rw [unary_of_foldUnary? h] at ht
  exact (Except.ok.inj ht).symm

/-! ## Expressions -/

variable {scope : Scope} {left right : Expr}

/-- An operator between folded expressions is typed as it is typed unfolded, or fails with the same finding. -/
theorem typeOf_foldedBinary_eq : c.typeOf scope (Expr.foldedBinary op left right) = c.typeOf scope (.binary op left right) := by
  unfold Expr.foldedBinary
  split
  · split
    · rename_i hfold
      obtain ⟨bt, hbt, hresult⟩ := exists_binary_of_foldBinary? (c := c) hfold
      rw [typeOf, typeOf, typeOf, typeOf, ← hresult]
      change _ = (c.binary op _ _ >>= fun t => pure t.result)
      rw [hbt]
      rfl
    · rfl
  · rfl

theorem typeOf_foldedUnary_eq {op : UnaryOp} {e : Expr} :
    c.typeOf scope (Expr.foldedUnary op e) = c.typeOf scope (.unary op e) := by
  unfold Expr.foldedUnary
  split
  · split
    · rename_i hfold
      rw [typeOf, typeOf, typeOf]
      exact (bind_eq_ok.2 ⟨_, rfl, unary_of_foldUnary? hfold⟩).symm
    · rfl
  · rfl

theorem typeOf_foldedBinary {l r : Ty} {bt : BinaryTyping} (hl : c.typeOf scope left = .ok l)
    (hr : c.typeOf scope right = .ok r) (hbt : c.binary op l r = .ok bt) :
    c.typeOf scope (Expr.foldedBinary op left right) = .ok bt.result := by
  rw [typeOf_foldedBinary_eq, typeOf]
  exact bind_eq_ok.2 ⟨l, hl, bind_eq_ok.2 ⟨r, hr, bind_eq_ok.2 ⟨bt, hbt, rfl⟩⟩⟩

mutual

/-- Folding changes neither the type of an expression nor the finding that it has none. -/
theorem typeOf_fold_eq : ∀ e : Expr, c.typeOf scope e.fold = c.typeOf scope e
  | .lit _ | .var _ | .this | .outer => rfl
  | .field target name => by rw [Expr.fold, typeOf, typeOf, typeOf_fold_eq target]
  | .assign target value => by
    rw [Expr.fold, typeOf, typeOf, typeOf_fold_eq target, typeOf_fold_eq value, requireAssignable, requireAssignable,
      Expr.isAssignable_fold]
  | .call receiver method args => by rw [Expr.fold, typeOf, typeOf, typeOf_fold_eq receiver, typesOf_fold_eq args]
  | .staticCall cls method args => by rw [Expr.fold, typeOf, typeOf, typesOf_fold_eq args]
  | .new cls args => by rw [Expr.fold, typeOf, typeOf, typesOf_fold_eq args]
  | .binary op left right => by
    rw [Expr.fold, typeOf_foldedBinary_eq, typeOf, typeOf, typeOf_fold_eq left, typeOf_fold_eq right]
  | .unary op e => by rw [Expr.fold, typeOf_foldedUnary_eq, typeOf, typeOf, typeOf_fold_eq e]

theorem typesOf_fold_eq : ∀ es : List Expr, c.typesOf scope (Expr.foldAll es) = c.typesOf scope es
  | [] => rfl
  | e :: rest => by rw [Expr.foldAll, typesOf, typesOf, typeOf_fold_eq e, typesOf_fold_eq rest]

end

theorem typeOf_fold {e : Expr} {t : Ty} (h : c.typeOf scope e = .ok t) : c.typeOf scope e.fold = .ok t :=
  (typeOf_fold_eq e).trans h

theorem typesOf_fold {es : List Expr} {ts : List Ty} (h : c.typesOf scope es = .ok ts) :
    c.typesOf scope (Expr.foldAll es) = .ok ts := (typesOf_fold_eq es).trans h

theorem typeOf_optimized {optimize : Bool} {e : Expr} {t : Ty} (h : c.typeOf scope e = .ok t) :
    c.typeOf scope (e.optimized optimize) = .ok t := by
  cases optimize with
  | true => exact typeOf_fold h
  | false => exact h

theorem typesOf_optimized {optimize : Bool} {es : List Expr} {ts : List Ty} (h : c.typesOf scope es = .ok ts) :
    c.typesOf scope (es.map (Expr.optimized optimize)) = .ok ts := by
  induction es generalizing ts with
  | nil => exact h
  | cons e rest ih =>
    simp only [typesOf, bind_eq_ok] at h
    obtain ⟨t, ht, ts, hts, heq⟩ := h
    simp only [List.map_cons, typesOf, bind_eq_ok]
    exact ⟨t, typeOf_optimized ht, ts, ih hts, heq⟩

end Context

end ClassTree
