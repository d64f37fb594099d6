import ClassTree.Proofs.Scalar.Semantics
import ClassTree.Proofs.Typing.Checked

/-!
# Folding keeps the meaning of bodies

A constant that an operator between constants is replaced by is the value of the operator, so an expression evaluates as
before after folding (`Expr.same_optimized`), and so do statements (`Stmt.same_optimized`).
-/

namespace ClassTree

/-! ## Constants -/

namespace Literal

variable {op : BinaryOp} {l : Literal}

theorem onInts_of_foldInts? {a b : Int32} (h : foldInts? op a b = some l) :
    ∃ v, Scalar.ofLiteral? l = some v ∧ Scalar.onInts op a b = .ok v := by
  cases op
  case div | rem =>
    simp only [foldInts?] at h
    split at h
    · cases h
    · rename_i hb
      cases h
      exact ⟨_, rfl, if_neg hb⟩
  case add | sub | mul => cases h; exact ⟨_, rfl, rfl⟩
  case and | or => cases h
  all_goals
    cases h
    refine ⟨_, rfl, ?_⟩
    simp [Scalar.onInts, Std.compare_eq_lt, Std.compare_eq_gt, Int32.lt_iff_toInt_lt, Int32.le_iff_toInt_le,
      Int32.toInt_inj]

theorem onLongs_of_foldLongs? {a b : Int64} (h : foldLongs? op a b = some l) :
    ∃ v, Scalar.ofLiteral? l = some v ∧ Scalar.onLongs op a b = .ok v := by
  cases op
  case div | rem =>
    simp only [foldLongs?] at h
    split at h
    · cases h
    · rename_i hb
      cases h
      exact ⟨_, rfl, if_neg hb⟩
  case add | sub | mul => cases h; exact ⟨_, rfl, rfl⟩
  case and | or => cases h
  all_goals
    cases h
    refine ⟨_, rfl, ?_⟩
    simp [Scalar.onLongs, Std.compare_eq_lt, Std.compare_eq_gt, Int64.lt_iff_toInt_lt, Int64.le_iff_toInt_le,
      Int64.toInt_inj]

/-- Whether the constant is a scalar. -/
def isScalar : Literal → Bool
  | .bool _ | .int _ | .long _ => true
  | _ => false

theorem isScalar_of_ofLiteral? {v : Scalar} (h : Scalar.ofLiteral? l = some v) : l.isScalar = true := by
  cases l <;> first | rfl | cases h

end Literal

namespace Expr

variable {op : BinaryOp} {env : Env}

theorem eval_lit {l : Literal} {v : Scalar} (h : Scalar.ofLiteral? l = some v) : eval env (.lit l) = .ok (v, env) := by
  rw [eval, h]
  rfl

/-- An operator that evaluates both operands. -/
theorem eval_binary {left right : Expr} (h : op.isLogical = false) :
    eval env (.binary op left right) = (do
      let (a, env) ← left.eval env
      let (b, env) ← right.eval env
      return (← Scalar.binary op a b, env)) := by
  cases op <;> first | (cases h; done) | (rw [eval] <;> nofun)

theorem isScalar_lit {l : Literal} : (Expr.lit l).isScalar = l.isScalar := by
  cases l <;> simp only [Expr.isScalar, Literal.isScalar]

end Expr

namespace Literal

variable {op : BinaryOp} {a b l : Literal} {env : Env}

/-- A constant that is the value of an operator between numbers evaluates as the operator. -/
theorem eval_of_value {x y v : Scalar} (hx : Scalar.ofLiteral? a = some x) (hy : Scalar.ofLiteral? b = some y)
    (hl : Scalar.ofLiteral? l = some v) (hv : Scalar.binary op x y = .ok v) :
    Expr.eval env (.lit l) = Expr.eval env (.binary op (.lit a) (.lit b)) := by
  have hop : op.isLogical = false := by
    cases op <;> first | rfl | (cases x <;> cases y <;> cases hv)
  rw [Expr.eval_lit hl, Expr.eval_binary hop, Expr.eval_lit hx]
  change _ = (Expr.eval env (.lit b) >>= _)
  rw [Expr.eval_lit hy]
  change _ = (Scalar.binary op x y >>= _)
  rw [hv]
  rfl

/-- The constant that an operator between scalars is replaced by is a scalar and evaluates as the operator. -/
theorem eval_of_foldBinary? (env : Env) (ha : a.isScalar = true) (hb : b.isScalar = true) (h : foldBinary? op a b = some l) :
    l.isScalar = true ∧ Expr.eval env (.lit l) = Expr.eval env (.binary op (.lit a) (.lit b)) := by
  have hnumbers : ∀ {x y : Scalar}, Scalar.ofLiteral? a = some x → Scalar.ofLiteral? b = some y →
      (∃ v, Scalar.ofLiteral? l = some v ∧ Scalar.binary op x y = .ok v) →
      l.isScalar = true ∧ Expr.eval env (.lit l) = Expr.eval env (.binary op (.lit a) (.lit b)) := by
    rintro x y hx hy ⟨v, hl, hv⟩
    exact ⟨isScalar_of_ofLiteral? hl, eval_of_value hx hy hl hv⟩
  cases a with
  | null | double _ | str _ => cases ha
  | bool a =>
    cases b with
    | null | double _ | str _ => cases hb
    | int b | long b => cases h
    | bool b => cases op <;> cases h <;> cases a <;> cases b <;> exact ⟨rfl, rfl⟩
  | int a =>
    cases b with
    | null | double _ | str _ => cases hb
    | bool b => cases h
    | int b => exact hnumbers rfl rfl (onInts_of_foldInts? h)
    | long b => exact hnumbers rfl rfl (onLongs_of_foldLongs? h)
  | long a =>
    cases b with
    | null | double _ | str _ => cases hb
    | bool b => cases h
    | int b => exact hnumbers rfl rfl (onLongs_of_foldLongs? h)
    | long b => exact hnumbers rfl rfl (onLongs_of_foldLongs? h)

theorem eval_of_foldUnary? (env : Env) {op : UnaryOp} (ha : a.isScalar = true) (h : foldUnary? op a = some l) :
    l.isScalar = true ∧ Expr.eval env (.lit l) = Expr.eval env (.unary op (.lit a)) := by
  cases op <;> cases a <;> first | (cases ha; done) | (cases h; done) | (cases h; exact ⟨rfl, rfl⟩)

end Literal

/-! ## Expressions -/

namespace Expr

variable {env : Env}

/-- What a part of an expression may be replaced by. -/
structure Same (e e' : Expr) : Prop where
  scalar : e'.isScalar = true
  eval : ∀ env, e'.eval env = e.eval env

theorem eval_binary_congr {op : BinaryOp} {l l' r r' : Expr} (hl : Same l l') (hr : Same r r') (env : Env) :
    eval env (.binary op l' r') = eval env (.binary op l r) := by
  have hr' : ∀ env, r'.eval env = r.eval env := hr.eval
  by_cases hop : op.isLogical = true
  · cases op <;> first | (cases hop; done) | skip
    · rw [eval, eval, hl.eval]
      simp only [hr']
    · rw [eval, eval, hl.eval]
      simp only [hr']
  · simp only [Bool.not_eq_true] at hop
    rw [eval_binary hop, eval_binary hop, hl.eval]
    simp only [hr']

theorem same_foldedBinary {op : BinaryOp} {l l' r r' : Expr} (hl : Same l l') (hr : Same r r') :
    Same (.binary op l r) (foldedBinary op l' r') := by
  have hkeep : Same (.binary op l r) (.binary op l' r') :=
    ⟨by simp [isScalar, hl.scalar, hr.scalar], eval_binary_congr hl hr⟩
  unfold foldedBinary
  split
  · split
    · rename_i a b _ v hfold
      have ha : a.isScalar = true := isScalar_lit ▸ hl.scalar
      have hb : b.isScalar = true := isScalar_lit ▸ hr.scalar
      refine ⟨?_, fun env => ?_⟩
      · rw [isScalar_lit]
        exact (Literal.eval_of_foldBinary? [] ha hb hfold).1
      · rw [(Literal.eval_of_foldBinary? env ha hb hfold).2]
        exact hkeep.eval env
    · exact hkeep
  · exact hkeep

theorem same_foldedUnary {op : UnaryOp} {e e' : Expr} (he : Same e e') : Same (.unary op e) (foldedUnary op e') := by
  have hkeep : Same (.unary op e) (.unary op e') :=
    ⟨by simp [isScalar, he.scalar], fun env => by rw [eval, eval, he.eval]⟩
  unfold foldedUnary
  split
  · split
    · rename_i a _ v hfold
      have ha : a.isScalar = true := isScalar_lit ▸ he.scalar
      refine ⟨?_, fun env => ?_⟩
      · rw [isScalar_lit]
        exact (Literal.eval_of_foldUnary? [] ha hfold).1
      · rw [(Literal.eval_of_foldUnary? env ha hfold).2]
        exact hkeep.eval env
    · exact hkeep
  · exact hkeep

/-- Folding keeps expressions in the fragment, and their values. -/
theorem same_fold : ∀ {e : Expr}, e.isScalar = true → Same e e.fold
  | .lit l, h => by rw [fold]; exact ⟨h, fun _ => rfl⟩
  | .var x, h => by rw [fold]; exact ⟨h, fun _ => rfl⟩
  | .assign (.var x) e, h => by
    rw [isScalar] at h
    have he := same_fold h
    rw [fold, fold]
    exact ⟨by rw [isScalar]; exact he.scalar, fun env => by rw [eval, eval, he.eval]⟩
  | .binary op l r, h => by
    rw [isScalar, Bool.and_eq_true] at h
    rw [fold]
    exact same_foldedBinary (same_fold h.1) (same_fold h.2)
  | .unary op e, h => by
    rw [isScalar] at h
    rw [fold]
    exact same_foldedUnary (same_fold h)

theorem same_optimized (optimize : Bool) {e : Expr} (h : e.isScalar = true) : Same e (e.optimized optimize) := by
  cases optimize with
  | true => exact same_fold h
  | false => exact ⟨h, fun _ => rfl⟩

end Expr

/-! ## Statements -/

section Statements

variable {optimize : Bool} {ret : Ty} {n : Nat}

/-- What a statement may be replaced by. -/
structure Stmt.Same (ret : Ty) (n : Nat) (x x' : Stmt) : Prop where
  scalar : x'.isScalar = true
  exec : ∀ env, x'.exec ret n env = x.exec ret n env

mutual

/-- Folding keeps statements in the fragment, and what they do. -/
theorem Stmt.same_optimized : ∀ {x : Stmt}, x.isScalar = true → Stmt.Same ret n x (x.mapExpr (Expr.optimized optimize))
  | .block stmts, h => by
    rw [Stmt.isScalar] at h
    obtain ⟨hscalar, hexec⟩ := allSame_optimized h
    rw [Stmt.mapExpr_block]
    exact ⟨by rw [Stmt.isScalar]; exact hscalar, fun env => by rw [Stmt.exec, Stmt.exec, hexec]⟩
  | .decl x ty none, h => by rw [Stmt.mapExpr]; exact ⟨h, fun _ => rfl⟩
  | .decl x ty (some e), h => by
    rw [Stmt.isScalar, Bool.and_eq_true] at h
    have he := Expr.same_optimized optimize h.2
    rw [Stmt.mapExpr, Option.map_some]
    exact ⟨by rw [Stmt.isScalar, h.1, he.scalar]; rfl, fun env => by rw [Stmt.exec, Stmt.exec, he.eval]⟩
  | .expr e, h => by
    rw [Stmt.isScalar] at h
    have he := Expr.same_optimized optimize h
    rw [Stmt.mapExpr]
    exact ⟨by rw [Stmt.isScalar, he.scalar], fun env => by rw [Stmt.exec, Stmt.exec, he.eval]⟩
  | .ret none, h => by simp [Stmt.isScalar] at h
  | .ret (some e), h => by
    rw [Stmt.isScalar] at h
    have he := Expr.same_optimized optimize h
    rw [Stmt.mapExpr, Option.map_some]
    exact ⟨by rw [Stmt.isScalar, he.scalar], fun env => by rw [Stmt.exec, Stmt.exec, he.eval]⟩
  | .cond test t none, h => by
    rw [Stmt.isScalar, Bool.and_eq_true] at h
    have he := Expr.same_optimized optimize h.1
    have ht := Stmt.same_optimized h.2
    rw [Stmt.mapExpr]
    refine ⟨by rw [Stmt.isScalar, he.scalar, ht.scalar]; rfl, fun env => ?_⟩
    rw [Stmt.exec, Stmt.exec, he.eval]
    simp only [ht.exec]
  | .cond test t (some e), h => by
    simp only [Stmt.isScalar, Bool.and_eq_true] at h
    have htest := Expr.same_optimized optimize h.1.1
    have ht := Stmt.same_optimized h.1.2
    have he := Stmt.same_optimized h.2
    rw [Stmt.mapExpr]
    refine ⟨by rw [Stmt.isScalar, htest.scalar, ht.scalar, he.scalar]; rfl, fun env => ?_⟩
    rw [Stmt.exec, Stmt.exec, htest.eval]
    simp only [ht.exec, he.exec]
  | .loop test body, h => by
    rw [Stmt.isScalar, Bool.and_eq_true] at h
    have he := Expr.same_optimized optimize h.1
    have hbody := Stmt.same_optimized h.2
    rw [Stmt.mapExpr]
    refine ⟨by rw [Stmt.isScalar, he.scalar, hbody.scalar]; rfl, fun env => ?_⟩
    rw [Stmt.exec, Stmt.exec]
    simp only [he.eval, hbody.exec]
  | .superCall args, h => by simp [Stmt.isScalar] at h

theorem allSame_optimized : ∀ {xs : List Stmt}, Stmt.allScalar xs = true →
    Stmt.allScalar (xs.map (Stmt.mapExpr (Expr.optimized optimize))) = true ∧
      ∀ env, Stmt.execAll ret n (xs.map (Stmt.mapExpr (Expr.optimized optimize))) env = Stmt.execAll ret n xs env
  | [], h => ⟨rfl, fun _ => rfl⟩
  | x :: rest, h => by
    rw [Stmt.allScalar, Bool.and_eq_true] at h
    have hx := Stmt.same_optimized h.1
    obtain ⟨hscalar, hexec⟩ := allSame_optimized h.2
    rw [List.map_cons]
    refine ⟨by rw [Stmt.allScalar, hx.scalar, hscalar]; rfl, fun env => ?_⟩
    rw [Stmt.execAll, Stmt.execAll, hx.exec]
    simp only [hexec]

end

end Statements

end ClassTree
