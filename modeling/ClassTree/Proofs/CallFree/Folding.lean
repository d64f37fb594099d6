import ClassTree.Machine.Call
import ClassTree.Proofs.CallFree.Semantics
import ClassTree.Proofs.Double
import ClassTree.Proofs.Typing.Fold

/-!
# Folding keeps values and errors

`Expr.outcome`: the value of an expression of constants, variables and operators, or the error with which it ends, where
nothing but the values decides: two numbers are widened to the wider of their types, then the operator does what its
instruction does.

* What a constant is folded into is what the operator makes of its operands, whether or not these were widened beforehand
  (`Number.operator_of_foldNumbers?`): brought to one type twice, two numbers are the pair that they are brought to once.
* Folding keeps the outcome of every expression, and what is folded once is folded for good (`Expr.fold_keeps_outcome`). The
  same holds of the evaluation that goes by types, which code follows, with types that are known or not.
-/

namespace ClassTree

/-! ## Numbers -/

namespace Number

/-- The type of a number. -/
def ty : Number → Ty
  | .int _ => .int
  | .long _ => .long
  | .double _ => .double

def value : Number → Value
  | .int n => .int n
  | .long n => .long n
  | .double d => .double d

@[simp] theorem number?_value (x : Number) : x.value.number? = some x := by cases x <;> rfl

@[simp] theorem typeOf_value (h : Heap) (x : Number) : h.typeOf x.value = x.ty := by cases x <;> rfl

/-- Two numbers that are widened to the wider of their types are the same pair of numbers of one type as before. -/
theorem pair_widen (x y : Number) : ∃ t x' y', x.ty.promote y.ty = some t ∧ x.value.widen t x.ty = pure (value x') ∧
    y.value.widen t y.ty = pure (value y') ∧ x'.pair y' = x.pair y := by
  cases x with
  | int a =>
    cases y with
    | int b => exact ⟨.int, .int a, .int b, rfl, rfl, rfl, rfl⟩
    | long b => exact ⟨.long, .long a.toInt64, .long b, rfl, rfl, rfl, rfl⟩
    | double b => exact ⟨.double, .double (.ofInt a.toInt), .double b, rfl, rfl, rfl, rfl⟩
  | long a =>
    cases y with
    | int b => exact ⟨.long, .long a, .long b.toInt64, rfl, rfl, rfl, rfl⟩
    | long b => exact ⟨.long, .long a, .long b, rfl, rfl, rfl, rfl⟩
    | double b => exact ⟨.double, .double (.ofInt a.toInt), .double b, rfl, rfl, rfl, rfl⟩
  | double a =>
    cases y with
    | int b => exact ⟨.double, .double a, .double (.ofInt b.toInt), rfl, rfl, rfl, rfl⟩
    | long b => exact ⟨.double, .double a, .double (.ofInt b.toInt), rfl, rfl, rfl, rfl⟩
    | double b => exact ⟨.double, .double a, .double b, rfl, rfl, rfl, rfl⟩

/-- Numbers are equal if, brought to one type, they have no order but that of equals. -/
theorem looseEq_value (x y : Number) : x.value.looseEq y.value = decide ((x.pair y).compare? = some .eq) := by
  have hmixed : ∀ (a : Int32) (b : Int64),
      (Double.ofInt a.toInt).equal (.ofInt b.toInt) = decide (some (compare a.toInt64.toInt b.toInt) = some .eq) := by
    intro a b
    rw [Bool.eq_iff_iff, Double.equal_ofInt_iff, ← Int64.toInt_inj]
    simp
  cases x with
  | int a =>
    cases y with
    | int b => simp [Value.looseEq, value, Value.number?, pair, NumberPair.compare?, Int32.toInt_inj]
    | long b => exact hmixed a b
    | double b => rfl
  | long a =>
    cases y with
    | int b =>
      refine (Double.equal_comm _ _).trans ((hmixed b a).trans ?_)
      simp only [pair, NumberPair.compare?, Option.some.injEq, Std.compare_eq_iff_eq]
      exact decide_eq_decide.2 eq_comm
    | long b => simp [Value.looseEq, value, Value.number?, pair, NumberPair.compare?, Int64.toInt_inj]
    | double b => rfl
  | double a => cases y <;> rfl

theorem arith_value (h : Heap) (op : ArithOp) (x y : Number) : h.arith op x.value y.value = (x.pair y).arith op := by
  simp only [Heap.arith, Heap.operands, number?_value]
  rfl

theorem compare_value (h : Heap) (op : CompareOp) (x y : Number) :
    h.compare op x.value y.value = .ok (.bool (op.holds (x.pair y).compare?)) := by
  cases op with
  | eq => rw [Heap.compare, looseEq_value]; rfl
  | ne => rw [Heap.compare, looseEq_value, ← decide_not]; rfl
  | lt | le | gt | ge => simp only [Heap.compare, Heap.operands, number?_value]; rfl

end Number

/-! ## Constants -/

namespace Literal

variable {op : BinaryOp} {a b l : Literal}

theorem value_of_number? {x : Number} (h : a.number? = some x) : Value.ofLiteral a = x.value ∧ a.ty = x.ty := by
  cases a <;> cases h <;> exact ⟨rfl, rfl⟩

theorem ofOrdering?_compare {cop : CompareOp} {ord : Ordering} (hop : op.instr? = some (.compare cop))
    (h : ofOrdering? op ord = some l) : l = .bool (cop.holds (some ord)) := by
  cases op <;> cases hop <;> cases h <;> cases ord <;> rfl

/-- Folding brings two numbers to one type as the machine does. -/
theorem foldNumbers?_eq (x y : Number) : foldNumbers? op x y = match x.pair y with
    | .ints a b => foldInts? op a b
    | .longs a b => foldLongs? op a b
    | .doubles a b => foldDoubles? op a b := by
  cases x <;> cases y <;> rfl

section Arithmetic

variable {aop : ArithOp}

/-- A quotient is folded only if it is no division by zero. -/
theorem quotient_of_fold {zero : Prop} [Decidable zero] {k : Literal} (h : (if zero then none else some k) = some l) :
    (if zero then .error .divisionByZero else .ok (.ofLiteral k)) = (.ok (.ofLiteral l) : Except RuntimeError Value) := by
  split at h
  · cases h
  · rename_i hzero
    cases h
    exact if_neg hzero

theorem arith_of_foldInts? {a b : Int32} (hop : op.instr? = some (.arith aop)) (h : foldInts? op a b = some l) :
    aop.onInts a b = .ok (.ofLiteral l) := by
  cases aop with
  | add | sub | mul => cases op <;> cases hop; cases h; rfl
  | div | rem => cases op <;> cases hop; exact quotient_of_fold h

theorem arith_of_foldLongs? {a b : Int64} (hop : op.instr? = some (.arith aop)) (h : foldLongs? op a b = some l) :
    aop.onLongs a b = .ok (.ofLiteral l) := by
  cases aop with
  | add | sub | mul => cases op <;> cases hop; cases h; rfl
  | div | rem => cases op <;> cases hop; exact quotient_of_fold h

/-- An arithmetic operator makes of two numbers what it is folded into. -/
theorem arith_of_foldNumbers? {x y : Number} (hop : op.instr? = some (.arith aop)) (h : foldNumbers? op x y = some l) :
    (x.pair y).arith aop = .ok (.ofLiteral l) := by
  rw [foldNumbers?_eq] at h
  cases hpair : x.pair y with
  | ints a b => rw [hpair] at h; exact arith_of_foldInts? hop h
  | longs a b => rw [hpair] at h; exact arith_of_foldLongs? hop h
  | doubles a b =>
    rw [hpair] at h
    cases aop <;> cases op <;> cases hop <;> cases h <;> rfl

end Arithmetic

theorem compare_of_foldNumbers? {cop : CompareOp} {x y : Number} (hop : op.instr? = some (.compare cop))
    (h : foldNumbers? op x y = some l) : l = .bool (cop.holds (x.pair y).compare?) := by
  rw [foldNumbers?_eq] at h
  cases hpair : x.pair y with
  | ints a b =>
    rw [hpair] at h
    have hord : ofOrdering? op (compare a.toInt b.toInt) = some l := by cases op <;> first | exact h | cases hop
    exact ofOrdering?_compare hop hord
  | longs a b =>
    rw [hpair] at h
    have hord : ofOrdering? op (compare a.toInt b.toInt) = some l := by cases op <;> first | exact h | cases hop
    exact ofOrdering?_compare hop hord
  | doubles a b =>
    rw [hpair] at h
    have hbind : (a.compare? b).bind (ofOrdering? op) = some l := by cases op <;> first | exact h | cases hop
    obtain ⟨ord, hord, hl⟩ := Option.bind_eq_some_iff.1 hbind
    rw [NumberPair.compare?, hord]
    exact ofOrdering?_compare hop hl

/-- An instruction between numbers makes what their operator is folded into. -/
theorem operator_of_foldNumbers? {i : Instr} {x y x' y' : Number} (render : Value → Run String) (hop : op.instr? = some i)
    (h : foldNumbers? op x y = some l) (hpair : x'.pair y' = x.pair y) :
    i.operator render x'.value y'.value = pure (.ofLiteral l) := by
  have hinstr : (∃ aop, i = .arith aop) ∨ ∃ cop, i = .compare cop := by
    cases op <;> cases hop <;> first | exact .inl ⟨_, rfl⟩ | exact .inr ⟨_, rfl⟩
  obtain ⟨aop, rfl⟩ | ⟨cop, rfl⟩ := hinstr
  · have harith : arithmetic render aop x'.value y'.value = Run.ask (·.arith aop x'.value y'.value) := by
      cases aop <;> cases x' <;> cases y' <;> rfl
    rw [Instr.operator, harith]
    simp only [Number.arith_value, hpair, arith_of_foldNumbers? hop h]
    rfl
  · rw [Instr.operator, compare_of_foldNumbers? hop h]
    simp only [Number.compare_value, hpair]
    rfl

end Literal

/-! ## Outcomes -/

/-- Two operands as they are put to an operator: numbers are first widened to the wider of their types. -/
def Run.widenOperands (a b : Value) : Run (Value × Value) := do
  let h := (← get).heap
  match (h.typeOf a).promote (h.typeOf b) with
  | some t => return (← a.widen t (h.typeOf a), ← b.widen t (h.typeOf b))
  | none => return (a, b)

/-- What comes of an expression of constants, variables and operators where the variables have values: it is evaluated from
left to right, and only as far as the operators of truth values need. -/
def Expr.outcome (render : Value → Run String) (vars : String → Value) : Expr → Run Value
  | .lit l => pure (.ofLiteral l)
  | .var x => pure (vars x)
  | .binary op left right => do
    let a ← left.outcome render vars
    match op.instr? with
    | none =>
      let b ← Run.ask (·.truth a)
      if b = (op = .and) then right.outcome render vars else return .bool b
    | some i =>
      let b ← right.outcome render vars
      let (a, b) ← Run.widenOperands a b
      i.operator render a b
  | .unary op operand => do
    let v ← operand.outcome render vars
    Run.ask (op.onHeap · v)
  | _ => pure .null

theorem Run.widenOperands_number (x y : Number) : ∃ x' y' : Number, x'.pair y' = x.pair y ∧
    Run.widenOperands x.value y.value = pure (x'.value, y'.value) := by
  obtain ⟨t, x', y', ht, hx, hy, hpair⟩ := x.pair_widen y
  refine ⟨x', y', hpair, ?_⟩
  unfold widenOperands
  simp only [Number.typeOf_value, ht, hx, hy]
  rfl

namespace Expr

variable {vars : String → Value} {run : Frame → Run Value}

/-- What two constants are folded into is what comes of the operator between them. -/
theorem outcome_of_foldBinary? {op : BinaryOp} {a b l : Literal} (h : Literal.foldBinary? op a b = some l) :
    outcome (textOf run) vars (.binary op (.lit a) (.lit b)) = pure (.ofLiteral l) := by
  unfold Literal.foldBinary? at h
  split at h
  · split at h
    · rename_i hop
      subst hop
      cases h
      rfl
    · cases h
  · rename_i x y
    cases op <;> cases h <;> cases x <;> cases y <;> rfl
  · split at h
    · rename_i x y hx hy
      obtain ⟨x', y', hpair, hwiden⟩ := Run.widenOperands_number x y
      obtain ⟨i, hi⟩ : ∃ i, op.instr? = some i := by
        have := Context.isLogical_of_foldNumbers? h
        cases op <;> first | exact ⟨_, rfl⟩ | cases this
      simp only [outcome, hi, (Literal.value_of_number? hx).1, (Literal.value_of_number? hy).1, pure_bind, hwiden]
      exact Literal.operator_of_foldNumbers? _ hi h hpair
    · cases h

theorem outcome_of_foldUnary? {op : UnaryOp} {a l : Literal} (h : Literal.foldUnary? op a = some l) :
    outcome (textOf run) vars (.unary op (.lit a)) = pure (.ofLiteral l) := by
  cases op <;> cases a <;> cases h <;> rfl

theorem outcome_foldedBinary (op : BinaryOp) (left right : Expr) :
    outcome (textOf run) vars (foldedBinary op left right) = outcome (textOf run) vars (.binary op left right) := by
  unfold foldedBinary
  split
  · split
    · rename_i h
      rw [outcome_of_foldBinary? h, outcome]
    · rfl
  · rfl

theorem outcome_foldedUnary (op : UnaryOp) (e : Expr) :
    outcome (textOf run) vars (foldedUnary op e) = outcome (textOf run) vars (.unary op e) := by
  unfold foldedUnary
  split
  · split
    · rename_i h
      rw [outcome_of_foldUnary? h, outcome]
    · rfl
  · rfl

theorem outcome_fold (e : Expr) : e.fold.outcome (textOf run) vars = e.outcome (textOf run) vars := by
  cases e with
  | binary op left right => rw [fold, outcome_foldedBinary, outcome, outcome, outcome_fold left, outcome_fold right]
  | unary op e => rw [fold, outcome_foldedUnary, outcome, outcome, outcome_fold e]
  | _ => rfl

/-! ## Folding again -/

theorem fold_foldedBinary (op : BinaryOp) {left right : Expr} (hl : left.fold = left) (hr : right.fold = right) :
    (foldedBinary op left right).fold = foldedBinary op left right := by
  rcases foldedBinary_cases op left right with ⟨l, hlit⟩ | hkept
  · rw [hlit, fold]
  · rw [hkept, fold, hl, hr, hkept]

theorem fold_foldedUnary (op : UnaryOp) {e : Expr} (he : e.fold = e) : (foldedUnary op e).fold = foldedUnary op e := by
  rcases foldedUnary_cases op e with ⟨l, hlit⟩ | hkept
  · rw [hlit, fold]
  · rw [hkept, fold, he, hkept]

mutual

/-- What is folded once is folded for good. -/
theorem fold_fold : ∀ e : Expr, e.fold.fold = e.fold
  | .lit _ | .var _ | .this | .outer => rfl
  | .field target name => by rw [fold, fold, fold_fold target]
  | .assign target value => by rw [fold, fold, fold_fold target, fold_fold value]
  | .call receiver name args => by rw [fold, fold, fold_fold receiver, foldAll_foldAll args]
  | .staticCall cls name args => by rw [fold, fold, foldAll_foldAll args]
  | .new cls args => by rw [fold, fold, foldAll_foldAll args]
  | .binary op left right => by rw [fold, fold_foldedBinary op (fold_fold left) (fold_fold right)]
  | .unary op e => by rw [fold, fold_foldedUnary op (fold_fold e)]

theorem foldAll_foldAll : ∀ es : List Expr, foldAll (foldAll es) = foldAll es
  | [] => rfl
  | e :: rest => by rw [foldAll, foldAll, fold_fold e, foldAll_foldAll rest]

end

/-! ## Evaluation by types -/

section Compute

variable {s : Setting} {scope : Scope}

/-- The numbers that an operator is put to are the same pair whether types are known or not. -/
theorem typing_number (scope : Scope) {op : BinaryOp} {x y : Number} {a b : Literal} (hop : op.isLogical = false)
    (hx : a.number? = some x) (hy : b.number? = some y) : ∃ x' y' : Number, x'.pair y' = x.pair y ∧
      (s.typing scope op (.lit a) (.lit b)).isConcat = false ∧
      (s.typing scope op (.lit a) (.lit b)).widen (s.typeOf scope (.lit a)) x.value = pure x'.value ∧
      (s.typing scope op (.lit a) (.lit b)).widen (s.typeOf scope (.lit b)) y.value = pure y'.value := by
  cases hs : s.types with
  | none => refine ⟨x, y, rfl, ?_, ?_, ?_⟩ <;> simp only [Setting.typing, Setting.known, hs] <;> rfl
  | some c =>
    obtain ⟨t, x', y', ht, hwx, hwy, hpair⟩ := x.pair_widen y
    rw [← (Literal.value_of_number? hx).2, ← (Literal.value_of_number? hy).2] at ht
    obtain ⟨bt, hbt⟩ := Context.exists_binary_of_promote (c := c) hop ht
    have htyping : s.typing scope op (.lit a) (.lit b) = bt := by
      simp only [Setting.typing, Setting.typeOf, Setting.known, hs]
      exact congrArg (fun e : Except _ _ => e.toOption.getD _) hbt
    have htypeOf : ∀ l : Literal, s.typeOf scope (.lit l) = l.ty := by
      intro l
      simp only [Setting.typeOf, Setting.known, hs]
      rfl
    rw [htyping, htypeOf, htypeOf, (Literal.value_of_number? hx).2, (Literal.value_of_number? hy).2,
      Context.binary_of_promote hbt ht]
    exact ⟨x', y', hpair, rfl, hwx, hwy⟩

/-- What two constants are folded into is what the evaluation by types makes of the operator between them. -/
theorem compute_of_foldBinary? (hheld : s.held = id) (hrender : s.render = textOf run) {op : BinaryOp} {a b l : Literal}
    (h : Literal.foldBinary? op a b = some l) (locals : Slots) :
    compute s scope (.binary op (.lit a) (.lit b)) locals = pure (.ofLiteral l, locals) := by
  have hconstant : ∀ l : Literal, s.constant l = .ofLiteral l := by
    intro l
    cases l <;> simp [Setting.constant, Value.ofLiteral, hheld]
  unfold Literal.foldBinary? at h
  split at h
  · split at h
    · rename_i hop
      subst hop
      cases h
      obtain ⟨types, held, render, rounds⟩ := s
      cases hheld
      cases hrender
      cases types <;> rfl
    · cases h
  · rename_i x y
    obtain ⟨types, held, render, rounds⟩ := s
    cases op <;> cases h <;> cases x <;> cases y <;> cases types <;> rfl
  · split at h
    · rename_i x y hx hy
      have hop := Context.isLogical_of_foldNumbers? h
      obtain ⟨i, hi⟩ : ∃ i, op.instr? = some i := by
        cases op <;> first | exact ⟨_, rfl⟩ | cases hop
      obtain ⟨x', y', hpair, hconcat, hwx, hwy⟩ := typing_number (s := s) scope hop hx hy
      simp only [compute, hi, hconstant, (Literal.value_of_number? hx).1, (Literal.value_of_number? hy).1, pure_bind, hwx, hwy,
        BinaryTyping.instr, hconcat, Bool.false_eq_true, if_false, Literal.operator_of_foldNumbers? _ hi h hpair]
    · cases h

theorem compute_of_foldUnary? (hheld : s.held = id) {op : UnaryOp} {a l : Literal} (h : Literal.foldUnary? op a = some l)
    (locals : Slots) : compute s scope (.unary op (.lit a)) locals = pure (.ofLiteral l, locals) := by
  obtain ⟨types, held, render, rounds⟩ := s
  cases hheld
  cases op <;> cases a <;> cases h <;> rfl

theorem compute_lit (hheld : s.held = id) (l : Literal) (locals : Slots) :
    compute s scope (.lit l) locals = pure (.ofLiteral l, locals) := by
  cases l <;> simp [compute, Setting.constant, Value.ofLiteral, hheld]

theorem compute_foldedBinary (hheld : s.held = id) (hrender : s.render = textOf run) (op : BinaryOp) (left right : Expr)
    (locals : Slots) :
    compute s scope (foldedBinary op left right) locals = compute s scope (.binary op left right) locals := by
  unfold foldedBinary
  split
  · split
    · rename_i h
      rw [compute_of_foldBinary? hheld hrender h, compute_lit hheld]
    · rfl
  · rfl

theorem compute_foldedUnary (hheld : s.held = id) (op : UnaryOp) (e : Expr) (locals : Slots) :
    compute s scope (foldedUnary op e) locals = compute s scope (.unary op e) locals := by
  unfold foldedUnary
  split
  · split
    · rename_i h
      rw [compute_of_foldUnary? hheld h, compute_lit hheld]
    · rfl
  · rfl

theorem settingTypeOf_fold (e : Expr) : s.typeOf scope e.fold = s.typeOf scope e := by
  simp only [Setting.typeOf, Context.typeOf_fold_eq]

/-- Folding keeps what the evaluation by types makes of an expression. -/
theorem compute_fold (hheld : s.held = id) (hrender : s.render = textOf run) :
    ∀ (e : Expr) (locals : Slots), e.fold.compute s scope locals = e.compute s scope locals
  | .lit _, _ | .var _, _ | .this, _ | .outer, _ | .field .., _ | .call .., _ | .staticCall .., _ | .new .., _ => rfl
  | .assign (.var x) value, locals => by
    rw [fold, fold, compute, compute, compute_fold hheld hrender value, settingTypeOf_fold]
  | .assign (.binary op l r) _, _ => by
    rw [fold, fold]
    rcases foldedBinary_cases op l.fold r.fold with ⟨k, hk⟩ | hk <;> rw [hk] <;> rfl
  | .assign (.unary op e) _, _ => by
    rw [fold, fold]
    rcases foldedUnary_cases op e.fold with ⟨k, hk⟩ | hk <;> rw [hk] <;> rfl
  | .assign (.lit _) _, _ | .assign .this _, _ | .assign .outer _, _ | .assign (.field ..) _, _ | .assign (.assign ..) _, _
  | .assign (.call ..) _, _ | .assign (.staticCall ..) _, _ | .assign (.new ..) _, _ => rfl
  | .binary op left right, locals => by
    have htyping : s.typing scope op left.fold right.fold = s.typing scope op left right := by
      simp only [Setting.typing, settingTypeOf_fold]
    have hleft := compute_fold hheld hrender left
    have hright := compute_fold hheld hrender right
    rw [fold, compute_foldedBinary hheld hrender, compute, compute, hleft]
    simp only [hright, htyping, settingTypeOf_fold]
  | .unary op e, locals => by
    rw [fold, compute_foldedUnary hheld, compute, compute, compute_fold hheld hrender e]

end Compute

/-! ## Both evaluations -/

/-- Folding keeps what comes of every expression of constants, variables and operators, the value as well as the error and
what becomes of the machine, whatever the variables hold; and so it does where types, if they are known, decide how numbers are
widened and texts are joined. What is folded once is folded for good. -/
theorem fold_keeps_outcome (run : Frame → Run Value) (e : Expr) :
    (∀ vars, e.fold.outcome (textOf run) vars = e.outcome (textOf run) vars) ∧
      (∀ types rounds scope locals,
        e.fold.compute ⟨types, id, textOf run, rounds⟩ scope locals =
          e.compute ⟨types, id, textOf run, rounds⟩ scope locals) ∧
      e.fold.fold = e.fold :=
  ⟨fun _ => outcome_fold e, fun _ _ _ locals => compute_fold rfl rfl e locals, fold_fold e⟩

/-- The least number divided by `-1` is itself, and a division by zero stays where it is. -/
example : (binary .add (.binary .div (.lit (.int (-2147483648))) (.lit (.int (-1))))
      (.binary .rem (.lit (.long 7)) (.lit (.int 0)))).fold =
    .binary .add (.lit (.int (-2147483648))) (.binary .rem (.lit (.long 7)) (.lit (.int 0))) := rfl

end Expr

end ClassTree
