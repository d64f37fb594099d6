import ClassTree.Proofs.Compile.Checked

/-!
# Code of folded expressions

`Gen.Gives x a`: from some pool `x` makes `a`. `Gen.Tracks x y R`: if `x` gives something, `y` makes something in the relation
`R` to it from every pool, unless a limit is met; there is one rule for each way in which code is made. The code of an
expression is so tracked by that of the folded expression, with references resolved beforehand (`Typed.expr_folds`) or by name
(`ByName.expr_folds`), whether or not the expression was ever checked. What folding makes of it has the type that came with its
code (`Typed.ty_of_fold`).
-/

namespace ClassTree

namespace Gen

/-- From some pool the computation makes `a`. -/
def Gives {α : Type} (x : Gen α) (a : α) : Prop := ∃ p q, x p = .ok a q

namespace Gives

variable {α β : Type} {x : Gen α} {f : α → Gen β} {a b : α} {d : Diagnostic}

theorem bind {b : β} (h : Gives (x >>= f) b) : ∃ a, Gives x a ∧ Gives (f a) b := by
  obtain ⟨p, q, hpq⟩ := h
  obtain ⟨a, p', hx, hf⟩ := bind_ok_cases hpq
  exact ⟨a, ⟨p, p', hx⟩, p', q, hf⟩

theorem pure (h : Gives (Pure.pure a) b) : a = b := by
  obtain ⟨p, q, hpq⟩ := h
  cases hpq
  rfl

theorem throw (h : Gives (MonadExcept.throw d) a) : False := by
  obtain ⟨p, q, hpq⟩ := h
  cases hpq

theorem ofExcept {x : Except Diagnostic α} (h : Gives (Gen.ofExcept x) a) : x = .ok a := by
  cases x with
  | ok a' => rw [h.pure]
  | error d => exact h.throw.elim

end Gives

/-- If `x` gives something, `y` makes something in the relation to it, unless a limit is met. -/
structure Tracks {α β : Type} (x : Gen α) (y : Gen β) (R : α → β → Prop) : Prop where
  settles {a : α} : Gives x a → Settles Diagnostic.IsLimit y (R a)

namespace Tracks

variable {α β γ δ : Type} {x : Gen α} {y : Gen β} {R : α → β → Prop} {S : γ → δ → Prop}

/-- The rule for what is made whatever `x` gives. -/
theorem of_settles {Q : β → Prop} (h : Settles Diagnostic.IsLimit y Q) : Tracks x y fun _ b => Q b where
  settles _ := h

theorem pure {a : α} {b : β} (h : R a b) : Tracks (Pure.pure a) (Pure.pure b) R where
  settles ha := by
    cases ha.pure
    exact .pure h

theorem throw {d : Diagnostic} : Tracks (MonadExcept.throw d : Gen α) y R where
  settles h := h.throw.elim

theorem bind {f : α → Gen γ} {g : β → Gen δ} (hx : Tracks x y R) (hf : ∀ a b, R a b → Tracks (f a) (g b) S) :
    Tracks (x >>= f) (y >>= g) S where
  settles hc := by
    obtain ⟨a, ha, hfa⟩ := hc.bind
    exact .bind (hx.settles ha) fun b hb => (hf a b hb).settles hfa

/-- The rule for what does not depend on the pool, and comes to the same on both sides. -/
theorem ofExcept_bind {e e' : Except Diagnostic α} {f : α → Gen γ} {g : α → Gen δ} (he : ∀ {a}, e = .ok a → e' = .ok a)
    (hf : ∀ a, Tracks (f a) (g a) S) : Tracks (Gen.ofExcept e >>= f) (Gen.ofExcept e' >>= g) S where
  settles hc := by
    obtain ⟨a, ha, hfa⟩ := hc.bind
    exact .ofExcept_bind (he ha.ofExcept) ((hf a).settles hfa)

theorem same_bind {e : Except Diagnostic α} {f : α → Gen γ} {g : α → Gen δ} (hf : ∀ a, Tracks (f a) (g a) S) :
    Tracks (Gen.ofExcept e >>= f) (Gen.ofExcept e >>= g) S := ofExcept_bind id hf

theorem instr (make make' : Pool → Instr × Pool) : Tracks (Gen.instr make) (Gen.instr make') fun _ _ => True :=
  of_settles (.instr make')

end Tracks

end Gen

open Gen

theorem Expr.foldAll_eq_map (es : List Expr) : foldAll es = es.map fold := by
  induction es with
  | nil => rfl
  | cons e es ih => rw [foldAll, List.map_cons, ih]

/-! ## Expressions with resolved references -/

/-- A comparison of constants, or one of the operators that may leave out an operand, comes to a truth value. -/
theorem Literal.ty_foldBinary? {op : BinaryOp} (hop : op.isArithmetic = false) {a b l : Literal}
    (h : Literal.foldBinary? op a b = some l) : l.ty = .boolean := by
  have hfolded : ∀ t, l.ty = Literal.folded op t → l.ty = .boolean := by
    intro t hl
    rw [hl, Literal.folded, hop]
    rfl
  unfold Literal.foldBinary? at h
  split at h
  · split at h
    · rename_i hadd
      rw [hadd] at hop
      cases hop
    · cases h
  · exact Literal.ty_foldBools? h
  · split at h
    · rename_i x y _ _
      cases x <;> cases y
      · exact hfolded _ (Literal.ty_foldInts? h)
      · exact hfolded _ (Literal.ty_foldLongs? h)
      · exact hfolded _ (Literal.ty_foldDoubles? h)
      · exact hfolded _ (Literal.ty_foldLongs? h)
      · exact hfolded _ (Literal.ty_foldLongs? h)
      · exact hfolded _ (Literal.ty_foldDoubles? h)
      · exact hfolded _ (Literal.ty_foldDoubles? h)
      · exact hfolded _ (Literal.ty_foldDoubles? h)
      · exact hfolded _ (Literal.ty_foldDoubles? h)
    · cases h

theorem Expr.ty_of_foldedBinary {op : BinaryOp} (hop : op.instr? = none) {left right : Expr} {l : Literal}
    (h : Expr.foldedBinary op left right = .lit l) : l.ty = .boolean := by
  have hlogical : op.isArithmetic = false := by
    cases op <;> first | rfl | cases hop
  unfold Expr.foldedBinary at h
  split at h
  · split at h
    · rename_i hfold
      cases h
      exact Literal.ty_foldBinary? hlogical hfold
    · cases h
  · cases h

namespace Typed

variable {c : Context} {scope : Scope}

/-- A constant that an expression with code folds to has the type that came with the code. -/
theorem ty_of_fold (keep : Bool) : ∀ {e : Expr} {code : Block} {t : Ty} {l : Literal},
    Gives (expr c scope keep e) (code, t) → e.fold = .lit l → l.ty = t
  | .lit l', code, t, l, h, hfold => by
    cases hfold
    rw [expr] at h
    obtain ⟨_, -, h⟩ := h.bind
    cases h.pure
    rfl
  | .binary op left right, code, t, l, h, hfold => by
    rw [Expr.fold] at hfold
    rw [expr] at h
    split at h
    · rename_i hop
      obtain ⟨_, -, h⟩ := h.bind
      obtain ⟨_, -, h⟩ := h.bind
      cases h.pure
      exact Expr.ty_of_foldedBinary hop hfold
    · obtain ⟨lt, hl, h⟩ := h.bind
      obtain ⟨rt, hr, h⟩ := h.bind
      obtain ⟨bt, hbt, h⟩ := h.bind
      obtain ⟨_, -, h⟩ := h.bind
      obtain ⟨_, -, h⟩ := h.bind
      cases h.pure
      have hty := Context.typeOf_foldedBinary (Context.typeOf_fold hl.ofExcept) (Context.typeOf_fold hr.ofExcept) hbt.ofExcept
      rw [hfold, Context.typeOf] at hty
      exact Except.ok.inj hty
  | .unary op operand, code, t, l, h, hfold => by
    rw [Expr.fold] at hfold
    rw [expr] at h
    obtain ⟨⟨_, t'⟩, hoperand, h⟩ := h.bind
    obtain ⟨result, hresult, h⟩ := h.bind
    cases h.pure
    unfold Expr.foldedUnary at hfold
    split at hfold
    · rename_i a heq
      split at hfold
      · rename_i hunary
        cases hfold
        have ha := ty_of_fold true hoperand heq
        exact (Context.result_of_foldUnary? hunary (ha ▸ hresult.ofExcept)).symm
      · cases hfold
    · cases hfold
  | .var _, _, _, _, _, hfold | .this, _, _, _, _, hfold | .outer, _, _, _, _, hfold | .field .., _, _, _, _, hfold
  | .assign .., _, _, _, _, hfold | .call .., _, _, _, _, hfold | .staticCall .., _, _, _, _, hfold
  | .new .., _, _, _, _, hfold => by
    rw [Expr.fold] at hfold
    cases hfold

/-- The rule for what folds to a constant or keeps its form. -/
theorem tracks_fold {keep : Bool} {e e' : Expr} (hcases : (∃ l, e.fold = .lit l) ∨ e.fold = e')
    (h : Tracks (expr c scope keep e) (expr c scope keep e') fun r r' => r'.2 = r.2) :
    Tracks (expr c scope keep e) (expr c scope keep e.fold) fun r r' => r'.2 = r.2 := by
  rcases hcases with ⟨l, hfold⟩ | hfold
  · rw [hfold, expr]
    exact ⟨fun hgives => .bind (c.literal_settles l) fun _ _ => .pure (ty_of_fold keep hgives hfold)⟩
  · rw [hfold]
    exact h

theorem newOuter_tracks (e : ClassEntry) : Tracks (newOuter c e) (newOuter c e) fun r r' => r'.2 = r.2 := by
  unfold newOuter
  cases e.isInner with
  | false => exact .pure rfl
  | true =>
    refine .same_bind fun source => ?_
    cases source with
    | this => exact .pure rfl
    | outerOfThis => exact .bind (.of_settles (loadOuter_settles c _)) fun _ _ _ => .pure rfl

mutual

/-- The code of a folded expression comes with the same type. -/
theorem expr_folds (keep : Bool) : ∀ e : Expr,
    Tracks (expr c scope keep e) (expr c scope keep e.fold) fun r r' => r'.2 = r.2
  | .lit l => by
    rw [Expr.fold, expr]
    exact .bind (.of_settles (c.literal_settles l)) fun _ _ _ => .pure rfl
  | .var name => by
    rw [Expr.fold, expr]
    refine .same_bind fun target => ?_
    cases target with
    | slot v => exact .pure rfl
    | field f => exact .bind (.instr _ _) fun _ _ _ => .pure rfl
  | .this => by
    rw [Expr.fold, expr]
    exact .same_bind fun _ => .pure rfl
  | .outer => by
    rw [Expr.fold, expr]
    exact .same_bind fun _ => .bind (.of_settles (loadOuter_settles c _)) fun _ _ _ => .pure rfl
  | .field target name => by
    rw [Expr.fold, expr, expr]
    apply Tracks.bind (expr_folds true target)
    rintro ⟨_, _⟩ ⟨_, _⟩ rfl
    exact .same_bind fun _ => .bind (.instr _ _) fun _ _ _ => .pure rfl
  | .assign (.var name) value => by
    rw [Expr.fold, Expr.fold, expr, expr]
    refine .same_bind fun target => ?_
    cases target with
    | slot v => exact .bind (expr_folds true value) fun _ _ _ => .pure rfl
    | field f =>
      exact .bind (expr_folds true value) fun _ _ _ => .bind (.of_settles (storeField_settles keep f)) fun _ _ _ => .pure rfl
  | .assign (.field object name) value => by
    have hfold : ∀ {t : Ty}, c.typeOf scope (.field object name) = .ok t → c.typeOf scope (.field object.fold name) = .ok t := by
      intro t ht
      have hfold := Context.typeOf_fold ht
      rwa [Expr.fold] at hfold
    rw [Expr.fold, Expr.fold, expr, expr]
    refine .ofExcept_bind hfold fun _ => ?_
    apply Tracks.bind (expr_folds true object)
    rintro ⟨_, _⟩ ⟨_, _⟩ rfl
    refine .same_bind fun f => .bind (expr_folds true value) fun _ _ _ => ?_
    exact .bind (.of_settles (storeField_settles keep f)) fun _ _ _ => .pure rfl
  | .assign (.lit _) _ | .assign .this _ | .assign .outer _ | .assign (.assign ..) _ | .assign (.call ..) _
  | .assign (.staticCall ..) _ | .assign (.new ..) _ | .assign (.binary ..) _ | .assign (.unary ..) _ => by
    refine ⟨fun h => ?_⟩
    obtain ⟨_, -, h⟩ := Gives.bind h
    exact h.throw.elim
  | .call receiver name args => by
    rw [Expr.fold, expr, expr]
    refine .ofExcept_bind Context.typeOf_fold fun _ => .ofExcept_bind Context.typesOf_fold fun _ => .same_bind fun m => ?_
    refine .bind (expr_folds true receiver) fun _ _ _ => ?_
    dsimp only
    split
    · exact .bind (exprs_folds args ..) fun _ _ _ => .bind (.instr _ _) fun _ _ _ => .pure rfl
    · exact .bind (exprs_folds args ..) fun _ _ _ => .bind (.instr _ _) fun _ _ _ => .pure rfl
  | .staticCall cls name args => by
    rw [Expr.fold, expr, expr]
    refine .ofExcept_bind Context.typesOf_fold fun _ => .same_bind fun m => ?_
    exact .bind (exprs_folds args ..) fun _ _ _ => .bind (.instr _ _) fun _ _ _ => .pure rfl
  | .new cls args => by
    rw [Expr.fold, expr, expr]
    refine .ofExcept_bind Context.typesOf_fold fun _ => .same_bind fun _ => .same_bind fun entry => ?_
    refine .bind (.instr _ _) fun _ _ _ => .bind (newOuter_tracks entry) fun _ _ _ => ?_
    exact .bind (exprs_folds args ..) fun _ _ _ => .bind (.instr _ _) fun _ _ _ => .pure rfl
  | .binary op left right => by
    refine tracks_fold (e := .binary op left right) (Expr.foldedBinary_cases op left.fold right.fold) ?_
    rw [expr, expr]
    split
    · exact .bind (expr_folds true left) fun _ _ _ => .bind (expr_folds true right) fun _ _ _ => .pure rfl
    · refine .ofExcept_bind Context.typeOf_fold fun _ => .ofExcept_bind Context.typeOf_fold fun _ => .same_bind fun _ => ?_
      exact .bind (expr_folds true left) fun _ _ _ => .bind (expr_folds true right) fun _ _ _ => .pure rfl
  | .unary op operand => by
    refine tracks_fold (e := .unary op operand) (Expr.foldedUnary_cases op operand.fold) ?_
    rw [expr, expr]
    apply Tracks.bind (expr_folds true operand)
    rintro ⟨_, _⟩ ⟨_, _⟩ rfl
    exact .same_bind fun _ => .pure rfl

theorem exprs_folds : ∀ (es : List Expr) (params : List Ty) (done done' : Block),
    Tracks (exprs c scope es params done) (exprs c scope (Expr.foldAll es) params done') fun _ _ => True
  | [], _, _, _ => .pure trivial
  | _ :: _, [], _, _ => .pure trivial
  | e :: rest, p :: params, _, _ => by
    rw [Expr.foldAll, exprs, exprs]
    exact .bind (expr_folds true e) fun _ _ _ => exprs_folds rest ..

end

theorem superCall_folds (superclass : Name) (args : List Expr) :
    Tracks (superCall c scope superclass args) (superCall c scope superclass (Expr.foldAll args)) fun _ _ => True := by
  refine .ofExcept_bind Context.typesOf_fold fun _ => .same_bind fun k => ?_
  exact .bind (exprs_folds args ..) fun _ _ _ => .bind (.instr _ _) fun _ _ _ => .pure trivial

end Typed

/-! ## Expressions with names as references -/

namespace ByName

variable {c : Context} {scope : Scope}

theorem getField_settles {E : Diagnostic → Prop} (name : String) : Settles E (getField name) fun _ => True := .instr _

theorem loadOuter_settles {E : Diagnostic → Prop} : Settles E loadOuter fun _ => True :=
  .bind (getField_settles _) fun _ _ => .pure trivial

theorem storeField_settles {E : Diagnostic → Prop} (keep : Bool) (name : String) :
    Settles E (storeField keep name) fun _ => True :=
  .bind (.instr _) fun _ _ => .pure trivial

theorem newOuter_settles {E : Diagnostic → Prop} (source : Option OuterSource) :
    Settles E (newOuter source) fun _ => True := by
  cases source with
  | none => exact .pure trivial
  | some source =>
    cases source with
    | this => exact .pure trivial
    | outerOfThis => exact loadOuter_settles

theorem outerSource?_tracks (e : ClassEntry) : Tracks (outerSource? c e) (outerSource? c e) fun s s' => s' = s := by
  unfold outerSource?
  split
  · exact .same_bind fun _ => .pure rfl
  · exact .pure rfl

theorem requireInstance_bind {α β : Type} {what : String} {f : Unit → Gen α} {g : Unit → Gen β} {R : α → β → Prop}
    (hf : Tracks (f ()) (g ()) R) : Tracks (requireInstance c what >>= f) (requireInstance c what >>= g) R :=
  .same_bind fun _ => hf

/-- The rule for what folds to a constant or keeps its form. -/
theorem tracks_fold {keep : Bool} {e e' : Expr} (hcases : (∃ l, e.fold = .lit l) ∨ e.fold = e')
    (h : Tracks (expr c scope keep e) (expr c scope keep e') fun _ _ => True) :
    Tracks (expr c scope keep e) (expr c scope keep e.fold) fun _ _ => True := by
  rcases hcases with ⟨l, hfold⟩ | hfold
  · rw [hfold, expr]
    exact .of_settles (c.literal_settles l)
  · rw [hfold]
    exact h

theorem length_foldAll (es : List Expr) : (Expr.foldAll es).length = es.length := by
  rw [Expr.foldAll_eq_map, List.length_map]

mutual

/-- The code of a folded expression. -/
theorem expr_folds (keep : Bool) : ∀ e : Expr, Tracks (expr c scope keep e) (expr c scope keep e.fold) fun _ _ => True
  | .lit l => .of_settles (c.literal_settles l)
  | .var name => by
    rw [Expr.fold, expr]
    split
    · exact .pure trivial
    · exact requireInstance_bind (.bind (.of_settles (getField_settles _)) fun _ _ _ => .pure trivial)
  | .this => by
    rw [Expr.fold, expr]
    exact requireInstance_bind (.pure trivial)
  | .outer => by
    rw [Expr.fold, expr]
    apply requireInstance_bind
    cases c.cls.isInner with
    | true => exact .of_settles loadOuter_settles
    | false => exact .bind (R := fun _ _ => False) .throw fun _ _ h => h.elim
  | .field target name => by
    rw [Expr.fold, expr, expr]
    exact .bind (expr_folds true target) fun _ _ _ => .bind (.of_settles (getField_settles _)) fun _ _ _ => .pure trivial
  | .assign (.var name) value => by
    rw [Expr.fold, Expr.fold, expr, expr]
    split
    · exact .bind (expr_folds true value) fun _ _ _ => .pure trivial
    · apply requireInstance_bind
      exact .bind (expr_folds true value) fun _ _ _ => .bind (.of_settles (storeField_settles keep name)) fun _ _ _ =>
        .pure trivial
  | .assign (.field object name) value => by
    rw [Expr.fold, Expr.fold, expr, expr]
    exact .bind (expr_folds true object) fun _ _ _ => .bind (expr_folds true value) fun _ _ _ =>
      .bind (.of_settles (storeField_settles keep name)) fun _ _ _ => .pure trivial
  | .assign (.lit _) _ | .assign .this _ | .assign .outer _ | .assign (.assign ..) _ | .assign (.call ..) _
  | .assign (.staticCall ..) _ | .assign (.new ..) _ | .assign (.binary ..) _ | .assign (.unary ..) _ => .throw
  | .call receiver name args => by
    rw [Expr.fold, expr, expr, length_foldAll]
    exact .bind (.of_settles (c.argCount_settles _)) fun _ _ _ => .bind (expr_folds true receiver) fun _ _ _ =>
      .bind (exprs_folds args ..) fun _ _ _ => .bind (.instr _ _) fun _ _ _ => .pure trivial
  | .staticCall cls name args => by
    rw [Expr.fold, expr, expr, length_foldAll]
    exact .bind (.of_settles (c.argCount_settles _)) fun _ _ _ => .bind (exprs_folds args ..) fun _ _ _ =>
      .bind (.instr _ _) fun _ _ _ => .pure trivial
  | .new cls args => by
    rw [Expr.fold, expr, expr, length_foldAll]
    refine .same_bind fun e => .bind (outerSource?_tracks e) fun _ source _ => ?_
    refine .bind (.of_settles (c.argCount_settles _)) fun _ _ _ => .bind (.instr _ _) fun _ _ _ => ?_
    exact .bind (.of_settles (newOuter_settles source)) fun _ _ _ => .bind (exprs_folds args ..) fun _ _ _ =>
      .bind (.instr _ _) fun _ _ _ => .pure trivial
  | .binary op left right => by
    refine tracks_fold (e := .binary op left right) (Expr.foldedBinary_cases op left.fold right.fold) ?_
    rw [expr, expr]
    refine .bind (expr_folds true left) fun _ _ _ => .bind (expr_folds true right) fun _ _ _ => ?_
    split
    · exact .pure trivial
    · exact .pure trivial
  | .unary op operand => by
    refine tracks_fold (e := .unary op operand) (Expr.foldedUnary_cases op operand.fold) ?_
    rw [expr, expr]
    exact .bind (expr_folds true operand) fun _ _ _ => .pure trivial

theorem exprs_folds : ∀ (es : List Expr) (done done' : Block),
    Tracks (exprs c scope es done) (exprs c scope (Expr.foldAll es) done') fun _ _ => True
  | [], _, _ => .pure trivial
  | e :: rest, _, _ => by
    rw [Expr.foldAll, exprs, exprs]
    exact .bind (expr_folds true e) fun _ _ _ => exprs_folds rest ..

end

theorem superCall_folds (superclass : Name) (args : List Expr) :
    Tracks (superCall c scope superclass args) (superCall c scope superclass (Expr.foldAll args)) fun _ _ => True := by
  unfold superCall
  rw [length_foldAll]
  exact .bind (.of_settles (c.argCount_settles _)) fun _ _ _ => .bind (exprs_folds args ..) fun _ _ _ =>
    .bind (.instr _ _) fun _ _ _ => .pure trivial

end ByName

end ClassTree
