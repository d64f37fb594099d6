import ClassTree.Proofs.Compile.Moves
import ClassTree.Proofs.Typing.Valued

/-!
# What expressions leave on the stack

The code of an expression takes nothing from the stack. With resolved references it leaves one value, or none if the type of
the expression is `void` (`Typed.expr_moves`). With names as references it leaves exactly one, whatever the expression
(`ByName.expr_moves`). An assignment whose value is not kept leaves none in either form. Only the first rests on types: on
all variables and fields holding values. For statements the two forms are one: `compileExpr_moves`, `compileValue_moves`,
`compileDiscarded_moves`, `compileSuperCall_moves`.
-/

namespace ClassTree

open Gen

namespace Expr

/-- How many of its values the code of an expression leaves: none if it is an assignment whose value is not kept. -/
def left (e : Expr) (keep : Bool) (values : Nat) : Nat := if !keep && e.isAssign then 0 else values

@[simp] theorem left_true (e : Expr) (n : Nat) : e.left true n = n := rfl

theorem left_eq {e : Expr} (h : e.isAssign = false) (keep : Bool) (n : Nat) : e.left keep n = n := by simp [left, h]

theorem left_assign (target value : Expr) (keep : Bool) (n : Nat) :
    (assign target value).left keep n = if keep then n else 0 := by
  cases keep <;> rfl

theorem values_kept (e : Expr) (keep : Bool) (t : Ty) : (e.kept keep t).values = e.left keep t.values := by
  unfold kept left
  cases e.isAssign <;> cases keep <;> rfl

end Expr

section Instructions

variable {r : Pool}

/-- An operator takes its operands and leaves its result. -/
theorem moves_binary {op : BinaryOp} {i : Instr} (hop : op.instr? = some i) : (Block.one i).Moves r 2 1 := by
  cases op <;> cases hop <;> exact Block.moves_one (.inl rfl) fun _ => rfl

theorem moves_unary (op : UnaryOp) : (Block.one op.instr).Moves r 1 1 := by
  cases op <;> exact Block.moves_one (.inl rfl) fun _ => rfl

theorem moves_dup : (Block.one .dup).Moves r 1 2 := Block.moves_one (.inl rfl) fun _ => rfl

theorem moves_pop : (Block.one .pop).Moves r 1 0 := Block.moves_one (.inl rfl) fun _ => rfl

theorem moves_store (slot : UInt16) : (Block.one (.store slot)).Moves r 1 0 := Block.moves_one (.inl rfl) fun _ => rfl

theorem moves_load (slot : UInt16) : (Block.one (.load slot)).Moves r 0 1 := Block.moves_one (.inl rfl) fun _ => rfl

theorem moves_dupX1 : (Block.one .dupX1).Moves r 2 3 := Block.moves_one (.inl rfl) fun _ => rfl

end Instructions

/-! ## Resolved references -/

namespace Typed

variable {c : Context} {scope : Scope} {r : Pool}

theorem storeField_moves (keep : Bool) (f : FieldEntry) :
    Emits r (storeField keep f) (·.Moves r 2 (if keep then 1 else 0)) := by
  refine .bind (putField_moves _) fun put => .pure fun hput => ?_
  cases keep with
  | true => exact moves_dupX1.append hput (by omega) rfl
  | false => exact hput

theorem loadOuter_moves (outer : Ty) : Emits r (loadOuter c outer) (·.Moves r 0 1) :=
  .bind (getField_moves _) fun _ => .pure fun hcode => moves_loadThis.append hcode (by omega) rfl

/-- The outer instance of a new instance is the value of one more parameter, if there is one. -/
theorem newOuter_moves (e : ClassEntry) :
    Emits r (newOuter c e) fun o => o.1.Moves r 0 o.2.length ∧ ∀ t ∈ o.2, t.isVoid = false := by
  have houter : ∀ t ∈ [(e.enclosing.map Ty.ref).getD .null], t.isVoid = false := by
    rintro t ht
    rw [List.mem_singleton.1 ht]
    cases e.enclosing <;> rfl
  unfold newOuter
  cases e.isInner with
  | false => exact .pure ⟨Block.moves_empty, by simp⟩
  | true =>
    refine .ofExcept_bind fun source _ => ?_
    cases source with
    | this => exact .pure ⟨moves_loadThis, houter⟩
    | outerOfThis => exact .bind (loadOuter_moves _) fun code => .pure fun hcode => ⟨hcode, houter⟩

theorem invokeConstructor_moves (hr : r.WellFormed) (cls : Name) (params : List Ty) :
    Emits r (invokeConstructor cls params) fun call =>
      (∀ t ∈ params, t.isVoid = false) → call.Moves r (params.length + 1) 0 := by
  by_cases h : ∀ t ∈ params, t.isVoid = false
  · have hcall : Emits r (invokeConstructor cls params) (·.Moves r (params.length + 1) 0) :=
      invoke_moves hr .special ⟨params, .void⟩ rfl h
    exact hcall.mono fun call hmoves _ => hmoves
  · exact .naming (.method ⟨cls.text, constructorName, (Signature.mk params .void).descriptor⟩) (fun _ => rfl)
      fun _ _ hvoid => absurd hvoid h

theorem invoke_method_moves (hr : r.WellFormed) (kind : CallKind) {m : MethodEntry} (h : ∀ t ∈ m.params, t.isVoid = false) :
    Emits r (invoke kind m) (·.Moves r (m.params.length + if kind = .static then 0 else 1) m.ret.values) :=
  invoke_moves hr kind m.signature rfl h

/-- The code of an expression whose value is used. -/
theorem moves_value {x : Gen (Block × Ty)} {e : Expr} {t : Ty} (h : Emits r x fun a => a.1.Moves r 0 (e.left true t.values))
    (ht : t.isVoid = false) : Emits r x fun a => a.1.Moves r 0 1 := by
  rwa [Expr.left_true, Ty.values_eq_one ht] at h

mutual

/-- The code of an expression leaves one value if its type is that of a value, and none otherwise. -/
theorem expr_moves (hr : r.WellFormed) (hg : c.registry.Valued) (hs : scope.Valued) (keep : Bool) :
    ∀ {e : Expr} {t : Ty}, c.typeOf scope e = .ok t →
      Emits r (expr c scope keep e) fun a => a.1.Moves r 0 (e.left keep t.values)
  | .lit x, t, h => by
    rw [Context.typeOf] at h
    cases h
    have hvalue : x.ty.isVoid = false := by cases x <;> rfl
    rw [expr, Expr.left_eq rfl, Ty.values_eq_one hvalue]
    exact .bind (c.literal_moves x) fun code => .pure id
  | .var name, t, h => by
    obtain ⟨target, htarget, rfl⟩ := Context.typeOf_var_eq_ok h
    rw [expr, Expr.left_eq rfl]
    refine .ofExcept_ok_bind htarget ?_
    obtain ⟨v, rfl, hv⟩ | ⟨f, rfl, -, -, hf⟩ := Context.lookupVar_eq_ok htarget
    · dsimp only
      rw [Ty.values_eq_one (hs name v hv)]
      exact .pure (moves_load v.slot)
    · dsimp only
      rw [Ty.values_eq_one (hg.findField? hf)]
      exact .bind (getField_moves _) fun code => .pure fun hcode => moves_loadThis.append hcode (by omega) rfl
  | .this, t, h => by
    rw [Context.typeOf] at h
    obtain ⟨_, -, h⟩ := bind_eq_ok.1 h
    cases h
    rw [expr, Expr.left_eq rfl]
    exact .ofExcept_bind fun _ _ => .pure moves_loadThis
  | .outer, t, h => by
    rw [Context.typeOf] at h
    obtain ⟨-, outer, -, -, rfl⟩ := Context.outerType_eq_ok h
    rw [expr, Expr.left_eq rfl]
    exact .ofExcept_bind fun _ _ => .bind (loadOuter_moves _) fun code => .pure id
  | .field target name, t, h => by
    obtain ⟨t', f, ht', hf, rfl⟩ := Context.typeOf_field_eq_ok h
    obtain ⟨n, e, rfl, -, hfound⟩ := Context.field_eq_ok hf
    rw [expr, Expr.left_eq rfl, Ty.values_eq_one (hg.findField? hfound)]
    refine .bind (moves_value (expr_moves hr hg hs true ht') rfl) fun a => .ofExcept_bind fun f' _ => ?_
    exact .bind (getField_moves _) fun code => .pure fun hcode htarget => htarget.append hcode (Nat.le_refl 1) rfl
  | .assign (.var name) value, t, h => by
    obtain ⟨-, ht, v, hv, hassignable⟩ := Context.typeOf_assign_eq_ok h
    obtain ⟨target, htarget, rfl⟩ := Context.typeOf_var_eq_ok ht
    obtain ⟨hvalue, hvoid⟩ := Registry.isVoid_of_isAssignable hassignable
    have ih := moves_value (expr_moves hr hg hs true hv) hvalue
    rw [expr, Expr.left_assign, Ty.values_eq_one hvoid]
    refine .ofExcept_ok_bind htarget ?_
    cases target with
    | slot w =>
      refine .bind ih fun a => .pure fun ha => ?_
      have hcode : (widenTo w.ty a).Moves r 0 1 := ha.widenTo w.ty _
      cases keep with
      | true => exact (hcode.append moves_dup (Nat.le_refl 1) rfl).append (moves_store w.slot) (by omega) rfl
      | false => exact hcode.append (moves_store w.slot) (Nat.le_refl 1) rfl
    | field f =>
      refine .bind ih fun a => .bind (storeField_moves keep f) fun put => .pure fun hput ha => ?_
      have hcode : (loadThis ++ widenTo f.ty a).Moves r 0 2 := moves_loadThis.append (ha.widenTo f.ty _) (by omega) rfl
      exact hcode.append hput (Nat.le_refl 2) (by omega)
  | .assign (.field object name) value, t, h => by
    obtain ⟨-, ht, v, hv, hassignable⟩ := Context.typeOf_assign_eq_ok h
    obtain ⟨t', f, ht', hf, -⟩ := Context.typeOf_field_eq_ok ht
    obtain ⟨n, e, rfl, -, -⟩ := Context.field_eq_ok hf
    obtain ⟨hvalue, hvoid⟩ := Registry.isVoid_of_isAssignable hassignable
    rw [expr, Expr.left_assign, Ty.values_eq_one hvoid]
    refine .ofExcept_bind fun _ _ => .bind (moves_value (expr_moves hr hg hs true ht') rfl) fun target => ?_
    refine .ofExcept_bind fun f' _ => .bind (moves_value (expr_moves hr hg hs true hv) hvalue) fun a => ?_
    refine .bind (storeField_moves keep f') fun put => .pure fun hput ha htarget => ?_
    have hcode : (target.1 ++ widenTo f'.ty a).Moves r 0 2 := htarget.append (ha.widenTo f'.ty _) (by omega) rfl
    exact hcode.append hput (Nat.le_refl 2) (by omega)
  | .assign (.lit _) _, _, h | .assign .this _, _, h | .assign .outer _, _, h | .assign (.assign ..) _, _, h
  | .assign (.call ..) _, _, h | .assign (.staticCall ..) _, _, h | .assign (.new ..) _, _, h
  | .assign (.binary ..) _, _, h | .assign (.unary ..) _, _, h => nomatch (Context.typeOf_assign_eq_ok h).1
  | .call receiver name args, t, h => by
    obtain ⟨t', ts, m, ht', hts, hm, rfl⟩ := Context.typeOf_call_eq_ok h
    obtain ⟨n, e, rfl, -, -, hpasses⟩ := Context.method_eq_ok hm
    rw [expr, Expr.left_eq rfl]
    refine .ofExcept_ok_bind ht' (.ofExcept_ok_bind hts (.ofExcept_ok_bind hm ?_))
    refine .bind (moves_value (expr_moves hr hg hs true ht') rfl) fun target => ?_
    dsimp only
    split
    · refine .bind (exprs_moves hr hg hs hts hpasses .empty) fun pushed => ?_
      refine .bind (invoke_method_moves hr .static hpasses.isVoid) fun call => .pure fun hcall hpushed htarget => ?_
      have hdropped := htarget.append moves_pop (Nat.le_refl 1) rfl
      exact (hdropped.append (hpushed 0 Block.moves_empty) (Nat.le_refl 0) rfl).append hcall (by simp) (by simp)
    · refine .bind (exprs_moves hr hg hs hts hpasses .empty) fun pushed => ?_
      refine .bind (invoke_method_moves hr .virtual hpasses.isVoid) fun call => .pure fun hcall hpushed htarget => ?_
      have hargs := htarget.append (hpushed 0 Block.moves_empty) (Nat.zero_le 1) rfl
      refine hargs.append hcall ?_ ?_
      · simp only [reduceCtorEq, ↓reduceIte]
        omega
      · simp only [reduceCtorEq, ↓reduceIte]
        omega
  | .staticCall cls name args, t, h => by
    obtain ⟨ts, m, hts, hm, rfl⟩ := Context.typeOf_staticCall_eq_ok h
    obtain ⟨-, -, hpasses⟩ := Context.staticMethod_eq_ok hm
    rw [expr, Expr.left_eq rfl]
    refine .ofExcept_ok_bind hts (.ofExcept_ok_bind hm ?_)
    refine .bind (exprs_moves hr hg hs hts hpasses .empty) fun pushed => ?_
    refine .bind (invoke_method_moves hr .static hpasses.isVoid) fun call => .pure fun hcall hpushed => ?_
    exact (hpushed 0 Block.moves_empty).append hcall (by simp) (by simp)
  | .new cls args, t, h => by
    obtain ⟨ts, k, hts, hk, rfl⟩ := Context.typeOf_new_eq_ok h
    obtain ⟨e, -, -, -, -, hpasses⟩ := Context.constructor_eq_ok hk
    rw [expr, Expr.left_eq rfl]
    refine .ofExcept_ok_bind hts (.ofExcept_ok_bind hk ?_)
    refine .ofExcept_bind fun e' _ => .bind (newObject_moves _) fun new => .bind (newOuter_moves e') fun outer => ?_
    refine .bind (exprs_moves hr hg hs hts hpasses .empty) fun pushed => ?_
    refine .bind (invokeConstructor_moves hr cls _) fun call => .pure fun hcall hpushed houter hnew => ?_
    have hparams : ∀ t ∈ outer.2 ++ k.params, t.isVoid = false :=
      List.forall_mem_append.2 ⟨houter.2, hpasses.isVoid⟩
    have htwo := hnew.append moves_dup (Nat.le_refl 1) rfl
    have hargs := (htwo.append houter.1 (Nat.zero_le 2) rfl).append (hpushed 0 Block.moves_empty) (Nat.zero_le _) rfl
    refine hargs.append (hcall hparams) ?_ ?_
    · rw [List.length_append]
      omega
    · simp only [Ty.values, Ty.isVoid, reduceCtorEq, decide_false, Bool.false_eq_true, ↓reduceIte, List.length_append]
      omega
  | .binary op left right, t, h => by
    obtain ⟨lt, rt, bt, hl, hr', hbt, rfl⟩ := Context.typeOf_binary_eq_ok h
    obtain ⟨hlvoid, hrvoid, hvoid⟩ := Context.isVoid_of_binary hbt
    have ihl := moves_value (expr_moves hr hg hs true hl) hlvoid
    have ihr := moves_value (expr_moves hr hg hs true hr') hrvoid
    rw [expr, Expr.left_eq rfl, Ty.values_eq_one hvoid]
    split
    · exact .bind ihl fun a => .bind ihr fun b => .pure fun hb ha => ha.shortCircuit hb
    · rename_i i hop
      refine .ofExcept_bind fun _ _ => .ofExcept_bind fun _ _ => .ofExcept_bind fun t _ => ?_
      refine .bind ihl fun a => .bind ihr fun b => .pure fun hb ha => ?_
      have hi : (Block.one (if t.isConcat then .concat else i)).Moves r 2 1 := by
        split
        · exact Block.moves_one (.inl rfl) fun _ => rfl
        · exact moves_binary hop
      dsimp only
      split
      · rename_i target _
        exact ((ha.widenTo target _).append (hb.widenTo target _) (Nat.zero_le 1) rfl).append hi (Nat.le_refl 2) rfl
      · exact (ha.append hb (Nat.zero_le 1) rfl).append hi (Nat.le_refl 2) rfl
  | .unary op operand, t, h => by
    obtain ⟨t', ht', hunary⟩ := Context.typeOf_unary_eq_ok h
    obtain ⟨hvoid, rfl⟩ := Context.isVoid_of_unary hunary
    rw [expr, Expr.left_eq rfl, Ty.values_eq_one hvoid]
    refine .bind (moves_value (expr_moves hr hg hs true ht') hvoid) fun a => .ofExcept_bind fun _ _ => .pure fun ha => ?_
    exact ha.append (moves_unary op) (Nat.le_refl 1) rfl

/-- The code of arguments leaves as many values as there are parameters, above what that before it leaves. -/
theorem exprs_moves (hr : r.WellFormed) (hg : c.registry.Valued) (hs : scope.Valued) :
    ∀ {es : List Expr} {ts params : List Ty}, c.typesOf scope es = .ok ts → c.registry.Passes ts params → ∀ done : Block,
      Emits r (exprs c scope es params done) fun code => ∀ k, done.Moves r 0 k → code.Moves r 0 (k + params.length)
  | [], ts, params, hts, hpasses, done => by
    rw [Context.typesOf] at hts
    cases hts
    cases hpasses
    exact .pure fun k hdone => hdone
  | e :: rest, ts, params, hts, hpasses, done => by
    obtain ⟨t, ts', ht, hts', rfl⟩ := Context.typesOf_cons_eq_ok hts
    obtain _ | ⟨hassignable, hpasses⟩ := hpasses
    rename_i p params
    have ih := moves_value (expr_moves hr hg hs true ht) (Registry.isVoid_of_isAssignable hassignable).1
    rw [exprs]
    refine .bind ih fun a => (exprs_moves hr hg hs hts' hpasses _).mono fun code hcode ha k hdone => ?_
    have hnext := hcode (k + 1) (hdone.append (ha.widenTo p _) (Nat.zero_le k) rfl)
    rwa [Nat.add_assoc, Nat.add_comm 1] at hnext

end

/-- An expression that is evaluated for its effects leaves nothing. -/
theorem discarded_moves (hr : r.WellFormed) (hg : c.registry.Valued) (hs : scope.Valued) {e : Expr} {t : Ty}
    (h : c.typeOf scope e = .ok t) : Emits r (discarded c scope e) (·.Moves r 0 0) := by
  refine .bind_of (expr_yields false h) (expr_moves hr hg hs false h) fun a hty => ?_
  obtain ⟨code, t'⟩ := a
  dsimp only at hty ⊢
  subst hty
  refine .pure fun hcode => ?_
  rw [← Expr.values_kept] at hcode
  split
  · rename_i hvoid
    rwa [Ty.values, if_pos hvoid] at hcode
  · rename_i hvoid
    rw [Ty.values, if_neg hvoid] at hcode
    exact hcode.append moves_pop (Nat.le_refl 1) rfl

/-- So does a call of the superclass constructor. -/
theorem superCall_moves (hr : r.WellFormed) (hg : c.registry.Valued) (hs : scope.Valued) (superclass : Name)
    {args : List Expr} {ts : List Ty} (hts : c.typesOf scope args = .ok ts) :
    Emits r (superCall c scope superclass args) (·.Moves r 0 0) := by
  unfold superCall
  refine .ofExcept_ok_bind hts ?_
  refine .ofExcept_bind fun k hk => ?_
  obtain ⟨s, e, -, he, hmem, hpasses⟩ := Context.superConstructor_eq_ok hk
  have hret : k.ret = .void := hg.constructors e (Registry.get?_eq_some he).1 k hmem
  refine .bind (exprs_moves hr hg hs hts hpasses .empty) fun pushed => ?_
  refine .bind (invoke_moves hr .special k.signature rfl hpasses.isVoid) fun call => .pure fun hcall hpushed => ?_
  have hargs := moves_loadThis.append (hpushed 0 Block.moves_empty) (Nat.zero_le 1) rfl
  refine hargs.append hcall ?_ ?_
  · simp only [MethodEntry.signature, reduceCtorEq, ↓reduceIte]
    omega
  · simp only [MethodEntry.signature, hret, reduceCtorEq, ↓reduceIte, Ty.values, Ty.isVoid, decide_true]
    omega

end Typed

/-! ## Names as references -/

theorem Context.argCount_emits {r : Pool} (c : Context) (n : Nat) : Emits r (c.argCount n) fun argc => argc.toNat = n := by
  unfold Context.argCount
  split
  · rename_i hlt
    exact .pure (UInt8.toNat_ofNat_of_lt hlt)
  · exact .throw

namespace ByName

variable {c : Context} {scope : Scope} {r : Pool}

theorem storeField_moves (keep : Bool) (name : String) :
    Emits r (storeField keep name) (·.Moves r 2 (if keep then 1 else 0)) := by
  refine .bind (putFieldDyn_moves name) fun put => .pure fun hput => ?_
  cases keep with
  | true => exact moves_dupX1.append hput (by omega) rfl
  | false => exact hput

theorem loadOuter_moves : Emits r loadOuter (·.Moves r 0 1) :=
  .bind (getFieldDyn_moves _) fun _ => .pure fun hcode => moves_loadThis.append hcode (by omega) rfl

theorem outerSource?_emits (e : ClassEntry) : Emits r (outerSource? c e) fun _ => True := by
  unfold outerSource?
  split
  · exact .ofExcept_bind fun _ _ => .pure trivial
  · exact .pure trivial

theorem newOuter_moves (source : Option OuterSource) :
    Emits r (newOuter source) (·.Moves r 0 (if source.isSome then 1 else 0)) := by
  match source with
  | none => exact .pure Block.moves_empty
  | some .this => exact .pure moves_loadThis
  | some .outerOfThis => exact loadOuter_moves

mutual

/-- The code of an expression leaves one value, whatever it is looked up to be, but an assignment only if that is kept. -/
theorem expr_moves (keep : Bool) : ∀ e : Expr,
    Emits r (expr c scope keep e) (·.Moves r 0 (e.left keep 1))
  | .lit x => by
    rw [expr, Expr.left_eq rfl]
    exact c.literal_moves x
  | .var name => by
    rw [expr, Expr.left_eq rfl]
    split
    · exact .pure (moves_load _)
    · exact .ofExcept_bind fun _ _ => .bind (getFieldDyn_moves name) fun code => .pure fun hcode =>
        moves_loadThis.append hcode (by omega) rfl
  | .this => by
    rw [expr, Expr.left_eq rfl]
    exact .ofExcept_bind fun _ _ => .pure moves_loadThis
  | .outer => by
    rw [expr, Expr.left_eq rfl]
    refine .ofExcept_bind fun _ _ => ?_
    split
    · exact .bind (Q := fun _ => False) .throw fun _ => loadOuter_moves.mono fun _ h _ => h
    · exact loadOuter_moves
  | .field target name => by
    rw [expr, Expr.left_eq rfl]
    exact .bind (expr_moves true target) fun code => .bind (getFieldDyn_moves name) fun get => .pure fun hget hcode =>
      hcode.append hget (Nat.le_refl 1) rfl
  | .assign (.var name) value => by
    rw [expr, Expr.left_assign]
    split
    · rename_i v _
      refine .bind (expr_moves true value) fun code => .pure fun hcode => ?_
      cases keep with
      | true => exact (hcode.append moves_dup (Nat.le_refl 1) rfl).append (moves_store v.slot) (by omega) rfl
      | false => exact hcode.append (moves_store v.slot) (Nat.le_refl 1) rfl
    · refine .ofExcept_bind fun _ _ => .bind (expr_moves true value) fun code => ?_
      refine .bind (storeField_moves keep name) fun put => .pure fun hput hcode => ?_
      exact (moves_loadThis.append hcode (Nat.zero_le 1) rfl).append hput (Nat.le_refl 2) (by simp)
  | .assign (.field object name) value => by
    rw [expr, Expr.left_assign]
    refine .bind (expr_moves true object) fun target => .bind (expr_moves true value) fun code => ?_
    refine .bind (storeField_moves keep name) fun put => .pure fun hput hcode htarget => ?_
    exact (htarget.append hcode (Nat.zero_le 1) rfl).append hput (Nat.le_refl 2) (by simp)
  | .assign (.lit _) _ | .assign .this _ | .assign .outer _ | .assign (.assign ..) _ | .assign (.call ..) _
  | .assign (.staticCall ..) _ | .assign (.new ..) _ | .assign (.binary ..) _ | .assign (.unary ..) _ => by
    rw [expr]
    · exact .throw
    all_goals simp
  | .call receiver name args => by
    rw [expr, Expr.left_eq rfl]
    refine .bind (c.argCount_emits args.length) fun argc => .bind (expr_moves true receiver) fun target => ?_
    refine .bind (exprs_moves args .empty) fun pushed => ?_
    refine .bind (invokeDynamic_moves name argc) fun call => .pure fun hcall hpushed htarget hargc => ?_
    rw [hargc] at hcall
    rw [Expr.left_true] at htarget
    exact (htarget.append (hpushed 0 Block.moves_empty) (Nat.zero_le 1) rfl).append hcall (by omega) (by omega)
  | .staticCall cls name args => by
    rw [expr, Expr.left_eq rfl]
    refine .bind (c.argCount_emits args.length) fun argc => .bind (exprs_moves args .empty) fun pushed => ?_
    refine .bind (invokeStaticDyn_moves cls.text name argc) fun call => .pure fun hcall hpushed hargc => ?_
    rw [hargc] at hcall
    exact (hpushed 0 Block.moves_empty).append hcall (by simp) (by simp)
  | .new cls args => by
    rw [expr, Expr.left_eq rfl]
    refine .ofExcept_bind fun e _ => .bind (outerSource?_emits e) fun source => .bind (c.argCount_emits _) fun argc => ?_
    refine .bind (newObject_moves cls.text) fun new => .bind (newOuter_moves source) fun outer => ?_
    refine .bind (exprs_moves args .empty) fun pushed => ?_
    refine .bind (invokeSpecialDyn_moves cls.text argc) fun call => .pure fun hcall hpushed houter hnew hargc _ => ?_
    rw [hargc] at hcall
    have htwo := hnew.append moves_dup (Nat.le_refl 1) rfl
    have hargs := (htwo.append houter (Nat.zero_le 2) rfl).append (hpushed 0 Block.moves_empty) (Nat.zero_le _) rfl
    exact (hargs.append hcall (by omega) rfl).append moves_pop (by omega) (by omega)
  | .binary op left right => by
    rw [expr, Expr.left_eq rfl]
    refine .bind (expr_moves true left) fun a => .bind (expr_moves true right) fun b => ?_
    split
    · exact .pure fun hb ha => ha.shortCircuit hb
    · rename_i i hop
      exact .pure fun hb ha => (ha.append hb (Nat.zero_le 1) rfl).append (moves_binary hop) (Nat.le_refl 2) rfl
  | .unary op operand => by
    rw [expr, Expr.left_eq rfl]
    exact .bind (expr_moves true operand) fun code => .pure fun hcode => hcode.append (moves_unary op) (Nat.le_refl 1) rfl

/-- The code of arguments leaves as many values as there are, above what that before it leaves. -/
theorem exprs_moves : ∀ (es : List Expr) (done : Block),
    Emits r (exprs c scope es done) fun code => ∀ k, done.Moves r 0 k → code.Moves r 0 (k + es.length)
  | [], done => by
    rw [exprs]
    exact .pure fun k hdone => hdone
  | e :: rest, done => by
    rw [exprs]
    refine .bind (expr_moves true e) fun code => (exprs_moves rest _).mono fun all hall hcode k hdone => ?_
    have hnext := hall (k + 1) (hdone.append hcode (Nat.zero_le k) rfl)
    rwa [Nat.add_assoc, Nat.add_comm 1] at hnext

end

theorem discarded_moves (e : Expr) : Emits r (discarded c scope e) (·.Moves r 0 0) := by
  refine .bind (expr_moves false e) fun code => .pure fun hcode => ?_
  cases hassign : e.isAssign with
  | true =>
    rw [Expr.left, hassign] at hcode
    exact hcode
  | false =>
    rw [Expr.left_eq hassign] at hcode
    exact hcode.append moves_pop (Nat.le_refl 1) rfl

theorem superCall_moves (superclass : Name) (args : List Expr) :
    Emits r (superCall c scope superclass args) (·.Moves r 0 0) := by
  refine .bind (c.argCount_emits args.length) fun argc => .bind (exprs_moves args .empty) fun pushed => ?_
  refine .bind (invokeSpecialDyn_moves superclass.text argc) fun call => .pure fun hcall hpushed hargc => ?_
  rw [hargc] at hcall
  have hargs := moves_loadThis.append (hpushed 0 Block.moves_empty) (Nat.zero_le 1) rfl
  exact (hargs.append hcall (by omega) rfl).append moves_pop (by omega) (by omega)

end ByName

/-! ## Both forms -/

/-- The code of an expression; only if `keep`, an assignment leaves its value. -/
def compileExpr (b : Binding) (c : Context) (scope : Scope) (keep : Bool) (e : Expr) : Gen Block :=
  match b with
  | .static => do return (← Typed.expr c scope keep e).1
  | .dynamic => ByName.expr c scope keep e

/-- How many values an expression has: with resolved references its type says so, with names as references it is always one. -/
def Expr.Values (b : Binding) (c : Context) (s : Scope) (e : Expr) (n : Nat) : Prop :=
  match b with
  | .static => ∃ t, c.typeOf s e = .ok t ∧ t.values = n
  | .dynamic => n = 1

/-- Where the code of expressions rests on types, all variables and fields hold values. -/
def Context.Valued (b : Binding) (c : Context) (s : Scope) : Prop := b = .static → c.registry.Valued ∧ s.Valued

section Both

variable {b : Binding} {c : Context} {scope : Scope} {r : Pool}

/-- The code of an expression takes nothing from the stack and leaves the values that the expression has. -/
theorem compileExpr_moves (hr : r.WellFormed) (hc : c.Valued b scope) (keep : Bool) {e : Expr} {n : Nat}
    (h : e.Values b c scope n) : Emits r (compileExpr b c scope keep e) (·.Moves r 0 (e.left keep n)) := by
  cases b with
  | static =>
    obtain ⟨t, ht, rfl⟩ := h
    exact .bind (Typed.expr_moves hr (hc rfl).1 (hc rfl).2 keep ht) fun a => .pure id
  | dynamic =>
    cases h
    exact ByName.expr_moves keep e

theorem compileValue_moves (hr : r.WellFormed) (hc : c.Valued b scope) {e : Expr} (h : e.Values b c scope 1)
    (expected : Ty) : Emits r (compileValue b c scope e expected) (·.Moves r 0 1) := by
  cases b with
  | static =>
    obtain ⟨t, ht, hone⟩ := h
    have hcode := Typed.expr_moves (r := r) hr (hc rfl).1 (hc rfl).2 true ht
    rw [hone] at hcode
    exact .bind hcode fun a => .pure fun ha => ha.widenTo expected _
  | dynamic => exact ByName.expr_moves true e

theorem compileDiscarded_moves (hr : r.WellFormed) (hc : c.Valued b scope) {e : Expr} {n : Nat}
    (h : e.Values b c scope n) : Emits r (compileDiscarded b c scope e) (·.Moves r 0 0) := by
  cases b with
  | static =>
    obtain ⟨t, ht, -⟩ := h
    exact Typed.discarded_moves hr (hc rfl).1 (hc rfl).2 ht
  | dynamic => exact ByName.discarded_moves e

theorem compileSuperCall_moves (hr : r.WellFormed) (hc : c.Valued b scope) {args : List Expr}
    (h : b = .static → ∃ ts, c.typesOf scope args = .ok ts) :
    Emits r (compileSuperCall b c scope args) (·.Moves r 0 0) := by
  unfold compileSuperCall
  split
  · exact .throw
  · rename_i superclass _
    cases b with
    | static =>
      obtain ⟨ts, hts⟩ := h rfl
      exact Typed.superCall_moves hr (hc rfl).1 (hc rfl).2 superclass hts
    | dynamic => exact ByName.superCall_moves superclass args

end Both

end ClassTree
