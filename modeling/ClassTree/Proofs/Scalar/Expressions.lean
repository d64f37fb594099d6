import ClassTree.Proofs.Scalar.Simulation

/-!
# Code of expressions follows their evaluation

`Evaluates cs scope code t ev`: wherever the block `code` stands, and wherever the local slots hold the variables that
`scope` shows, the machine does what the evaluation `ev` says and leaves its value, which has the type `t`, on the stack.
The code of every typed expression of the fragment does so (`Typed.expr_evaluates`).
-/

namespace ClassTree

open Run

/-- The frame stands at an offset with a stack, and its slots hold what the evaluation knows of the variables. -/
def Frame.Reached (f : Frame) (scope : Scope) (o : Nat) (stack : List Value) (env : Env) (g : Frame) : Prop :=
  ∃ locals, g = f.move o stack locals ∧ locals.size = f.locals.size ∧ Models scope env locals

/-- The code does what the evaluation says and leaves its value, which has a given type. -/
def Evaluates (cs : Constants) (scope : Scope) (code : Block) (t : Ty) (ev : Env → Except Stop (Scalar × Env)) : Prop :=
  ∀ (f : Frame) (o : Nat) (stack : List Value) (env : Env) (g : Frame) (ret : Ty) (n : Nat), f.constants = cs →
    code.In f o → f.Reached scope o stack env g →
    Simulates f.target ret n g (ev env) fun r g' =>
      r.1.ty = t ∧ f.Reached scope (o + code.size) (r.1.value :: stack) r.2 g'

theorem widenTo_of_none {t u : Ty} (h : Widening.between? t u = none) (code : Block) : widenTo u (code, t) = code := by
  simp only [widenTo, h]

theorem widenTo_of_some {t u : Ty} {w : Widening} (h : Widening.between? t u = some w) (code : Block) :
    widenTo u (code, t) = code ++ .one (.widen w) := by
  simp only [widenTo, h]

theorem in_of_widenTo {t u : Ty} {code : Block} {f : Frame} {o : Nat} (h : (widenTo u (code, t)).In f o) : code.In f o := by
  cases hw : Widening.between? t u with
  | none => rwa [widenTo_of_none hw] at h
  | some w =>
    rw [widenTo_of_some hw] at h
    exact h.append.1

/-- A value is widened behind the code that leaves it. -/
theorem exists_steps_widenTo {v w : Scalar} {u : Ty} (hw : v.widen? u = some w) {code : Block} {f : Frame} {o : Nat}
    (hin : (widenTo u (code, v.ty)).In f o) {stack : List Value} {locals : Array Value} :
    ∃ k, Steps k (f.move (o + code.size) (v.value :: stack) locals)
      (f.move (o + (widenTo u (code, v.ty)).size) (w.value :: stack) locals) := by
  obtain ⟨-, ⟨rfl, hnone⟩ | ⟨n, rfl, rfl, hsome⟩⟩ := Scalar.widen?_cases hw
  · rw [widenTo_of_none hnone]
    exact ⟨0, .refl _⟩
  · rw [widenTo_of_some hsome] at hin ⊢
    rw [Block.size_append, Block.size_one, ← Nat.add_assoc]
    exact ⟨1, .unary hin.append.2.one (fun _ _ => rfl) fun _ => rfl⟩

/-- The code of an operand, widened to the type that the operator works on. -/
def operandCode (operand : Option Ty) (code : Block) (source : Ty) : Block :=
  match operand with
  | some target => widenTo target (code, source)
  | none => code

theorem in_of_operandCode {operand : Option Ty} {t : Ty} {code : Block} {f : Frame} {o : Nat}
    (h : (operandCode operand code t).In f o) : code.In f o := by
  cases operand with
  | none => exact h
  | some u => exact in_of_widenTo h

theorem exists_steps_operandCode {v w : Scalar} {operand : Option Ty} (hw : v.operand? operand = some w) {code : Block}
    {f : Frame} {o : Nat} (hin : (operandCode operand code v.ty).In f o) {stack : List Value} {locals : Array Value} :
    ∃ k, Steps k (f.move (o + code.size) (v.value :: stack) locals)
      (f.move (o + (operandCode operand code v.ty).size) (w.value :: stack) locals) := by
  cases operand with
  | none =>
    cases hw
    exact ⟨0, .refl _⟩
  | some u => exact exists_steps_widenTo hw hin

/-- An instruction that computes an operator leaves its value, or fails as the evaluation does. -/
theorem Instr.Computes.simulates {i : Instr} {x : Except Stop Scalar} {a b : Scalar} (h : i.Computes x a b)
    (hi : ∀ (g : Frame) (render : Value → Run String), g.exec render i = g.binary (i.operator render)) {f : Frame} {o : Nat}
    (hat : Instr.at? f.code o = some i) (t : Target) (ret : Ty) (n : Nat) (stack : List Value) (locals : Array Value) :
    Simulates t ret n (f.move o (b.value :: a.value :: stack) locals) x fun v g =>
      x = .ok v ∧ g = f.move (o + i.size) (v.value :: stack) locals := by
  obtain ⟨run, hrun, hgives⟩ := h
  match x with
  | .ok v =>
    refine ⟨1, _, .binary hat hi fun render m => ?_, rfl, rfl⟩
    rw [hrun]
    exact ask_eq_ok (hgives m.heap)
  | .error .divisionByZero =>
    refine ⟨1, .binary hat hi fun render m => ?_⟩
    rw [hrun]
    exact ask_eq_error (hgives m.heap)
  | .error (.returned _) | .error .outOfFuel | .error .stuck => exact (hgives .empty).elim

theorem Scalar.exists_ty {t : Ty} (h : t.isScalar = true) : ∃ v : Scalar, v.ty = t := by
  cases t with
  | boolean => exact ⟨.bool false, rfl⟩
  | int => exact ⟨.int 0, rfl⟩
  | long => exact ⟨.long 0, rfl⟩
  | _ => cases h

namespace Evaluates

variable {cs : Constants} {scope : Scope} {code left right : Block} {t u : Ty} {ev ev' : Env → Except Stop (Scalar × Env)}

/-- The rule for an instruction that pushes a scalar. -/
theorem one {i : Instr} {v : Scalar} (hev : ∀ env, ev env = .ok (v, env))
    (hi : ∀ (f : Frame) (o : Nat) (stack : List Value) (locals : Array Value), f.constants = cs →
      Instr.at? f.code o = some i → Steps 1 (f.move o stack locals) (f.move (o + i.size) (v.value :: stack) locals)) :
    Evaluates cs scope (.one i) v.ty ev := by
  rintro f o stack env g ret n hcs hin ⟨locals, rfl, hsize, hmodels⟩
  rw [hev, Block.size_one]
  exact .step (hi f o stack locals hcs hin.one) (.pure ⟨rfl, locals, rfl, hsize, hmodels⟩)

theorem pushBool (b : Bool) : Evaluates cs scope (ClassTree.pushBool b) .boolean fun env => return (.bool b, env) := by
  refine one (v := .bool b) (fun _ => rfl) fun f o stack locals _ hat => ?_
  cases b <;> exact .push hat

/-- A condition evaluates to its truth. -/
theorem truth (h : Evaluates cs scope code .boolean ev) : Evaluates cs scope code .boolean fun env => do
    let (v, env) ← ev env
    return (.bool (← v.truth), env) := by
  intro f o stack env g ret n hcs hin hg
  refine .bind (h f o stack env g ret n hcs hin hg) ?_
  rintro ⟨v, env⟩ g ⟨hty, hg⟩
  cases v with
  | int k | long k => cases hty
  | bool b => exact .pure ⟨rfl, hg⟩

/-- The rule for reading a variable. -/
theorem load {x : String} {v : Local} (hv : scope.lookup? x = some v)
    (hev : ∀ env b, env.get? x = some b → ev env = .ok (b.value, env)) :
    Evaluates cs scope (.one (.load v.slot)) v.ty ev := by
  rintro f o stack env g ret n - hin ⟨locals, rfl, hsize, hmodels⟩
  obtain ⟨b, hb, hold⟩ := hmodels.get? hv
  rw [hev env b hb, Block.size_one]
  exact .step (.load hin.one hold.value) (.pure ⟨hold.typed, locals, rfl, hsize, hmodels⟩)

/-- The rule for a value that is widened to the type that is expected. -/
theorem widenTo (h : Evaluates cs scope code t ev)
    (hwiden : ∀ env locals, Models scope env locals → ∀ v : Scalar, v.ty = t → ∃ w, v.widen? u = some w) :
    Evaluates cs scope (ClassTree.widenTo u (code, t)) u fun env => do
      let (v, env) ← ev env
      return (← Stop.need (v.widen? u), env) := by
  intro f o stack env g ret n hcs hin hg
  refine .bind (h f o stack env g ret n hcs (in_of_widenTo hin) hg) ?_
  rintro ⟨v, env⟩ g ⟨rfl, locals, rfl, hsize, hmodels⟩
  obtain ⟨w, hw⟩ := hwiden env locals hmodels v rfl
  obtain ⟨k, hk⟩ := exists_steps_widenTo hw hin
  exact .need hw (.step hk (.pure ⟨(Scalar.widen?_cases hw).1, locals, rfl, hsize, hmodels⟩))

/-- Stores the value of some code in the slot of a variable, and leaves it on the stack if `keep`. -/
def storing (keep : Bool) (code : Block) (slot : UInt16) : Block :=
  (if keep then code ++ .one .dup else code) ++ .one (.store slot)

/-- The rule for an assignment to a variable. -/
theorem assign {x : String} {v : Local} (hv : scope.lookup? x = some v) (h : Evaluates cs scope code t ev)
    (hwiden : ∀ env locals, Models scope env locals → ∀ w : Scalar, w.ty = t → ∃ w', w.widen? v.ty = some w') (keep : Bool)
    {f : Frame} {o : Nat} {stack : List Value} {env : Env} {g : Frame} {ret : Ty} {n : Nat} (hcs : f.constants = cs)
    (hin : (storing keep (ClassTree.widenTo v.ty (code, t)) v.slot).In f o) (hg : f.Reached scope o stack env g) :
    Simulates f.target ret n g (do
        let (w, env) ← ev env
        env.assign x w) fun r g' => r.1.ty = v.ty ∧
      f.Reached scope (o + (storing keep (ClassTree.widenTo v.ty (code, t)) v.slot).size)
        (if keep then r.1.value :: stack else stack) r.2 g' := by
  generalize hwide : ClassTree.widenTo v.ty (code, t) = wide at hin ⊢
  obtain ⟨hfirst, hstore⟩ := hin.append
  have hwidened : wide.In f o := by
    cases keep with
    | true => exact hfirst.append.1
    | false => exact hfirst
  rw [← hwide] at hwidened
  refine .bind (h f o stack env g ret n hcs (in_of_widenTo hwidened) hg) ?_
  rintro ⟨w, env⟩ g ⟨rfl, locals, rfl, hsize, hmodels⟩
  obtain ⟨b, hb, hold⟩ := hmodels.get? hv
  obtain ⟨w', hw⟩ := hwiden env locals hmodels w rfl
  obtain ⟨k, hk⟩ := exists_steps_widenTo hw hwidened
  rw [hwide] at hk
  have hty : w'.ty = v.ty := (Scalar.widen?_cases hw).1
  have hslot : v.slot.toNat < locals.size := by
    rw [hsize]
    exact hstore.slot rfl
  have hsize' : (locals.setIfInBounds v.slot.toNat w'.value).size = f.locals.size := by
    rw [Array.size_setIfInBounds, hsize]
  rw [← hold.ty] at hw
  refine .step hk (.need hb (.need hw ?_))
  cases keep with
  | true =>
    have hdup : Steps 1 (f.move (o + wide.size) (w'.value :: stack) locals)
        (f.move (o + (wide ++ Block.one .dup).size) (w'.value :: w'.value :: stack) locals) := by
      rw [Block.size_append, Block.size_one, ← Nat.add_assoc]
      exact .dup hfirst.append.2.one
    rw [storing, if_pos rfl, Block.size_append (wide ++ Block.one .dup), Block.size_one, ← Nat.add_assoc]
    exact .step hdup (.step (.store hstore.one hslot) (.pure ⟨hty, _, rfl, hsize', hmodels.set hv hty⟩))
  | false =>
    rw [storing, if_neg Bool.false_ne_true, Block.size_append, Block.size_one, ← Nat.add_assoc]
    exact .step (.store hstore.one hslot) (.pure ⟨hty, _, rfl, hsize', hmodels.set hv hty⟩)

/-- The rule for an operator that evaluates both operands. -/
theorem binary {c : Context} {op : BinaryOp} {i : Instr} {bt : BinaryTyping} (hi : op.instr? = some i)
    (hbt : c.binary op t u = .ok bt) (hu : ∀ env locals, Models scope env locals → u.isScalar = true)
    (hl : Evaluates cs scope left t ev) (hr : Evaluates cs scope right u ev') :
    Evaluates cs scope
      (operandCode bt.operand left t ++ operandCode bt.operand right u ++ .one (if bt.isConcat then .concat else i))
      bt.result fun env => do
        let (a, env) ← ev env
        let (b, env) ← ev' env
        return (← Scalar.binary op a b, env) := by
  intro f o stack env g ret n hcs hin hg
  obtain ⟨hboth, hop⟩ := hin.append
  obtain ⟨hleft, hright⟩ := hboth.append
  refine .bind (hl f o stack env g ret n hcs (in_of_operandCode hleft) hg) ?_
  rintro ⟨a, env⟩ g ⟨rfl, locals, rfl, hsize, hmodels⟩
  -- The left operand is widened before the right one is known, but only the type of that one matters.
  obtain ⟨b₀, rfl⟩ := Scalar.exists_ty (hu env locals hmodels)
  obtain ⟨-, -, a', -, ha', -, -⟩ := computes_binary hi hbt
  obtain ⟨j, hj⟩ := exists_steps_operandCode ha' hleft
  refine .step hj (.bind (hr f _ _ env _ ret n hcs (in_of_operandCode hright) ⟨locals, rfl, hsize, hmodels⟩) ?_)
  rintro ⟨b, env⟩ g ⟨hb, locals, rfl, hsize, hmodels⟩
  rw [← hb] at hbt hright hin hop ⊢
  obtain ⟨hconcat, hty, a'', b', ha'', hb', hcomputes⟩ := computes_binary hi hbt
  obtain rfl : a'' = a' := Option.some.inj (ha''.symm.trans ha')
  obtain ⟨k, hk⟩ := exists_steps_operandCode hb' hright
  refine .step hk ?_
  rw [hconcat] at hop ⊢
  have hat := hop.one
  rw [Block.size_append, ← Nat.add_assoc] at hat
  refine .bind (hcomputes.simulates (Instr.exec_operator (BinaryOp.isOperator_instr? hi)) hat f.target ret n stack locals) ?_
  rintro v g ⟨hv, rfl⟩
  refine .pure ⟨hty v hv, locals, ?_, hsize, hmodels⟩
  rw [Block.size_append, Block.size_append, Block.size_one, ← Nat.add_assoc, ← Nat.add_assoc]
  rfl

/-- The rule for an operator on one operand. -/
theorem unary {c : Context} {op : UnaryOp} (hu : c.unary op t = .ok u) (h : Evaluates cs scope code t ev) :
    Evaluates cs scope (code ++ .one op.instr) u fun env => do
      let (v, env) ← ev env
      return (← Scalar.unary op v, env) := by
  intro f o stack env g ret n hcs hin hg
  obtain ⟨hcode, hop⟩ := hin.append
  refine .bind (h f o stack env g ret n hcs hcode hg) ?_
  rintro ⟨v, env⟩ g ⟨rfl, locals, rfl, hsize, hmodels⟩
  rw [Block.size_append, Block.size_one, ← Nat.add_assoc]
  cases op with
  | neg =>
    cases v with
    | bool b => cases hu
    | int k | long k =>
      cases hu
      exact .step (.unary hop.one (fun _ _ => rfl) fun _ => rfl) (.pure ⟨rfl, locals, rfl, hsize, hmodels⟩)
  | not =>
    cases v with
    | int k | long k => cases hu
    | bool b =>
      cases hu
      exact .step (.unary hop.one (fun _ _ => rfl) fun _ => rfl) (.pure ⟨rfl, locals, rfl, hsize, hmodels⟩)

/-- The rule for a condition: what follows it depends on its truth. -/
theorem condition {α : Type} {x : Bool → Env → Except Stop α} {Q : α → Frame → Prop} (h : Evaluates cs scope code .boolean ev)
    {f : Frame} {o : Nat} {stack : List Value} {env : Env} {g : Frame} {ret : Ty} {n : Nat} {w : UInt16}
    (hcs : f.constants = cs) (hin : code.In f o) (hskip : Instr.at? f.code (o + code.size) = some (.jumpIfFalse w))
    (hg : f.Reached scope o stack env g)
    (hx : ∀ b env g, f.Reached scope (if b then o + code.size + Block.jumpSize else o + code.size + Block.jumpSize + w.toNat)
      stack env g → Simulates f.target ret n g (x b env) Q) :
    Simulates f.target ret n g (do
      let (v, env) ← ev env
      x (← v.truth) env) Q := by
  refine .bind (h f o stack env g ret n hcs hin hg) ?_
  rintro ⟨v, env⟩ g ⟨hty, locals, rfl, hsize, hmodels⟩
  cases v with
  | int k | long k => cases hty
  | bool b => exact .step (.jumpIfFalse hskip) (hx b env _ ⟨locals, rfl, hsize, hmodels⟩)

/-- The rule for a condition with code for both of its truth values, which leave the same things. -/
theorem ifElse {α : Type} {x : Bool → Env → Except Stop α} {P : α → Prop} {st : α → List Value} {en : α → Env}
    {scope' : Scope} (h : Evaluates cs scope code .boolean ev) {f : Frame} {o : Nat} {stack : List Value} {env : Env}
    {g : Frame} {ret : Ty} {n : Nat} (hcs : f.constants = cs) (hin : (Block.ifElse code left right).In f o)
    (hg : f.Reached scope o stack env g)
    (hyes : ∀ o env g, left.In f o → f.Reached scope o stack env g →
      Simulates f.target ret n g (x true env) fun a g' => P a ∧ f.Reached scope' (o + left.size) (st a) (en a) g')
    (hno : ∀ o env g, right.In f o → f.Reached scope o stack env g →
      Simulates f.target ret n g (x false env) fun a g' => P a ∧ f.Reached scope' (o + right.size) (st a) (en a) g') :
    Simulates f.target ret n g (do
        let (v, env) ← ev env
        x (← v.truth) env) fun a g' =>
      P a ∧ f.Reached scope' (o + (Block.ifElse code left right).size) (st a) (en a) g' := by
  obtain ⟨hcode, hleft, hright, ⟨w, hw, hskip⟩, w', hw', hover⟩ := hin.ifElse
  refine h.condition hcs hcode hskip hg fun b env g hg => ?_
  rw [Block.size_ifElse]
  cases b with
  | true =>
    refine (hyes _ env g hleft hg).followed ?_
    rintro a g ⟨hP, locals, rfl, hrest⟩
    refine ⟨1, _, .jump hover, hP, locals, ?_, hrest⟩
    rw [hw']
    simp only [Nat.add_assoc]
  | false =>
    rw [if_neg Bool.false_ne_true, hw, ← Nat.add_assoc] at hg
    simpa only [Nat.add_assoc] using hno _ env g hright hg

theorem and (hl : Evaluates cs scope left .boolean ev) (hr : Evaluates cs scope right .boolean ev') :
    Evaluates cs scope (.both left right) .boolean fun env => do
      let (a, env) ← ev env
      if ← a.truth then
        let (b, env) ← ev' env
        return (.bool (← b.truth), env)
      else return (.bool false, env) := by
  intro f o stack env g ret n hcs hin hg
  refine hl.ifElse (x := fun a env => if a then do
      let (b, env) ← ev' env
      return (Scalar.bool (← b.truth), env)
    else return (Scalar.bool false, env)) hcs hin hg (fun o env g hin hg => ?_) fun o env g hin hg => ?_
  · rw [if_pos rfl]
    exact hr.truth f o stack env g ret n hcs hin hg
  · exact pushBool false f o stack env g ret n hcs hin hg

theorem or (hl : Evaluates cs scope left .boolean ev) (hr : Evaluates cs scope right .boolean ev') :
    Evaluates cs scope (.either left right) .boolean fun env => do
      let (a, env) ← ev env
      if ← a.truth then return (.bool true, env)
      else
        let (b, env) ← ev' env
        return (.bool (← b.truth), env) := by
  intro f o stack env g ret n hcs hin hg
  refine hl.ifElse (x := fun a env => if a then return (Scalar.bool true, env)
    else do
      let (b, env) ← ev' env
      return (Scalar.bool (← b.truth), env)) hcs hin hg (fun o env g hin hg => ?_) fun o env g hin hg => ?_
  · exact pushBool true f o stack env g ret n hcs hin hg
  · rw [if_neg Bool.false_ne_true]
    exact hr.truth f o stack env g ret n hcs hin hg

end Evaluates

/-! ## Types -/

section Types

variable {c : Context} {scope : Scope}

/-- A bare name in a static method means a local variable. -/
theorem Context.lookupVar_static (hc : c.isStatic = true) {x : String} {target : VarTarget}
    (h : c.lookupVar scope x = .ok target) : ∃ v, target = .slot v ∧ scope.lookup? x = some v := by
  unfold lookupVar at h
  split at h
  · rename_i v hv
    cases h
    exact ⟨v, rfl, hv⟩
  · split at h
    · simp [requireInstance, hc, bind, Except.bind] at h
    · cases h

theorem Context.typeOf_var_static (hc : c.isStatic = true) {x : String} {t : Ty} (h : c.typeOf scope (.var x) = .ok t) :
    ∃ v, scope.lookup? x = some v ∧ v.ty = t := by
  rw [typeOf] at h
  obtain ⟨target, htarget, h⟩ := bind_eq_ok.1 h
  obtain ⟨v, rfl, hv⟩ := lookupVar_static hc htarget
  cases h
  exact ⟨v, hv, rfl⟩

theorem Context.typeOf_assign_static (hc : c.isStatic = true) {x : String} {e : Expr} {t : Ty}
    (h : c.typeOf scope (.assign (.var x) e) = .ok t) :
    ∃ v u, scope.lookup? x = some v ∧ v.ty = t ∧ c.typeOf scope e = .ok u ∧ c.registry.isAssignable u v.ty = true := by
  rw [typeOf] at h
  simp only [bind_eq_ok, Check.expectAssignable_eq_ok] at h
  obtain ⟨_, -, a, ha, u, hu, _, hassignable, heq⟩ := h
  cases heq
  obtain ⟨v, hv, rfl⟩ := typeOf_var_static hc ha
  exact ⟨v, u, hv, rfl, hu, hassignable⟩

theorem Scalar.isScalar_ty (v : Scalar) : v.ty.isScalar = true := by
  cases v <;> rfl

theorem Models.isScalar {env : Env} {locals : Array Value} (h : Models scope env locals) {x : String} {v : Local}
    (hv : scope.lookup? x = some v) : v.ty.isScalar = true := by
  obtain ⟨b, -, hold⟩ := h.get? hv
  rw [← hold.typed]
  exact b.value.isScalar_ty

theorem Context.isScalar_binary {op : BinaryOp} {l r : Ty} {bt : BinaryTyping} (h : c.binary op l r = .ok bt)
    (hl : l.isScalar = true) (hr : r.isScalar = true) : bt.result.isScalar = true := by
  have hfolded : ∀ t, t.isScalar = true → (Literal.folded op t).isScalar = true := by
    intro t ht
    unfold Literal.folded
    split
    · exact ht
    · rfl
  obtain ⟨a, rfl⟩ := Scalar.exists_ty hl
  obtain ⟨b, rfl⟩ := Scalar.exists_ty hr
  cases a <;> cases b
  case bool.bool => cases op <;> cases h <;> rfl
  case bool.int | bool.long | int.bool | long.bool => cases op <;> cases h
  case int.int => rw [Context.binary_of_promote (t := .int) h rfl]; exact hfolded _ rfl
  all_goals rw [Context.binary_of_promote (t := .long) h rfl]; exact hfolded _ rfl

/-- The operands of `&&` and `||` are conditions. -/
theorem Context.binary_logical {op : BinaryOp} {l r : Ty} {bt : BinaryTyping} (hop : op.instr? = none)
    (h : c.binary op l r = .ok bt) : l = .boolean ∧ r = .boolean ∧ bt.result = .boolean := by
  have hite : ∀ {y : Except Diagnostic BinaryTyping},
      (if (decide (l = Ty.boolean) && decide (r = Ty.boolean)) = true then .ok ⟨none, .boolean, false⟩ else y) = .ok bt →
      (∀ z, y ≠ .ok z) → l = .boolean ∧ r = .boolean ∧ bt.result = .boolean := by
    intro y hb hy
    split at hb
    · rename_i hboth
      cases hb
      simpa using hboth
    · exact absurd hb (hy bt)
  cases op <;> cases hop <;> exact hite h nofun

theorem Context.unary_eq_ok {op : UnaryOp} {t u : Ty} (h : c.unary op t = .ok u) : u = t := by
  have hite : ∀ {b : Bool} {d : Diagnostic}, (if b = true then Except.ok t else .error d) = .ok u → u = t := by
    intro b d hb
    cases b <;> cases hb
    rfl
  exact hite h

/-- Where all variables are scalars, an expression of the fragment is one. -/
theorem Context.isScalar_typeOf (hc : c.isStatic = true) {env : Env} {locals : Array Value}
    (hmodels : Models scope env locals) : ∀ {e : Expr} {t : Ty}, e.isScalar = true → c.typeOf scope e = .ok t →
    t.isScalar = true
  | .lit l, t, h, ht => by
    cases ht
    cases l <;> first | rfl | simp [Expr.isScalar] at h
  | .var x, t, h, ht => by
    obtain ⟨v, hv, rfl⟩ := typeOf_var_static hc ht
    exact hmodels.isScalar hv
  | .assign (.var x) e, t, h, ht => by
    obtain ⟨v, -, hv, rfl, -⟩ := typeOf_assign_static hc ht
    exact hmodels.isScalar hv
  | .binary op l r, t, h, ht => by
    rw [Expr.isScalar, Bool.and_eq_true] at h
    rw [typeOf] at ht
    simp only [bind_eq_ok] at ht
    obtain ⟨a, ha, b, hb, bt, hbt, heq⟩ := ht
    cases heq
    exact isScalar_binary hbt (isScalar_typeOf hc hmodels h.1 ha) (isScalar_typeOf hc hmodels h.2 hb)
  | .unary op e, t, h, ht => by
    rw [Expr.isScalar] at h
    rw [typeOf] at ht
    obtain ⟨a, ha, hu⟩ := bind_eq_ok.1 ht
    obtain rfl := unary_eq_ok hu
    exact isScalar_typeOf hc hmodels h ha

end Types

/-! ## Expressions -/

namespace Typed

variable {cs : Constants} {c : Context} {scope : Scope}

theorem constant_int {f : Frame} {i : UInt16} {n : Int32} (h : f.constants.get? i = some (.int n)) :
    f.constant i = .ok (.int n) := by rw [Frame.constant, h]

theorem constant_long {f : Frame} {i : UInt16} {n : Int64} (h : f.constants.get? i = some (.long n)) :
    f.constant i = .ok (.long n) := by rw [Frame.constant, h]

theorem literal_evaluates (scope : Scope) {l : Literal} {v : Scalar} (hv : Scalar.ofLiteral? l = some v) :
    Gen.Makes (fun _ => True) cs (c.literal l) fun code =>
      v.ty = l.ty ∧ Evaluates cs scope code v.ty fun env => Expr.eval env (.lit l) := by
  have hev : ∀ env, Expr.eval env (.lit l) = .ok (v, env) := fun env => Expr.eval_lit hv
  cases l with
  | null | double _ | str _ => cases hv
  | bool b =>
    cases hv
    refine .pure ⟨rfl, .one hev fun f o stack locals _ hat => ?_⟩
    cases b <;> exact .push hat
  | int n =>
    cases hv
    rw [Context.literal]
    refine .pushInt trivial (fun h => ⟨rfl, .one hev ?_⟩) (fun h => ⟨rfl, .one hev ?_⟩) fun i hi => ⟨rfl, .one hev ?_⟩
    · rintro f o stack locals - hat
      rw [h]
      exact .push hat
    · rintro f o stack locals - hat
      rw [h]
      exact .push hat
    · rintro f o stack locals rfl hat
      exact .ldc hat fun o stack locals => constant_int hi
  | long n =>
    cases hv
    refine .instr (.long n) (fun _ => rfl) trivial fun i hi => ⟨rfl, .one hev ?_⟩
    rintro f o stack locals rfl hat
    exact .ldc hat fun o stack locals => constant_long hi

/-- The code of an assignment stores a value that follows the evaluation. -/
theorem assign_evaluates (hc : c.isStatic = true) (keep : Bool) {x : String} {e : Expr} {t : Ty}
    (ih : Gen.Makes (fun _ => True) cs (expr c scope true e) fun r =>
      r.2 = t ∧ Evaluates cs scope r.1 t fun env => e.eval env) :
    Gen.Makes (fun _ => True) cs (expr c scope keep (.assign (.var x) e)) fun r =>
      ∃ v code, scope.lookup? x = some v ∧ Evaluates cs scope code t (fun env => e.eval env) ∧
        r = (Evaluates.storing keep (widenTo v.ty (code, t)) v.slot, if keep then v.ty else .void) := by
  rw [expr]
  refine .bind (Q := fun target => ∃ v, target = .slot v ∧ scope.lookup? x = some v)
    (.ofExcept fun target h => Context.lookupVar_static hc h) fun target => ?_
  cases target with
  | field f =>
    refine .mono (Gen.Collects.makes (.bind (expr_collects c scope true e) fun _ =>
      .bind (storeField_silent keep f) fun _ => .pure)) fun _ _ hQ => ?_
    obtain ⟨v, h, -⟩ := hQ
    cases h
  | slot w =>
    refine .bind ih fun r => .pure ?_
    rintro ⟨rfl, hcode⟩ ⟨v, hw, hv⟩
    cases hw
    exact ⟨w, r.1, hv, hcode, rfl⟩

/-- The code of a typed expression of the fragment follows its evaluation. -/
theorem expr_evaluates (hc : c.isStatic = true) : ∀ {e : Expr} {t : Ty}, e.isScalar = true → c.typeOf scope e = .ok t →
    Gen.Makes (fun _ => True) cs (expr c scope true e) fun r =>
      r.2 = t ∧ Evaluates cs scope r.1 t fun env => e.eval env
  | .lit l, t, he, ht => by
    cases ht
    have hv : ∃ v, Scalar.ofLiteral? l = some v := by
      cases l <;> first | exact ⟨_, rfl⟩ | simp [Expr.isScalar] at he
    obtain ⟨v, hv⟩ := hv
    rw [expr]
    refine .bind (literal_evaluates scope hv) fun code => .pure ?_
    rintro ⟨hty, hcode⟩
    exact ⟨rfl, hty ▸ hcode⟩
  | .var x, t, he, ht => by
    rw [expr]
    refine .bind (Q := fun target => ∃ v, target = .slot v ∧ scope.lookup? x = some v)
      (.ofExcept fun target h => Context.lookupVar_static hc h) fun target => ?_
    obtain ⟨v, hv, rfl⟩ := Context.typeOf_var_static hc ht
    cases target with
    | field f =>
      refine .mono (Gen.Collects.makes (.bind (accessField_silent .get f) fun _ => .pure)) fun _ _ hQ => ?_
      obtain ⟨v, h, -⟩ := hQ
      cases h
    | slot w =>
      refine .pure ?_
      rintro ⟨v', hw, hv'⟩
      cases hw
      rw [hv] at hv'
      cases hv'
      refine ⟨rfl, .load hv fun env b hb => ?_⟩
      rw [Expr.eval, hb]
      rfl
  | .assign (.var x) e, t, he, ht => by
    rw [Expr.isScalar] at he
    obtain ⟨v, u, hv, rfl, hu, hassignable⟩ := Context.typeOf_assign_static hc ht
    refine (assign_evaluates hc true (expr_evaluates hc he hu)).mono ?_
    rintro r ⟨w, code, hw, hcode, rfl⟩
    obtain rfl : v = w := Option.some.inj (hv.symm.trans hw)
    refine ⟨rfl, fun f o stack env g ret n hcs hin hg => ?_⟩
    simp only [Expr.eval]
    refine hcode.assign hv (fun env locals hmodels w hw => ?_) true hcs hin hg
    exact Scalar.exists_widen? (hmodels.isScalar hv) (hw ▸ hassignable)
  | .binary op l r, t, he, ht => by
    rw [Expr.isScalar, Bool.and_eq_true] at he
    rw [Context.typeOf] at ht
    simp only [bind_eq_ok] at ht
    obtain ⟨a, ha, b, hb, bt, hbt, heq⟩ := ht
    cases heq
    have hl := expr_evaluates hc he.1 ha
    have hr := expr_evaluates hc he.2 hb
    rw [expr]
    cases hop : op.instr? with
    | none =>
      obtain ⟨rfl, rfl, hresult⟩ := Context.binary_logical hop hbt
      refine .bind hl fun x => .bind hr fun y => .pure ?_
      rintro ⟨-, hy⟩ ⟨-, hx⟩
      rw [hresult]
      refine ⟨rfl, ?_⟩
      cases op <;> cases hop
      · change Evaluates cs scope (.both x.1 y.1) _ _
        simpa only [Expr.eval] using hx.and hy
      · change Evaluates cs scope (.either x.1 y.1) _ _
        simpa only [Expr.eval] using hx.or hy
    | some i =>
      have hlogical : op.isLogical = false := by
        cases op <;> first | rfl | cases hop
      refine .bind (Q := fun a' => c.typeOf scope l = .ok a') (.ofExcept fun _ h => h) fun a' =>
        .bind (Q := fun b' => c.typeOf scope r = .ok b') (.ofExcept fun _ h => h) fun b' =>
        .bind (Q := fun bt' => c.binary op a' b' = .ok bt') (.ofExcept fun _ h => h) fun bt' =>
        .bind hl fun x => .bind hr fun y => .pure ?_
      rintro ⟨-, hy⟩ ⟨-, hx⟩ hbt' hb' ha'
      obtain rfl : a = a' := Except.ok.inj (ha.symm.trans ha')
      obtain rfl : b = b' := Except.ok.inj (hb.symm.trans hb')
      obtain rfl : bt = bt' := Except.ok.inj (hbt.symm.trans hbt')
      refine ⟨rfl, ?_⟩
      simp only [Expr.eval_binary hlogical]
      exact .binary hop hbt (fun env locals hmodels => Context.isScalar_typeOf hc hmodels he.2 hb) hx hy
  | .unary op e, t, he, ht => by
    rw [Expr.isScalar] at he
    rw [Context.typeOf] at ht
    obtain ⟨u, hu, hunary⟩ := bind_eq_ok.1 ht
    rw [expr]
    refine .bind (expr_evaluates hc he hu) fun r => .bind (Q := fun a => c.unary op r.2 = .ok a) (.ofExcept fun _ h => h)
      fun a => .pure ?_
    rintro ha ⟨hr, hcode⟩
    rw [hr, hunary] at ha
    cases ha
    refine ⟨rfl, ?_⟩
    have h := hcode.unary hunary
    simpa only [Expr.eval] using h

theorem expr_eq_of_not_assign {e : Expr} (h : ∀ target value, e ≠ .assign target value) (keep : Bool) :
    expr c scope keep e = expr c scope true e := by
  cases e with
  | assign target value => exact absurd rfl (h target value)
  | _ => simp only [expr]

/-- The code of an expression that is evaluated for its effects alone follows its evaluation. -/
theorem discarded_evaluates (hc : c.isStatic = true) {e : Expr} {t : Ty} (he : e.isScalar = true)
    (ht : c.typeOf scope e = .ok t) :
    Gen.Makes (fun _ => True) cs (discarded c scope e) fun code =>
      ∀ (f : Frame) (o : Nat) (stack : List Value) (env : Env) (g : Frame) (ret : Ty) (n : Nat), f.constants = cs →
        code.In f o → f.Reached scope o stack env g →
        Simulates f.target ret n g (e.eval env) fun r g' => f.Reached scope (o + code.size) stack r.2 g' := by
  rw [discarded]
  by_cases hassign : ∃ target value, e = .assign target value
  · obtain ⟨target, value, rfl⟩ := hassign
    cases target with
    | var x =>
      rw [Expr.isScalar] at he
      obtain ⟨v, u, hv, rfl, hu, hassignable⟩ := Context.typeOf_assign_static hc ht
      refine .bind (assign_evaluates hc false (expr_evaluates hc he hu)) fun r => .pure ?_
      rintro ⟨w, code, hw, hcode, rfl⟩
      obtain rfl : v = w := Option.some.inj (hv.symm.trans hw)
      intro f o stack env g ret n hcs hin hg
      rw [Expr.eval]
      refine (hcode.assign hv (fun env locals hmodels w hw => ?_) false hcs hin hg).followed ?_
      · exact Scalar.exists_widen? (hmodels.isScalar hv) (hw ▸ hassignable)
      · exact fun a g h => ⟨0, g, .refl g, h.2⟩
    | _ => simp [Expr.isScalar] at he
  · simp only [not_exists] at hassign
    rw [expr_eq_of_not_assign hassign]
    refine .bind (expr_evaluates hc he ht) fun r => .pure ?_
    rintro ⟨rfl, hcode⟩ f o stack env g ret n hcs hin hg
    have hvoid : r.2.isVoid = false := by
      obtain ⟨locals, -, -, hmodels⟩ := hg
      have := Context.isScalar_typeOf hc hmodels he ht
      cases h : r.2 <;> first | rfl | (rw [h] at this; cases this)
    rw [hvoid] at hin ⊢
    obtain ⟨hfirst, hpop⟩ := hin.append
    refine (hcode f o stack env g ret n hcs hfirst hg).followed ?_
    rintro ⟨v, env⟩ g ⟨-, locals, rfl, hrest⟩
    refine ⟨1, _, .pop hpop.one, locals, ?_, hrest⟩
    simp only [Bool.false_eq_true, if_false, Block.size_append, Block.size_one, ← Nat.add_assoc]

end Typed

end ClassTree
