import ClassTree.Proofs.Compile.Collects
import ClassTree.Proofs.Scope

/-!
# What code refers to

`Gen.Makes P cs x Q`: whenever `x` succeeds, it adds only items with `P` to the pool, and if the constants `cs` of the
finished class come of that pool, what `x` makes satisfies `Q`. There is one rule for each way in which code is made, and
one for each instruction that names a constant.

`Gen.Yields x S`: whatever `x` makes satisfies `S`, whatever becomes of the pool. So do the variables that are visible after
a statement (`compileStmt_yields`).
-/

namespace ClassTree

namespace Gen

/-- What is made satisfies `S`. -/
def Yields {α : Type} (x : Gen α) (S : α → Prop) : Prop := ∀ p a q, x p = .ok a q → S a

namespace Yields

variable {α β : Type} {S : α → Prop} {T : β → Prop}

theorem pure {a : α} (h : S a) : Yields (Pure.pure a) S := by
  intro p b q heq
  cases heq
  exact h

theorem throw {d : Diagnostic} : Yields (MonadExcept.throw d : Gen α) S := by
  intro p b q heq
  cases heq

theorem of_true {x : Gen α} : Yields x fun _ => True := fun _ _ _ _ => trivial

theorem ofExcept {x : Except Diagnostic α} (h : ∀ a, x = .ok a → S a) : Yields (Gen.ofExcept x) S := by
  cases x with
  | ok a => exact pure (h a rfl)
  | error d => exact throw

theorem bind {x : Gen α} {f : α → Gen β} (hx : Yields x S) (hf : ∀ a, S a → Yields (f a) T) : Yields (x >>= f) T := by
  intro p b q heq
  obtain ⟨a, p', hxp, hfp⟩ := bind_ok_cases heq
  exact hf a (hx p a p' hxp) p' b q hfp

end Yields

/-- What is made satisfies `Q` in the finished class, and only items with `P` are added to the pool. -/
def Makes {α : Type} (P : Item → Prop) (cs : Constants) (x : Gen α) (Q : α → Prop) : Prop :=
  ∀ p a q, x p = .ok a q → p.Grows P q ∧ (q.Within cs → Q a)

namespace Makes

variable {α β : Type} {P : Item → Prop} {cs : Constants} {Q Q' : α → Prop} {R : β → Prop}

theorem pure {a : α} (h : Q a) : Makes P cs (Pure.pure a) Q := by
  intro p b q heq
  cases heq
  exact ⟨.refl p, fun _ => h⟩

theorem throw {d : Diagnostic} : Makes P cs (MonadExcept.throw d : Gen α) Q := by
  intro p b q heq
  cases heq

theorem mono {x : Gen α} (hx : Makes P cs x Q) (h : ∀ a, Q a → Q' a) : Makes P cs x Q' := by
  intro p a q heq
  obtain ⟨hgrows, hQ⟩ := hx p a q heq
  exact ⟨hgrows, fun hw => h a (hQ hw)⟩

/-- What is made first satisfies `S` whatever becomes of the pool, but `Q` only in the finished class, so `Q` is a premise
of what is made of it. -/
theorem bind_of {x : Gen α} {f : α → Gen β} {S : α → Prop} (hS : Yields x S) (hx : Makes P cs x Q)
    (hf : ∀ a, S a → Makes P cs (f a) fun b => Q a → R b) : Makes P cs (x >>= f) R := by
  intro p b q heq
  obtain ⟨a, p', hxp, hfp⟩ := bind_ok_cases heq
  obtain ⟨hgrows, hQ⟩ := hx p a p' hxp
  obtain ⟨hgrows', hR⟩ := hf a (hS p a p' hxp) p' b q hfp
  exact ⟨hgrows.trans hgrows', fun hw => hR hw (hQ (hw.of_grows hgrows'))⟩

theorem bind {x : Gen α} {f : α → Gen β} (hx : Makes P cs x Q) (hf : ∀ a, Makes P cs (f a) fun b => Q a → R b) :
    Makes P cs (x >>= f) R := bind_of .of_true hx fun a _ => hf a

theorem ofExcept {x : Except Diagnostic α} (h : ∀ a, x = .ok a → Q a) : Makes P cs (Gen.ofExcept x) Q := by
  cases x with
  | ok a => exact pure (h a rfl)
  | error d => exact throw

/-- The rule for what comes after something that does not depend on the pool. -/
theorem ofExcept_bind {x : Except Diagnostic α} {f : α → Gen β} (h : ∀ a, x = .ok a → Makes P cs (f a) R) :
    Makes P cs (Gen.ofExcept x >>= f) R := by
  cases x with
  | ok a => exact h a rfl
  | error d =>
    intro p b q heq
    cases heq

/-- The same, where it is known what that comes to. -/
theorem ofExcept_ok_bind {x : Except Diagnostic α} {f : α → Gen β} {a : α} (hx : x = .ok a) (h : Makes P cs (f a) R) :
    Makes P cs (Gen.ofExcept x >>= f) R := by
  rw [hx]
  exact h

/-- The rule for an instruction that names an item. -/
theorem instr {make : Pool → Instr × Pool} {f : UInt16 → Instr} {Q : Block → Prop} (item : Item)
    (hmake : ∀ p, make p = Pool.instr f (p.put item)) (hP : P item) (h : ∀ i, cs.Has i item → Q (.one (f i))) :
    Makes P cs (Gen.instr make) Q := by
  intro p b q heq
  obtain ⟨rfl, rfl⟩ := instr_ok_cases heq
  rw [hmake]
  exact ⟨.single hP, fun hw => h _ (Pool.has_of_put item hw)⟩

/-- The rule for a call of a static method by name, which names two items. -/
theorem invokeStaticDyn {cls name : String} {argc : UInt8} {Q : Block → Prop} (hcls : P (.cls cls))
    (hname : P (.utf8 name))
    (h : ∀ i j, cs.Has i (.cls cls) → cs.Has j (.utf8 name) → Q (.one (.invokeStaticDyn i j argc))) :
    Makes P cs (Gen.instr (·.invokeStaticDyn cls name argc)) Q := by
  intro p b q heq
  obtain ⟨rfl, rfl⟩ := instr_ok_cases heq
  rw [Pool.invokeStaticDyn_eq]
  have hsecond : ((p.put (.cls cls)).2).Grows P (((p.put (.cls cls)).2.put (.utf8 name)).2) := .single hname
  refine ⟨(Pool.Grows.single hcls).trans hsecond, fun hw => ?_⟩
  exact h _ _ (Pool.has_of_put (.cls cls) (hw.of_grows hsecond)) (Pool.has_of_put (.utf8 name) hw)

end Makes

/-- What is made of nothing but additions to the pool. -/
theorem Collects.makes {α : Type} {cs : Constants} {x : Gen α} {ds : List Double} (h : Collects x ds) :
    Makes (fun _ => True) cs x fun _ => True := fun p a q heq => ⟨(h p a q heq).grows, fun _ => trivial⟩

end Gen

/-! ## Literals -/

section Literals

variable {P : Item → Prop} {cs : Constants} {Q : Block → Prop}

/-- The rule for pushing an integer. -/
theorem Gen.Makes.pushInt {n : Int32} (hP : P (.int n)) (h0 : n = 0 → Q (.one (.push .zero)))
    (h1 : n = 1 → Q (.one (.push .one))) (h : ∀ i, cs.get? i = some (.int n) → Q (.one (.ldc i))) :
    Makes P cs (Gen.instr (·.pushInt n)) Q := by
  by_cases hn0 : n = 0
  · have heq : Gen.instr (·.pushInt n) = Pure.pure (Block.one (.push .zero)) := by
      simp only [Gen.instr, Pool.pushInt, hn0, if_true]
      rfl
    rw [heq]
    exact .pure (h0 hn0)
  · by_cases hn1 : n = 1
    · have heq : Gen.instr (·.pushInt n) = Pure.pure (Block.one (.push .one)) := by
        simp only [Gen.instr, Pool.pushInt, hn1, if_true]
        rfl
      rw [heq]
      exact .pure (h1 hn1)
    · exact .instr (.int n) (fun p => by simp only [Pool.pushInt, hn0, hn1, if_false]; rfl) hP h

end Literals

/-! ## Variables -/

variable (b : Binding)

theorem declareVar_yields (c : Context) (scope : Scope) (name : String) (ty : Ty) :
    Gen.Yields (declareVar c scope name ty) fun r => scope.declare name ty = (.ok r.1, r.2) := by
  unfold declareVar
  split
  · rename_i h
    exact .pure h
  · exact .throw

theorem declareParams_yields (c : Context) (params : List Param) (scope : Scope) :
    Gen.Yields (declareParams c params scope) fun s => s = afterParams params scope ∧ scope.DeclaresAll params := by
  induction params generalizing scope with
  | nil => exact .pure ⟨rfl, trivial⟩
  | cons p params ih =>
    refine .bind (declareVar_yields c scope p.name p.ty) fun r hr => ?_
    intro q s q' heq
    obtain ⟨hs, hall⟩ := ih r.2 q s q' heq
    have hnext : (scope.declare p.name p.ty).2 = r.2 := by rw [hr]
    refine ⟨?_, ⟨r.1, by rw [Scope.Declares, hr]⟩, by rw [hnext]; exact hall⟩
    rw [hs, afterParams, afterParams, List.foldl_cons, hnext]

theorem Stmt.after_decl {scope scope' : Scope} {name : String} {ty : Ty} {slot : UInt16} (init : Option Expr)
    (h : scope.declare name ty = (.ok slot, scope')) : (Stmt.decl name ty init).after scope = scope' := by
  rw [Stmt.after, h]

mutual

/-- The variables that are visible after a statement do not depend on its code. -/
theorem compileStmt_yields (c : Context) :
    ∀ x scope, Gen.Yields (compileStmt b c x scope) fun r => r.2 = x.after scope
  | .block stmts, scope => by
    rw [compileStmt, Stmt.after]
    exact .bind (compileStmts_yields c stmts _ _) fun r hr => .pure (by rw [hr])
  | .decl name ty none, scope => by
    rw [compileStmt]
    refine .bind .of_true fun _ _ => .bind (declareVar_yields c scope name ty) fun r hr => .pure ?_
    exact (Stmt.after_decl none hr).symm
  | .decl name ty (some e), scope => by
    rw [compileStmt]
    refine .bind .of_true fun _ _ => .bind (declareVar_yields c scope name ty) fun r hr => .pure ?_
    exact (Stmt.after_decl (some e) hr).symm
  | .expr e, scope => by
    rw [compileStmt, Stmt.after]
    exact .bind .of_true fun _ _ => .pure rfl
  | .ret none, scope => by
    rw [compileStmt, Stmt.after]
    exact .pure rfl
  | .ret (some e), scope => by
    rw [compileStmt, Stmt.after]
    split
    · exact .bind .of_true fun _ _ => .pure rfl
    · exact .bind .of_true fun _ _ => .pure rfl
  | .cond test t none, scope => by
    rw [compileStmt, Stmt.after]
    exact .bind .of_true fun _ _ => .bind (compileStmt_yields c t _) fun r hr => .pure (by rw [hr])
  | .cond test t (some e), scope => by
    rw [compileStmt, Stmt.after]
    refine .bind .of_true fun _ _ => .bind (compileStmt_yields c t _) fun r hr => ?_
    exact .bind (compileStmt_yields c e _) fun r' hr' => .pure (by rw [hr', hr])
  | .loop test body, scope => by
    rw [compileStmt, Stmt.after]
    exact .bind .of_true fun _ _ => .bind (compileStmt_yields c body _) fun r hr => .pure (by rw [hr])
  | .superCall _, _ => by
    rw [compileStmt]
    exact .throw

theorem compileStmts_yields (c : Context) :
    ∀ xs scope done, Gen.Yields (compileStmts b c xs scope done) fun r => r.2 = afterAll xs scope
  | [], scope, _ => by
    rw [compileStmts, afterAll]
    exact .pure rfl
  | x :: rest, scope, done => by
    rw [compileStmts, afterAll]
    refine .bind (compileStmt_yields c x scope) fun r hr => ?_
    rw [← hr]
    exact compileStmts_yields c rest r.2 _

end

end ClassTree
