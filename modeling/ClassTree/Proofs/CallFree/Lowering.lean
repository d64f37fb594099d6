import ClassTree.Proofs.CallFree.Agreement
import ClassTree.Proofs.Typing.Checked

/-!
# Lowering of bodies without calls

What is known of a body that was written holds of the body that code is made for: folding makes no calls and no other
stores (`lowerBody_callFree`, `lowerBody_storesExactly`), and a body that is lowered returns on every way, so that nothing
follows it (`Stmt.perform_ne_next`).
-/

namespace ClassTree

/-! ## Folding -/

section Folding

variable {texts optimize : Bool} {c : Context} {scope : Scope}

theorem Expr.isCallFree_fold : ∀ {e : Expr}, e.isCallFree = true → e.fold.isCallFree = true
  | .lit _, h | .var _, h => h
  | .assign (.var x) e, h => by
    rw [isCallFree] at h
    rw [fold, fold, isCallFree]
    exact isCallFree_fold h
  | .binary op l r, h => by
    rw [isCallFree, Bool.and_eq_true] at h
    rw [fold]
    rcases foldedBinary_cases op l.fold r.fold with ⟨k, hk⟩ | hk
    · rw [hk, isCallFree]
    · rw [hk, isCallFree, isCallFree_fold h.1, isCallFree_fold h.2]
      rfl
  | .unary op e, h => by
    rw [isCallFree] at h
    rw [fold]
    rcases foldedUnary_cases op e.fold with ⟨k, hk⟩ | hk
    · rw [hk, isCallFree]
    · rw [hk, isCallFree]
      exact isCallFree_fold h

/-- Folding leaves the types of stored values as they are. -/
theorem Expr.storesExactly_fold (hc : c.isStatic = true) : ∀ {e : Expr} {t : Ty}, e.isCallFree = true →
    c.typeOf scope e = .ok t → e.storesExactly texts c scope = true → e.fold.storesExactly texts c scope = true
  | .lit _, _, _, _, h | .var _, _, _, _, h => h
  | .assign (.var x) e, t, he, ht, h => by
    rw [isCallFree] at he
    obtain ⟨v, u, hv, -, hu, -⟩ := Context.typeOf_assign_static hc ht
    rw [storesExactly, hv, hu, Bool.and_eq_true] at h
    rw [fold, fold, storesExactly, hv, Context.typeOf_fold hu, Bool.and_eq_true]
    exact ⟨storesExactly_fold hc he hu h.1, h.2⟩
  | .binary op l r, t, he, ht, h => by
    rw [isCallFree, Bool.and_eq_true] at he
    obtain ⟨a, b, bt, ha, hb, -⟩ := Context.typeOf_binary_eq_ok ht
    rw [storesExactly, Bool.and_eq_true] at h
    rw [fold]
    rcases foldedBinary_cases op l.fold r.fold with ⟨k, hk⟩ | hk
    · rw [hk, storesExactly]
      all_goals
        intros
        contradiction
    · rw [hk, storesExactly, storesExactly_fold hc he.1 ha h.1, storesExactly_fold hc he.2 hb h.2]
      rfl
  | .unary op e, t, he, ht, h => by
    rw [isCallFree] at he
    obtain ⟨u, hu, -⟩ := Context.typeOf_unary_eq_ok ht
    rw [storesExactly] at h
    rw [fold]
    rcases foldedUnary_cases op e.fold with ⟨k, hk⟩ | hk
    · rw [hk, storesExactly]
      all_goals
        intros
        contradiction
    · rw [hk, storesExactly]
      exact storesExactly_fold hc he hu h

theorem Expr.isCallFree_optimized {e : Expr} (h : e.isCallFree = true) : (e.optimized optimize).isCallFree = true := by
  cases optimize with
  | true => exact isCallFree_fold h
  | false => exact h

theorem Expr.storesExactly_optimized (hc : c.isStatic = true) {e : Expr} {t : Ty} (he : e.isCallFree = true)
    (ht : c.typeOf scope e = .ok t) (h : e.storesExactly texts c scope = true) :
    (e.optimized optimize).storesExactly texts c scope = true := by
  cases optimize with
  | true => exact storesExactly_fold hc he ht h
  | false => exact h

end Folding

/-! ## Statements -/

section Statements

variable {texts optimize : Bool} {c : Context}

mutual

theorem Stmt.isCallFree_optimized : ∀ {x : Stmt}, x.isCallFree = true →
    (x.mapExpr (Expr.optimized optimize)).isCallFree = true
  | .block stmts, h => by
    rw [isCallFree] at h
    rw [mapExpr_block, isCallFree]
    exact allCallFree_optimized h
  | .decl name ty none, h => by rw [mapExpr, Option.map_none, isCallFree]
  | .decl name ty (some e), h => by
    rw [isCallFree] at h
    rw [mapExpr, Option.map_some, isCallFree]
    exact Expr.isCallFree_optimized h
  | .expr e, h => by
    rw [isCallFree] at h
    rw [mapExpr, isCallFree]
    exact Expr.isCallFree_optimized h
  | .ret none, h => by rw [mapExpr, Option.map_none, isCallFree]
  | .ret (some e), h => by
    rw [isCallFree] at h
    rw [mapExpr, Option.map_some, isCallFree]
    exact Expr.isCallFree_optimized h
  | .cond test t none, h => by
    rw [isCallFree, Bool.and_eq_true] at h
    rw [mapExpr, isCallFree, Bool.and_eq_true]
    exact ⟨Expr.isCallFree_optimized h.1, isCallFree_optimized h.2⟩
  | .cond test t (some e), h => by
    simp only [isCallFree, Bool.and_eq_true] at h
    simp only [mapExpr, isCallFree, Bool.and_eq_true]
    exact ⟨⟨Expr.isCallFree_optimized h.1.1, isCallFree_optimized h.1.2⟩, isCallFree_optimized h.2⟩
  | .loop test body, h => by
    rw [isCallFree, Bool.and_eq_true] at h
    rw [mapExpr, isCallFree, Bool.and_eq_true]
    exact ⟨Expr.isCallFree_optimized h.1, isCallFree_optimized h.2⟩
  | .superCall args, h => by simp [isCallFree] at h

theorem Stmt.allCallFree_optimized : ∀ {xs : List Stmt}, allCallFree xs = true →
    allCallFree (xs.map (mapExpr (Expr.optimized optimize))) = true
  | [], h => h
  | x :: rest, h => by
    rw [allCallFree, Bool.and_eq_true] at h
    rw [List.map_cons, allCallFree, isCallFree_optimized h.1, allCallFree_optimized h.2]
    rfl

end

mutual

/-- Folding leaves it as it is that variables get values of their own types. -/
theorem Stmt.storesExactly_optimized (hc : c.isStatic = true) : ∀ {x : Stmt} {scope : Scope}, x.isCallFree = true →
    x.WellTyped c scope → x.storesExactly texts c scope = true →
    (x.mapExpr (Expr.optimized optimize)).storesExactly texts c scope = true
  | .block stmts, scope, hx, hw, h => by
    rw [isCallFree] at hx
    rw [WellTyped] at hw
    rw [storesExactly] at h
    rw [mapExpr_block, storesExactly]
    exact storesAllExactly_optimized hc hx hw h
  | .decl name ty none, scope, hx, hw, h => by
    rw [mapExpr, Option.map_none]
    exact h
  | .decl name ty (some e), scope, hx, hw, h => by
    rw [isCallFree] at hx
    rw [WellTyped] at hw
    obtain ⟨⟨t, ht, -⟩, -⟩ := hw
    rw [storesExactly, ht, Bool.and_eq_true] at h
    rw [mapExpr, Option.map_some, storesExactly, Context.typeOf_optimized ht, Bool.and_eq_true]
    exact ⟨Expr.storesExactly_optimized hc hx ht h.1, h.2⟩
  | .expr e, scope, hx, hw, h => by
    rw [isCallFree] at hx
    rw [WellTyped] at hw
    obtain ⟨t, ht⟩ := hw
    rw [storesExactly] at h
    rw [mapExpr, storesExactly]
    exact Expr.storesExactly_optimized hc hx ht h
  | .ret none, scope, hx, hw, h => by
    rw [mapExpr, Option.map_none]
    exact h
  | .ret (some e), scope, hx, hw, h => by
    rw [isCallFree] at hx
    rw [WellTyped] at hw
    obtain ⟨-, t, ht, -⟩ := hw
    rw [storesExactly] at h
    rw [mapExpr, Option.map_some, storesExactly]
    exact Expr.storesExactly_optimized hc hx ht h
  | .cond test t none, scope, hx, hw, h => by
    rw [isCallFree, Bool.and_eq_true] at hx
    rw [WellTyped] at hw
    rw [storesExactly, Bool.and_eq_true] at h
    rw [mapExpr, storesExactly, Bool.and_eq_true]
    exact ⟨Expr.storesExactly_optimized hc hx.1 hw.1 h.1, storesExactly_optimized hc hx.2 hw.2 h.2⟩
  | .cond test t (some e), scope, hx, hw, h => by
    simp only [isCallFree, Bool.and_eq_true] at hx
    rw [WellTyped] at hw
    simp only [storesExactly, Bool.and_eq_true] at h
    simp only [mapExpr, storesExactly, after_mapExpr, Bool.and_eq_true]
    exact ⟨⟨Expr.storesExactly_optimized hc hx.1.1 hw.1 h.1.1, storesExactly_optimized hc hx.1.2 hw.2.1 h.1.2⟩,
      storesExactly_optimized hc hx.2 hw.2.2 h.2⟩
  | .loop test body, scope, hx, hw, h => by
    rw [isCallFree, Bool.and_eq_true] at hx
    rw [WellTyped] at hw
    rw [storesExactly, Bool.and_eq_true] at h
    rw [mapExpr, storesExactly, Bool.and_eq_true]
    exact ⟨Expr.storesExactly_optimized hc hx.1 hw.1 h.1, storesExactly_optimized hc hx.2 hw.2 h.2⟩
  | .superCall args, scope, hx, hw, h => by simp [isCallFree] at hx

theorem Stmt.storesAllExactly_optimized (hc : c.isStatic = true) : ∀ {xs : List Stmt} {scope : Scope},
    allCallFree xs = true → allWellTyped c xs scope → storesAllExactly texts c xs scope = true →
    storesAllExactly texts c (xs.map (mapExpr (Expr.optimized optimize))) scope = true
  | [], scope, hx, hw, h => h
  | x :: rest, scope, hx, hw, h => by
    rw [allCallFree, Bool.and_eq_true] at hx
    rw [allWellTyped] at hw
    rw [storesAllExactly, Bool.and_eq_true] at h
    rw [List.map_cons, storesAllExactly, after_mapExpr, Bool.and_eq_true]
    exact ⟨storesExactly_optimized hc hx.1 hw.1 h.1, storesAllExactly_optimized hc hx.2 hw.2 h.2⟩

end

end Statements

/-! ## Bodies -/

theorem Stmt.allCallFree_append (xs ys : List Stmt) :
    allCallFree (xs ++ ys) = (allCallFree xs && allCallFree ys) := by
  induction xs with
  | nil => rfl
  | cons x xs ih => rw [List.cons_append, allCallFree, allCallFree, ih, Bool.and_assoc]

theorem Stmt.storesAllExactly_append (texts : Bool) (c : Context) (xs ys : List Stmt) (scope : Scope) :
    storesAllExactly texts c (xs ++ ys) scope =
      (storesAllExactly texts c xs scope && storesAllExactly texts c ys (afterAll xs scope)) := by
  induction xs generalizing scope with
  | nil => simp [storesAllExactly, afterAll]
  | cons x xs ih => rw [List.cons_append, storesAllExactly, storesAllExactly, afterAll, ih, Bool.and_assoc]

section Bodies

variable {texts : Bool} {c : Context} {scope : Scope} {body : List Stmt} (optimize : Bool)

theorem lowerBody_callFree (h : Stmt.allCallFree body = true) : Stmt.allCallFree (lowerBody optimize body) = true := by
  rw [lowerBody_eq, Stmt.allCallFree_append, Stmt.allCallFree_optimized h]
  split <;> rfl

theorem lowerBody_storesExactly (hc : c.isStatic = true) (hbody : Stmt.allCallFree body = true)
    (hw : (Stmt.block body).WellTyped c scope) (h : (Stmt.block body).storesExactly texts c scope = true) :
    (Stmt.block (lowerBody optimize body)).storesExactly texts c scope = true := by
  rw [Stmt.WellTyped] at hw
  rw [Stmt.storesExactly] at h ⊢
  rw [lowerBody_eq, Stmt.storesAllExactly_append, Stmt.storesAllExactly_optimized hc hbody hw h]
  split <;> rfl

end Bodies

/-! ## Bodies that return on every way -/

section Returns

variable {s : Setting} {ret : Ty}

/-- A computation that is put together of two goes on only if both do. -/
theorem Run.exists_of_bind_eq_ok {α β : Type} {x : Run α} {f : α → Run β} {b : β} {m m' : Machine}
    (h : (x >>= f) m = .ok b m') : ∃ a m₁, x m = .ok a m₁ ∧ f a m₁ = .ok b m' := by
  change EStateM.bind x f m = _ at h
  unfold EStateM.bind at h
  cases hx : x m with
  | error e m₁ => rw [hx] at h; cases h
  | ok a m₁ =>
    rw [hx] at h
    exact ⟨a, m₁, rfl, h⟩

mutual

/-- Nothing follows a statement that returns on every way. -/
theorem Stmt.perform_ne_next : ∀ {x : Stmt} {scope : Scope} {slots slots' : Slots} {m m' : Machine},
    x.alwaysReturns = true → x.perform s ret scope slots m ≠ .ok (.next slots') m'
  | .ret none, scope, slots, slots', m, m', hx => by
    simp only [perform]
    exact fun h => nomatch h
  | .ret (some e), scope, slots, slots', m, m', hx => by
    rw [perform]
    intro h
    split at h <;> obtain ⟨r, m₁, -, h⟩ := Run.exists_of_bind_eq_ok h <;> cases h
  | .block stmts, scope, slots, slots', m, m', hx => by
    rw [alwaysReturns] at hx
    rw [perform]
    exact performAll_ne_next hx
  | .cond test t (some e), scope, slots, slots', m, m', hx => by
    rw [alwaysReturns, Bool.and_eq_true] at hx
    rw [perform]
    intro h
    obtain ⟨⟨b, slots₁⟩, m₁, -, h⟩ := Run.exists_of_bind_eq_ok h
    cases b with
    | true => exact perform_ne_next hx.1 h
    | false => exact perform_ne_next hx.2 h

theorem Stmt.performAll_ne_next : ∀ {xs : List Stmt} {scope : Scope} {slots slots' : Slots} {m m' : Machine},
    anyReturns xs = true → performAll s ret xs scope slots m ≠ .ok (.next slots') m'
  | x :: rest, scope, slots, slots', m, m', hx => by
    rw [anyReturns, Bool.or_eq_true] at hx
    rw [performAll]
    intro h
    obtain ⟨flow, m₁, hflow, h⟩ := Run.exists_of_bind_eq_ok h
    cases flow with
    | ret v => cases h
    | next slots₁ =>
      rcases hx with hx | hx
      · exact perform_ne_next hx hflow
      · exact performAll_ne_next hx h

end

end Returns

end ClassTree
