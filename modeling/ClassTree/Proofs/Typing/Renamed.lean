import ClassTree.Proofs.Scope.Extended
import ClassTree.Proofs.Typing.Checked

/-!
# Renaming variables

`e.rename f` is the expression `e` with every bare name `n` in it changed to `f n`. `Scope.Agrees f s s' n`: the name `n` means
in the scope `s` what `f n` means in `s'`. Where the scopes agree on all names in an expression, the renamed expression has the
type that the expression has, or fails with the same finding (`Context.typeOf_rename`).

One variable that was declared outside of all blocks is renamed by `newName x y`. The scopes before and after are related by
`Scope.Renames x y`, which makes them agree on all names but `y` (`Scope.Renames.agrees`), and which declarations and ends of
blocks keep (`Scope.Renames.declare`, `Scope.Renames.pop`). A body that is well typed never declares the name again
(`Stmt.WellTyped.not_mem_declared`).
-/

namespace ClassTree

/-! ## Names in expressions -/

theorem append_subset_append {α : Type} {as as' bs bs' : List α} (ha : as ⊆ as') (hb : bs ⊆ bs') : as ++ bs ⊆ as' ++ bs' :=
  List.append_subset.2 ⟨List.Subset.trans ha (List.subset_append_left as' bs'),
    List.Subset.trans hb (List.subset_append_right as' bs')⟩

namespace Expr

mutual

/-- The bare names in an expression, be they names of variables or of fields. -/
def vars : Expr → List String
  | .lit _ | .this | .outer => []
  | .var name => [name]
  | .field target _ => target.vars
  | .assign target value => target.vars ++ value.vars
  | .call receiver _ args => receiver.vars ++ varsAll args
  | .staticCall _ _ args | .new _ args => varsAll args
  | .binary _ left right => left.vars ++ right.vars
  | .unary _ operand => operand.vars

def varsAll : List Expr → List String
  | [] => []
  | e :: rest => e.vars ++ varsAll rest

end

mutual

/-- Changes the bare names in an expression. -/
def rename (f : String → String) : Expr → Expr
  | .lit l => .lit l
  | .var name => .var (f name)
  | .this => .this
  | .outer => .outer
  | .field target name => .field (target.rename f) name
  | .assign target value => .assign (target.rename f) (value.rename f)
  | .call receiver method args => .call (receiver.rename f) method (renameAll f args)
  | .staticCall cls method args => .staticCall cls method (renameAll f args)
  | .new cls args => .new cls (renameAll f args)
  | .binary op left right => .binary op (left.rename f) (right.rename f)
  | .unary op operand => .unary op (operand.rename f)

def renameAll (f : String → String) : List Expr → List Expr
  | [] => []
  | e :: rest => e.rename f :: renameAll f rest

end

theorem renameAll_eq_map (f : String → String) (es : List Expr) : renameAll f es = es.map (rename f) := by
  induction es with
  | nil => rfl
  | cons e es ih => rw [renameAll, ih, List.map_cons]

mutual

theorem rename_id : ∀ e : Expr, e.rename id = e
  | .lit _ | .var _ | .this | .outer => rfl
  | .field target _ => by rw [rename, rename_id target]
  | .assign target value => by rw [rename, rename_id target, rename_id value]
  | .call receiver _ args => by rw [rename, rename_id receiver, renameAll_id args]
  | .staticCall _ _ args => by rw [rename, renameAll_id args]
  | .new _ args => by rw [rename, renameAll_id args]
  | .binary _ left right => by rw [rename, rename_id left, rename_id right]
  | .unary _ operand => by rw [rename, rename_id operand]

theorem renameAll_id : ∀ es : List Expr, renameAll id es = es
  | [] => rfl
  | e :: rest => by rw [renameAll, rename_id e, renameAll_id rest]

end

theorem isAssignable_rename (f : String → String) (e : Expr) : (e.rename f).isAssignable = e.isAssignable := by
  cases e <;> rfl

/-! ## Folding -/

section Folding

variable {f : String → String}

theorem foldedBinary_rename (op : BinaryOp) (left right : Expr) :
    foldedBinary op (left.rename f) (right.rename f) = (foldedBinary op left right).rename f := by
  cases left with
  | lit a =>
    cases right with
    | lit b =>
      simp only [rename, foldedBinary]
      split <;> rfl
    | _ => rfl
  | _ => rfl

theorem foldedUnary_rename (op : UnaryOp) (operand : Expr) :
    foldedUnary op (operand.rename f) = (foldedUnary op operand).rename f := by
  cases operand with
  | lit a =>
    simp only [rename, foldedUnary]
    split <;> rfl
  | _ => rfl

mutual

/-- Folding looks at constants alone, so names can be changed before or after it. -/
theorem fold_rename : ∀ e : Expr, (e.rename f).fold = e.fold.rename f
  | .lit _ | .var _ | .this | .outer => rfl
  | .field target _ => by rw [rename, fold, fold, rename, fold_rename target]
  | .assign target value => by rw [rename, fold, fold, rename, fold_rename target, fold_rename value]
  | .call receiver _ args => by rw [rename, fold, fold, rename, fold_rename receiver, foldAll_rename args]
  | .staticCall _ _ args => by rw [rename, fold, fold, rename, foldAll_rename args]
  | .new _ args => by rw [rename, fold, fold, rename, foldAll_rename args]
  | .binary op left right => by
    rw [rename, fold, fold, fold_rename left, fold_rename right, foldedBinary_rename]
  | .unary op operand => by rw [rename, fold, fold, fold_rename operand, foldedUnary_rename]

theorem foldAll_rename : ∀ es : List Expr, foldAll (renameAll f es) = renameAll f (foldAll es)
  | [] => rfl
  | e :: rest => by rw [renameAll, foldAll, foldAll, renameAll, fold_rename e, foldAll_rename rest]

end

theorem optimized_comp_rename (optimize : Bool) (f : String → String) :
    Expr.optimized optimize ∘ rename f = rename f ∘ Expr.optimized optimize := by
  funext e
  cases optimize with
  | true => exact fold_rename e
  | false => rfl

mutual

/-- Folding brings in no names. -/
theorem vars_fold_subset : ∀ e : Expr, e.fold.vars ⊆ e.vars
  | .lit _ | .var _ | .this | .outer => List.Subset.refl _
  | .field target _ => by
    rw [fold, vars, vars]
    exact vars_fold_subset target
  | .assign target value => by
    rw [fold, vars, vars]
    exact append_subset_append (vars_fold_subset target) (vars_fold_subset value)
  | .call receiver _ args => by
    rw [fold, vars, vars]
    exact append_subset_append (vars_fold_subset receiver) (varsAll_foldAll_subset args)
  | .staticCall _ _ args => by
    rw [fold, vars, vars]
    exact varsAll_foldAll_subset args
  | .new _ args => by
    rw [fold, vars, vars]
    exact varsAll_foldAll_subset args
  | .binary op left right => by
    rw [fold, vars]
    rcases foldedBinary_cases op left.fold right.fold with ⟨l, hl⟩ | hkept
    · rw [hl, vars]
      exact List.nil_subset _
    · rw [hkept, vars]
      exact append_subset_append (vars_fold_subset left) (vars_fold_subset right)
  | .unary op operand => by
    rw [fold, vars]
    rcases foldedUnary_cases op operand.fold with ⟨l, hl⟩ | hkept
    · rw [hl, vars]
      exact List.nil_subset _
    · rw [hkept, vars]
      exact vars_fold_subset operand

theorem varsAll_foldAll_subset : ∀ es : List Expr, varsAll (foldAll es) ⊆ varsAll es
  | [] => List.Subset.refl _
  | e :: rest => by
    rw [foldAll, varsAll, varsAll]
    exact append_subset_append (vars_fold_subset e) (varsAll_foldAll_subset rest)

end

end Folding

end Expr

/-! ## Scopes that agree -/

/-- A bare name means in the first scope what its new name means in the second: variables of the same type in the same slot, or
both times a field, whose name is then kept. -/
inductive Scope.Agrees (f : String → String) (s s' : Scope) (n : String) : Prop
  | slot {v v' : Local} (old : s.lookup? n = some v) (new : s'.lookup? (f n) = some v') (ty : v'.ty = v.ty)
      (same : v'.slot = v.slot)
  | field (old : s.lookup? n = none) (new : s'.lookup? n = none) (kept : f n = n)

namespace Context

variable {c : Context} {f : String → String} {s s' : Scope}

theorem lookupVar_rename {n : String} (h : s.Agrees f s' n) :
    (∃ v v', c.lookupVar s n = .ok (.slot v) ∧ c.lookupVar s' (f n) = .ok (.slot v') ∧ v'.ty = v.ty ∧ v'.slot = v.slot) ∨
      c.lookupVar s' (f n) = c.lookupVar s n := by
  cases h with
  | @slot v v' old new ty same => exact .inl ⟨v, v', by rw [lookupVar, old], by rw [lookupVar, new], ty, same⟩
  | field old new kept =>
    refine .inr ?_
    rw [kept, lookupVar, lookupVar, old, new]

mutual

/-- An expression with other names has the type that it has with its own, where the names mean the same. -/
theorem typeOf_rename : ∀ {e : Expr}, (∀ n ∈ e.vars, s.Agrees f s' n) → c.typeOf s' (e.rename f) = c.typeOf s e
  | .lit _, _ | .this, _ | .outer, _ => rfl
  | .var name, h => by
    rw [Expr.rename, typeOf, typeOf]
    rcases lookupVar_rename (c := c) (h name List.mem_cons_self) with ⟨v, v', hold, hnew, hty, -⟩ | hsame
    · rw [hold, hnew]
      exact congrArg Except.ok hty
    · rw [hsame]
  | .field target name, h => by
    rw [Expr.vars] at h
    rw [Expr.rename, typeOf, typeOf, typeOf_rename h]
  | .assign target value, h => by
    rw [Expr.vars, List.forall_mem_append] at h
    rw [Expr.rename, typeOf, typeOf, typeOf_rename h.1, typeOf_rename h.2, requireAssignable, requireAssignable,
      Expr.isAssignable_rename]
  | .call receiver method args, h => by
    rw [Expr.vars, List.forall_mem_append] at h
    rw [Expr.rename, typeOf, typeOf, typeOf_rename h.1, typesOf_rename h.2]
  | .staticCall cls method args, h => by
    rw [Expr.vars] at h
    rw [Expr.rename, typeOf, typeOf, typesOf_rename h]
  | .new cls args, h => by
    rw [Expr.vars] at h
    rw [Expr.rename, typeOf, typeOf, typesOf_rename h]
  | .binary op left right, h => by
    rw [Expr.vars, List.forall_mem_append] at h
    rw [Expr.rename, typeOf, typeOf, typeOf_rename h.1, typeOf_rename h.2]
  | .unary op operand, h => by
    rw [Expr.vars] at h
    rw [Expr.rename, typeOf, typeOf, typeOf_rename h]

theorem typesOf_rename : ∀ {es : List Expr}, (∀ n ∈ Expr.varsAll es, s.Agrees f s' n) →
    c.typesOf s' (Expr.renameAll f es) = c.typesOf s es
  | [], _ => rfl
  | e :: rest, h => by
    rw [Expr.varsAll, List.forall_mem_append] at h
    rw [Expr.renameAll, typesOf, typesOf, typeOf_rename h.1, typesOf_rename h.2]

end

end Context

/-! ## Renaming one variable -/

/-- The name that a name is changed to, if only `x` is changed, to `y`. -/
def newName (x y n : String) : String := if n = x then y else n

namespace Scope

variable {x y : String} {s s' : Scope}

/-- The second scope shows what the first does, but for a variable that was declared outside of all blocks and has another name
there. -/
structure Renames (x y : String) (s s' : Scope) : Prop where
  depth : s'.depth = s.depth
  nextSlot : s'.nextSlot = s.nextSlot
  others {n : String} : n ≠ x → n ≠ y → s'.lookup? n = s.lookup? n
  renamed : ∃ v v', s.lookup? x = some v ∧ s'.lookup? y = some v' ∧ v'.ty = v.ty ∧ v'.slot = v.slot ∧ v.depth = 0 ∧ v'.depth = 0

theorem Renames.agrees (h : s.Renames x y s') {n : String} (hn : n ≠ y) : s.Agrees (newName x y) s' n := by
  by_cases hx : n = x
  · obtain ⟨v, v', hold, hnew, hty, hslot, -⟩ := h.renamed
    exact .slot (hx ▸ hold) (by rw [newName, if_pos hx, hnew]) hty hslot
  · have hkept : newName x y n = n := if_neg hx
    have hsame := h.others hx hn
    cases hlookup : s.lookup? n with
    | none => exact .field hlookup (hsame.trans hlookup) hkept
    | some v => exact .slot hlookup (by rw [hkept, hsame, hlookup]) rfl rfl

theorem Renames.enter (h : s.Renames x y s') : s.enter.Renames x y s'.enter :=
  ⟨congrArg (· + 1) h.depth, h.nextSlot, h.others, h.renamed⟩

/-- The end of a block takes the same variables away, and not the one that was renamed. -/
theorem Renames.pop (h : s.Renames x y s') (hdepth : 0 < s.depth) : s.pop.Renames x y s'.pop := by
  refine ⟨congrArg (· - 1) h.depth, h.nextSlot, fun hx hy => ?_, ?_⟩
  · rw [lookup?_pop, lookup?_pop, h.others hx hy, h.depth]
  · obtain ⟨v, v', hold, hnew, hty, hslot, hv, hv'⟩ := h.renamed
    refine ⟨v, v', ?_, ?_, hty, hslot, hv, hv'⟩
    · rw [lookup?_pop, hold]
      simp [Option.filter, hv, hdepth]
    · rw [lookup?_pop, hnew, h.depth]
      simp [Option.filter, hv', hdepth]

theorem declare_of_fst {n : String} {ty : Ty} {result : Except DeclareError UInt16} (h : (s.declare n ty).1 = result) :
    s.declare n ty = (result, (s.declare n ty).2) := Prod.ext h rfl

theorem depth_declare (s : Scope) (n : String) (ty : Ty) : (s.declare n ty).2.depth = s.depth := by
  cases h : (s.declare n ty).1 with
  | ok slot => rw [(declare_eq_ok (declare_of_fst h)).2.2]
  | error e => rw [declare_eq_error (declare_of_fst h)]

/-- A declaration of any other name comes to the same in both. -/
theorem Renames.declare (h : s.Renames x y s') {n : String} (hx : n ≠ x) (hy : n ≠ y) (ty : Ty) :
    (s'.declare n ty).1 = (s.declare n ty).1 ∧ (s.declare n ty).2.Renames x y (s'.declare n ty).2 := by
  have hfst : (s'.declare n ty).1 = (s.declare n ty).1 := by
    rw [declare_fst, declare_fst, h.others hx hy, h.nextSlot]
  refine ⟨hfst, ?_⟩
  cases hslot : (s.declare n ty).1 with
  | error e =>
    rw [declare_eq_error (declare_of_fst hslot), declare_eq_error (declare_of_fst (hfst.trans hslot))]
    exact h
  | ok slot =>
    have hd := declare_of_fst hslot
    have hd' := declare_of_fst (hfst.trans hslot)
    obtain ⟨-, -, ht⟩ := declare_eq_ok hd
    obtain ⟨-, -, ht'⟩ := declare_eq_ok hd'
    refine ⟨by rw [depth_declare, depth_declare, h.depth], by rw [ht, ht', h.nextSlot], fun hmx hmy => ?_, ?_⟩
    · rw [lookup?_declare hd, lookup?_declare hd', h.depth, h.others hmx hmy]
    · rw [lookup?_declare hd, lookup?_declare hd', if_neg hx, if_neg hy]
      exact h.renamed

/-- The variable is declared under the one name or under the other. -/
theorem renames_declare (hx : s.lookup? x = none) (hy : s.lookup? y = none) (hdepth : s.depth = 0) (ty : Ty) :
    (s.declare y ty).1 = (s.declare x ty).1 ∧
      ∀ slot, (s.declare x ty).1 = .ok slot → (s.declare x ty).2.Renames x y (s.declare y ty).2 := by
  have hfst : (s.declare y ty).1 = (s.declare x ty).1 := by rw [declare_fst, declare_fst, hx, hy]
  refine ⟨hfst, fun slot hslot => ?_⟩
  have hd := declare_of_fst hslot
  have hd' := declare_of_fst (hfst.trans hslot)
  obtain ⟨-, -, ht⟩ := declare_eq_ok hd
  obtain ⟨-, -, ht'⟩ := declare_eq_ok hd'
  refine ⟨by rw [depth_declare, depth_declare], by rw [ht, ht'], fun hnx hny => ?_,
    ⟨x, ty, slot, s.depth⟩, ⟨y, ty, slot, s.depth⟩, ?_⟩
  · rw [lookup?_declare hd, lookup?_declare hd', if_neg (Ne.symm hnx), if_neg (Ne.symm hny)]
  · rw [lookup?_declare hd, lookup?_declare hd', if_pos rfl, if_pos rfl]
    exact ⟨rfl, rfl, rfl, rfl, hdepth, hdepth⟩

end Scope

/-! ## Visible names -/

mutual

/-- A body that is well typed declares no name that is visible before. -/
theorem Stmt.WellTyped.not_mem_declared {c : Context} : ∀ {x : Stmt} {s : Scope} {ls : List Local}, x.WellTyped c s →
    s.Shows ls → ∀ {n : String}, n ∈ ls.map Local.name → n ∉ x.declared
  | .block stmts, s, ls, hw, hs, n, hn => by
    rw [Stmt.WellTyped] at hw
    rw [Stmt.declared]
    exact allWellTyped_not_mem_declaredAll hw hs.enter hn
  | .decl name ty init, s, ls, hw, hs, n, hn => by
    have hdeclares : ∃ slot, s.Declares name ty slot := by
      cases init with
      | none =>
        rw [Stmt.WellTyped] at hw
        exact hw
      | some e =>
        rw [Stmt.WellTyped] at hw
        exact hw.2
    obtain ⟨slot, hslot⟩ := hdeclares
    obtain ⟨v, hv, rfl⟩ := List.mem_map.1 hn
    rw [Stmt.declared, List.mem_singleton]
    intro heq
    have hnone := (Scope.declare_eq_ok (Scope.declare_of_fst hslot)).1
    rw [← heq, hs.mem_iff.1 hv] at hnone
    cases hnone
  | .expr _, _, _, _, _, _, _ | .ret _, _, _, _, _, _, _ | .superCall _, _, _, _, _, _, _ => by
    rw [Stmt.declared]
    exact List.not_mem_nil
  | .cond test t none, s, ls, hw, hs, n, hn => by
    rw [Stmt.WellTyped] at hw
    rw [Stmt.declared]
    exact hw.2.not_mem_declared hs.enter hn
  | .cond test t (some e), s, ls, hw, hs, n, hn => by
    rw [Stmt.WellTyped] at hw
    rw [Stmt.declared, List.mem_append, not_or]
    obtain ⟨news, hadds⟩ := t.exists_adds_after s.enter
    exact ⟨hw.2.1.not_mem_declared hs.enter hn, hw.2.2.not_mem_declared (hadds.pop.visible ls hs).enter hn⟩
  | .loop test body, s, ls, hw, hs, n, hn => by
    rw [Stmt.WellTyped] at hw
    rw [Stmt.declared]
    exact hw.2.not_mem_declared hs.enter hn

theorem allWellTyped_not_mem_declaredAll {c : Context} : ∀ {xs : List Stmt} {s : Scope} {ls : List Local}, allWellTyped c xs s →
    s.Shows ls → ∀ {n : String}, n ∈ ls.map Local.name → n ∉ declaredAll xs
  | [], _, _, _, _, _, _ => List.not_mem_nil
  | x :: rest, s, ls, hw, hs, n, hn => by
    rw [allWellTyped] at hw
    rw [declaredAll, List.mem_append, not_or]
    obtain ⟨news, hadds⟩ := x.exists_adds_after s
    refine ⟨hw.1.not_mem_declared hs hn, allWellTyped_not_mem_declaredAll hw.2 (hadds.visible ls hs) ?_⟩
    rw [List.map_append]
    exact List.mem_append_right _ hn

end

/-- Parameters that can be declared are visible afterwards. -/
theorem Scope.Shows.afterParams {params : List Param} {s : Scope} {ls : List Local} (h : s.Shows ls)
    (hd : s.DeclaresAll params) :
    ∃ ls', (ClassTree.afterParams params s).Shows ls' ∧
      ls'.map Local.name = (params.map Param.name).reverse ++ ls.map Local.name := by
  induction params generalizing s ls with
  | nil => exact ⟨ls, h, rfl⟩
  | cons p params ih =>
    obtain ⟨⟨slot, hslot⟩, hrest⟩ := hd
    obtain ⟨ls', hls', hnames⟩ := ih (h.declare (Scope.declare_of_fst hslot)) hrest
    refine ⟨ls', hls', ?_⟩
    rw [hnames, List.map_cons, List.map_cons, List.reverse_cons, List.append_assoc]
    rfl

end ClassTree
