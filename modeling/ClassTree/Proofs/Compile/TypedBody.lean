import ClassTree.Proofs.Compile.Orderly
import ClassTree.Proofs.Compile.TypedCode

/-!
# The code of typed bodies is typed

The code of a statement takes local variables whose types are those of the visible variables (`Context.Tracks`) to such ones, or
ends in returns (`compileStmt_types`): a declaration gives a slot a type, and at the end of a block the types of its variables
are forgotten. So the code of a method whose parts are sound is typed (`compileMethod_types`), if the initial values of fields
are stored by expressions alone: these see the parameters in their slots, but not their names.
-/

namespace ClassTree

open Gen

/-! ## The types of local variables -/

/-- The visible variables are in their slots, and no slot has a type that was not handed out. -/
structure Context.Tracks (c : Context) (L : Nat → Option Ty) (s : Scope) : Prop extends c.Covers L s where
  regular : s.Regular
  bound : ∀ n t, L n = some t → n < s.nextSlot

namespace Context.Tracks

variable {c : Context} {L : Nat → Option Ty} {s s' : Scope}

theorem enter (h : c.Tracks L s) : c.Tracks L s.enter :=
  ⟨⟨h.receiver, h.slot⟩, h.regular.enter, h.bound⟩

/-- Where the same variables are visible, the same types do. -/
theorem adds (h : c.Tracks L s) (hadds : s.Adds [] s') : c.Tracks L s' := by
  obtain ⟨ls, hls⟩ := h.regular
  have hls' : s'.Shows ls := hadds.visible ls hls
  refine ⟨⟨h.receiver, fun x v hv => h.slot x v ?_⟩, ⟨ls, hls'⟩, fun n t ht => ?_⟩
  · rw [hls.lookup, ← hls'.lookup, hv]
  · exact Nat.lt_of_lt_of_le (h.bound n t ht) hadds.nextSlot

/-- The slot of a new variable has no type yet. -/
theorem new (h : c.Tracks L s) : L s.nextSlot = none := by
  cases hslot : L s.nextSlot with
  | none => rfl
  | some t => exact absurd (h.bound _ t hslot) (Nat.lt_irrefl _)

theorem declare (h : c.Tracks L s) {x : String} {ty : Ty} {slot : UInt16} (hd : s.declare x ty = (.ok slot, s')) :
    c.Tracks (Function.update L slot.toNat (some ty)) s' := by
  obtain ⟨ls, hls⟩ := h.regular
  obtain ⟨-, hslot, heq⟩ := Scope.declare_eq_ok hd
  have hls' := hls.declare hd
  have hnext : s'.nextSlot = s.nextSlot + 1 := by rw [heq]
  refine ⟨⟨fun hinstance => ?_, fun y v hv => ?_⟩, ⟨_, hls'⟩, fun n t ht => ?_⟩
  · have hreceiver := h.receiver hinstance
    have hpos := h.bound 0 _ hreceiver
    rw [Function.update_of_ne (by omega)]
    exact hreceiver
  · obtain ⟨hmem, hname⟩ := hls'.mem_of_lookup? hv
    rcases List.mem_cons.1 hmem with rfl | hmem
    · exact Function.update_self ..
    · have hlt := hls.slot_lt v hmem
      rw [Function.update_of_ne (by omega)]
      exact h.slot v.name v (hls.mem_iff.1 hmem)
  · rw [hnext]
    by_cases hn : n = slot.toNat
    · omega
    · rw [Function.update_of_ne hn] at ht
      have hlt := h.bound n t ht
      omega

/-- The parameters are in the slots behind those of the variables before them. -/
theorem params {ts : List Ty} (h : c.Tracks (fun n => ts[n]?) s) (hlength : ts.length = s.nextSlot) {params : List Param}
    (hall : s.DeclaresAll params) : c.Tracks (fun n => (ts ++ params.map (·.ty))[n]?) (afterParams params s) := by
  induction params generalizing ts s with
  | nil => simpa [afterParams] using h
  | cons p params ih =>
    obtain ⟨⟨slot, hslot⟩, hrest⟩ := hall
    have hd : s.declare p.name p.ty = (.ok slot, (s.declare p.name p.ty).2) := Prod.ext hslot rfl
    obtain ⟨-, hnext, heq⟩ := Scope.declare_eq_ok hd
    have hupdate : Function.update (fun n => ts[n]?) slot.toNat (some p.ty) = fun n => (ts ++ [p.ty])[n]? := by
      funext n
      rw [hnext, ← hlength]
      by_cases hn : n = ts.length
      · subst hn
        simp
      · rw [Function.update_of_ne hn, List.getElem?_append]
        split
        · rfl
        · rw [List.getElem?_eq_none (by omega), List.getElem?_eq_none (by rw [List.length_singleton]; omega)]
    have htracks := h.declare hd
    rw [hupdate] at htracks
    have hall := ih htracks (by rw [List.length_append, List.length_singleton, hlength, heq]) hrest
    rw [List.append_assoc] at hall
    exact hall

end Context.Tracks

/-- The types of local variables after a statement. -/
def Stmt.typesAfter (L : Nat → Option Ty) (s : Scope) : Stmt → Nat → Option Ty
  | .decl name ty _ =>
    match s.declare name ty with
    | (.ok slot, _) => Function.update L slot.toNat (some ty)
    | (.error _, _) => L
  | _ => L

def typesAfterAll (L : Nat → Option Ty) (s : Scope) : List Stmt → Nat → Option Ty
  | [] => L
  | x :: rest => typesAfterAll (x.typesAfter L s) (x.after s) rest

section After

variable {c : Context} {L : Nat → Option Ty} {s : Scope}

theorem Context.Tracks.after (h : c.Tracks L s) (x : Stmt) : c.Tracks (x.typesAfter L s) (x.after s) := by
  cases x with
  | decl name ty init =>
    rw [Stmt.typesAfter, Stmt.after]
    cases hd : s.declare name ty with
    | mk result s' =>
      cases result with
      | ok slot => exact h.declare hd
      | error e =>
        rw [Scope.declare_eq_error hd]
        exact h
  | block stmts =>
    obtain ⟨news, hadds⟩ := exists_adds_afterAll stmts s.enter
    rw [Stmt.after]
    exact h.adds hadds.pop
  | cond test t e =>
    obtain ⟨news, hadds⟩ := t.exists_adds_after s.enter
    cases e with
    | none =>
      rw [Stmt.after]
      exact h.adds hadds.pop
    | some e =>
      obtain ⟨news', hadds'⟩ := e.exists_adds_after (t.after s.enter).pop.enter
      rw [Stmt.after]
      exact h.adds (hadds.pop.trans hadds'.pop)
  | loop test body =>
    obtain ⟨news, hadds⟩ := body.exists_adds_after s.enter
    rw [Stmt.after]
    exact h.adds hadds.pop
  | expr e | ret e | superCall e =>
    rw [Stmt.after]
    exact h

/-- A statement takes no type away. -/
theorem Context.Tracks.typesAfter (h : c.Tracks L s) (x : Stmt) {n : Nat} {t : Ty} (ht : L n = some t) :
    x.typesAfter L s n = some t := by
  cases x with
  | decl name ty init =>
    rw [Stmt.typesAfter]
    cases hd : s.declare name ty with
    | mk result s' =>
      cases result with
      | ok slot =>
        obtain ⟨-, hslot, -⟩ := Scope.declare_eq_ok hd
        have hlt := h.bound n t ht
        exact (Function.update_of_ne (by omega) _ _).trans ht
      | error e => exact ht
  | _ => exact ht

theorem Context.Tracks.typesAfterAll (h : c.Tracks L s) (xs : List Stmt) {n : Nat} {t : Ty} (ht : L n = some t) :
    ClassTree.typesAfterAll L s xs n = some t := by
  induction xs generalizing L s with
  | nil => exact ht
  | cons x xs ih => exact ih (h.after x) (h.typesAfter x ht)

end After

/-! ## Statements -/

section Statements

variable {c : Context} {l : Loader} {cs : Constants} {L L' : Nat → Option Ty}

/-- From local variables with types, the block leaves others on an empty stack, or ends in returns. -/
abbrev Block.Keeps (l : Loader) (cs : Constants) (ret : Ty) (b : Block) (L L' : Nat → Option Ty) (returns : Bool) : Prop :=
  b.Types l cs ret (some ⟨L, []⟩) (if returns then none else some ⟨L', []⟩)

namespace Block.Keeps

variable {ret : Ty} {a b : Block} {x y : Bool}

theorem of_pushes (h : a.Pushes l cs ret L []) : a.Keeps l cs ret L L false := h []

/-- The rule for a return. -/
theorem returns {i : Instr} {ts : List Ty} (ha : a.Pushes l cs ret L ts)
    (hi : i.Types l cs ret ⟨L, ts ++ []⟩ ⟨L, []⟩) (htarget : ∀ o, i.target? o = none) (hends : i.opcode.isTerminator = true) :
    (a ++ .one i).Keeps l cs ret L L' true := (ha []).append (.one trivial htarget hi (.inl hends))

/-- Types may be forgotten, and code that ends in returns may be taken for code that goes on. -/
theorem weaken (h : a.Keeps l cs ret L L' x) (hkept : ∀ n t, L n = some t → L' n = some t) (hxy : y = true → x = true) :
    a.Keeps l cs ret L L y := by
  refine h.mono ((l.types cs ret).sub_refl _) ?_
  cases x with
  | true => trivial
  | false =>
    cases y with
    | true => exact Bool.noConfusion (hxy rfl)
    | false => exact ⟨hkept, .nil⟩

theorem ifThen {test : Block} (htest : test.Pushes l cs ret L [.boolean]) (ha : a.Keeps l cs ret L L false) :
    (Block.ifThen test a).Keeps l cs ret L L false :=
  Block.Flows.ifThen (htest []) ⟨fun _ => trivial, fun w => .jumpIfFalse w L []⟩ ha ((l.types cs ret).sub_refl _)

theorem ifElse {test : Block} (htest : test.Pushes l cs ret L [.boolean]) (ha : a.Keeps l cs ret L L x)
    (hb : b.Keeps l cs ret L L x) : (Block.ifElse test a b).Keeps l cs ret L L x := by
  refine Block.Flows.ifElse (htest []) ⟨fun _ => trivial, fun w => .jumpIfFalse w L []⟩ ha hb (fun _ => trivial) ?_
  exact fun w s _ => .jump w s

theorem repeatWhile {test : Block} (htest : test.Pushes l cs ret L [.boolean]) (ha : a.Keeps l cs ret L L false) :
    (Block.repeatWhile test a).Keeps l cs ret L L false :=
  Block.Flows.repeatWhile (htest []) ⟨fun _ => trivial, fun w => .jumpIfFalse w L []⟩ ha (fun _ => trivial) fun w => .loop w _

end Block.Keeps

variable {s : Scope}

theorem compileValue_pushes (hc : c.Backed l) (hg : c.registry.Valued) (hs : s.Valued) (hL : c.Covers L s) {e : Expr}
    {ty : Ty} (h : c.Accepts s e ty) :
    Makes (fun _ => True) cs (compileValue .static c s e ty) fun b => b.Pushes l cs c.ret L [ty] := by
  obtain ⟨t, ht, hassignable⟩ := h
  have hvalue : Makes (fun _ => True) cs (Typed.expr c s true e) fun r => r.2 = t ∧ r.1.Pushes l cs c.ret L [t] :=
    Typed.pushes_value (Typed.expr_pushes hc hg hs hL true ht) (Typed.expr_yields true ht)
      (Registry.isVoid_of_isAssignable hassignable).1
  refine .bind hvalue fun a => .pure fun ha => ?_
  obtain ⟨code, _⟩ := a
  obtain ⟨rfl, ha⟩ := ha
  exact ha.assigned hc hassignable

theorem compileTest_pushes (hc : c.Backed l) (hg : c.registry.Valued) (hs : s.Valued) (hL : c.Covers L s) {e : Expr}
    (h : c.typeOf s e = .ok .boolean) :
    Makes (fun _ => True) cs (compileValue .static c s e .boolean) fun b => b.Pushes l cs c.ret L [.boolean] :=
  compileValue_pushes hc hg hs hL ⟨.boolean, h, rfl⟩

/-- The rule for a declaration, whose value is stored in a new slot. -/
theorem declareVar_keeps {name : String} {ty : Ty} {init : Option Expr} {x : Gen Block}
    (hx : Makes (fun _ => True) cs x fun b => b.Pushes l cs c.ret L [ty]) :
    Makes (fun _ => True) cs
      (do let code ← x
          let (slot, s) ← declareVar c s name ty
          return (code ++ .one (.store slot), s))
      fun a => a.1.Keeps l cs c.ret L ((Stmt.decl name ty init).typesAfter L s) false := by
  refine .bind hx fun code => .bind_of (declareVar_yields c s name ty) (declareVar_makes c s name ty) fun a ha => ?_
  refine .pure fun _ hcode => ?_
  have htypes : (Stmt.decl name ty init).typesAfter L s = Function.update L a.1.toNat (some ty) := by
    rw [Stmt.typesAfter, ha]
  rw [htypes]
  exact (hcode []).append (Block.types_one (.store a.1 ty L []) fun _ => rfl)

mutual

/-- The code of a statement keeps the types of the visible variables, or ends in returns. -/
theorem compileStmt_types (hc : c.Backed l) (hg : c.registry.Valued) : ∀ {x : Stmt} {s : Scope} {L : Nat → Option Ty},
    x.Valued c s → c.Tracks L s →
    Makes (fun _ => True) cs (compileStmt .static c x s) fun a => a.1.Keeps l cs c.ret L (x.typesAfter L s) x.alwaysReturns
  | .block stmts, s, L, h, hL => by
    rw [compileStmt, Stmt.alwaysReturns]
    refine .bind (compileStmts_types hc hg (fun y hy => h.part hy) hL.enter .empty) fun a => .pure fun ha => ?_
    have hall := ha L false (.empty _)
    rw [Bool.false_or] at hall
    exact hall.weaken (fun n t => hL.enter.typesAfterAll stmts) id
  | .decl name ty none, s, L, h, hL => by
    rw [compileStmt]
    have hty : ty.isVoid = false := h.vars ty (by simp [Stmt.varTypes])
    exact declareVar_keeps (pushDefault_pushes hty)
  | .decl name ty (some e), s, L, h, hL => by
    rw [compileStmt]
    have hw := h.wellTyped
    rw [Stmt.WellTyped] at hw
    exact declareVar_keeps (compileValue_pushes hc hg h.scope hL.toCovers hw.1)
  | .expr e, s, L, h, hL => by
    rw [compileStmt]
    have hw := h.wellTyped
    rw [Stmt.WellTyped] at hw
    obtain ⟨t, ht⟩ := hw
    exact .bind (Typed.discarded_pushes hc hg h.scope hL.toCovers ht) fun code => .pure fun hcode => .of_pushes hcode
  | .ret none, s, L, _, _ => by
    rw [compileStmt, Stmt.alwaysReturns]
    exact .pure (.one trivial (fun _ => rfl) (.retVoid _) (.inl rfl))
  | .ret (some e), s, L, h, hL => by
    rw [compileStmt, Stmt.alwaysReturns]
    have hw := h.wellTyped
    rw [Stmt.WellTyped] at hw
    rw [if_neg (by rw [hw.1]; exact Bool.false_ne_true)]
    refine .bind (compileValue_pushes hc hg h.scope hL.toCovers hw.2) fun code => .pure fun hcode => ?_
    exact .returns hcode (.ret L []) (fun _ => rfl) rfl
  | .cond test t none, s, L, h, hL => by
    rw [compileStmt]
    have hw := h.wellTyped
    rw [Stmt.WellTyped] at hw
    refine .bind (compileTest_pushes hc hg h.scope hL.toCovers hw.1) fun code => ?_
    refine .bind (compileStmt_types hc hg (h.part (by simp [Stmt.parts])) hL.enter) fun a => .pure fun ha hcode => ?_
    exact .ifThen hcode (ha.weaken (fun n t' => hL.enter.typesAfter t) Bool.noConfusion)
  | .cond test t (some e), s, L, h, hL => by
    rw [compileStmt, Stmt.alwaysReturns]
    have hw := h.wellTyped
    rw [Stmt.WellTyped] at hw
    obtain ⟨news, hadds⟩ := t.exists_adds_after s.enter
    have hpop := (hL.adds hadds.pop).enter
    refine .bind (compileTest_pushes hc hg h.scope hL.toCovers hw.1) fun code => ?_
    refine .bind_of (compileStmt_yields .static c t s.enter) (compileStmt_types hc hg (h.part (by simp [Stmt.parts])) hL.enter)
      fun a ha => ?_
    dsimp only
    rw [ha]
    refine .bind (compileStmt_types hc hg (h.part (by simp [Stmt.parts])) hpop) fun a' => .pure fun ha' ha hcode => ?_
    exact .ifElse hcode (ha.weaken (fun n t' => hL.enter.typesAfter t) fun hb => (Bool.and_eq_true_iff.1 hb).1)
      (ha'.weaken (fun n t' => hpop.typesAfter e) fun hb => (Bool.and_eq_true_iff.1 hb).2)
  | .loop test body, s, L, h, hL => by
    rw [compileStmt]
    have hw := h.wellTyped
    rw [Stmt.WellTyped] at hw
    refine .bind (compileTest_pushes hc hg h.scope hL.toCovers hw.1) fun code => ?_
    refine .bind (compileStmt_types hc hg (h.part (by simp [Stmt.parts])) hL.enter) fun a => .pure fun ha hcode => ?_
    exact .repeatWhile hcode (ha.weaken (fun n t => hL.enter.typesAfter body) Bool.noConfusion)
  | .superCall _, _, _, _, _ => by
    rw [compileStmt]
    exact .throw

/-- The code of statements goes on where that before it does, and ends in returns if one of them always returns. -/
theorem compileStmts_types (hc : c.Backed l) (hg : c.registry.Valued) : ∀ {xs : List Stmt} {s : Scope} {L : Nat → Option Ty},
    (∀ y ∈ placed xs s, y.1.Valued c y.2) → c.Tracks L s → ∀ done : Block,
      Makes (fun _ => True) cs (compileStmts .static c xs s done) fun a => ∀ first returns,
        done.Keeps l cs c.ret first L returns → a.1.Keeps l cs c.ret first (typesAfterAll L s xs) (returns || anyReturns xs)
  | [], s, L, _, _, done => by
    rw [compileStmts, anyReturns]
    exact .pure fun first returns hdone => by rwa [Bool.or_false]
  | x :: rest, s, L, h, hL, done => by
    rw [compileStmts, anyReturns]
    refine .bind_of (compileStmt_yields .static c x s) (compileStmt_types hc hg (h (x, s) List.mem_cons_self) hL) fun a ha => ?_
    dsimp only
    rw [ha]
    have hrest : ∀ y ∈ placed rest (x.after s), y.1.Valued c y.2 := fun y hy => h y (List.mem_cons_of_mem _ hy)
    refine (compileStmts_types hc hg hrest (hL.after x) _).mono fun a' ha' ha first returns hdone => ?_
    rw [← Bool.or_assoc]
    refine ha' first _ ?_
    cases returns with
    | true => exact hdone.append ha.unreached
    | false => exact hdone.append ha

end

/-- The code of statements that only evaluate expressions leaves the stack as it found it. -/
theorem compileStmts_pushes (hc : c.Backed l) (hg : c.registry.Valued) (hL : c.Covers L s) {xs : List Stmt}
    (h : ∀ x ∈ xs, x.Valued c s ∧ ∃ e, x = .expr e) (done : Block) :
    Makes (fun _ => True) cs (compileStmts .static c xs s done) fun a =>
      done.Pushes l cs c.ret L [] → a.1.Pushes l cs c.ret L [] := by
  induction xs generalizing done with
  | nil =>
    rw [compileStmts]
    exact .pure id
  | cons x xs ih =>
    obtain ⟨hvalued, e, rfl⟩ := h x List.mem_cons_self
    have hw := hvalued.wellTyped
    rw [Stmt.WellTyped] at hw
    obtain ⟨t, ht⟩ := hw
    rw [compileStmts, compileStmt]
    have hexpr : Makes (fun _ => True) cs (do return (← compileDiscarded .static c s e, s)) fun a =>
        a.1.Pushes l cs c.ret L [] := .bind (Typed.discarded_pushes hc hg hvalued.scope hL ht) fun code => .pure id
    have hyields : Yields (do return (← compileDiscarded .static c s e, s)) fun a => a.2 = s :=
      .bind .of_true fun _ _ => .pure rfl
    refine .bind_of hyields hexpr fun a ha => ?_
    dsimp only
    rw [ha]
    exact (ih (fun x hx => h x (List.mem_cons_of_mem _ hx)) _).mono fun a' ha' ha hdone => ha' (hdone.append ha)

end Statements

/-! ## Methods -/

/-- Statements that only evaluate expressions see the same variables. -/
theorem mem_placed_exprs {xs : List Stmt} (h : ∀ x ∈ xs, ∃ e, x = .expr e) {s : Scope} {x : Stmt} (hx : x ∈ xs) :
    (x, s) ∈ placed xs s := by
  induction xs with
  | nil => cases hx
  | cons y xs ih =>
    obtain ⟨e, rfl⟩ := h y List.mem_cons_self
    rcases List.mem_cons.1 hx with rfl | hx
    · exact List.mem_cons_self
    · exact List.mem_cons_of_mem _ (ih (fun x hx => h x (List.mem_cons_of_mem _ hx)) hx)

namespace LoweredMethod

/-- The types of the local variables that a method in a context begins with. -/
def firstTypes (c : Context) (m : LoweredMethod) : List Ty :=
  (if c.isStatic then [] else [c.thisType]) ++ m.params.map (·.ty)

end LoweredMethod

section Methods

variable {c : Context} {l : Loader} {cs : Constants} {m : LoweredMethod}

theorem Context.tracks_params (hall : c.firstScope.DeclaresAll m.params) :
    c.Tracks (fun n => (m.firstTypes c)[n]?) (afterParams m.params c.firstScope) := by
  unfold LoweredMethod.firstTypes
  have hregular := c.regular_firstScope
  unfold Context.firstScope at hall hregular ⊢
  cases hstatic : c.isStatic with
  | true =>
    rw [hstatic] at hall hregular
    refine Context.Tracks.params ⟨⟨fun h => ?_, fun x v hv => ?_⟩, hregular, fun n t ht => ?_⟩ rfl hall
    · rw [hstatic] at h
      cases h
    · simp [Scope.lookup?, Scope.ofStatic] at hv
    · simp at ht
  | false =>
    rw [hstatic] at hall hregular
    refine Context.Tracks.params ⟨⟨fun _ => rfl, fun x v hv => ?_⟩, hregular, fun n t ht => ?_⟩ rfl hall
    · simp [Scope.lookup?, Scope.ofInstance] at hv
    · cases n with
      | zero => exact Nat.zero_lt_one
      | succ n => simp at ht

/-- Field initialisers see the receiver and the outer instance in their slots. -/
theorem Context.covers_initializerScope (hinstance : c.isStatic = false) :
    c.Covers (fun n => (m.firstTypes c)[n]?) (initializerScope m.params) := by
  unfold LoweredMethod.firstTypes
  rw [hinstance]
  refine ⟨fun _ => rfl, fun x v hv => ?_⟩
  unfold initializerScope at hv
  split at hv
  · rename_i p rest hparams
    rw [hparams]
    split at hv
    · have hd : Scope.ofInstance.declare p.name p.ty =
          (.ok 1, (Scope.ofInstance.declare p.name p.ty).2) := by
        simp [Scope.declare, Scope.ofInstance, Scope.slotLimit]
      obtain ⟨hmem, -⟩ := (Scope.shows_ofInstance.declare hd).mem_of_lookup? hv
      rw [List.mem_singleton.1 hmem]
      rfl
    · simp [Scope.lookup?, Scope.ofInstance] at hv
  · simp [Scope.lookup?, Scope.ofInstance] at hv

/-- The code of a method whose parts are sound is typed, from the types of its parameters to returns. -/
theorem compileMethod_types (hc : c.Backed l) (hg : c.registry.Valued) (h : m.Sound .static c)
    (hreturns : m.body.returns = true)
    (hconstructor : ∀ args initializers body, m.body = .constructor args initializers body →
      c.isStatic = false ∧ ∀ x ∈ initializers, ∃ e, x = .expr e) :
    Makes (fun _ => True) cs (compileMethod .static c m) fun mc => m.body ≠ .abstract →
      ∃ code : Block, mc.code = code.encode ∧ code.overflowed = false ∧
        code.Types l cs c.ret (some ⟨fun n => (m.firstTypes c)[n]?, []⟩) none := by
  have hfinish : ∀ (code : Block) (scope : Scope), Makes (fun _ => True) cs (compileMethod.finish c code scope) fun mc =>
      code.Types l cs c.ret (some ⟨fun n => (m.firstTypes c)[n]?, []⟩) none →
      ∃ code : Block, mc.code = code.encode ∧ code.overflowed = false ∧
        code.Types l cs c.ret (some ⟨fun n => (m.firstTypes c)[n]?, []⟩) none := by
    intro code scope
    unfold compileMethod.finish
    split
    · exact .throw
    · rename_i hover
      exact .pure fun hcode => ⟨code, rfl, by simpa using hover, hcode⟩
  have hparts := h.parts
  unfold LoweredMethod.parts at hparts
  unfold compileMethod
  refine .bind_of (declareParams_yields c m.params _) (declareParams_makes c m.params _) fun scope hscope => ?_
  obtain ⟨rfl, hall⟩ := hscope
  have htracks : c.Tracks (fun n => (m.firstTypes c)[n]?) (afterParams m.params c.firstScope) := c.tracks_params hall
  split
  · rename_i hm
    exact .pure fun _ hbody => absurd hm hbody
  · rename_i body hm
    rw [hm] at hparts hreturns
    have hvalued := hparts _ (List.mem_singleton_self _)
    have hbody : Makes (fun _ => True) cs (compileStmt .static c (.block body) (afterParams m.params c.firstScope)) fun a =>
        a.1.Keeps l cs c.ret _ _ _ :=
      compileStmt_types hc hg (hvalued rfl).2 htracks
    rw [Stmt.alwaysReturns, show anyReturns body = true from hreturns] at hbody
    exact .bind hbody fun a => (hfinish a.1 a.2).mono fun mc hmc ha _ _ => hmc ha
  · rename_i superArgs initializers body hm
    rw [hm] at hparts hreturns
    obtain ⟨hinstance, hexprs⟩ := hconstructor _ _ _ hm
    obtain ⟨hbody, hinits⟩ := List.forall_mem_cons.1 hparts
    have hvalued := (hbody rfl).2
    have hbody : Makes (fun _ => True) cs (compileStmt .static c (.block body) (afterParams m.params c.firstScope)) fun a =>
        a.1.Keeps l cs c.ret _ _ _ :=
      compileStmt_types hc hg hvalued htracks
    rw [Stmt.alwaysReturns, show anyReturns body = true from hreturns] at hbody
    have hcall : Makes (fun _ => True) cs (compileSuperCall .static c (afterParams m.params c.firstScope) superArgs) fun b =>
        b.Pushes l cs c.ret (fun n => (m.firstTypes c)[n]?) [] := by
      unfold compileSuperCall
      split
      · exact .throw
      · rename_i superclass hsuper
        obtain ⟨ts, hts⟩ := h.superArgs rfl hm
        exact Typed.superCall_pushes hc hg hvalued.scope htracks.toCovers hinstance hsuper hts
    have hstores : Makes (fun _ => True) cs (compileStmts .static c initializers (initializerScope m.params) .empty) fun a =>
        Block.empty.Pushes l cs c.ret (fun n => (m.firstTypes c)[n]?) [] →
          a.1.Pushes l cs c.ret (fun n => (m.firstTypes c)[n]?) [] := by
      refine compileStmts_pushes hc hg (c.covers_initializerScope hinstance) (fun x hx => ⟨?_, hexprs x hx⟩) .empty
      exact (hinits _ (mem_placed_exprs hexprs hx) rfl).2
    refine .bind hcall fun call => .bind hstores fun inits => .bind hbody fun a => ?_
    refine (hfinish _ a.2).mono fun mc hmc ha hinits hcall _ _ => hmc ?_
    exact ((hcall []).append (hinits .empty [])).append ha

end Methods

end ClassTree
