import ClassTree.Proofs.Compile.Collects
import ClassTree.Proofs.Compile.Linked
import ClassTree.Proofs.Compile.Small
import ClassTree.Proofs.Compile.Typed
import ClassTree.Proofs.Descriptor
import ClassTree.Proofs.Typing.Fold

/-!
# The members that an expression uses

`Context.uses c scope e`: the fields, methods and constructors that the types in `e` choose for its names and calls, in the
order in which code uses them, each choice that fails with its finding.

* The code of an expression that has a type names these members and no others, in this order (`Typed.expr_names`).
* Folding changes none of them, because what it replaces by a constant uses no member (`Context.uses_fold`).

So the checker and the code generator, of which one sees the expression as it was written and the other the folded one, choose
the same members (`Context.fold_keeps_choices`).
-/

namespace ClassTree

/-! ## Uses -/

/-- A member that an expression uses. -/
inductive MemberUse where
  | field (f : FieldEntry)
  | method (m : MethodEntry)
  | constructor (cls : ClassEntry) (k : MethodEntry)
  /-- The field of the class at hand for its outer instance, which has this type. -/
  | outer (t : Ty)
deriving DecidableEq

/-- The reference by which the code of a class names a member. -/
def MemberUse.ref (c : Context) : MemberUse → MemberRef
  | .field f => f.ref
  | .method m => m.ref
  | .constructor cls k => cls.constructorRef k.params
  | .outer t => ⟨c.cls.name.text, outerField, t.descriptor⟩

namespace Context

variable {c : Context} {scope : Scope}

/-- The field that a bare name means, if it means no local variable. -/
def nameUses (c : Context) (scope : Scope) (name : String) : List (Except Diagnostic MemberUse) :=
  match c.lookupVar scope name with
  | .ok (.slot _) => []
  | .ok (.field f) => [.ok (.field f)]
  | .error d => [.error d]

/-- The field that is read if a new instance of a class belongs to the outer instance of the current one. -/
def outerUses (c : Context) (cls : Name) : List (Except Diagnostic MemberUse) :=
  match c.registry.get? cls with
  | none => []
  | some e =>
    if e.isInner then
      match c.outerInstance e, c.cls.enclosing with
      | .ok .outerOfThis, some own => [.ok (.outer (.ref own))]
      | _, _ => []
    else []

mutual

/-- The members that an expression uses, in the order in which code uses them. -/
def uses (c : Context) (scope : Scope) : Expr → List (Except Diagnostic MemberUse)
  | .lit _ | .this => []
  | .outer => [c.outerType.map .outer]
  | .var name => c.nameUses scope name
  | .field target name =>
    c.uses scope target ++ [do return .field (← c.field (← c.typeOf scope target) name)]
  -- The value is made before it is stored in the member that the target ends in.
  | .assign target value =>
    (c.uses scope target).dropLast ++ c.uses scope value ++ (c.uses scope target).getLast?.toList
  | .call receiver name args =>
    c.uses scope receiver ++ c.usesAll scope args ++
      [do return .method (← c.method (← c.typeOf scope receiver) name (← c.typesOf scope args))]
  | .staticCall cls name args =>
    c.usesAll scope args ++ [do return .method (← c.staticMethod cls name (← c.typesOf scope args))]
  | .new cls args =>
    c.outerUses cls ++ c.usesAll scope args ++
      [do return .constructor (← c.classEntry cls) (← c.constructor cls (← c.typesOf scope args))]
  | .binary _ left right => c.uses scope left ++ c.uses scope right
  | .unary _ operand => c.uses scope operand

/-- The members that expressions use. -/
def usesAll (c : Context) (scope : Scope) : List Expr → List (Except Diagnostic MemberUse)
  | [] => []
  | e :: rest => c.uses scope e ++ c.usesAll scope rest

end

/-! ## Folding -/

theorem uses_foldedBinary (op : BinaryOp) (left right : Expr) :
    c.uses scope (Expr.foldedBinary op left right) = c.uses scope left ++ c.uses scope right := by
  unfold Expr.foldedBinary
  split
  · split <;> rfl
  · rfl

theorem uses_foldedUnary (op : UnaryOp) (e : Expr) : c.uses scope (Expr.foldedUnary op e) = c.uses scope e := by
  unfold Expr.foldedUnary
  split
  · split <;> rfl
  · rfl

mutual

/-- Folding keeps the members that an expression uses. -/
theorem uses_fold : ∀ e : Expr, c.uses scope e.fold = c.uses scope e
  | .lit _ | .this | .outer | .var _ => rfl
  | .field target name => by rw [Expr.fold, uses, uses, uses_fold target, typeOf_fold_eq]
  | .assign target value => by rw [Expr.fold, uses, uses, uses_fold target, uses_fold value]
  | .call receiver name args => by
    rw [Expr.fold, uses, uses, uses_fold receiver, usesAll_fold args, typeOf_fold_eq, typesOf_fold_eq]
  | .staticCall cls name args => by rw [Expr.fold, uses, uses, usesAll_fold args, typesOf_fold_eq]
  | .new cls args => by rw [Expr.fold, uses, uses, usesAll_fold args, typesOf_fold_eq]
  | .binary op left right => by rw [Expr.fold, uses_foldedBinary, uses, uses_fold left, uses_fold right]
  | .unary op e => by rw [Expr.fold, uses_foldedUnary, uses, uses_fold e]

theorem usesAll_fold : ∀ es : List Expr, c.usesAll scope (Expr.foldAll es) = c.usesAll scope es
  | [] => rfl
  | e :: rest => by rw [Expr.foldAll, usesAll, usesAll, uses_fold e, usesAll_fold rest]

end

end Context

/-! ## Code -/

/-- The member that an instruction names. -/
def Instr.member? (cs : Constants) : Instr → Option MemberRef
  | .field _ i => cs.fieldRef? i
  | .invoke _ i => cs.methodRef? i
  | _ => none

/-- The members that a block names, in the order of its instructions. -/
def Block.members (cs : Constants) (b : Block) : List MemberRef := b.instrs.toList.filterMap (Instr.member? cs)

section Members

variable {cs : Constants}

namespace Block

theorem members_one (i : Instr) : (one i).members cs = (i.member? cs).toList := by
  cases h : i.member? cs <;> simp [members, one, h]

@[simp] theorem members_append (a b : Block) : (a ++ b).members cs = a.members cs ++ b.members cs := by
  change (a.instrs ++ b.instrs).toList.filterMap _ = _
  rw [Array.toList_append, List.filterMap_append]
  rfl

@[simp] theorem members_jump (n : Nat) : (jumpBy .jump n).members cs = [] := by
  unfold jumpBy
  split <;> rfl

@[simp] theorem members_jumpIfFalse (n : Nat) : (jumpBy .jumpIfFalse n).members cs = [] := by
  unfold jumpBy
  split <;> rfl

end Block

@[simp] theorem members_loadThis : loadThis.members cs = [] := rfl

@[simp] theorem members_widenTo (t : Ty) (r : Block × Ty) : (widenTo t r).members cs = r.1.members cs := by
  obtain ⟨code, source⟩ := r
  rw [widenTo]
  split <;> simp [Block.members_one, Instr.member?]

@[simp] theorem members_shortCircuit (op : BinaryOp) (a b : Block) :
    (shortCircuit op a b).members cs = a.members cs ++ b.members cs := by
  unfold shortCircuit
  split
  · simp [Block.both, Block.ifElse, Block.members_one, Instr.member?]
  · simp [Block.either, Block.ifElse, Block.members_one, Instr.member?]

end Members

/-- Every use is of a member that there is, and the block names just these members in this order. -/
def Names (c : Context) (cs : Constants) (uses : List (Except Diagnostic MemberUse)) (code : Block) : Prop :=
  ∃ us : List MemberUse, uses = us.map .ok ∧ code.members cs = us.map (·.ref c)

namespace Names

variable {c : Context} {cs : Constants} {us vs : List (Except Diagnostic MemberUse)} {a b : Block}

theorem nil (h : a.members cs = []) : Names c cs [] a := ⟨[], rfl, h⟩

theorem one {i : Instr} {u : MemberUse} (h : i.member? cs = some (u.ref c)) : Names c cs [.ok u] (.one i) :=
  ⟨[u], rfl, by rw [Block.members_one, h]; rfl⟩

theorem append (ha : Names c cs us a) (hb : Names c cs vs b) : Names c cs (us ++ vs) (a ++ b) := by
  obtain ⟨xs, rfl, hxs⟩ := ha
  obtain ⟨ys, rfl, hys⟩ := hb
  exact ⟨xs ++ ys, List.map_append.symm, by rw [Block.members_append, hxs, hys, List.map_append]⟩

/-- Code that names no members besides may be added. -/
theorem congr (ha : Names c cs us a) (h : b.members cs = a.members cs) : Names c cs us b := by
  obtain ⟨xs, hus, hxs⟩ := ha
  exact ⟨xs, hus, h.trans hxs⟩

end Names

namespace Typed

variable {cs : Constants}

section Instructions

variable (c : Context)

theorem literal_names (l : Literal) : Gen.Makes (fun _ => True) cs (c.literal l) (Names c cs []) := by
  cases l with
  | null | bool _ => exact .pure (.nil rfl)
  | int n => exact .pushInt trivial (fun _ => .nil rfl) (fun _ => .nil rfl) fun _ _ => .nil rfl
  | long n => exact .instr (.long n) (fun _ => rfl) trivial fun _ _ => .nil rfl
  | double d => exact .instr (.double d) (fun _ => rfl) trivial fun _ _ => .nil rfl
  | str s =>
    rw [Context.literal]
    split
    · exact .instr (.string s) (fun _ => rfl) trivial fun _ _ => .nil rfl
    · exact .throw

theorem accessField_names (access : FieldAccess) (f : FieldEntry) :
    Gen.Makes (fun _ => True) cs (accessField access f) (Names c cs [.ok (.field f)]) :=
  .instr (.field f.ref) (fun _ => rfl) trivial fun _ hi => .one hi

theorem storeField_names (keep : Bool) (f : FieldEntry) :
    Gen.Makes (fun _ => True) cs (storeField keep f) (Names c cs [.ok (.field f)]) := by
  refine .bind (accessField_names c .put f) fun put => .pure fun hput => ?_
  cases keep with
  | false => exact hput
  | true => exact hput.congr (by rw [if_pos rfl, Block.members_append, Block.members_one]; rfl)

theorem invoke_names (kind : CallKind) (m : MethodEntry) :
    Gen.Makes (fun _ => True) cs (invoke kind m) (Names c cs [.ok (.method m)]) :=
  .instr (.method m.ref) (fun _ => rfl) trivial fun _ hi => .one hi

theorem loadOuter_names (t : Ty) :
    Gen.Makes (fun _ => True) cs (loadOuter c t) (Names c cs [.ok (.outer t)]) :=
  .bind (.instr (.field (MemberUse.ref c (.outer t))) (fun _ => rfl) trivial fun _ hi => Names.one (u := .outer t) hi) fun _ =>
    .pure fun hcode => (Names.nil members_loadThis).append hcode

end Instructions

variable {c : Context} {scope : Scope}

/-- The code that pushes the outer instance of a new instance names what is used for it, and the outer instance is the first
parameter of the constructors. -/
theorem newOuter_names {e : ClassEntry} {n : Name} (he : c.registry.get? n = some e) :
    Gen.Makes (fun _ => True) cs (newOuter c e) fun r => Names c cs (c.outerUses n) r.1 ∧ r.2 = e.outerTypes := by
  unfold newOuter Context.outerUses ClassEntry.outerTypes
  simp only [he]
  cases hinner : e.isInner with
  | false => exact .pure ⟨.nil rfl, rfl⟩
  | true =>
    refine .ofExcept_bind fun source hsource => ?_
    simp only [hsource, if_true]
    obtain ⟨-, enclosing, -, ⟨rfl, -⟩ | ⟨rfl, own, hown, -⟩⟩ := Context.outerInstance_eq_ok hsource
    · exact .pure ⟨.nil members_loadThis, rfl⟩
    · simp only [hown]
      exact .bind (loadOuter_names c (.ref own)) fun code => .pure fun hcode => ⟨hcode, rfl⟩

theorem nameUses_of_slot {name : String} {v : Local} (h : c.lookupVar scope name = .ok (.slot v)) :
    c.nameUses scope name = [] := by rw [Context.nameUses, h]

theorem nameUses_of_field {name : String} {f : FieldEntry} (h : c.lookupVar scope name = .ok (.field f)) :
    c.nameUses scope name = [.ok (.field f)] := by rw [Context.nameUses, h]

mutual

/-- The code of an expression that has a type names the members that the expression uses. -/
theorem expr_names (keep : Bool) : ∀ {e : Expr} {t : Ty}, c.typeOf scope e = .ok t →
    Gen.Makes (fun _ => True) cs (expr c scope keep e) fun r => Names c cs (c.uses scope e) r.1
  | .lit l, _, _ => by
    rw [expr, Context.uses]
    exact .bind (literal_names c l) fun code => .pure id
  | .var name, _, _ => by
    rw [expr, Context.uses]
    refine .ofExcept_bind fun target htarget => ?_
    cases target with
    | slot v =>
      rw [nameUses_of_slot htarget]
      exact .pure (.nil rfl)
    | field f =>
      rw [nameUses_of_field htarget]
      exact .bind (accessField_names c .get f) fun code => .pure fun hcode => (Names.nil members_loadThis).append hcode
  | .this, _, _ => by
    rw [expr, Context.uses]
    exact .ofExcept_bind fun _ _ => .pure (.nil members_loadThis)
  | .outer, _, _ => by
    rw [expr, Context.uses]
    refine .ofExcept_bind fun t ht => ?_
    rw [ht]
    exact .bind (loadOuter_names c t) fun code => .pure id
  | .field target name, _, h => by
    obtain ⟨t, f, ht, hf, rfl⟩ := Context.typeOf_field_eq_ok h
    rw [expr, Context.uses, ht]
    refine .bind_of (expr_yields true ht) (expr_names true ht) fun r hr => .ofExcept_bind fun f' hf' => ?_
    rw [Expr.kept_true] at hr
    rw [hr] at hf'
    refine .bind (accessField_names c .get f') fun code => .pure fun hcode htarget => htarget.append ?_
    change Names c cs [c.field t name >>= _] code
    rw [hf']
    exact hcode
  | .assign (.var name) value, _, h => by
    obtain ⟨-, -, v, hv, -⟩ := Context.typeOf_assign_eq_ok h
    rw [expr, Context.uses, Context.uses]
    refine .ofExcept_bind fun target htarget => ?_
    cases target with
    | slot l =>
      rw [nameUses_of_slot htarget]
      refine .bind (expr_names true hv) fun r => .pure fun hvalue => ?_
      rw [List.getLast?_nil, List.dropLast_nil, List.nil_append, Option.toList_none, List.append_nil]
      refine hvalue.congr ?_
      cases keep <;> simp [Block.members_one, Instr.member?]
    | field f =>
      rw [nameUses_of_field htarget]
      refine .bind (expr_names true hv) fun r => .bind (storeField_names c keep f) fun put => ?_
      refine .pure fun hput hvalue => ?_
      exact ((Names.nil members_loadThis).append (hvalue.congr (members_widenTo _ _))).append hput
  | .assign (.field object name) value, _, h => by
    obtain ⟨-, ht, v, hv, -⟩ := Context.typeOf_assign_eq_ok h
    obtain ⟨t, f, hobject, hf, rfl⟩ := Context.typeOf_field_eq_ok ht
    rw [expr, Context.uses, Context.uses, hobject, List.dropLast_concat, List.getLast?_concat]
    refine .ofExcept_bind fun _ _ => .bind_of (expr_yields true hobject) (expr_names true hobject) fun target htarget => ?_
    rw [Expr.kept_true] at htarget
    obtain ⟨target, u⟩ := target
    cases htarget
    refine .ofExcept_bind fun f' hf' => .bind (expr_names true hv) fun r => ?_
    refine .bind (storeField_names c keep f') fun put => .pure fun hput hvalue hcode => ?_
    refine (hcode.append (hvalue.congr (members_widenTo _ _))).append ?_
    change Names c cs [c.field u name >>= _] put
    rw [hf']
    exact hput
  | .assign (.lit _) _, _, h | .assign .this _, _, h | .assign .outer _, _, h | .assign (.assign ..) _, _, h
  | .assign (.call ..) _, _, h | .assign (.staticCall ..) _, _, h | .assign (.new ..) _, _, h
  | .assign (.binary ..) _, _, h | .assign (.unary ..) _, _, h => nomatch (Context.typeOf_assign_eq_ok h).1
  | .call receiver name args, _, h => by
    obtain ⟨r, ts, m, hr, hts, hm, rfl⟩ := Context.typeOf_call_eq_ok h
    obtain ⟨-, -, -, -, -, hpasses⟩ := Context.method_eq_ok hm
    have hlength := (length_typesOf hts).trans hpasses.length_eq
    have huse : c.uses scope (.call receiver name args) =
        c.uses scope receiver ++ c.usesAll scope args ++ [.ok (.method m)] := by
      rw [Context.uses, hr, hts]
      change _ ++ [c.method r name ts >>= _] = _
      rw [hm]
      rfl
    rw [expr, huse, hr, hts]
    refine .ofExcept_bind fun r' hr' => .ofExcept_bind fun ts' hts' => ?_
    cases hr'
    cases hts'
    rw [hm]
    refine .ofExcept_bind fun m' hm' => ?_
    cases hm'
    refine .bind (expr_names true hr) fun target => ?_
    dsimp only
    split
    · refine .bind (exprs_names hts hlength .empty) fun pushed => .bind (invoke_names c .static m) fun call => ?_
      refine .pure fun hcall hpushed htarget => ((htarget.congr ?_).append (hpushed (.nil rfl))).append hcall
      simp [Block.members_one, Instr.member?]
    · refine .bind (exprs_names hts hlength .empty) fun pushed => .bind (invoke_names c .virtual m) fun call => ?_
      exact .pure fun hcall hpushed htarget => (htarget.append (hpushed (.nil rfl))).append hcall
  | .staticCall cls name args, _, h => by
    obtain ⟨ts, m, hts, hm, rfl⟩ := Context.typeOf_staticCall_eq_ok h
    obtain ⟨-, -, hpasses⟩ := Context.staticMethod_eq_ok hm
    have huse : c.uses scope (.staticCall cls name args) = c.usesAll scope args ++ [.ok (.method m)] := by
      rw [Context.uses, hts]
      change _ ++ [c.staticMethod cls name ts >>= _] = _
      rw [hm]
      rfl
    rw [expr, huse, hts]
    refine .ofExcept_bind fun ts' hts' => ?_
    cases hts'
    rw [hm]
    refine .ofExcept_bind fun m' hm' => ?_
    cases hm'
    refine .bind (exprs_names hts ((length_typesOf hts).trans hpasses.length_eq) .empty) fun pushed => ?_
    exact .bind (invoke_names c .static m) fun call => .pure fun hcall hpushed => (hpushed (.nil rfl)).append hcall
  | .new cls args, _, h => by
    obtain ⟨ts, k, hts, hk, rfl⟩ := Context.typeOf_new_eq_ok h
    obtain ⟨e, he, -, -, -, hpasses⟩ := Context.constructor_eq_ok hk
    have hentry := Context.classEntry_eq_ok.2 he
    obtain rfl := (Registry.get?_eq_some he).2
    have huse : c.uses scope (.new e.name args) =
        c.outerUses e.name ++ c.usesAll scope args ++ [.ok (.constructor e k)] := by
      rw [Context.uses, hts, hentry]
      change _ ++ [c.constructor e.name ts >>= _] = _
      rw [hk]
      rfl
    rw [expr, huse, hts]
    refine .ofExcept_bind fun ts' hts' => ?_
    cases hts'
    rw [hk, hentry]
    refine .ofExcept_bind fun k' hk' => .ofExcept_bind fun e' he' => ?_
    cases hk'
    cases he'
    have hnew : Gen.Makes (fun _ => True) cs (Gen.instr (·.newObject e.name.text)) fun code => code.members cs = [] :=
      .instr (.cls e.name.text) (fun _ => rfl) trivial fun _ _ => rfl
    refine .bind hnew fun new => .bind (newOuter_names he) fun outer => ?_
    refine .bind (exprs_names hts ((length_typesOf hts).trans hpasses.length_eq) .empty) fun pushed => ?_
    have hcall : Gen.Makes (fun _ => True) cs (invokeConstructor e.name (outer.2 ++ k.params))
        fun call => outer.2 = e.outerTypes → Names c cs [.ok (.constructor e k)] call := by
      refine .instr (.method ⟨e.name.text, constructorName, (Signature.mk (outer.2 ++ k.params) .void).descriptor⟩)
        (fun _ => rfl) trivial fun i hi hparams => .one ?_
      rw [hparams] at hi
      exact hi
    refine .bind hcall fun call => .pure fun hcall hpushed houter hnew => ?_
    refine Names.append (Names.append (houter.1.congr ?_) (hpushed (.nil rfl))) (hcall houter.2)
    simp [hnew, Block.members_one, Instr.member?]
  | .binary op left right, _, h => by
    obtain ⟨l, r, bt, hl, hr, hbt, rfl⟩ := Context.typeOf_binary_eq_ok h
    rw [expr, Context.uses]
    split
    · refine .bind (expr_names true hl) fun a => .bind (expr_names true hr) fun b => .pure fun hb ha => ?_
      exact (ha.append hb).congr (by simp)
    · rename_i i hop
      refine .ofExcept_bind fun _ _ => .ofExcept_bind fun _ _ => .ofExcept_bind fun t _ => ?_
      refine .bind (expr_names true hl) fun a => .bind (expr_names true hr) fun b => .pure fun hb ha => ?_
      have hi : (if t.isConcat then Instr.concat else i).member? cs = none := by
        split
        · rfl
        · cases op <;> cases hop <;> rfl
      refine (ha.append hb).congr ?_
      cases t.operand <;> simp [Block.members_one, hi]
  | .unary op operand, _, h => by
    obtain ⟨t, ht, -⟩ := Context.typeOf_unary_eq_ok h
    rw [expr, Context.uses]
    refine .bind (expr_names true ht) fun r => .ofExcept_bind fun _ _ => .pure fun hr => hr.congr ?_
    cases op <;> simp [Block.members_one, UnaryOp.instr, Instr.member?]

/-- The code of arguments names the members that the arguments use, behind those that the code before it names. -/
theorem exprs_names : ∀ {es : List Expr} {ts ps : List Ty}, c.typesOf scope es = .ok ts → es.length = ps.length →
    ∀ done : Block, Gen.Makes (fun _ => True) cs (exprs c scope es ps done) fun code =>
      ∀ {us}, Names c cs us done → Names c cs (us ++ c.usesAll scope es) code
  | [], _, ps, _, _, done => by
    rw [exprs, Context.usesAll]
    · exact .pure fun h => by rwa [List.append_nil]
    · simp
  | e :: rest, _, p :: ps, h, hlength, done => by
    obtain ⟨t, ts, ht, hts, rfl⟩ := Context.typesOf_cons_eq_ok h
    rw [exprs, Context.usesAll]
    refine .bind (expr_names true ht) fun r => ?_
    refine (exprs_names hts (Nat.succ.inj hlength) _).mono fun code hcode hr us hdone => ?_
    rw [← List.append_assoc]
    exact hcode (hdone.append (hr.congr (members_widenTo _ _)))

end

end Typed

/-! ## Types and members of folded expressions -/

/-- Folding keeps the type of every expression, or the finding for which it has none, as well as the members that it uses. If
it has a type, the code of the folded expression names just the members that the expression uses as it was written. -/
theorem Context.fold_keeps_choices (c : Context) (scope : Scope) (e : Expr) :
    c.typeOf scope e.fold = c.typeOf scope e ∧ c.uses scope e.fold = c.uses scope e ∧
      ∀ t, c.typeOf scope e = .ok t → ∀ keep p code s q cs,
        Typed.expr c scope keep e.fold p = .ok (code, s) q → q.Within cs → Names c cs (c.uses scope e) code := by
  refine ⟨typeOf_fold_eq e, uses_fold e, fun t ht keep p code s q cs hcode hq => ?_⟩
  have hmakes : Gen.Makes (fun _ => True) cs (Typed.expr c scope keep e.fold) fun r => Names c cs (c.uses scope e.fold) r.1 :=
    Typed.expr_names keep ((typeOf_fold_eq e).trans ht)
  have hnames := hmakes p (code, s) q hcode
  rw [uses_fold] at hnames
  exact hnames.2 hq

namespace Metering

def meterName : Name := .ofPath ["Meter"] (Eq.refl true)

/-- The method of the class `Meter` that takes a number of the given type. -/
def read (t : Ty) : MethodEntry where
  owner := meterName
  name := "read"
  modifiers := .pub
  params := [t]
  ret := t

def meter : ClassEntry where
  name := meterName
  modifiers := .pub
  methods := [read .int, read .long]

/-- In a method of a class with two methods `read`. -/
def context : Context := ⟨⟨[meter]⟩, meter, "total", false, .int⟩

/-- The call `read(3 - 2)`. -/
def call : Expr := .call .this "read" [.binary .sub (.lit (.int 3)) (.lit (.int 2))]

theorem expr_affords : Gen.Affords 5 (Typed.expr context .ofInstance true call.fold) fun _ => True := by
  have hfold : call.fold = .call .this "read" [.lit (.int 1)] := rfl
  have hthis : context.typeOf .ofInstance .this = .ok (.ref meterName) := rfl
  have hargs : context.typesOf .ofInstance [.lit (.int 1)] = .ok [.int] := rfl
  have hread : context.method (.ref meterName) "read" [.int] = .ok (read .int) := by decide
  have htarget : Typed.expr context .ofInstance true .this = pure (loadThis, .ref meterName) := rfl
  have hpushed : Typed.exprs context .ofInstance [.lit (.int 1)] (read .int).params .empty = pure (.one (.push .one)) := rfl
  have hok : ∀ {α : Type} (a : α), Gen.ofExcept (.ok a) = pure a := fun _ => rfl
  have hcall : Gen.Affords 5 (Typed.invoke .virtual (read .int)) fun code => ∃ i, code = .one (.invoke .virtual i) :=
    .instr (i := .method (read .int).ref) (.invoke .virtual) (by decide)
  rw [hfold, Typed.expr, htarget]
  simp only [hthis, hargs, hok, pure_bind, hread, hpushed, show (read .int).isStatic = false from rfl]
  exact hcall.bind fun _ _ => .pure trivial

end Metering

theorem Context.fold_keeps_choices_meter : ∃ code s q,
    Metering.context.typeOf .ofInstance Metering.call = .ok .int ∧
      Typed.expr Metering.context .ofInstance true Metering.call.fold .empty = .ok (code, s) q ∧
      q.Within q.constants ∧
      Names Metering.context q.constants (Metering.context.uses .ofInstance Metering.call) code := by
  have ht : Metering.context.typeOf .ofInstance Metering.call = .ok .int := by decide
  obtain ⟨⟨code, s⟩, q, hcode, hroom, -⟩ := Metering.expr_affords .empty 0 (Pool.room_empty (by decide))
  have hgrows := (Typed.expr_collects _ _ true _ _ _ _ hcode).grows
  have hq : q.Within q.constants := ⟨q, .refl q, hgrows.wellFormed Pool.wellFormed_empty, hroom.overflowed, rfl⟩
  exact ⟨code, s, q, ht, hcode, hq,
    (Context.fold_keeps_choices Metering.context .ofInstance Metering.call).2.2 .int ht true .empty code s q _ hcode hq⟩

end ClassTree
